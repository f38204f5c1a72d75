import TapeCode.Proofs.Compaction
import TapeCode.Proofs.Optimization
import TapeCode.Proofs.Orderly

/-!
# One rule at a time

Every application of a rule is correct by itself, at any index of any orderly program, whether a
sweep would come to apply it there or not: where the program completes its run the rewritten one
does so, too, and with the same result (`completed_rule`). It may take more steps, since vacant
slots take steps as long as they have not been compacted away.

`Machine.Completes` leaves the number of steps open. The vacant slots of a program have no bearing
on it (`Machine.completes_compact`), so that the courses of blocks tell it although they do not
count them.
-/

namespace TapeCode

/-- Vacant slots are not part of a course. -/
theorem Block.course_compact (block : Block) : block.compact.course = block.course := by
  induction block with
  | done => rfl
  | instr x rest ih =>
    rw [compact, course]
    split
    · rw [course, ih]
    · rename_i hvacant
      rw [Instruction.course_of_vacant (Bool.not_eq_true _ ▸ hvacant), Course.skip_seq, ih]
  | loop kind body rest ihBody ihRest => rw [compact, course, course, ihBody, ihRest]
  | stub kind rest ih => rw [compact, course, course, ih]

namespace Machine

variable {p q : Program} {m m' : Machine} {v : View} {F G : Course} {n steps : Nat}

/-- The machine comes to the end of the program without a fault, and shows this view once its
output is flushed. -/
def Completes (p : Program) (m : Machine) (v : View) : Prop :=
  ∃ k m', (stepper p).Stops k m m' ∧ m'.fault = none ∧ m'.view.flush = v

theorem Relocated.view_eq {f : Nat → Nat} (h : m.Relocated f m') : m'.view = m.view := by
  rw [view, view, h.dp, h.tape, h.input, h.output]

/-- A program completes its run if and only if its compaction does. -/
theorem completes_compact (hclean : p.compact.broken = []) (hstart : m.AtStart) :
    m.Completes p.compact.program v ↔ m.Completes p v := by
  have hrefines := refines_compact hclean
  constructor
  · rintro ⟨k, m', hstops, hfault, hview⟩
    obtain ⟨k', a, -, hstops', hrel⟩ := hrefines.of_stops (hstart.compacted p) hstops
    exact ⟨k', a, hstops', hrel.fault_eq_none_iff.1 hfault, hrel.view_eq ▸ hview⟩
  · rintro ⟨k, m', hstops, hfault, hview⟩
    obtain ⟨k', a, -, hstops', hrel⟩ := hrefines.stops (hstart.compacted p) hstops
    exact ⟨k', a, hstops', hrel.fault_eq_none_iff.2 hfault, hrel.view_eq ▸ hview⟩

/-! ## Complete runs -/

/-- A run that is complete has been flushed without a fault. -/
theorem flushFailure_of_completed (h : (m.run p n).2 = .completed steps) :
    m.output.flushFailure = none := by
  unfold run at h
  dsimp only at h
  split at h
  · cases h
  · split at h
    · cases h
    · rename_i hfault
      rw [← flushFailure_advance p (n - m.steps) m]
      exact (fault_eq_none_of_flush hfault).2

theorem completes_of_run (hsteps : m.steps = 0) (h : (m.run p n).2 = .completed steps) :
    m.Completes p (m.run p n).1.view := by
  obtain ⟨k, m', hle, hstops⟩ := exists_stops_of_run hsteps (by rw [h]; trivial)
  rw [run_of_stops hsteps hstops hle] at h ⊢
  cases hfault : m'.flush.fault with
  | some fault => rw [hfault] at h; cases h
  | none => exact ⟨k, m', hstops, (fault_eq_none_of_flush hfault).1, (view_flush m').symm⟩

theorem exists_run_of_completes (hsteps : m.steps = 0) (hflush : m.output.flushFailure = none)
    (h : m.Completes p v) :
    ∃ n steps, (m.run p n).2 = .completed steps ∧ (m.run p n).1.view = v := by
  obtain ⟨k, m', hstops, hfault, hview⟩ := h
  refine ⟨k, k, ?_⟩
  rw [run_of_stops_of_flush hsteps hflush hstops (Nat.le_refl k), hfault, view_flush]
  exact ⟨rfl, hview⟩

/-- A program whose course trails that of another one completes its run only if the
other one does. -/
theorem Completes.of_trails (h : m.Completes p v) (hF : p.Tracks F) (hG : q.Tracks G)
    (htrails : Course.Trails 0 0 F G) (hstart : m.AtStart)
    (hflush : m.output.flushFailure = none) : m.Completes q v := by
  obtain ⟨n, steps, hrun, rfl⟩ := exists_run_of_completes hstart.steps hflush h
  obtain ⟨hview, hends⟩ := hF.runsAs n m hstart.ip hstart.steps hstart.fault hflush
  obtain ⟨hview', hends'⟩ := hG.runsAs n m hstart.ip hstart.steps hstart.fault hflush
  rw [hrun] at hends
  obtain ⟨hsame, steps', hrun', -⟩ := (htrails.run n m.view).completed hends hends'
  rw [hview, hsame, ← hview']
  exact completes_of_run hstart.steps hrun'

end Machine

/-- Where a rule applies to an orderly program whose motions count less than `2 ^ 32` in all, the
rewritten program completes its run if the program does, and with the same result. -/
theorem completed_rule {p q : Program} (horderly : p.Orderly) (hload : p.motionLoad < 2 ^ 32)
    {rule : Rule} {i : Nat} (hrule : rule.applyAt? p i = some q) {m : Machine}
    (hstart : m.AtStart) {budget steps : Nat} (h : (m.run p budget).2 = .completed steps) :
    ∃ budget' steps', (m.run q budget').2 = .completed steps' ∧
      (m.run p budget).1.Agrees (m.run q budget').1 := by
  obtain ⟨block, hholds, hsteady⟩ := Program.orderly_iff.1 horderly
  obtain ⟨block', hrewrite, hholds'⟩ := Rule.exists_rewrite_of_applyAt? hholds hrule
  have htrails : Course.Trails 0 0 block.compact.course block'.compact.course := by
    rw [block.course_compact, block'.course_compact]
    exact hrewrite.trails hsteady (Nat.lt_of_le_of_lt hholds.load_le hload)
  have hflush := Machine.flushFailure_of_completed h
  have hcompact : m.Completes p.compact.program (m.run p budget).1.view :=
    (Machine.completes_compact hholds.broken_compact hstart).2
      (Machine.completes_of_run hstart.steps h)
  have hcompact' : m.Completes q.compact.program (m.run p budget).1.view :=
    hcompact.of_trails (hholds.compact_program.tracks block.solid_compact)
      (hholds'.compact_program.tracks block'.solid_compact) htrails hstart hflush
  obtain ⟨budget', steps', hrun, hview⟩ := Machine.exists_run_of_completes hstart.steps hflush
    ((Machine.completes_compact hholds'.broken_compact hstart).1 hcompact')
  exact ⟨budget', steps', hrun, Machine.agrees_of_view hview.symm⟩

/-- A loop with vacant slots before and inside it, and then a loop start without an end. -/
def Program.gapped : Program :=
  #[.nop, { op := .opens .tested, arg := 6 }, { op := .sub .here, arg := 1 }, .nop,
    { op := .add (.aside .right), arg := 1, dist := 1 }, .nop,
    { op := .closes .tested, arg := 1 }, { op := .opens .tested, arg := Instruction.unresolved }]

/-- The loop becomes a counted one. -/
theorem completed_rule_of_gapped : ∃ q, Rule.safeWhile.applyAt? Program.gapped 1 = some q ∧
    ∃ budget steps, (Machine.run q budget { tape := ⟨#[2, 0], false⟩ }).2 = .completed steps ∧
      (Machine.run Program.gapped 20 { tape := ⟨#[2, 0], false⟩ }).1.Agrees
        (Machine.run q budget { tape := ⟨#[2, 0], false⟩ }).1 := by
  have hholds : Program.gapped.Holds 0 _ Program.gapped.size :=
    .instr rfl rfl (.loop ⟨⟨_, rfl, rfl, rfl⟩, _, rfl, rfl, rfl⟩
      (.instr rfl rfl (.instr rfl rfl (.instr rfl rfl (.instr rfl rfl .done))))
      (.stub rfl rfl rfl .done))
  have horderly : Program.gapped.Orderly := hholds.orderly (by simp [Block.Steady])
  have hrun : (Machine.run Program.gapped 20 { tape := ⟨#[2, 0], false⟩ }).2 = .completed 13 := by
    decide
  obtain ⟨q, hq⟩ : ∃ q, Rule.safeWhile.applyAt? Program.gapped 1 = some q :=
    Option.isSome_iff_exists.1 (by decide +kernel)
  exact ⟨q, hq, completed_rule horderly (by decide) hq ⟨rfl, rfl, rfl⟩ hrun⟩

end TapeCode
