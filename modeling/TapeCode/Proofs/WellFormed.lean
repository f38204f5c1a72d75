import TapeCode.Proofs.Block.Course
import TapeCode.Proofs.Derivation

/-!
# Well-formed programs

`Program.WellFormed` collects what the machine and the optimizer rely on: jumps are linked in
pairs, the pairs are nested, unresolved starts stand outside of all pairs, and the body of a
counted loop brings the data pointer and the cell under it back. Every program that comes from a
source by rules, sweeps and compactions is well-formed, and no compaction on the way breaks a
link.

`Program.Orderly` is less: unresolved starts may stand anywhere, and the body of a counted loop
need only bring the data pointer back.
-/

namespace TapeCode

namespace Program

/-- A resolved loop start and the slot that it designates. -/
def IsPair (p : Program) (kind : LoopKind) (i close : Nat) : Prop :=
  ∃ a, p[i]? = some a ∧ a.op = .opens kind ∧ a.target? = some close

/-- The jumps of a program are in order, and its counted loops bring the data pointer back. -/
structure Orderly (p : Program) : Prop where
  /-- A resolved jump designates an instruction of its partner opcode that designates it back. -/
  linked : ∀ (i : Nat) (x : Instruction) (target : Nat), p[i]? = some x → x.op.isJump = true →
    x.target? = some target → p.linked i target = true
  /-- A loop starts before it ends. -/
  ordered : ∀ kind i close, p.IsPair kind i close → i < close
  /-- A loop that starts inside another ends there. -/
  nested : ∀ kind kind' i j close close', p.IsPair kind i close →
    p.IsPair kind' j close' → i < j →
    j < close → close' < close
  /-- No loop end is unresolved. -/
  resolved : ∀ (kind : LoopKind) (i : Nat) (x : Instruction), p[i]? = some x →
    x.op = .closes kind → x.target? ≠ none
  /-- The body of a counted loop leaves the data pointer where it was. -/
  steady : ∀ i close, p.IsPair .counted i close → p.displacement? (i + 1) close = some 0

/-- The jumps of a program are in order, and its counted loops are safe. -/
structure WellFormed (p : Program) : Prop where
  /-- A resolved jump designates an instruction of its partner opcode that designates it back. -/
  linked : ∀ (i : Nat) (x : Instruction) (target : Nat), p[i]? = some x → x.op.isJump = true →
    x.target? = some target → p.linked i target = true
  /-- A loop starts before it ends. -/
  ordered : ∀ kind i close, p.IsPair kind i close → i < close
  /-- A loop that starts inside another ends there. -/
  nested : ∀ kind kind' i j close close', p.IsPair kind i close →
    p.IsPair kind' j close' → i < j →
    j < close → close' < close
  /-- No loop encloses an unresolved start. -/
  enclosed : ∀ (kind : LoopKind) (i j close : Nat) (x : Instruction),
    p.IsPair kind i close → i < j →
    j < close → p[j]? = some x → x.op.isOpen = true → x.target? ≠ none
  /-- No loop end is unresolved. -/
  resolved : ∀ (kind : LoopKind) (i : Nat) (x : Instruction), p[i]? = some x →
    x.op = .closes kind → x.target? ≠ none
  /-- The body of a counted loop leaves the data pointer and the cell under it as they were. -/
  counted : ∀ i close, p.IsPair .counted i close → p.displacement? (i + 1) close = some 0 ∧
    p.effect? (i + 1) close 0 = some .unchanged

/-- What is well-formed is orderly. -/
theorem WellFormed.orderly {p : Program} (h : p.WellFormed) : p.Orderly :=
  ⟨h.linked, h.ordered, h.nested, h.resolved, fun i close hpair => (h.counted i close hpair).1⟩

/-! ## What a layout says about its jumps -/

namespace Holds

variable {p : Program} {i stop : Nat} {block : Block}

/-- A jump without a target is a loop start, and its block is not closed. -/
theorem isOpen_of_target?_eq_none (h : p.Holds i block stop) {j : Nat} {x : Instruction}
    (hle : i ≤ j) (hlt : j < stop) (hx : p[j]? = some x) (hjump : x.op.isJump = true)
    (htarget : x.target? = none) : x.op.isOpen = true ∧ ¬ block.Closed := by
  induction h with
  | done => omega
  | @instr i stop y rest hy hyjump hrest ih =>
    rcases Nat.lt_or_eq_of_le hle with hlater | rfl
    · exact ih hlater hlt
    · obtain rfl := Option.some.inj (hx.symm.trans hy)
      rw [hjump] at hyjump
      cases hyjump
  | @loop i close stop kind body rest hloop hbody hrest ihBody ihRest =>
    rcases Nat.lt_or_eq_of_le hle with hlater | rfl
    · rcases Nat.lt_trichotomy j close with hin | rfl | hbehind
      · obtain ⟨hopen, hclosed⟩ := ihBody hlater hin
        exact ⟨hopen, fun h => hclosed h.1⟩
      · obtain ⟨b, hb, -, hbt⟩ := hloop.closes
        obtain rfl := Option.some.inj (hx.symm.trans hb)
        cases htarget.symm.trans hbt
      · obtain ⟨hopen, hclosed⟩ := ihRest hbehind hlt
        exact ⟨hopen, fun h => hclosed h.2⟩
    · obtain ⟨a, ha, -, hat⟩ := hloop.opens
      obtain rfl := Option.some.inj (hx.symm.trans ha)
      cases htarget.symm.trans hat
  | @stub i stop a kind rest ha haop hat hrest ih =>
    rcases Nat.lt_or_eq_of_le hle with hlater | rfl
    · obtain ⟨hopen, -⟩ := ih hlater hlt
      exact ⟨hopen, id⟩
    · obtain rfl := Option.some.inj (hx.symm.trans ha)
      exact ⟨by rw [haop]; rfl, id⟩

/-- The body of a pair. -/
theorem exists_body (h : p.Holds i block stop) {j close : Nat} {kind : LoopKind} (hle : i ≤ j)
    (hlt : j < stop) (hpair : p.IsPair kind j close) :
    j < close ∧ close < stop ∧ ∃ body : Block, p.Holds (j + 1) body close ∧
      (block.Tidy → body.Closed) ∧ (block.Safe → kind = .counted → body.Inert) ∧
      (block.Steady → kind = .counted → body.motion = some 0) := by
  obtain ⟨x, hx, hxop, hxt⟩ := hpair
  induction h with
  | done => omega
  | @instr i stop y rest hy hyjump hrest ih =>
    rcases Nat.lt_or_eq_of_le hle with hlater | rfl
    · exact ih hlater hlt
    · obtain rfl := Option.some.inj (hx.symm.trans hy)
      rw [hxop] at hyjump
      cases hyjump
  | @loop i close' stop kind' body rest hloop hbody hrest ihBody ihRest =>
    have hend := hrest.le
    rcases Nat.lt_or_eq_of_le hle with hlater | rfl
    · rcases Nat.lt_trichotomy j close' with hin | rfl | hbehind
      · obtain ⟨hopen, hclose, inner, hinner, hclosed, hinert, hmotion⟩ := ihBody hlater hin
        exact ⟨hopen, by omega, inner, hinner, fun h => hclosed h.1.tidy, fun h => hinert h.2.1,
          fun h => hmotion h.2.1⟩
      · obtain ⟨b, hb, hbop, -⟩ := hloop.closes
        obtain rfl := Option.some.inj (hx.symm.trans hb)
        cases hxop.symm.trans hbop
      · obtain ⟨hopen, hclose, inner, hinner, hclosed, hinert, hmotion⟩ := ihRest hbehind hlt
        exact ⟨hopen, hclose, inner, hinner, fun h => hclosed h.2, fun h => hinert h.2.2,
          fun h => hmotion h.2.2⟩
    · obtain ⟨a, ha, haop, hat⟩ := hloop.opens
      obtain rfl := Option.some.inj (hx.symm.trans ha)
      obtain rfl := Option.some.inj (hxt.symm.trans hat)
      cases hxop.symm.trans haop
      exact ⟨hbody.le, hend, body, hbody, fun h => h.1, fun h => h.1, fun h => h.1⟩
  | @stub i stop a kind' rest ha haop hat hrest ih =>
    rcases Nat.lt_or_eq_of_le hle with hlater | rfl
    · exact ih hlater hlt
    · obtain rfl := Option.some.inj (hx.symm.trans ha)
      cases hxt.symm.trans hat

/-- A program that is laid out as a block is orderly, if the bodies of its counted loops are known
to bring the data pointer back. -/
theorem orderly (h : p.Holds 0 block p.size) (hsteady : block.Steady) : p.Orderly := by
  have inside {j : Nat} {x : Instruction} (hx : p[j]? = some x) : j < p.size :=
    (Array.getElem?_eq_some_iff.1 hx).1
  have body {kind : LoopKind} {j close : Nat} (hpair : p.IsPair kind j close) :=
    h.exists_body (Nat.zero_le j) (inside hpair.choose_spec.1) hpair
  refine ⟨?_, ?_, ?_, ?_, ?_⟩
  · intro i x target hx hjump htarget
    exact h.linked_of_target? (Nat.zero_le i) (inside hx) hx hjump htarget
  · intro kind i close hpair
    exact (body hpair).1
  · intro kind kind' i j close close' hpair hpair' hij hj
    obtain ⟨-, -, block, hblock, -⟩ := body hpair
    exact (hblock.exists_body hij hj hpair').2.1
  · intro kind i x hx hclose hnone
    have hopen := (h.isOpen_of_target?_eq_none (Nat.zero_le i) (inside hx) hx
      (by rw [hclose]; rfl) hnone).1
    rw [hclose] at hopen
    cases hopen
  · intro i close hpair
    obtain ⟨-, -, block, hblock, -, -, hmotion⟩ := body hpair
    rw [displacement?_of_holds hblock]
    exact hmotion hsteady rfl

/-- A program that is laid out as a tidy and safe block is well-formed. -/
theorem wellFormed (h : p.Holds 0 block p.size) (hsafe : block.Safe) (htidy : block.Tidy) :
    p.WellFormed := by
  have horderly := h.orderly hsafe.steady
  have body {kind : LoopKind} {j close : Nat} (hpair : p.IsPair kind j close) :=
    h.exists_body (Nat.zero_le j) (Array.getElem?_eq_some_iff.1 hpair.choose_spec.1).1 hpair
  refine ⟨horderly.linked, horderly.ordered, horderly.nested, ?_, horderly.resolved, ?_⟩
  · intro kind i j close x hpair hij hj hx hopen hnone
    obtain ⟨-, -, block, hblock, hclosed, -⟩ := body hpair
    have hjump := Opcode.isJump_of_isOpen hopen
    exact (hblock.isOpen_of_target?_eq_none hij hj hx hjump hnone).2 (hclosed htidy)
  · intro i close hpair
    obtain ⟨-, -, block, hblock, -, hinert, -⟩ := body hpair
    rw [displacement?_of_holds hblock, effect?_of_holds hblock]
    exact hinert hsafe rfl

end Holds

end Program

/-- What is derived from a source shorter than `2 ^ 32` bytes is laid out as a tidy
and safe block. -/
theorem Program.Derives.exists_holds {source : List UInt8} (hlength : source.length < 2 ^ 32)
    {p : Program} (h : (parse source).program.Derives p) :
    ∃ block : Block, p.Holds 0 block p.size ∧ block.Safe ∧ block.Tidy := by
  obtain ⟨block, hholds, hfresh, hload⟩ := parse_holds hlength
  obtain ⟨block', hrewrites, hholds⟩ := h.exists_rewrites hholds
  exact ⟨block', hholds, hrewrites.safe hload hfresh.safe, hrewrites.tidy hfresh.tidy⟩

/-- Whatever rules, sweeps and compactions have made of a source shorter than `2 ^ 32` bytes is
well-formed, and compacting it breaks no link. -/
theorem wellFormed_of_derives {source : List UInt8} (hlength : source.length < 2 ^ 32)
    {p : Program} (h : (parse source).program.Derives p) :
    p.WellFormed ∧ p.compact.broken = [] := by
  obtain ⟨block, hholds, hsafe, htidy⟩ := h.exists_holds hlength
  exact ⟨hholds.wellFormed hsafe htidy, hholds.broken_compact⟩

/-- One pass over a program with a loop and a loop start without an end (`[->+<][+`). -/
theorem wellFormed_of_derives_of_pass :
    (parse [91, 45, 62, 43, 60, 93, 91, 43]).program.sweep.program.compact.program.WellFormed ∧
      ((parse [91, 45, 62, 43, 60, 93, 91, 43]).program.sweep.program.compact.program
        |>.compact.broken) = [] :=
  wellFormed_of_derives (by decide) (.compact (.sweep .refl))

end TapeCode
