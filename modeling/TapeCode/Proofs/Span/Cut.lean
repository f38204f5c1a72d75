import TapeCode.Proofs.Span
import TapeCode.Proofs.Span.Append

/-!
# Spans that take a loop apart

A span that starts a loop and does not end it is given up by all three analyses: no loop of the
span leads past the start that is left alone, so each of the walks comes to it or has given up
before (`Program.Strides.not_losesEnd`).

A span that ends a loop and does not start it is not given up. The walks pass over the loop end as
if the machine always went on there, and answer what the parts before and behind it make together
(`analyses_of_cut`). But the machine may go back to a slot of the span, so that the answer can be
wrong (`not_unknown_of_losesStart`).
-/

namespace TapeCode

namespace Program

/-- The jumps of a program are linked in nested pairs, and no pair encloses
an unresolved start. -/
structure Paired (p : Program) : Prop where
  /-- A resolved jump designates an instruction of its partner opcode that designates it back. -/
  linked : ∀ (i : Nat) (x : Instruction) (target : Nat), p[i]? = some x → x.op.isJump = true →
    x.target? = some target → p.linked i target = true
  /-- A loop starts before it ends. -/
  ordered : ∀ kind i close, p.IsPair kind i close → i < close
  /-- A loop that starts inside another ends there. -/
  nested : ∀ kind kind' i j close close', p.IsPair kind i close →
    p.IsPair kind' j close' → i < j →
    j < close → close' < close
  /-- No loop encloses an unresolved start. -/
  enclosed : ∀ (kind : LoopKind) (i j close : Nat) (x : Instruction),
    p.IsPair kind i close → i < j →
    j < close → p[j]? = some x → x.op.isOpen = true → x.target? ≠ none
  /-- No loop end is unresolved. -/
  resolved : ∀ (kind : LoopKind) (i : Nat) (x : Instruction), p[i]? = some x →
    x.op = .closes kind → x.target? ≠ none

theorem WellFormed.paired {p : Program} (h : p.WellFormed) : p.Paired :=
  ⟨h.linked, h.ordered, h.nested, h.enclosed, h.resolved⟩

/-- A loop starts in the span and does not end there. -/
def LosesEnd (p : Program) (start stop : Nat) : Prop :=
  ∃ (i : Nat) (x : Instruction), start ≤ i ∧ i < stop ∧ p[i]? = some x ∧ x.op.isOpen = true ∧
    ∀ close, x.target? = some close → stop ≤ close

/-- A loop ends in the span and starts before it. -/
def LosesStart (p : Program) (start stop : Nat) : Prop :=
  ∃ kind first close, p.IsPair kind first close ∧ first < start ∧ start ≤ close ∧ close < stop

/-- No analysis knows what the span does to the cell. -/
structure Unknown (p : Program) (start stop : Nat) (target : Int64) : Prop where
  displacement : p.displacement? start stop = none
  effect : p.effect? start stop target = none
  observes : p.observes start stop target = true

variable {p : Program} {i close stop : Nat} {x : Instruction} {kind : LoopKind} {target : Int64}

/-- Where the displacement is unknown, everything is. -/
theorem unknown_iff {start : Nat} :
    p.Unknown start stop target ↔ p.displacement? start stop = none := by
  refine ⟨fun h => h.displacement, fun h => ⟨h, ?_, ?_⟩⟩
  · refine Option.eq_none_iff_forall_ne_some.2 fun effect heffect => ?_
    obtain ⟨moved, hmoved⟩ := exists_displacementFrom heffect 0
    rw [displacement?, hmoved] at h
    cases h
  · refine Bool.not_eq_false _ ▸ fun hunseen => ?_
    obtain ⟨moved, hmoved⟩ := exists_displacement_of_observes hunseen
    rw [hmoved] at h
    cases h

/-- A pair is a loop. -/
theorem Paired.isLoop {first : Nat} (h : p.Paired) (hpair : p.IsPair kind first close) :
    p.IsLoop first close kind := by
  obtain ⟨a, ha, haop, hat⟩ := hpair
  exact .of_linked (h.linked first a close ha (by rw [haop]; rfl) hat) ha haop

/-- The displacement is unknown if no walk keeps track. -/
theorem displacement?_of_not_strides {start : Nat} (h : ∀ moved, ¬ p.Strides stop start moved)
    (hle : start ≤ stop) : p.displacement? start stop = none :=
  Option.eq_none_iff_forall_ne_some.2 fun moved hmoved =>
    h moved (strides_of_displacement? hmoved hle)

/-! ## Loops without their end -/

/-- The start that is left alone does not stand inside a loop of the span. -/
theorem Paired.lt_of_isLoop (hpaired : p.Paired) {start : Nat} (hloop : p.IsLoop start close kind)
    (hclose : close < stop) (hle : start ≤ i) (hx : p[i]? = some x) (hopen : x.op.isOpen = true)
    (htarget : ∀ close, x.target? = some close → stop ≤ close) : close < i := by
  have hpair := hloop.isPair
  obtain ⟨a, ha, -, hat⟩ := hloop.opens
  obtain ⟨b, hb, hbop, -⟩ := hloop.closes
  rcases Nat.lt_or_eq_of_le hle with hlater | rfl
  · rcases Nat.lt_trichotomy i close with hin | rfl | hbehind
    · obtain ⟨close', hclose'⟩ :=
        Option.ne_none_iff_exists'.1 (hpaired.enclosed _ _ _ _ x hpair hlater hin hx hopen)
      obtain ⟨kind', hop⟩ := Opcode.exists_opens hopen
      have hends := hpaired.nested _ _ _ _ _ _ hpair ⟨x, hx, hop, hclose'⟩ hlater hin
      have hleaves := htarget close' hclose'
      omega
    · obtain rfl := Option.some.inj (hx.symm.trans hb)
      rw [hbop] at hopen
      cases hopen
    · exact hbehind
  · obtain rfl := Option.some.inj (hx.symm.trans ha)
    exact absurd hclose (Nat.not_lt.2 (htarget close hat))

/-- A walk that keeps track loses no end of a loop. -/
theorem Strides.not_losesEnd {start : Nat} {moved : Int64} (h : p.Strides stop start moved)
    (hpaired : p.Paired) : ¬ p.LosesEnd start stop := by
  rintro ⟨i, x, hle, hi, hx, hopen, htarget⟩
  induction h with
  | arrived => omega
  | slot hlt hy hyopen _ ih =>
    rcases Nat.lt_or_eq_of_le hle with hlater | rfl
    · exact ih hlater
    · obtain rfl := Option.some.inj (hx.symm.trans hy)
      rw [hopen] at hyopen
      cases hyopen
  | loop hlt hy hop hfound _ _ ih =>
    have hloop := isLoop_of_closeOf? hfound hy hop
    exact ih (hpaired.lt_of_isLoop hloop (closeOf?_bounds hfound).2 hle hx hopen htarget)

/-- A span that loses the end of a loop has no known displacement. -/
theorem LosesEnd.displacement?_eq_none {start : Nat} (h : p.LosesEnd start stop)
    (hpaired : p.Paired) : p.displacement? start stop = none := by
  have hle : start ≤ stop := by
    obtain ⟨i, -, hle, hi, -⟩ := h
    omega
  exact displacement?_of_not_strides (fun moved hstrides => hstrides.not_losesEnd hpaired h) hle

/-! ## Loops without their start -/

theorem displacement?_of_closes (hlt : i < stop) (hx : p[i]? = some x)
    (hop : x.op = .closes kind) : p.displacement? i stop = p.displacement? (i + 1) stop := by
  have hmotion : x.motion = 0 := by rw [Instruction.motion, hop]
  rw [displacement?_of_not_isOpen hlt hx (by rw [hop]; rfl), hmotion]
  simp

/-- A walk that keeps track comes to the end of a loop that started before: no loop that starts on
the way leads past it. -/
theorem Strides.exists_front {start first : Nat} {moved : Int64} (h : p.Strides stop start moved)
    (hpaired : p.Paired) (hpair : p.IsPair kind first close) (hfirst : first < start)
    (hle : start ≤ close) (hclose : close < stop) :
    ∃ front, p.displacement? start close = some front := by
  induction h with
  | arrived => omega
  | @slot start x moved hlt hx hopen _ ih =>
    rcases Nat.lt_or_eq_of_le hle with hlater | rfl
    · obtain ⟨front, hfront⟩ := ih (Nat.lt_succ_of_lt hfirst) hlater
      exact ⟨x.motion + front, by rw [displacement?_of_not_isOpen hlater hx hopen, hfront]; rfl⟩
    · exact ⟨0, displacement?_self p start⟩
  | @loop start close' x kind' moved hlt hx hop hfound hkind _ ih =>
    have hloop := isLoop_of_closeOf? hfound hx hop
    rcases Nat.lt_or_eq_of_le hle with hlater | rfl
    · have hends := hpaired.nested _ _ _ _ _ _ hpair hloop.isPair hfirst hlater
      have hopen := (closeOf?_bounds hfound).1
      obtain ⟨front, hfront⟩ := ih (by omega) hends
      have hfound' : p.closeOf? start close = some close' :=
        closeOf?_eq_some_iff.2 ⟨hopen, hends, linked_of_closeOf? hfound⟩
      refine ⟨front, ?_⟩
      rw [displacement?_of_opens hlater hx hop, hfound', Option.bind_some, if_pos hkind, hfront]
    · exact ⟨0, displacement?_self p start⟩

/-- If the displacement up to the end of such a loop is unknown, that of the whole span is. -/
theorem IsPair.displacement?_of_front {start first : Nat} (hpair : p.IsPair kind first close)
    (hpaired : p.Paired) (hfirst : first < start) (hle : start ≤ close) (hclose : close < stop)
    (h : p.displacement? start close = none) : p.displacement? start stop = none := by
  refine displacement?_of_not_strides (fun moved hstrides => ?_)
    (Nat.le_trans hle (Nat.le_of_lt hclose))
  obtain ⟨front, hfront⟩ := hstrides.exists_front hpaired hpair hfirst hle hclose
  rw [h] at hfront
  cases hfront

end Program

/-- What the analyses say of a span that takes a loop apart. If it loses the end of a loop,
nothing is known. If it loses the start of one, the loop end is passed over: nothing is known
exactly if the displacement of the part before it or of the part behind it is unknown. All
three answers are those of the two parts, one after the other, and a look at the cell that the
loop end tests. -/
theorem analyses_of_cut {p : Program} (hpaired : p.Paired) (start stop : Nat) (target : Int64) :
    (p.LosesEnd start stop → p.Unknown start stop target) ∧
      ∀ kind first close, p.IsPair kind first close → first < start → start ≤ close →
        close < stop → (p.Unknown start stop target ↔
          p.displacement? start close = none ∨ p.displacement? (close + 1) stop = none) ∧
        ∀ moved, p.displacement? start close = some moved →
          p.displacement? start stop = (p.displacement? (close + 1) stop).map (moved + ·) ∧
          p.effect? start stop target = ((p.effect? start close target).bind fun e =>
            (p.effect? (close + 1) stop (target - moved)).map e.andThen) ∧
          p.observes start stop target = (p.observes start close target ||
            (target - moved = 0 || p.observes (close + 1) stop (target - moved))) := by
  refine ⟨fun h => Program.unknown_iff.2 (h.displacement?_eq_none hpaired), ?_⟩
  intro kind first close hpair hfirst hstart hclose
  obtain ⟨b, hb, hbop, -⟩ := (hpaired.isLoop hpair).closes
  have hle := Nat.le_of_lt hclose
  have hdisplacement {moved : Int64} (hmoved : p.displacement? start close = some moved) :
      p.displacement? start stop = (p.displacement? (close + 1) stop).map (moved + ·) := by
    rw [(Program.strides_of_displacement? hmoved hstart).displacement?_append hle,
      Program.displacement?_of_closes hclose hb hbop]
  refine ⟨?_, fun moved hmoved => ⟨hdisplacement hmoved, ?_, ?_⟩⟩
  · rw [Program.unknown_iff]
    cases hfront : p.displacement? start close with
    | none => simp [hpair.displacement?_of_front hpaired hfirst hstart hclose hfront]
    | some moved => simp [hdisplacement hfront]
  · rw [(Program.strides_of_displacement? hmoved hstart).effect?_append hle]
    unfold Program.effect?
    rw [Program.effectFrom_of_closes hclose hb hbop]
  · rw [(Program.strides_of_displacement? hmoved hstart).observes_append hle,
      Program.observes_of_closes hclose hb hbop]

/-- A loop that goes to the next cell that is zero (`[>]`). -/
def Program.seeker : Program :=
  #[⟨.opens .tested, 2, 0⟩, ⟨.move .right, 1, 0⟩, ⟨.closes .tested, 0, 0⟩]

theorem Program.paired_seeker : Program.seeker.Paired := by
  have hholds : Program.seeker.Holds 0 _ Program.seeker.size :=
    .loop ⟨⟨_, rfl, rfl, rfl⟩, _, rfl, rfl, rfl⟩ (.instr rfl rfl .done) .done
  exact (hholds.wellFormed ⟨nofun, trivial, trivial⟩ ⟨trivial, trivial⟩).paired

/-- The loop without its end, and without its start. -/
theorem analyses_of_cut_of_seeker :
    Program.seeker.Unknown 0 2 0 ∧ Program.seeker.displacement? 1 3 = some 1 := by
  refine ⟨(analyses_of_cut Program.paired_seeker 0 2 0).1
    ⟨0, _, Nat.le_refl 0, by decide, rfl, rfl, ?_⟩, ?_⟩
  · intro close hclose
    obtain rfl := Option.some.inj hclose
    decide
  · have hmoved : Program.seeker.displacement? 1 2 = some 1 := by decide +kernel
    have hcut :=
      ((analyses_of_cut Program.paired_seeker 1 3 0).2 .tested 0 2 ⟨_, rfl, rfl, rfl⟩ (by decide)
      (by decide) (by decide)).2 1 hmoved
    rw [hcut.1]
    decide +kernel

/-- Not every span that takes a loop apart is given up. What is answered for the rest of
`Program.seeker` behind its start is wrong, too: a machine that stays in the span until it comes
to its end may go two cells to the right instead of one. -/
theorem not_unknown_of_losesStart :
    (¬ ∀ p : Program, p.Paired → ∀ (start stop : Nat) (target : Int64), start ≤ stop →
      stop ≤ p.size →
      p.LosesEnd start stop ∨ p.LosesStart start stop → p.Unknown start stop target) ∧
    Program.seeker.displacement? 1 3 = some 1 ∧
    ∃ m : Machine, m.ip = 1 ∧
      (∀ j < 4, 1 ≤ (m.advance Program.seeker j).ip ∧ (m.advance Program.seeker j).ip < 3) ∧
      (m.advance Program.seeker 4).ip = 3 ∧ (m.advance Program.seeker 4).fault = none ∧
      (m.advance Program.seeker 4).dp = m.dp + 2 := by
  have hmoved : Program.seeker.displacement? 1 3 = some 1 := by decide +kernel
  refine ⟨fun h => ?_, hmoved, ?_⟩
  · have hunknown := h Program.seeker Program.paired_seeker 1 3 5 (by decide) (by decide)
      (.inr ⟨.tested, 0, 2, ⟨_, rfl, rfl, rfl⟩, by decide, by decide, by decide⟩)
    cases hmoved.symm.trans hunknown.displacement
  · exact ⟨{ ip := 1, tape := ⟨#[0, 1, 0], false⟩ }, rfl, by decide +kernel, by decide +kernel,
      by decide +kernel, by decide +kernel⟩

end TapeCode
