import TapeCode.Proofs.Span

/-!
# One span behind another

The analyses of a span can be put together from those of two spans that it is cut into, if the
first one has a known displacement: then the walk over it comes to its end (`Program.Strides`),
and no loop of it goes on behind. The displacements add up
(`Program.Strides.displacement?_append`), and the second span is asked for the cell at its
distance from where the first one leaves the data pointer (`Program.Strides.effect?_append`,
`Program.Strides.observes_append`).

The displacement of a span is known, too, if the span does not look at some cell
(`Program.exists_displacement_of_observes`) or if its effect on some cell is known, so that the
analyses of the second span can be asked for whenever one of the first one has an answer
(`analyses_append`). Nothing is assumed of the links of the program.
-/

namespace TapeCode

/-- An instruction other than a loop start looks at the cell `target` away from the data pointer:
it prints it, reads over it or ends a loop there. -/
def Instruction.looksAt (x : Instruction) (target : Int64) : Bool :=
  match x.op with
  | .print | .input | .closes _ => target = 0
  | _ => false

/-- Effects that follow each other, put behind an effect. -/
theorem Effect.map_andThen_bind (first second : Option Effect) (e : Effect) :
    (first.bind fun f => second.map f.andThen).map e.andThen =
      (first.map e.andThen).bind fun f => second.map f.andThen := by
  cases first with
  | none => rfl
  | some f =>
    rw [Option.bind_some, Option.map_map]
    exact congrArg (Option.map · second) (funext fun g => (Effect.andThen_assoc e f g).symm)

namespace Program

variable {p : Program} {i middle stop close : Nat} {x : Instruction} {kind : LoopKind}
  {target moved : Int64}

/-! ## Loops of a longer span -/

/-- The end of a loop is found in a span if it lies there. -/
theorem closeOf?_eq_some_iff :
    p.closeOf? i stop = some close ↔ i < close ∧ close < stop ∧ p.linked i close = true := by
  constructor
  · intro h
    exact ⟨(closeOf?_bounds h).1, (closeOf?_bounds h).2, linked_of_closeOf? h⟩
  · intro h
    obtain ⟨a, b, ha, hb, -, hat, -⟩ := linked_iff.1 h.2.2
    simp only [closeOf?, Option.bind_eq_bind, ha, hat, Option.bind_some]
    exact if_pos h

theorem closeOf?_mono (h : p.closeOf? i middle = some close) (hle : middle ≤ stop) :
    p.closeOf? i stop = some close := by
  obtain ⟨hopen, hclose, hlinked⟩ := closeOf?_eq_some_iff.1 h
  exact closeOf?_eq_some_iff.2 ⟨hopen, Nat.lt_of_lt_of_le hclose hle, hlinked⟩

/-- What a loop does to a cell, if it is understood. -/
def loopEffect? (p : Program) (kind : LoopKind) (i close : Nat) (target : Int64) :
    Option Effect :=
  if kind = .counted ∨ p.isStationary (i + 1) close then
    if target = 0 then some (.assigns 0)
    else if p.effect? (i + 1) close target = some .unchanged then some .unchanged else none
  else none

theorem effect?_of_opens_eq_bind (hlt : i < stop) (hx : p[i]? = some x) (hop : x.op = .opens kind)
    (target : Int64) :
    p.effect? i stop target = (p.closeOf? i stop).bind fun close =>
      (p.loopEffect? kind i close target).bind fun e =>
        (p.effect? (close + 1) stop target).map e.andThen := by
  rw [effect?, effectFrom_of_opens hlt hx hop]
  refine congrArg _ (funext fun close => ?_)
  rw [loopEffect?, effectFrom_eq_map p stop (close + 1), effectFrom_eq_map p stop (close + 1),
    Effect.unchanged_andThen]
  unfold effect?
  split
  · split
    · rfl
    · split <;> rfl
  · rfl

theorem observes_of_not_isOpen (hlt : i < stop) (hx : p[i]? = some x)
    (hopen : x.op.isOpen = false) (target : Int64) :
    p.observes i stop target =
      (x.looksAt target || p.observes (i + 1) stop (target - x.motion)) := by
  rw [observes, if_pos hlt]
  simp only [hx, Instruction.looksAt, Instruction.motion]
  cases hop : x.op <;> simp_all [Opcode.isOpen]

/-! ## Walks that keep track -/

/-- The walk over a span whose displacement is known: it takes the slots one by one, and loops
that come back to where they began at one stride. -/
inductive Strides (p : Program) (stop : Nat) : Nat → Int64 → Prop
  | arrived : Strides p stop stop 0
  | slot {i : Nat} {x : Instruction} {moved : Int64} : i < stop → p[i]? = some x →
    x.op.isOpen = false → Strides p stop (i + 1) moved → Strides p stop i (x.motion + moved)
  | loop {i close : Nat} {x : Instruction} {kind : LoopKind} {moved : Int64} :
    i < stop → p[i]? = some x → x.op = .opens kind → p.closeOf? i stop = some close →
    kind = .counted ∨ p.isStationary (i + 1) close = true → Strides p stop (close + 1) moved →
    Strides p stop i moved

/-- The displacement is known only if the walk keeps track. -/
theorem strides_of_displacement? {i : Nat} {moved : Int64}
    (h : p.displacement? i stop = some moved) (hle : i ≤ stop) : p.Strides stop i moved := by
  rcases Nat.lt_or_eq_of_le hle with hlt | rfl
  · cases hx : p[i]? with
    | none =>
      rw [displacement?, displacementFrom_of_none hlt hx] at h
      cases h
    | some x =>
      cases hopen : x.op.isOpen with
      | true =>
        obtain ⟨kind, hop⟩ := Opcode.exists_opens hopen
        rw [displacement?_of_opens hlt hx hop] at h
        obtain ⟨close, hfound, hrest⟩ := Option.bind_eq_some_iff.1 h
        have hbounds := closeOf?_bounds hfound
        obtain ⟨hkind, hrest⟩ := Option.ite_none_right_eq_some.1 hrest
        exact .loop hlt hx hop hfound hkind (strides_of_displacement? hrest hbounds.2)
      | false =>
        rw [displacement?_of_not_isOpen hlt hx hopen] at h
        obtain ⟨rest, hrest, rfl⟩ := Option.map_eq_some_iff.1 h
        exact .slot hlt hx hopen (strides_of_displacement? hrest hlt)
  · obtain rfl := Option.some.inj ((displacement?_self p i).symm.trans h)
    exact .arrived
termination_by stop - i

/-! ## Two spans -/

/-- Displacements add up. -/
theorem Strides.displacement?_append (h : p.Strides middle i moved) (hstop : middle ≤ stop) :
    p.displacement? i stop = (p.displacement? middle stop).map (moved + ·) := by
  induction h with
  | arrived => simp
  | slot hlt hx hopen hrest ih =>
    rw [displacement?_of_not_isOpen (Nat.lt_of_lt_of_le hlt hstop) hx hopen, ih, Option.map_map]
    simp [Function.comp_def, Int64.add_assoc]
  | loop hlt hx hop hfound hkind hrest ih =>
    rw [displacement?_of_opens (Nat.lt_of_lt_of_le hlt hstop) hx hop, closeOf?_mono hfound hstop,
      Option.bind_some, if_pos hkind, ih]

/-- The effects on one cell follow each other. -/
theorem Strides.effect?_append (h : p.Strides middle i moved) (hstop : middle ≤ stop)
    (target : Int64) :
    p.effect? i stop target = (p.effect? i middle target).bind fun e =>
      (p.effect? middle stop (target - moved)).map e.andThen := by
  induction h generalizing target with
  | arrived =>
    have hnothing : Effect.andThen .unchanged = id := funext Effect.unchanged_andThen
    rw [effect?_self, Option.bind_some, hnothing, Option.map_id, Int64.sub_zero]
    rfl
  | @slot i x moved hlt hx hopen hrest ih =>
    rw [effect?_of_not_isOpen (Nat.lt_of_lt_of_le hlt hstop) hx hopen,
      effect?_of_not_isOpen hlt hx hopen, ih,
      show target - x.motion - moved = target - (x.motion + moved) by grind]
    cases x.effectOn target .unchanged with
    | none => rfl
    | some e => exact Effect.map_andThen_bind _ _ e
  | @loop i close x kind moved hlt hx hop hfound hkind hrest ih =>
    rw [effect?_of_opens_eq_bind (Nat.lt_of_lt_of_le hlt hstop) hx hop,
      effect?_of_opens_eq_bind hlt hx hop, hfound, closeOf?_mono hfound hstop, Option.bind_some,
      Option.bind_some, ih]
    cases p.loopEffect? kind i close target with
    | none => rfl
    | some e => exact Effect.map_andThen_bind _ _ e

/-- Two spans look at a cell if one of them does. -/
theorem Strides.observes_append (h : p.Strides middle i moved) (hstop : middle ≤ stop)
    (target : Int64) :
    p.observes i stop target =
      (p.observes i middle target || p.observes middle stop (target - moved)) := by
  induction h generalizing target with
  | arrived =>
    have hempty : p.observes middle middle target = false := by
      rw [observes, if_neg (Nat.lt_irrefl middle)]
    rw [hempty, Bool.false_or, Int64.sub_zero]
  | @slot i x moved hlt hx hopen hrest ih =>
    rw [observes_of_not_isOpen (Nat.lt_of_lt_of_le hlt hstop) hx hopen,
      observes_of_not_isOpen hlt hx hopen, ih,
      show target - x.motion - moved = target - (x.motion + moved) by grind, ← Bool.or_assoc]
  | loop hlt hx hop hfound hkind hrest ih =>
    rw [observes_of_opens (Nat.lt_of_lt_of_le hlt hstop) hx hop,
      observes_of_opens hlt hx hop, hfound, closeOf?_mono hfound hstop, Option.elim_some,
      Option.elim_some, ih, ← Bool.or_assoc]

/-- The displacement of a span is known if the span does not look at some cell. -/
theorem exists_displacement_of_observes {i : Nat} {target : Int64}
    (h : p.observes i stop target = false) : ∃ moved, p.displacement? i stop = some moved := by
  by_cases hlt : i < stop
  · cases hx : p[i]? with
    | none =>
      rw [observes, if_pos hlt] at h
      simp only [hx] at h
      cases h
    | some x =>
      cases hopen : x.op.isOpen with
      | true =>
        obtain ⟨kind, hop⟩ := Opcode.exists_opens hopen
        rw [observes_of_opens hlt hx hop] at h
        rw [displacement?_of_opens hlt hx hop]
        cases hfound : p.closeOf? i stop with
        | none => rw [hfound] at h; cases h
        | some close =>
          have := closeOf?_bounds hfound
          rw [hfound, Option.elim_some] at h
          simp only [Bool.or_eq_false_iff] at h
          obtain ⟨⟨⟨-, hkind⟩, -⟩, hrest⟩ := h
          have hsteady : kind = .counted ∨ p.isStationary (i + 1) close = true := by
            cases kind <;> simp_all
          rw [Option.bind_some, if_pos hsteady]
          exact exists_displacement_of_observes hrest
      | false =>
        rw [observes_of_not_isOpen hlt hx hopen, Bool.or_eq_false_iff] at h
        obtain ⟨moved, hmoved⟩ := exists_displacement_of_observes h.2
        exact ⟨x.motion + moved, by rw [displacement?_of_not_isOpen hlt hx hopen, hmoved]; rfl⟩
  · exact ⟨0, displacementFrom_of_le (Nat.le_of_not_lt hlt) 0⟩
termination_by stop - i

end Program

/-- The analyses of a span that is cut in two, in any program. Where the effect of the first part
on some cell is known, or the first part does not look at it, the displacement of the first part
is known. Then that of the second part is added to it, the effect of the second part follows that
of the first one, and the span looks at a cell exactly if one of its parts does. The second part
is asked for the cell at its distance from where the first one leaves the data pointer. -/
theorem analyses_append (p : Program) {start middle stop : Nat} (hstart : start ≤ middle)
    (hstop : middle ≤ stop) (target : Int64) :
    (∀ effect, p.effect? start middle target = some effect →
      ∃ moved, p.displacement? start middle = some moved) ∧
    (p.observes start middle target = false →
      ∃ moved, p.displacement? start middle = some moved) ∧
    ∀ moved, p.displacement? start middle = some moved →
      p.displacement? start stop = (p.displacement? middle stop).map (moved + ·) ∧
      p.effect? start stop target = ((p.effect? start middle target).bind fun first =>
        (p.effect? middle stop (target - moved)).map first.andThen) ∧
      p.observes start stop target =
        (p.observes start middle target || p.observes middle stop (target - moved)) := by
  refine ⟨fun effect heffect => Program.exists_displacementFrom heffect 0,
    Program.exists_displacement_of_observes, fun moved hmoved => ?_⟩
  have hstrides := Program.strides_of_displacement? hmoved hstart
  exact ⟨hstrides.displacement?_append hstop, hstrides.effect?_append hstop target,
    hstrides.observes_append hstop target⟩

/-- A counted loop between a loop end that leads nowhere and a loop start that leads back. -/
def Program.ragged : Program :=
  #[⟨.closes .tested, 9, 0⟩, ⟨.set .here, 250, 0⟩, ⟨.move .right, 2, 0⟩, ⟨.opens .counted, 5, 0⟩,
    ⟨.add (.aside .left), 1, 1⟩, ⟨.closes .counted, 3, 0⟩, ⟨.move .left, 1, 0⟩,
    ⟨.add (.aside .left), 10, 1⟩, ⟨.opens .tested, 4, 0⟩]

/-- The span of `Program.ragged` before its last slot, cut in front of the counted loop: the first
cell gets a value, and what is added behind the loop wraps around. -/
theorem analyses_append_of_ragged :
    Program.ragged.displacement? 0 8 = some 1 ∧ Program.ragged.effect? 0 8 0 = some (.assigns 4) ∧
      Program.ragged.observes 0 8 3 = false := by
  have hmoved : Program.ragged.displacement? 0 3 = some 2 := by decide +kernel
  have happend (target : Int64) :=
    (@analyses_append Program.ragged 0 3 8 (by decide) (by decide) target).2.2 2 hmoved
  have hbehind : Program.ragged.displacement? 3 8 = some (-1) := by decide +kernel
  have hfirst : Program.ragged.effect? 0 3 0 = some (.assigns 250) := by decide +kernel
  have hsecond : Program.ragged.effect? 3 8 (0 - 2) = some (.adds 10) := by decide +kernel
  refine ⟨?_, ?_, ?_⟩
  · rw [(happend 0).1, hbehind]
    rfl
  · rw [(happend 0).2.1, hfirst, Option.bind_some, hsecond]
    rfl
  · rw [(happend 3).2.2]
    decide +kernel

end TapeCode
