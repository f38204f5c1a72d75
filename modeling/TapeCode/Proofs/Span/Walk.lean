import TapeCode.Proofs.Block.Fusion

/-!
# The analyses as walks

All three analyses walk over a span slot by slot and take loops at one stride. What they have
gathered before a slot comes apart from what they find behind it: a displacement is added in front
(`Program.displacementFrom_eq_map`), and an effect is put in front (`Program.effectFrom_eq_map`).
`Program.observes_of_not_isJump`, `observes_of_closes` and `observes_of_opens` say what one slot
adds to what a span looks at.
-/

namespace TapeCode

namespace Effect

@[simp] theorem unchanged_andThen (e : Effect) : unchanged.andThen e = e := by
  cases e <;> simp [unchanged, andThen]

theorem andThen_assoc (e f g : Effect) : (e.andThen f).andThen g = e.andThen (f.andThen g) := by
  cases e <;> cases f <;> cases g <;>
    simp [andThen, Cell.ofAmount_add, Int64.add_assoc, UInt8.add_assoc]

end Effect

/-- The effect of an instruction is put behind the effect of what came before it. -/
theorem Instruction.effectOn_eq_map (x : Instruction) (target : Int64) (sofar : Effect) :
    x.effectOn target sofar = (x.effectOn target .unchanged).map sofar.andThen := by
  have hnothing : sofar.andThen .unchanged = sofar := sofar.andThen_adds_zero
  unfold effectOn
  split <;> try split
  all_goals simp [hnothing]

namespace Program

variable {p : Program} {i stop : Nat} {x : Instruction} {kind : LoopKind} {target moved : Int64}
  {sofar : Effect}

/-! ## The end of a span -/

theorem displacementFrom_of_le (h : stop ≤ i) (moved : Int64) :
    p.displacementFrom stop i moved = some moved := by
  rw [displacementFrom, if_neg (Nat.not_lt_of_le h)]

theorem effectFrom_of_le (h : stop ≤ i) (target : Int64) (sofar : Effect) :
    p.effectFrom stop i target sofar = some sofar := by
  rw [effectFrom, if_neg (Nat.not_lt_of_le h)]

theorem displacement?_self (p : Program) (i : Nat) : p.displacement? i i = some 0 :=
  displacementFrom_of_le (Nat.le_refl i) 0

theorem effect?_self (p : Program) (i : Nat) (target : Int64) :
    p.effect? i i target = some .unchanged :=
  effectFrom_of_le (Nat.le_refl i) target .unchanged

/-- Nothing is known of a span that reaches past the end of the program. -/
theorem displacementFrom_of_none (hlt : i < stop) (hx : p[i]? = none) (moved : Int64) :
    p.displacementFrom stop i moved = none := by
  rw [displacementFrom, if_pos hlt]
  simp only [hx]

theorem effectFrom_of_none (hlt : i < stop) (hx : p[i]? = none) (target : Int64)
    (sofar : Effect) : p.effectFrom stop i target sofar = none := by
  rw [effectFrom, if_pos hlt]
  simp only [hx]

/-! ## What was gathered before -/

/-- What has been moved before is added to what a span moves. -/
theorem displacementFrom_eq_map (p : Program) (stop i : Nat) (moved : Int64) :
    p.displacementFrom stop i moved = (p.displacement? i stop).map (moved + ·) := by
  unfold displacement?
  by_cases hlt : i < stop
  · cases hx : p[i]? with
    | none =>
      rw [displacementFrom_of_none hlt hx, displacementFrom_of_none hlt hx]
      rfl
    | some x =>
      cases hopen : x.op.isOpen with
      | true =>
        obtain ⟨kind, hop⟩ := Opcode.exists_opens hopen
        rw [displacementFrom_of_opens hlt hx hop, displacementFrom_of_opens hlt hx hop]
        cases hfound : p.closeOf? i stop with
        | none => rfl
        | some close =>
          have := closeOf?_bounds hfound
          rw [Option.bind_some, Option.bind_some]
          split
          · exact displacementFrom_eq_map p stop (close + 1) moved
          · rfl
      | false =>
        rw [displacementFrom_of_not_isOpen hlt hx hopen,
          displacementFrom_of_not_isOpen hlt hx hopen,
          displacementFrom_eq_map p stop (i + 1) (moved + x.motion),
          displacementFrom_eq_map p stop (i + 1) (0 + x.motion), Option.map_map]
        simp [Function.comp_def, Int64.add_assoc]
  · have hle := Nat.le_of_not_lt hlt
    rw [displacementFrom_of_le hle, displacementFrom_of_le hle, Option.map_some, Int64.add_zero]
termination_by stop - i

/-- What has happened before is put in front of what a span does. -/
theorem effectFrom_eq_map (p : Program) (stop i : Nat) (target : Int64) (sofar : Effect) :
    p.effectFrom stop i target sofar = (p.effect? i stop target).map sofar.andThen := by
  unfold effect?
  have hnothing : sofar.andThen .unchanged = sofar := sofar.andThen_adds_zero
  by_cases hlt : i < stop
  · cases hx : p[i]? with
    | none =>
      rw [effectFrom_of_none hlt hx, effectFrom_of_none hlt hx]
      rfl
    | some x =>
      cases hopen : x.op.isOpen with
      | true =>
        obtain ⟨kind, hop⟩ := Opcode.exists_opens hopen
        rw [effectFrom_of_opens hlt hx hop, effectFrom_of_opens hlt hx hop]
        cases hfound : p.closeOf? i stop with
        | none => rfl
        | some close =>
          have := closeOf?_bounds hfound
          rw [Option.bind_some, Option.bind_some]
          split
          · split
            · rw [effectFrom_eq_map p stop (close + 1) target (sofar.andThen _),
                effectFrom_eq_map p stop (close + 1) target (Effect.unchanged.andThen _),
                Option.map_map]
              refine congrArg (Option.map · _) (funext fun e => ?_)
              rw [Effect.unchanged_andThen]
              exact Effect.andThen_assoc sofar _ e
            · split
              · exact effectFrom_eq_map p stop (close + 1) target sofar
              · rfl
          · rfl
      | false =>
        rw [effectFrom_of_not_isOpen hlt hx hopen, effectFrom_of_not_isOpen hlt hx hopen,
          x.effectOn_eq_map target sofar]
        cases x.effectOn target .unchanged with
        | none => rfl
        | some e =>
          rw [Option.map_some, Option.bind_some, Option.bind_some,
            effectFrom_eq_map p stop (i + 1) _ (sofar.andThen e),
            effectFrom_eq_map p stop (i + 1) _ e, Option.map_map]
          exact congrArg (Option.map · _) (funext fun f => Effect.andThen_assoc sofar e f)
  · have hle := Nat.le_of_not_lt hlt
    rw [effectFrom_of_le hle, effectFrom_of_le hle, Option.map_some, hnothing]
termination_by stop - i

/-! ## One slot -/

theorem displacement?_of_not_isOpen (hlt : i < stop) (hx : p[i]? = some x)
    (hopen : x.op.isOpen = false) :
    p.displacement? i stop = (p.displacement? (i + 1) stop).map (x.motion + ·) := by
  rw [displacement?, displacementFrom_of_not_isOpen hlt hx hopen, displacementFrom_eq_map,
    Int64.zero_add]

theorem displacement?_of_opens (hlt : i < stop) (hx : p[i]? = some x) (hop : x.op = .opens kind) :
    p.displacement? i stop = (p.closeOf? i stop).bind fun close =>
      if kind = .counted ∨ p.isStationary (i + 1) close then
        p.displacement? (close + 1) stop else none :=
  displacementFrom_of_opens hlt hx hop 0

theorem effect?_of_not_isOpen (hlt : i < stop) (hx : p[i]? = some x) (hopen : x.op.isOpen = false)
    (target : Int64) :
    p.effect? i stop target = (x.effectOn target .unchanged).bind fun e =>
      (p.effect? (i + 1) stop (target - x.motion)).map e.andThen := by
  rw [effect?, effectFrom_of_not_isOpen hlt hx hopen]
  exact congrArg _ (funext fun e => effectFrom_eq_map p stop (i + 1) _ e)

/-- A loop on another cell is taken together with its body, which must leave the cell alone. -/
theorem effect?_of_opens (hlt : i < stop) (hx : p[i]? = some x) (hop : x.op = .opens kind)
    (htarget : target ≠ 0) :
    p.effect? i stop target = (p.closeOf? i stop).bind fun close =>
      if kind = .counted ∨ p.isStationary (i + 1) close then
        if p.effect? (i + 1) close target = some .unchanged then
          p.effect? (close + 1) stop target else none
      else none := by
  rw [effect?, effectFrom_of_opens hlt hx hop]
  simp only [if_neg htarget]
  rfl

/-- The end of a loop is passed over. -/
theorem effectFrom_of_closes (hlt : i < stop) (hx : p[i]? = some x)
    (hop : x.op = .closes kind) (target : Int64) (sofar : Effect) :
    p.effectFrom stop i target sofar = p.effectFrom stop (i + 1) target sofar := by
  have hon : x.effectOn target sofar = some sofar := by rw [Instruction.effectOn, hop]
  have hmotion : x.motion = 0 := by rw [Instruction.motion, hop]
  rw [effectFrom_of_not_isOpen hlt hx (by rw [hop]; rfl), hon, hmotion, Int64.sub_zero,
    Option.bind_some]

theorem observes_of_not_isJump (hlt : i < stop) (hx : p[i]? = some x)
    (hjump : x.op.isJump = false) (target : Int64) :
    p.observes i stop target =
      (x.observes target || p.observes (i + 1) stop (target - x.motion)) := by
  rw [observes, if_pos hlt]
  simp only [hx, Instruction.observes]
  cases hop : x.op <;> simp_all [Opcode.isJump, Instruction.motion]

theorem observes_of_closes (hlt : i < stop) (hx : p[i]? = some x) (hop : x.op = .closes kind)
    (target : Int64) :
    p.observes i stop target = (target = 0 || p.observes (i + 1) stop target) := by
  rw [observes, if_pos hlt]
  simp only [hx, hop]

theorem observes_of_opens (hlt : i < stop) (hx : p[i]? = some x) (hop : x.op = .opens kind)
    (target : Int64) :
    p.observes i stop target = (p.closeOf? i stop).elim true fun close =>
      target = 0 || (kind = .tested && !p.isStationary (i + 1) close)
        || p.observes (i + 1) close target || p.observes (close + 1) stop target := by
  rw [observes, if_pos hlt]
  simp only [hx, hop]
  split
  · rename_i hfound
    rw [hfound]
    rfl
  · rename_i close hfound
    rw [hfound]
    rfl

end Program

end TapeCode
