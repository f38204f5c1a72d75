import TapeCode.Proofs.Span
import TapeCode.Proofs.Twins

/-!
# Spans that do not look at a cell

If a span is found not to look at a cell, another value in that cell makes no difference to a
machine as long as it stays in the span.

`Program.Unseen` describes the places at which a machine can be then: on the level of the span
itself or in the body of one of its loops, with the cell still where the analysis takes it to be
and nothing ahead that looks at it. A step inside the span leads from one such place to another
one (`Machine.Spares.perform`). Two machines that differ in that cell alone thus stay twins, and
the cell ends as the effect of the span says, even if the last step raises a fault
(`Machine.observes_sound`).
-/

namespace TapeCode

namespace Program

variable {p : Program} {first last start stop close i j : Nat} {x : Instruction} {kind : LoopKind}
  {target moved : Int64} {rest : Option Effect}

theorem IsLoop.op_close (h : p.IsLoop i close kind) (hx : p[close]? = some x) :
    x.op = .closes kind := by
  obtain ⟨b, hb, hbop, -⟩ := h.closes
  obtain rfl := Option.some.inj (hx.symm.trans hb)
  exact hbop

/-! ## Places in a span -/

/-- The span from `first` to `last` has been taken up to the slot `i`, and what is ahead of it
does not look at the cell `target` away from the data pointer there. -/
structure Veiled (p : Program) (first last i : Nat) (target : Int64) : Prop where
  le_last : i ≤ last
  passed : p.Passed first i
  unseen : p.observes i last target = false

namespace Veiled

theorem instr (h : p.Veiled first last i target) (hlt : i < last) (hx : p[i]? = some x)
    (hjump : x.op.isJump = false) :
    x.observes target = false ∧ p.Veiled first last (i + 1) (target - x.motion) := by
  have hunseen := h.unseen
  rw [observes_of_not_isJump hlt hx hjump, Bool.or_eq_false_iff] at hunseen
  exact ⟨hunseen.1, hlt, h.passed.succ (not_isPair hx (Opcode.isOpen_eq_false hjump)), hunseen.2⟩

theorem closes (h : p.Veiled first last i target) (hlt : i < last) (hx : p[i]? = some x)
    (hop : x.op = .closes kind) : target ≠ 0 ∧ p.Veiled first last (i + 1) target := by
  have hunseen := h.unseen
  rw [observes_of_closes hlt hx hop, Bool.or_eq_false_iff, decide_eq_false_iff_not] at hunseen
  exact ⟨hunseen.1, hlt, h.passed.succ (not_isPair hx (by rw [hop]; rfl)), hunseen.2⟩

/-- A loop that is not looked into brings the data pointer back, and it is veiled inside, too. -/
theorem opens (h : p.Veiled first last i target) (horderly : p.Orderly) (hlt : i < last)
    (hx : p[i]? = some x) (hop : x.op = .opens kind) :
    target ≠ 0 ∧ ∃ close, p.IsLoop i close kind ∧ i < close ∧ close < last ∧
      (kind = .counted ∨ p.isStationary (i + 1) close) ∧ p.displacement? (i + 1) close = some 0 ∧
      p.Veiled first last (close + 1) target ∧ p.Veiled (i + 1) close (i + 1) target := by
  have hunseen := h.unseen
  rw [observes_of_opens hlt hx hop] at hunseen
  cases hfound : p.closeOf? i last with
  | none => rw [hfound] at hunseen; cases hunseen
  | some close =>
    obtain ⟨hopen, hclose⟩ := closeOf?_bounds hfound
    have hloop := isLoop_of_closeOf? hfound hx hop
    simp only [hfound, Option.elim_some, Bool.or_eq_false_iff, decide_eq_false_iff_not] at hunseen
    obtain ⟨⟨⟨htarget, hkind⟩, hbody⟩, hbehind⟩ := hunseen
    have hstill : kind = .counted ∨ p.isStationary (i + 1) close := by
      cases kind with
      | counted => exact .inl rfl
      | tested => exact .inr (by simpa using hkind)
    refine ⟨htarget, close, hloop, hopen, hclose, hstill, ?_,
      ⟨hclose, h.passed.behind horderly hloop.isPair, hbehind⟩,
      ⟨hopen, .refl p (i + 1), hbody⟩⟩
    rcases hstill with rfl | hstationary
    · exact horderly.steady _ _ hloop.isPair
    · exact isStationary_iff.1 hstationary

/-- A loop that ends at a place on the level of a span starts before the span. -/
theorem lt_first (h : p.Veiled first last i target) (horderly : p.Orderly)
    (hpair : p.IsPair kind j i) : j < first := by
  have hlt := horderly.ordered _ _ _ hpair
  refine Nat.lt_of_not_le fun hle => ?_
  exact Nat.lt_irrefl i (h.passed _ _ _ hpair hle hlt)

end Veiled

/-- A machine that stands at the slot `i` does not look at the cell `target` away from its data
pointer while it stays in the span from `start` to `stop`. If `rest` is given, this is what will
happen to the cell before it comes to the end. -/
inductive Unseen (p : Program) (start stop : Nat) : Nat → Int64 → Option Effect → Prop
  | level {i : Nat} {target : Int64} {rest : Option Effect} :
    start ≤ i → p.Veiled start stop i target →
    (∀ e ∈ rest, p.effect? i stop target = some e) → Unseen p start stop i target rest
  /-- In the body of a loop, at the start of which the cell is as far away as it will be at the
  end of the body. -/
  | body {first close i : Nat} {kind : LoopKind} {target moved : Int64}
    {rest outer : Option Effect} :
    p.IsLoop first close kind → close < stop → first < i → p.Veiled (first + 1) close i target →
    p.displacement? i close = some moved → Unseen p start stop first (target - moved) outer →
    (∀ e ∈ rest, ∃ e₁ ∈ p.effect? i close target, ∃ e₂ ∈ outer, e = e₁.andThen e₂) →
    Unseen p start stop i target rest

namespace Unseen

theorem start_le (h : p.Unseen start stop i target rest) : start ≤ i := by
  induction h with
  | level hle => exact hle
  | body _ _ hlt _ _ _ _ ih => omega

/-- Less may be told of what will happen. -/
theorem mono {rest' : Option Effect} (h : p.Unseen start stop i target rest)
    (hrest : ∀ e ∈ rest', e ∈ rest) : p.Unseen start stop i target rest' := by
  cases h with
  | level hle hveiled heffect => exact .level hle hveiled fun e he => heffect e (hrest e he)
  | body hloop hclose hlt hveiled hmoved hfirst heffect =>
    exact .body hloop hclose hlt hveiled hmoved hfirst fun e he => heffect e (hrest e he)

/-- At the end of the span nothing more happens to the cell. -/
theorem eq_unchanged {e : Effect} (h : p.Unseen start stop stop target rest) (he : e ∈ rest) :
    e = .unchanged := by
  cases h with
  | level _ _ heffect =>
    exact Option.some.inj ((heffect e he).symm.trans (effect?_self p stop target))
  | body _ hclose _ hveiled => exact absurd hveiled.le_last (by omega)

/-- An instruction other than a jump. -/
theorem instr (h : p.Unseen start stop i target rest) (hlt : i < stop) (hx : p[i]? = some x)
    (hjump : x.op.isJump = false) :
    x.observes target = false ∧ ∃ rest', p.Unseen start stop (i + 1) (target - x.motion) rest' ∧
      ∀ e ∈ rest, ∃ e₁ ∈ x.effectOn target .unchanged, ∃ e₂ ∈ rest', e = e₁.andThen e₂ := by
  have hopen := Opcode.isOpen_eq_false hjump
  cases h with
  | level hle hveiled heffect =>
    obtain ⟨hunseen, hnext⟩ := hveiled.instr hlt hx hjump
    refine ⟨hunseen, _, .level (Nat.le_succ_of_le hle) hnext fun e he => he, fun e he => ?_⟩
    have hknown := heffect e he
    rw [effect?_of_not_isOpen hlt hx hopen] at hknown
    obtain ⟨e₁, he₁, hknown⟩ := Option.bind_eq_some_iff.1 hknown
    obtain ⟨e₂, he₂, rfl⟩ := Option.map_eq_some_iff.1 hknown
    exact ⟨e₁, he₁, e₂, he₂, rfl⟩
  | @body first close _ kind _ moved _ outer hloop hclose hfirst hveiled hmoved houter heffect =>
    have hbefore : i < close := by
      refine Nat.lt_of_le_of_ne hveiled.le_last ?_
      rintro rfl
      rw [hloop.op_close hx] at hjump
      cases hjump
    obtain ⟨hunseen, hnext⟩ := hveiled.instr hbefore hx hjump
    rw [displacement?_of_not_isOpen hbefore hx hopen] at hmoved
    obtain ⟨moved', hmoved', rfl⟩ := Option.map_eq_some_iff.1 hmoved
    have hsame : target - x.motion - moved' = target - (x.motion + moved') := by grind
    let rest' := (p.effect? (i + 1) close (target - x.motion)).bind fun e₁ => outer.map e₁.andThen
    refine ⟨hunseen, rest',
      .body hloop hclose (Nat.lt_succ_of_lt hfirst) hnext hmoved' (hsame ▸ houter)
      fun e he => ?_, fun e he => ?_⟩
    · obtain ⟨e₁, he₁, he⟩ := Option.bind_eq_some_iff.1 he
      obtain ⟨e₂, he₂, rfl⟩ := Option.map_eq_some_iff.1 he
      exact ⟨e₁, he₁, e₂, he₂, rfl⟩
    · obtain ⟨front, hfront, e₂, he₂, rfl⟩ := heffect e he
      rw [Option.mem_def, effect?_of_not_isOpen hbefore hx hopen] at hfront
      obtain ⟨e₁, he₁, hfront⟩ := Option.bind_eq_some_iff.1 hfront
      obtain ⟨e₃, he₃, rfl⟩ := Option.map_eq_some_iff.1 hfront
      exact ⟨e₁, he₁, e₃.andThen e₂, Option.bind_eq_some_iff.2 ⟨e₃, he₃, he₂ ▸ rfl⟩,
        Effect.andThen_assoc e₁ e₃ e₂⟩

/-- What is known of a span that begins with a loop on another cell. -/
theorem effect_of_isLoop {e : Effect} (hloop : p.IsLoop i close kind) (hopen : i < close)
    (hclose : close < last) (htarget : target ≠ 0) (he : p.effect? i last target = some e) :
    p.effect? (i + 1) close target = some .unchanged ∧
      p.effect? (close + 1) last target = some e := by
  obtain ⟨a, ha, haop, -⟩ := hloop.opens
  rw [effect?_of_opens (Nat.lt_trans hopen hclose) ha haop htarget, hloop.closeOf? hopen hclose,
    Option.bind_some] at he
  split at he
  · split at he
    · rename_i hbody
      exact ⟨hbody, he⟩
    · cases he
  · cases he

/-- The start of a loop. -/
theorem opens (h : p.Unseen start stop i target rest) (horderly : p.Orderly) (hlt : i < stop)
    (hx : p[i]? = some x) (hop : x.op = .opens kind) :
    target ≠ 0 ∧ ∃ close, p.IsLoop i close kind ∧ p.Unseen start stop (close + 1) target rest ∧
      p.Unseen start stop (i + 1) target rest := by
  have hinto {close : Nat} (hloop : p.IsLoop i close kind) (hclose : close < stop)
      (hmoved : p.displacement? (i + 1) close = some 0)
      (hbody : p.Veiled (i + 1) close (i + 1) target)
      (heffect : ∀ e ∈ rest, p.effect? (i + 1) close target = some .unchanged) :
      p.Unseen start stop (i + 1) target rest := by
    refine .body hloop hclose (Nat.lt_succ_self i) hbody hmoved ?_ fun e he =>
      ⟨_, heffect e he, e, he, ?_⟩
    · rwa [Int64.sub_zero]
    · exact (Effect.unchanged_andThen e).symm
  cases h with
  | level hle hveiled heffect =>
    obtain ⟨htarget, close, hloop, hopen, hclose, -, hmoved, hbehind, hbody⟩ :=
      hveiled.opens horderly hlt hx hop
    have hknown e (he : e ∈ rest) := effect_of_isLoop hloop hopen hclose htarget (heffect e he)
    exact ⟨htarget, close, hloop, .level (by omega) hbehind fun e he => (hknown e he).2,
      hinto hloop hclose hmoved hbody fun e he => (hknown e he).1⟩
  | @body first last _ _ _ moved _ outer hparent hlast hfirst hveiled hmoved houter heffect =>
    have hbefore : i < last := by
      refine Nat.lt_of_le_of_ne hveiled.le_last ?_
      rintro rfl
      cases hop.symm.trans (hparent.op_close hx)
    obtain ⟨htarget, close, hloop, hopen, hclose, hstill, hback, hbehind, hbody⟩ :=
      hveiled.opens horderly hbefore hx hop
    have hmoved' : p.displacement? (close + 1) last = some moved := by
      rwa [displacement?_of_opens hbefore hx hop, hloop.closeOf? hopen hclose, Option.bind_some,
        if_pos hstill] at hmoved
    refine ⟨htarget, close, hloop,
      .body hparent hlast (by omega) hbehind hmoved' houter fun e he => ?_,
      hinto hloop (by omega) hback hbody fun e he => ?_⟩
    · obtain ⟨e₁, he₁, e₂, he₂, rfl⟩ := heffect e he
      exact ⟨e₁, (effect_of_isLoop hloop hopen hclose htarget he₁).2, e₂, he₂, rfl⟩
    · obtain ⟨e₁, he₁, -⟩ := heffect e he
      exact (effect_of_isLoop hloop hopen hclose htarget he₁).1

/-- The end of a loop. If the loop starts before the span another round would leave the span. -/
theorem closes (h : p.Unseen start stop i target rest) (horderly : p.Orderly) (hlt : i < stop)
    (hx : p[i]? = some x) (hop : x.op = .closes kind) :
    target ≠ 0 ∧ p.Unseen start stop (i + 1) target rest ∧ ∃ j, x.target? = some j ∧
      (j < start ∨ p.Unseen start stop j target rest ∧
        p.Unseen start stop (j + 1) target rest) := by
  obtain ⟨j, htarget, hpair⟩ := horderly.exists_isPair hx hop
  cases h with
  | level hle hveiled heffect =>
    obtain ⟨hne, hnext⟩ := hveiled.closes hlt hx hop
    refine ⟨hne, .level (Nat.le_succ_of_le hle) hnext fun e he => ?_, j, htarget,
      .inl (hveiled.lt_first horderly hpair)⟩
    rw [← heffect e he]
    exact (effectFrom_of_closes hlt hx hop target .unchanged).symm
  | @body first close _ kind' _ moved _ outer hloop hclose hfirst hveiled hmoved houter heffect =>
    obtain rfl : i = close := by
      refine Nat.le_antisymm hveiled.le_last (Nat.le_of_not_lt fun hbefore => ?_)
      have hin := (horderly.whole_body hloop.isPair).opens _ _ _ hpair hfirst hbefore
      have := hveiled.lt_first horderly hpair
      omega
    obtain rfl := (horderly.isLoop hpair).left_unique hloop
    obtain rfl := Option.some.inj ((displacement?_self p i).symm.trans hmoved)
    rw [Int64.sub_zero] at houter
    have hrest : ∀ e ∈ rest, e ∈ outer := by
      intro e he
      obtain ⟨e₁, he₁, e₂, he₂, rfl⟩ := heffect e he
      obtain rfl := Option.some.inj ((effect?_self p i target).symm.trans he₁)
      rwa [Effect.unchanged_andThen]
    obtain ⟨a, ha, haop, -⟩ := hloop.opens
    obtain ⟨hne, close, hloop', hbehind, hinto⟩ := houter.opens horderly (by omega) ha haop
    obtain rfl := hloop.isPair.right_unique hloop'.isPair
    exact ⟨hne, hbehind.mono hrest, j, htarget, .inr ⟨houter.mono hrest, hinto.mono hrest⟩⟩

end Unseen

end Program

/-! ## What happens to a cell -/

namespace View

variable {v u : View} {offset target : Int64} {f : Cell → Cell}

/-- A cell that is not the changed one keeps its value, whether the change succeeds or not. -/
theorem cells_update_of_ne (hne : offset ≠ target) (htarget : 0 ≤ v.dp + target)
    (f : Cell → Cell) :
    (v.update offset f).2.cells (v.dp + target).toNatClampNeg =
      v.cells (v.dp + target).toNatClampNeg := by
  cases hindex : v.index? offset with
  | none => rw [update_of_none hindex]
  | some i =>
    rw [update_of_some hindex]
    exact if_neg fun hi => hne (eq_of_index? hindex htarget hi)

theorem cells_receive_of_ne (hne : target ≠ 0) (htarget : 0 ≤ v.dp + target) :
    v.receive.2.cells (v.dp + target).toNatClampNeg = v.cells (v.dp + target).toNatClampNeg := by
  unfold receive
  dsimp only
  split
  · exact cells_update_of_ne (v := { v with input := v.input.readByte.2 }) (Ne.symm hne) htarget _
  · rfl
  · rfl

end View

/-- An instruction has its effect on a cell of the band, whether it raises a fault or not. -/
theorem Instruction.cells_act_of_index? {x : Instruction} {v : View} {target : Int64}
    {effect : Effect} {i : Nat} (hindex : v.index? target = some i)
    (heffect : x.effectOn target .unchanged = some effect) :
    (x.act v).2.cells i = effect.apply (v.cells i) := by
  have htarget := View.nonneg_of_index? hindex
  obtain rfl := View.toNatClampNeg_of_index? hindex
  have hupdate {offset : Int64} {f : Cell → Cell} {e : Effect} (hf : ∀ c, e.apply c = f c)
      (heffect : some (if offset = target then Effect.unchanged.andThen e else .unchanged) =
        some effect) :
      (v.update offset f).2.cells (v.dp + target).toNatClampNeg =
        effect.apply (v.cells (v.dp + target).toNatClampNeg) := by
    obtain rfl := Option.some.inj heffect
    split
    · rename_i hsame
      subst hsame
      rw [View.update_of_some hindex, View.cells_store, Effect.unchanged_andThen, hf]
    · rename_i hne
      rw [View.cells_update_of_ne hne htarget, Effect.apply_unchanged]
  have hsame (heffect : some Effect.unchanged = some effect) (c : Cell) : c = effect.apply c := by
    rw [← Option.some.inj heffect, Effect.apply_unchanged]
  unfold act
  unfold effectOn at heffect
  cases hop : x.op with
  | add =>
    rw [hop] at heffect
    exact hupdate (fun _ => rfl) heffect
  | sub =>
    rw [hop] at heffect
    exact hupdate (fun _ => rfl) heffect
  | set =>
    rw [hop] at heffect
    exact hupdate (fun _ => rfl) heffect
  | print =>
    rw [hop] at heffect
    dsimp only
    split
    · rename_i j _
      rw [View.cells_emit]
      exact hsame heffect _
    · exact hsame heffect _
  | input =>
    rw [hop] at heffect
    dsimp only at heffect
    split at heffect
    · cases heffect
    · rename_i hne
      rw [View.cells_receive_of_ne hne htarget]
      exact hsame heffect _
  | _ =>
    rw [hop] at heffect
    exact hsame heffect _

namespace Machine

variable {p : Program} {start stop : Nat} {m m' : Machine} {x : Instruction}
  {target address : Int64} {rest : Option Effect}

/-- A jump changes the current cell at most. -/
theorem view_perform_of_isJump (hfault : m.fault = none) (hjump : x.op.isJump = true)
    (size : Nat) :
    (m.perform size x).view = m.view ∨ (m.perform size x).view = (m.view.update 0 (· - 1)).2 := by
  have of_looks {skipped taken : Nat} {f : View → Option Fault.Kind × View}
      (h : m.Looks (m.perform size x) skipped taken f)
      (hf : f m.view = (none, m.view) ∨ f m.view = m.view.update 0 (· - 1)) :
      (m.perform size x).view = m.view ∨
        (m.perform size x).view = (m.view.update 0 (· - 1)).2 := by
    cases hindex : m.view.index? 0 with
    | none => exact .inl (congrArg Prod.snd (h.outOfBounds hindex))
    | some i =>
      by_cases hcell : m.view.cells i = 0
      · exact .inl (congrArg Prod.snd (h.zero i hindex hcell).1)
      · have hreport := congrArg Prod.snd (h.nonzero i hindex hcell).1
        exact hf.imp (fun hf => hreport.trans (congrArg Prod.snd hf))
          (fun hf => hreport.trans (congrArg Prod.snd hf))
  cases hopen : x.op.isOpen with
  | true =>
    obtain ⟨kind, hop⟩ := Opcode.exists_opens hopen
    refine of_looks (looks_opens hfault size hop) ?_
    cases kind with
    | tested => exact .inl rfl
    | counted => exact .inr rfl
  | false =>
    obtain ⟨kind, hop⟩ := Opcode.exists_closes hjump hopen
    exact of_looks (looks_closes hfault size hop) (.inl rfl)

/-- A jump leaves the data pointer and all other cells alone. -/
theorem eq_perform_of_isJump (hfault : m.fault = none) (hjump : x.op.isJump = true)
    (hne : target ≠ 0) (htarget : 0 ≤ m.dp + target) (size : Nat) :
    (m.perform size x).dp = m.dp ∧
      (m.perform size x).tape.cell (m.dp + target).toNatClampNeg =
        m.tape.cell (m.dp + target).toNatClampNeg := by
  rcases view_perform_of_isJump hfault hjump size with hview | hview
  · exact ⟨congrArg View.dp hview, congrFun (congrArg View.cells hview) _⟩
  · refine ⟨(congrArg View.dp hview).trans (View.dp_update ..), ?_⟩
    exact (congrFun (congrArg View.cells hview) _).trans
      (View.cells_update_of_ne (v := m.view) (Ne.symm hne) htarget _)

end Machine

/-! ## Steps in a span -/

/-- What asks for the current cell in such a place asks for another one. -/
theorem Program.Unseen.ne_zero {p : Program} {start stop i : Nat} {x : Instruction}
    {target : Int64} {rest : Option Effect} (h : p.Unseen start stop i target rest)
    (horderly : p.Orderly) (hlt : i < stop) (hx : p[i]? = some x)
    (hasks : Machine.Asks x) : target ≠ 0 := by
  cases hjump : x.op.isJump with
  | true =>
    cases hopen : x.op.isOpen with
    | true =>
      obtain ⟨kind, hop⟩ := Opcode.exists_opens hopen
      exact (h.opens horderly hlt hx hop).1
    | false =>
      obtain ⟨kind, hop⟩ := Opcode.exists_closes hjump hopen
      exact (h.closes horderly hlt hx hop).1
  | false =>
    have hop : x.op = .print := hasks.resolve_right (by rw [hjump]; exact Bool.false_ne_true)
    simpa [Instruction.observes, hop] using (h.instr hlt hx hjump).1

namespace Machine

/-- The machine will not look at the cell at an address of its band while it stays in the span. If
`value` is given, this is what the cell will hold at the end of the span. -/
structure Spares (p : Program) (start stop : Nat) (address : Int64) (value : Option Cell)
    (m : Machine) : Prop where
  nonneg : 0 ≤ address
  inBand : address.toNatClampNeg < m.tape.size
  place : ∃ target rest, p.Unseen start stop m.ip target rest ∧ m.dp + target = address ∧
    ∀ c ∈ value, ∃ e ∈ rest, e.apply (m.tape.cell address.toNatClampNeg) = c

variable {p : Program} {start stop n : Nat} {address : Int64} {value : Option Cell}
  {m m' : Machine} {x : Instruction}

namespace Spares

/-- A machine that asks for its current cell finds there what its twin finds. -/
theorem current_eq (h : m.Spares p start stop address value) (horderly : p.Orderly)
    (hlt : m.ip < stop) (hx : p[m.ip]? = some x) (htwins : m.Twins address.toNatClampNeg m')
    (hasks : Asks x) :
    m'.current = m.current := by
  obtain ⟨target, rest, hunseen, rfl, -⟩ := h.place
  have hne := hunseen.ne_zero horderly hlt hx hasks
  refine htwins.current_eq fun hdp hsame => hne ?_
  have haddress := View.eq_of_toNatClampNeg_eq hdp h.nonneg hsame
  grind

theorem instr (h : m.Spares p start stop address value) (hfault : m.fault = none)
    (hlt : m.ip < stop) (hx : p[m.ip]? = some x) (hjump : x.op.isJump = false) :
    (m.perform p.size x).Spares p start stop address value := by
  obtain ⟨hnonneg, hband, target, rest, hunseen, rfl, hvalue⟩ := h
  obtain ⟨-, rest', hnext, heffect⟩ := hunseen.instr hlt hx hjump
  have hview : (m.perform p.size x).view = (x.act m.view).2 :=
    congrArg Prod.snd (report_perform hfault p.size hjump)
  have hdp : (m.perform p.size x).dp = m.dp + x.motion :=
    (congrArg View.dp hview).trans (x.dp_act m.view)
  refine ⟨hnonneg, Nat.lt_of_lt_of_le hband (accessed_perform m p.size x).size_le,
    target - x.motion, rest', ?_, ?_, fun c hc => ?_⟩
  · rwa [ip_perform, nextIp_of_not_isJump hjump]
  · rw [hdp]
    grind
  · obtain ⟨e, he, rfl⟩ := hvalue c hc
    obtain ⟨e₁, he₁, e₂, he₂, rfl⟩ := heffect e he
    have hindex : m.view.index? target = some (m.dp + target).toNatClampNeg := by
      rw [index?_view, if_pos ⟨hnonneg, .inl hband⟩]
    refine ⟨e₂, he₂, ?_⟩
    rw [Effect.apply_andThen]
    exact congrArg e₂.apply ((congrFun (congrArg View.cells hview) _).trans
      (Instruction.cells_act_of_index? hindex he₁))

/-- The end of a loop that starts before the span may lead there. -/
theorem jump (h : m.Spares p start stop address value) (horderly : p.Orderly)
    (hexits : p.Exits start stop) (hfault : m.fault = none) (hlt : m.ip < stop)
    (hx : p[m.ip]? = some x) (hjump : x.op.isJump = true) :
    (m.perform p.size x).ip < start ∨ (m.perform p.size x).Spares p start stop address value := by
  obtain ⟨hnonneg, hband, target, rest, hunseen, rfl, hvalue⟩ := h
  have hne := hunseen.ne_zero horderly hlt hx (.inr hjump)
  obtain ⟨hdp, hcell⟩ := eq_perform_of_isJump hfault hjump hne hnonneg p.size
  -- Only the place changes, so it remains to tell where the jump leads.
  have hplace {i : Nat} (hip : m.nextIp p.size x = i)
    (hunseen : p.Unseen start stop i target rest) :
      (m.perform p.size x).Spares p start stop (m.dp + target) value := by
    refine ⟨hnonneg, Nat.lt_of_lt_of_le hband (accessed_perform m p.size x).size_le,
      target, rest, ?_, by rw [hdp], ?_⟩
    · rwa [ip_perform, hip]
    · rwa [hcell]
  cases hopen : x.op.isOpen with
  | true =>
    obtain ⟨kind, hop⟩ := Opcode.exists_opens hopen
    obtain ⟨-, close, hloop, hbehind, hinto⟩ := hunseen.opens horderly hlt hx hop
    obtain ⟨a, ha, -, hat⟩ := hloop.opens
    obtain rfl := Option.some.inj (hx.symm.trans ha)
    by_cases hzero : m.current = 0
    · exact .inr (hplace (by simp [nextIp, hop, hzero, landing, hat]) hbehind)
    · exact .inr (hplace (by simp [nextIp, hop, hzero]) hinto)
  | false =>
    obtain ⟨kind, hop⟩ := Opcode.exists_closes hjump hopen
    obtain ⟨-, hbehind, j, htarget, hagain⟩ := hunseen.closes horderly hlt hx hop
    by_cases hzero : m.current = 0
    · exact .inr (hplace (by simp [nextIp, hop, hzero]) hbehind)
    · have hip : m.nextIp p.size x = restart kind p.size x := by simp [nextIp, hop, hzero]
      rcases hagain with hbefore | ⟨hstart, hinto⟩
      · left
        rw [ip_perform, hip]
        cases kind with
        | tested =>
          have := hexits m.ip hlt hunseen.start_le x hx hop j htarget
          rw [restart, landing, htarget]
          dsimp only
          omega
        | counted =>
          rw [restart, htarget]
          exact hbefore
      · right
        cases kind with
        | tested => exact hplace (by rw [hip, restart, landing, htarget]) hinto
        | counted => exact hplace (by rw [hip, restart, htarget]; rfl) hstart

/-- A step inside the span keeps this up, unless it leads out of the span to what is before it. -/
theorem perform (h : m.Spares p start stop address value) (horderly : p.Orderly)
    (hexits : p.Exits start stop) (hfault : m.fault = none) (hlt : m.ip < stop)
    (hx : p[m.ip]? = some x) :
    (m.perform p.size x).ip < start ∨ (m.perform p.size x).Spares p start stop address value := by
  cases hjump : x.op.isJump with
  | true => exact h.jump horderly hexits hfault hlt hx hjump
  | false => exact .inr (h.instr hfault hlt hx hjump)

/-- As long as they stay in the span, the machine and its twin take the same steps. At the end of
the span the cell holds what was foretold. -/
theorem advance (h : m.Spares p start stop address value) (horderly : p.Orderly)
    (hexits : p.Exits start stop) (htwins : m.Twins address.toNatClampNeg m')
    (hinside : ∀ j < n, start ≤ (m.advance p j).ip ∧ (m.advance p j).ip < stop) :
    (m.advance p n).Twins address.toNatClampNeg (m'.advance p n) ∧
      ((m.advance p n).ip = stop →
        ∀ c ∈ value, (m.advance p n).tape.cell address.toNatClampNeg = c) := by
  -- By induction on the steps. A step that leads out of the span in front of it is the last one.
  induction n generalizing m m' with
  | zero =>
    refine ⟨htwins, fun hend c hc => ?_⟩
    obtain ⟨target, rest, hunseen, -, hvalue⟩ := h.place
    obtain ⟨e, he, rfl⟩ := hvalue c hc
    have hip : m.ip = stop := hend
    rw [hip] at hunseen
    rw [hunseen.eq_unchanged he, Effect.apply_unchanged]
    rfl
  | succ n ih =>
    obtain ⟨hle, hlt⟩ : start ≤ m.ip ∧ m.ip < stop := hinside 0 (Nat.succ_pos n)
    rw [Machine.advance, Machine.advance, htwins.canStep_eq]
    split
    · rename_i hcan
      obtain ⟨hfault, hin⟩ : m.fault = none ∧ m.ip < p.size := by
        simpa [canStep, Option.isNone_iff_eq_none] using hcan
      have hx := Array.getElem?_eq_getElem hin
      have htwins' := htwins.step hx (h.current_eq horderly hlt hx htwins)
      have hstays (j : Nat) (hj : j < n) :
          start ≤ ((m.step p).advance p j).ip ∧ ((m.step p).advance p j).ip < stop := by
        have hstay := hinside (j + 1) (Nat.succ_lt_succ hj)
        rwa [Machine.advance, if_pos hcan] at hstay
      have hnext :=
        perform (m := m.counted) ⟨h.nonneg, h.inBand, h.place⟩ horderly hexits hfault hlt hx
      rw [← step_of_getElem? hx] at hnext
      rcases hnext with hbefore | hnext
      · cases n with
        | zero =>
          refine ⟨htwins', fun hend => ?_⟩
          have hend : (m.step p).ip = stop := hend
          omega
        | succ n => exact absurd hbefore (Nat.not_lt_of_le (hstays 0 (Nat.succ_pos n)).1)
      · exact ih hnext htwins' hstays
    · exact ⟨htwins, fun hend => absurd hend (Nat.ne_of_lt hlt)⟩

/-- What a machine that stands at the start of a span does not look at. -/
theorem of_observes {target : Int64} (hle : m.ip ≤ stop)
    (hunseen : p.observes m.ip stop target = false) (htarget : 0 ≤ m.dp + target)
    (hband : (m.dp + target).toNatClampNeg < m.tape.size) :
    m.Spares p m.ip stop (m.dp + target) ((p.effect? m.ip stop target).map fun effect =>
      effect.apply (m.tape.cell (m.dp + target).toNatClampNeg)) where
  nonneg := htarget
  inBand := hband
  place := by
    refine ⟨target, p.effect? m.ip stop target,
      .level (Nat.le_refl _) ⟨hle, .refl p m.ip, hunseen⟩ fun _ he => he, rfl, fun c hc => ?_⟩
    obtain ⟨effect, heffect, rfl⟩ := Option.map_eq_some_iff.1 hc
    exact ⟨effect, heffect, rfl⟩

end Spares

/-- The value of a cell that a span does not look at makes no difference to what a machine
does in the span. If the span is known to add something to the cell, this is added to whatever
the cell held. -/
theorem observes_sound {p : Program} (horderly : p.Orderly) {start stop : Nat}
    (hexits : p.Exits start stop) {target : Int64}
    (hunseen : p.observes start stop target = false) {m m' : Machine} (hip : m.ip = start)
    (htarget : 0 ≤ m.dp + target) (hband : (m.dp + target).toNatClampNeg < m.tape.size)
    (htwins : m.Twins (m.dp + target).toNatClampNeg m') {n : Nat}
    (hinside : ∀ j < n, start ≤ (m.advance p j).ip ∧ (m.advance p j).ip < stop) :
    (m.advance p n).Twins (m.dp + target).toNatClampNeg (m'.advance p n) ∧
      ∀ amount, (m.advance p n).ip = stop → p.effect? start stop target = some (.adds amount) →
        (m.advance p n).tape.cell (m.dp + target).toNatClampNeg =
            m.tape.cell (m.dp + target).toNatClampNeg + Cell.ofAmount amount ∧
          (m'.advance p n).tape.cell (m.dp + target).toNatClampNeg =
            m'.tape.cell (m.dp + target).toNatClampNeg + Cell.ofAmount amount := by
  subst hip
  rcases Nat.lt_or_ge stop m.ip with hlt | hle
  -- A span that ends before it begins: the machine is outside of it at once.
  · cases n with
    | zero => exact ⟨htwins, fun _ hend => absurd hend (Nat.ne_of_gt hlt)⟩
    | succ n =>
      obtain ⟨hle, hlt'⟩ : m.ip ≤ m.ip ∧ m.ip < stop := hinside 0 (Nat.succ_pos n)
      exact absurd hlt' (Nat.lt_asymm hlt)
  · have hspares := Spares.of_observes hle hunseen htarget hband
    have hlockstep (j : Nat) (hj : j ≤ n) :=
      hspares.advance horderly hexits htwins fun i hi => hinside i (Nat.lt_of_lt_of_le hi hj)
    have hip' (j : Nat) (hj : j ≤ n) := (hlockstep j hj).1.ip_eq
    refine ⟨(hlockstep n (Nat.le_refl n)).1, fun amount hend heffect => ⟨?_, ?_⟩⟩
    · exact (hlockstep n (Nat.le_refl n)).2 hend _ (Option.map_eq_some_iff.2 ⟨_, heffect, rfl⟩)
    · obtain ⟨t, rfl, ht⟩ := htwins
      have hspares' :=
        Spares.of_observes (m := m.onTape t) hle hunseen htarget (by rwa [← ht.size] at hband)
      have hvalue := (hspares'.advance horderly hexits (.refl _ _) fun j hj => by
        rw [hip' j (Nat.le_of_lt hj)]
        exact hinside j hj).2
      exact hvalue ((hip' n (Nat.le_refl n)).trans hend) _
        (Option.map_eq_some_iff.2 ⟨_, heffect, rfl⟩)

/-- The first cell at the start of the counted loop, which does not look at it. -/
theorem observes_sound_of_staggered :
    let m : Machine := { ip := 2, dp := 1, tape := ⟨#[1, 2, 0], false⟩ }
    let m' : Machine := { ip := 2, dp := 1, tape := ⟨#[9, 2, 0], false⟩ }
    Program.staggered.observes 2 7 (-1) = false ∧
      (m.advance Program.staggered 8).Twins 0 (m'.advance Program.staggered 8) ∧
      (m.advance Program.staggered 8).tape.cell 0 = 1 + Cell.ofAmount (-1) ∧
      (m'.advance Program.staggered 8).tape.cell 0 = 9 + Cell.ofAmount (-1) := by
  intro m m'
  have hunseen : Program.staggered.observes 2 7 (-1) = false := by decide +kernel
  have haddress : (m.dp + -1).toNatClampNeg = 0 := by decide
  have htwins : m.Twins (m.dp + -1).toNatClampNeg m' := by
    rw [haddress]
    refine ⟨⟨#[9, 2, 0], false⟩, rfl, rfl, rfl, fun j hj => ?_⟩
    obtain ⟨j, rfl⟩ := Nat.exists_eq_succ_of_ne_zero hj
    simp [m, Tape.cell]
  obtain ⟨hlockstep, hvalue⟩ :=
    observes_sound Program.orderly_staggered (by decide +kernel) hunseen rfl
    (by decide) (by decide) htwins (n := 8) (by decide +kernel)
  rw [haddress] at hlockstep hvalue
  exact ⟨hunseen, hlockstep, hvalue (-1) (by decide +kernel) (by decide +kernel)⟩

end Machine

end TapeCode
