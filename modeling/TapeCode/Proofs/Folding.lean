import TapeCode.Proofs.Block.Fused
import TapeCode.Proofs.Block.Rules
import TapeCode.Proofs.Optimization

/-!
# Folding two instructions into one

Adjacent inverse instructions are folded into their difference, equal ones into their sum. The sum
is taken in 32 bits. This is exact for what is added to a cell, since a cell keeps eight of them,
but a motion goes as far as it counts: where the sum of two counts does not fit, the folded motion
falls short by the carry (`Instruction.carry`).

`Instruction.act_merged` and `Instruction.act_difference` tell what one instruction does in place
of two, `Machine.report_advance_line` puts this into the slots of a program, and `folded_iff`
states that the program after the fold agrees with the one before exactly if there is no carry.
-/

namespace TapeCode

namespace Instruction

/-! ## The carry of a sum of counts -/

theorem signed_add_of_le {a b : UInt32} (h : 2 ^ 32 ≤ a.toNat + b.toNat) :
    signed a + signed b = signed (a + b) + 4294967296 := by
  have sum : a.toUInt64 + b.toUInt64 = (a + b).toUInt64 + 4294967296 := by
    apply UInt64.toNat_inj.1
    have := a.toNat_lt
    have := b.toNat_lt
    simp only [UInt32.toNat_toUInt64, UInt32.toNat_add, UInt64.toNat_add, UInt64.toNat_ofNat]
    omega
  rw [signed, signed, ← UInt64.toInt64_add, sum, UInt64.toInt64_add]
  rfl

/-- How far two motions to one side go beyond the motion by the 32-bit sum of their counts; zero
for all other instructions. -/
def carry (first second : Instruction) : Int64 :=
  if first.op = second.op ∧ 2 ^ 32 ≤ first.arg.toNat + second.arg.toNat then
    match first.op with
    | .move .right => 4294967296
    | .move .left => -4294967296
    | _ => 0
  else 0

section Pair

variable {a b : Instruction} {v w u : View}

theorem carry_eq_zero_iff : carry a b = 0 ↔
    ¬ (a.op.isMotion = true ∧ a.op = b.op ∧ 2 ^ 32 ≤ a.arg.toNat + b.arg.toNat) := by
  unfold carry
  split
  · rename_i hoverflow
    cases hop : a.op with
    | move side =>
      have hne : ¬ ((4294967296 : Int64) = 0 ∨ (-4294967296 : Int64) = 0) := by decide
      cases side <;> simp_all [Opcode.isMotion]
    | _ => simp [Opcode.isMotion]
  · rename_i hfits
    exact ⟨fun _ h => hfits h.2, fun _ => rfl⟩

/-- Two motions to one side go as far as the motion by the sum of their counts, and the carry. -/
theorem amount_add_of_isMotion (hop : a.op = b.op) (hmotion : a.op.isMotion = true) :
    a.amount + b.amount = { a with arg := a.arg + b.arg }.amount + carry a b := by
  rcases Nat.lt_or_ge (a.arg.toNat + b.arg.toNat) (2 ^ 32) with hfits | hoverflow
  · rw [carry_eq_zero_iff.2 fun h => absurd h.2.2 (Nat.not_le.2 hfits), Int64.add_zero,
      amount_merge hop hfits]
  · have hsum := signed_add_of_le hoverflow
    cases ha : a.op with
    | move side =>
      have hb : b.op = .move side := hop ▸ ha
      rw [carry, if_pos ⟨hop, hoverflow⟩]
      cases side <;> simp only [amount, ha, hb] <;> grind
    | _ => rw [ha] at hmotion; cases hmotion

/-- Where two equal instructions go through, their sum does the same and falls short
by the carry. -/
theorem act_merged (hdist : a.dist = b.dist) (hop : a.op = b.op)
    (hagg : a.op.isAggregatable = true) (hfirst : a.act v = (none, w))
    (hsecond : b.act w = (none, u)) :
    { a with arg := a.arg + b.arg }.act v = (none, { u with dp := u.dp - carry a b }) := by
  rcases Opcode.isMotion_or_isArithmetic_of_isAggregatable hagg with ha | ha
  · rw [act_of_isMotion ha] at hfirst
    obtain rfl := (Prod.mk.inj hfirst).2
    rw [act_of_isMotion (hop ▸ ha)] at hsecond
    obtain rfl := (Prod.mk.inj hsecond).2
    rw [act_of_isMotion (x := { a with arg := a.arg + b.arg }) ha]
    have hamount := amount_add_of_isMotion hop ha
    refine congrArg (Prod.mk none) (View.ext ?_ rfl rfl rfl rfl)
    simp only [Int64.add_assoc, hamount, Int64.sub_eq_add_neg, Int64.add_right_neg,
      Int64.add_zero]
  · have hmotion : a.op.isMotion = false := by
      revert ha
      cases a.op <;> simp [Opcode.isMotion, Opcode.isArithmetic]
    rw [carry_eq_zero_iff.2 (by simp [hmotion]), Int64.sub_zero]
    exact act_arithmetic ha (hop ▸ ha) (y := { a with arg := _ }) ha (offset_congr hop hdist)
      (offset_congr rfl rfl) (change_merge hop ha) hfirst hsecond

/-- Inverse instructions have no carry. -/
theorem carry_of_inverse? (hinv : a.op.inverse? = some b.op) : carry a b = 0 :=
  carry_eq_zero_iff.2 fun h => a.op.inverse?_ne_self (by rw [hinv, h.2.1])

end Pair

end Instruction

/-! ## The fold -/

/-- The instruction that a fold leaves of two. -/
inductive Folds : Instruction → Instruction → Instruction → Prop
  | difference {a b : Instruction} : a.dist = b.dist → a.op.inverse? = some b.op →
    Folds a b (Window.difference a b)
  | sum {a b : Instruction} : a.dist = b.dist → a.op = b.op → a.op.isAggregatable = true →
    Folds a b { a with arg := a.arg + b.arg }

namespace Folds

variable {a b y : Instruction}

theorem isJump_eq_false (h : Folds a b y) :
    a.op.isJump = false ∧ b.op.isJump = false ∧ y.op.isJump = false := by
  cases h with
  | difference hdist hinv =>
    have ha := Opcode.isJump_of_inverse? hinv
    have hb := Opcode.isJump_of_inverse? (Opcode.inverse?_symm hinv)
    refine ⟨ha, hb, ?_⟩
    rcases difference_cases hdist hinv with ⟨hnop, -⟩ | ⟨hop | hop, -⟩
    · rw [hnop]; rfl
    · rwa [hop]
    · rwa [hop]
  | sum hdist hop hagg =>
    have ha := Opcode.isJump_of_isAggregatable hagg
    exact ⟨ha, hop ▸ ha, ha⟩

/-- Where two instructions go through, the one that a fold leaves of them does the same and falls
short by the carry. -/
theorem act_eq (h : Folds a b y) {v u : View} (hall : Instruction.actAll [a, b] v = (none, u)) :
    y.act v = (none, { u with dp := u.dp - a.carry b }) := by
  obtain ⟨w, hfirst, hrest⟩ := Instruction.actAll_cons hall
  have hsecond := Instruction.actAll_singleton hrest
  cases h with
  | difference hdist hinv =>
    rw [Instruction.carry_of_inverse? hinv, Int64.sub_zero]
    exact Instruction.act_difference hdist hinv hfirst hsecond
  | sum hdist hop hagg => exact Instruction.act_merged hdist hop hagg hfirst hsecond

end Folds

namespace Program

variable {p q : Program} {i : Nat}

/-- The carry of the instructions at an index and behind it. -/
def carryAt (p : Program) (i : Nat) : Int64 :=
  match p[i]?, p[i + 1]? with
  | some first, some second => first.carry second
  | _, _ => 0

/-- The slots before and after a fold. -/
theorem exists_folds (h : Rule.inverseFold.applyAt? p i = some q) :
    ∃ a b y, Folds a b y ∧ p[i]? = some a ∧ p[i + 1]? = some b ∧ q[i]? = some y ∧
      q[i + 1]? = some .nop := by
  obtain ⟨edit, hedit, rfl⟩ := Option.map_eq_some_iff.1 h
  have hedit : Window.inverseFold? p i = some edit := hedit
  have shrunk {b : Instruction} (y : Instruction) (hb : p[i + 1]? = some b) :
      (Edit.apply { start := i + 1, stop := i + 2, writes := [(i, y)] } p)[i]? = some y ∧
        (Edit.apply { start := i + 1, stop := i + 2, writes := [(i, y)] } p)[i + 1]? =
          some .nop := by
    have hsize := (Array.getElem?_eq_some_iff.1 hb).1
    have hslots :=
      getElem?_shrunk (y := y) (show i < i + 2 by omega) (show i + 2 ≤ p.size by omega)
    exact ⟨by rw [hslots, if_pos rfl], by rw [hslots, if_neg (by omega), if_pos (by omega)]⟩
  unfold Window.inverseFold? at hedit
  split at hedit
  · rename_i a b ha hb
    split at hedit
    · cases hedit
    · rename_i hdist
      have hdist := Decidable.of_not_not hdist
      split at hedit
      · rename_i hinv
        cases hedit
        exact ⟨a, b, _, .difference hdist hinv, ha, hb, shrunk _ hb⟩
      · split at hedit
        · rename_i hagg
          cases hedit
          exact ⟨a, b, _, .sum hdist hagg.1 hagg.2, ha, hb, shrunk _ hb⟩
        · cases hedit
  · cases hedit

end Program

/-! ## Runs over the two slots -/

/-- A machine that runs over instructions other than jumps, one behind the other, without a fault
does what they do in a row. -/
theorem Machine.report_advance_line {p : Program} (xs : List Instruction) {m : Machine}
    (hslots : ∀ k x, xs[k]? = some x → p[m.ip + k]? = some x)
    (hjump : ∀ x ∈ xs, x.op.isJump = false) (hfault : m.fault = none) :
    (m.advance p xs.length).report = Instruction.actAll xs m.view := by
  induction xs generalizing m with
  | nil => exact report_eq hfault rfl
  | cons x xs ih =>
    have hx : p[m.ip]? = some x := hslots 0 x rfl
    have hstays := hjump x List.mem_cons_self
    have hreport : (m.counted.perform p.size x).report = x.act m.view :=
      report_perform (m := m.counted) hfault p.size hstays
    have hip : (m.counted.perform p.size x).ip = m.ip + 1 :=
      congrArg Prod.fst (control_perform m.counted p.size hstays)
    rw [List.length_cons, Nat.add_comm, advance_add, (takes_step hfault hx).advance,
      Instruction.actAll]
    cases hact : (x.act m.view).1 with
    | some fault =>
      -- The machine stops at the fault, and so does the row.
      obtain ⟨cause, hcause, -⟩ : ∃ cause, (m.counted.perform p.size x).fault = some cause ∧
          cause.kind = fault := Option.map_eq_some_iff.1 ((congrArg Prod.fst hreport).trans hact)
      rw [advance_of_fault hcause, hreport]
      exact Prod.ext hact rfl
    | none =>
      obtain ⟨hnext, hview⟩ := fault_eq_none_of_report (hreport.trans (Prod.ext hact rfl))
      rw [ih (fun k y hy => ?_) (fun y hy => hjump y (List.mem_cons_of_mem x hy)) hnext, hview]
      rw [hip, Nat.add_right_comm, Nat.add_assoc]
      exact hslots (k + 1) y hy

/-- Where two slots are folded, a machine that passes through them without a fault passes through
what is left of them without a fault, with the same cells and streams. It ends at the same data
pointer less the carry, and so agrees exactly if there is none. -/
theorem folded_iff {p q : Program} {i : Nat} (h : Rule.inverseFold.applyAt? p i = some q)
    {m : Machine} (hip : m.ip = i) (hrun : (m.advance p 2).fault = none) :
    (m.advance q 2).fault = none ∧
      (∀ j, (m.advance q 2).tape.cell j = (m.advance p 2).tape.cell j) ∧
      (m.advance q 2).input = (m.advance p 2).input ∧
      (m.advance q 2).output = (m.advance p 2).output ∧
      (m.advance q 2).dp = (m.advance p 2).dp - p.carryAt i ∧
      ((m.advance p 2).Agrees (m.advance q 2) ↔ p.carryAt i = 0) := by
  subst hip
  obtain ⟨a, b, y, hfolds, ha, hb, hy, hnop⟩ := Program.exists_folds h
  obtain ⟨hja, hjb, hjy⟩ := hfolds.isJump_eq_false
  have hfault := Machine.fault_eq_none_of_advance hrun
  have hcarry : p.carryAt m.ip = a.carry b := by simp only [Program.carryAt, ha, hb]
  have hbefore : (m.advance p 2).report = Instruction.actAll [a, b] m.view := by
    refine Machine.report_advance_line [a, b] (fun k x hx => ?_) (by simp [hja, hjb]) hfault
    match k with
    | 0 => exact ha.trans hx
    | 1 => exact hb.trans hx
  have hafter : (m.advance q 2).report = Instruction.actAll [y, .nop] m.view := by
    refine Machine.report_advance_line [y, .nop] (fun k x hx => ?_) (by simp [hjy]; rfl) hfault
    match k with
    | 0 => exact hy.trans hx
    | 1 => exact hnop.trans hx
  have hall : Instruction.actAll [a, b] m.view = (none, (m.advance p 2).view) := by
    rw [← hbefore, Machine.report, hrun]
    rfl
  rw [Instruction.actAll, hfolds.act_eq hall, ← hcarry] at hafter
  obtain ⟨hnone, hview⟩ := Machine.fault_eq_none_of_report hafter
  have hdp : (m.advance q 2).dp = (m.advance p 2).dp - p.carryAt m.ip := congrArg (·.dp) hview
  refine ⟨hnone, congrFun (congrArg (·.cells) hview), congrArg (·.input) hview,
    congrArg (·.output) hview, hdp, fun hagrees => ?_, fun hzero => ?_⟩
  · have hsame := hagrees.dp
    grind
  · rw [hzero, Int64.sub_zero] at hview
    exact Machine.agrees_of_view hview.symm

/-- Two motions to the right that go 4294967296 cells together. -/
def Program.farRight : Program :=
  #[⟨.move .right, 4294967295, 0⟩, ⟨.move .right, 1, 0⟩]

/-- Two motions whose counts fit are folded exactly; those of `Program.farRight` fall short by
their whole way. -/
theorem folded_iff_of_motions :
    ((Machine.advance #[⟨.move .right, 3, 0⟩, ⟨.move .right, 4, 0⟩] 2
      { tape := ⟨#[0], false⟩ }).Agrees
        (Machine.advance #[⟨.move .right, 7, 0⟩, .nop] 2 { tape := ⟨#[0], false⟩ })) ∧
      (Machine.advance #[⟨.move .right, 0, 0⟩, .nop] 2 { tape := ⟨#[0], false⟩ }).dp =
        (Machine.advance Program.farRight 2 { tape := ⟨#[0], false⟩ }).dp - 4294967296 := by
  have hexact := folded_iff (p := #[⟨.move .right, 3, 0⟩, ⟨.move .right, 4, 0⟩]) (i := 0)
    (q := #[⟨.move .right, 7, 0⟩, .nop]) (by decide +kernel) (m := { tape := ⟨#[0], false⟩ })
      rfl (by decide)
  have hshort := folded_iff (p := Program.farRight) (i := 0) (q := #[⟨.move .right, 0, 0⟩, .nop])
    (by decide +kernel) (m := { tape := ⟨#[0], false⟩ }) rfl (by decide)
  have hfits : Program.carryAt #[⟨.move .right, 3, 0⟩, ⟨.move .right, 4, 0⟩] 0 = 0 := by decide
  have hcarry : Program.farRight.carryAt 0 = 4294967296 := by decide
  exact ⟨hexact.2.2.2.2.2.2 hfits, hcarry ▸ hshort.2.2.2.2.1⟩

/-- Not every fold keeps the data pointer: the one of `Program.farRight` does not. -/
theorem not_agrees_of_farRight :
    ¬ ∀ (p q : Program) (i : Nat), Rule.inverseFold.applyAt? p i = some q →
      ∀ m : Machine, m.ip = i → (m.advance p 2).fault = none →
        (m.advance q 2).fault = none ∧ (m.advance q 2).dp = (m.advance p 2).dp ∧
          ∀ j, (m.advance q 2).tape.cell j = (m.advance p 2).tape.cell j := by
  intro h
  obtain ⟨-, hdp, -⟩ := h Program.farRight #[⟨.move .right, 0, 0⟩, .nop] 0 (by decide +kernel)
    { tape := ⟨#[0], false⟩ } rfl (by decide)
  exact absurd hdp (by decide)

end TapeCode
