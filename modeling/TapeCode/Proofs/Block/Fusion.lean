import Mathlib.Algebra.Group.Nat.Defs
import TapeCode.Proofs.Block.Analysis
import TapeCode.Window.Aside

/-!
# Fusing a run of instructions

`Fuses xs y` says that the instructions `xs`, which stand one behind the other, may be replaced by
the single instruction `y`: inverse instructions cancel, equal ones merge, a change between a
motion and its way back is made aside, an assignment overrides those before it and takes in the
arithmetic behind it. A fusion never makes counts larger (`Fuses.load_le`) and changes no analysis
(`Fuses.motion_eq`, `Fuses.effectFrom_eq`), as long as the counts that are added up fit into an
operand.
-/

namespace TapeCode

/-- An aggregatable opcode is a motion or arithmetic. -/
theorem Opcode.isMotion_or_isArithmetic_of_isAggregatable {op : Opcode}
    (h : op.isAggregatable = true) : op.isMotion = true ∨ op.isArithmetic = true := by
  cases op <;> simp_all [isAggregatable, isMotion, isArithmetic]

/-- No opcode is its own inverse. -/
theorem Opcode.inverse?_ne_self (op : Opcode) : op.inverse? ≠ some op := by
  cases op with
  | move side => cases side <;> simp [inverse?, Direction.opposite]
  | _ => simp [inverse?]

/-! ## Operands as signed numbers -/

namespace Instruction

theorem signed_add_of_lt {a b : UInt32} (h : a.toNat + b.toNat < 2 ^ 32) :
    signed (a + b) = signed a + signed b := by
  have sum : (a + b).toUInt64 = a.toUInt64 + b.toUInt64 := by
    apply UInt64.toNat_inj.1
    have := a.toNat_lt
    have := b.toNat_lt
    simp only [UInt32.toNat_toUInt64, UInt32.toNat_add, UInt64.toNat_add]
    omega
  rw [signed, sum, UInt64.toInt64_add, signed, signed]

theorem signed_sub_of_le {a b : UInt32} (h : b ≤ a) :
    signed (a - b) = signed a - signed b := by
  have difference : (a - b).toUInt64 = a.toUInt64 - b.toUInt64 := by
    apply UInt64.toNat_inj.1
    have hle : b.toNat ≤ a.toNat := h
    have := a.toNat_lt
    rw [UInt32.toNat_toUInt64, UInt32.toNat_sub_of_le _ _ h, UInt64.toNat_sub_of_le,
      UInt32.toNat_toUInt64, UInt32.toNat_toUInt64]
    rw [UInt64.le_iff_toNat_le, UInt32.toNat_toUInt64, UInt32.toNat_toUInt64]
    exact hle
  rw [signed, difference, UInt64.toInt64_sub, signed, signed]

/-- An offset depends on the opcode and the distance only. -/
theorem offset_congr {a b : Instruction} (hop : a.op = b.op) (hdist : a.dist = b.dist) :
    a.offset = b.offset := by
  obtain ⟨aop, aarg, adist⟩ := a
  obtain ⟨bop, barg, bdist⟩ := b
  obtain rfl : aop = bop := hop
  obtain rfl : adist = bdist := hdist
  rfl

/-- Equal instructions merged have the amount of both, if their counts fit into an operand. -/
theorem amount_merge {a b : Instruction} (hop : a.op = b.op)
    (h : a.arg.toNat + b.arg.toNat < 2 ^ 32) :
    { a with arg := a.arg + b.arg }.amount = a.amount + b.amount := by
  have hsum := signed_add_of_lt h
  cases ha : a.op <;> simp only [amount, ← hop, ha, hsum, Int64.add_zero]
  all_goals
    try split
  all_goals grind

end Instruction

namespace Cell

theorem ofAmount_add (a b : Int64) : ofAmount (a + b) = ofAmount a + ofAmount b := by
  simp [ofAmount]

@[simp] theorem ofAmount_zero : ofAmount 0 = 0 := rfl

theorem ofAmount_neg (a : Int64) : ofAmount (-a) = -ofAmount a := by
  simp [ofAmount]

/-- An operand acts on a cell by its last byte. -/
theorem ofAmount_signed (a : UInt32) : ofAmount (Instruction.signed a) = a.toUInt8 := by
  simp [ofAmount, Instruction.signed]

end Cell

namespace Effect

@[simp] theorem andThen_adds_zero (e : Effect) : e.andThen (adds 0) = e := by
  cases e <;> simp [andThen]

theorem andThen_adds_adds (e : Effect) (a b : Int64) :
    (e.andThen (adds a)).andThen (adds b) = e.andThen (adds (a + b)) := by
  cases e <;> simp [andThen, Cell.ofAmount_add, Int64.add_assoc, UInt8.add_assoc]

end Effect

/-! ## Counts -/

/-- The count of a motion, and of arithmetic if it is asked for; zero for
every other instruction. -/
def Instruction.load (arithmetic : Bool) (x : Instruction) : Nat :=
  if x.op.isMotion || (arithmetic && x.op.isArithmetic) then x.arg.toNat else 0

/-- The counts in a block added up. -/
def Block.load (arithmetic : Bool) : Block → Nat
  | done => 0
  | instr x rest => x.load arithmetic + rest.load arithmetic
  | loop _ body rest => body.load arithmetic + rest.load arithmetic
  | stub _ rest => rest.load arithmetic

@[simp] theorem Instruction.load_nop (arithmetic : Bool) :
    Instruction.nop.load arithmetic = 0 := by
  cases arithmetic <;> rfl

@[simp] theorem Block.load_nops (arithmetic : Bool) (n : Nat) (rest : Block) :
    (nops n rest).load arithmetic = rest.load arithmetic := by
  induction n with
  | zero => rfl
  | succ n ih => simp [load, ih]

/-- Motions alone count less than motions and arithmetic. -/
theorem Block.load_false_le (block : Block) (arithmetic : Bool) :
    block.load false ≤ block.load arithmetic := by
  induction block with
  | done => exact Nat.le_refl _
  | instr x rest ih =>
    have : x.load false ≤ x.load arithmetic := by
      cases hm : x.op.isMotion <;> simp [Instruction.load, hm]
    exact Nat.add_le_add this ih
  | loop kind body rest ihBody ihRest => exact Nat.add_le_add ihBody ihRest
  | stub kind rest ih => exact ih

/-! ## Fusions -/

/-- A run of instructions may be replaced by one instruction. -/
inductive Fuses : List Instruction → Instruction → Prop
  | cancel {a b : Instruction} : a.dist = b.dist → a.op.inverse? = some b.op →
    Fuses [a, b] (Window.difference a b)
  | merge {a b : Instruction} : a.dist = b.dist → a.op = b.op → a.op.isAggregatable = true →
    Fuses [a, b] { a with arg := a.arg + b.arg }
  | aside {there middle back : Instruction} {side : Direction} {change : Place → Opcode} :
    change = .add ∨ change = .sub ∨ change = .set → there.op = .move side →
    middle.op = change .here → back.op = .move side.opposite → there.arg = back.arg →
    Fuses [there, middle, back] ⟨change (.aside side), middle.arg, there.arg⟩
  | overwrite {first last : Instruction} {between : List Instruction} : first.op.isSet = true →
    (∀ x ∈ between ++ [last], x.op = first.op ∧ x.dist = first.dist) →
    Fuses (first :: (between ++ [last])) { first with arg := last.arg }
  | absorb {first second : Instruction} {place : Place} : first.op = .set place →
    second.op = .add place ∨ second.op = .sub place → first.dist = second.dist →
    Fuses [first, second] { first with arg := (first.value + second.change).toUInt32 }

/-! ## What is left of two inverse instructions -/

section Difference

variable {a b : Instruction}

/-- Of two inverse instructions one adds what it counts and the other takes it away. -/
theorem amount_of_inverse? (hinv : a.op.inverse? = some b.op) :
    (∀ x : Instruction, (x.op = a.op → x.amount = Instruction.signed x.arg) ∧
        (x.op = b.op → x.amount = -Instruction.signed x.arg)) ∨
      ∀ x : Instruction, (x.op = a.op → x.amount = -Instruction.signed x.arg) ∧
        (x.op = b.op → x.amount = Instruction.signed x.arg) := by
  cases hop : a.op with
  | move side =>
    rw [hop] at hinv
    obtain hb : _ = b.op := Option.some.inj hinv
    cases side
    · exact .inr fun x => ⟨fun h => by simp [Instruction.amount, h],
        fun h => by simp [Instruction.amount, h, ← hb, Direction.opposite]⟩
    · exact .inl fun x => ⟨fun h => by simp [Instruction.amount, h],
        fun h => by simp [Instruction.amount, h, ← hb, Direction.opposite]⟩
  | add place =>
    rw [hop] at hinv
    obtain hb : _ = b.op := Option.some.inj hinv
    exact .inl fun x => ⟨fun h => by simp [Instruction.amount, h],
      fun h => by simp [Instruction.amount, h, ← hb]⟩
  | sub place =>
    rw [hop] at hinv
    obtain hb : _ = b.op := Option.some.inj hinv
    exact .inr fun x => ⟨fun h => by simp [Instruction.amount, h],
      fun h => by simp [Instruction.amount, h, ← hb]⟩
  | _ => rw [hop] at hinv; cases hinv

/-- What is left of two inverse instructions is nothing, if they cancel, or else one of them with
the amount of both. -/
theorem difference_cases (hdist : a.dist = b.dist) (hinv : a.op.inverse? = some b.op) :
    (Window.difference a b = .nop ∧ a.amount + b.amount = 0) ∨
      (((Window.difference a b).op = a.op ∨ (Window.difference a b).op = b.op) ∧
        (Window.difference a b).dist = a.dist ∧
        (Window.difference a b).amount = a.amount + b.amount) := by
  have amounts := amount_of_inverse? hinv
  unfold Window.difference
  split
  · rename_i heq
    refine .inl ⟨rfl, ?_⟩
    rcases amounts with h | h <;> rw [(h a).1 rfl, (h b).2 rfl, heq] <;> grind
  · split
    · rename_i hlt
      have hle : a.arg ≤ b.arg := Nat.le_of_lt hlt
      refine .inr ⟨.inr rfl, hdist.symm, ?_⟩
      rcases amounts with h | h <;>
        rw [(h a).1 rfl, (h b).2 rfl, (h { b with arg := b.arg - a.arg }).2 rfl,
          Instruction.signed_sub_of_le hle] <;> grind
    · rename_i hge
      have hle : b.arg ≤ a.arg := Nat.le_of_not_lt hge
      refine .inr ⟨.inl rfl, rfl, ?_⟩
      rcases amounts with h | h <;>
        rw [(h a).1 rfl, (h b).2 rfl, (h { a with arg := a.arg - b.arg }).1 rfl,
          Instruction.signed_sub_of_le hle] <;> grind

/-- Inverse instructions are both motions or both arithmetic. -/
theorem isMotion_or_isArithmetic_of_inverse? (hinv : a.op.inverse? = some b.op) :
    (a.op.isMotion = true ∧ b.op.isMotion = true) ∨
      (a.op.isArithmetic = true ∧ b.op.isArithmetic = true) := by
  cases ha : a.op <;> cases hb : b.op <;> rw [ha, hb] at hinv <;> cases hinv <;>
    simp [Opcode.isMotion, Opcode.isArithmetic]

theorem load_difference_le (a b : Instruction) (arithmetic : Bool) :
    (Window.difference a b).load arithmetic ≤ a.load arithmetic + b.load arithmetic := by
  unfold Window.difference
  split
  · simp
  · split
    · rename_i _ hlt
      have hle : (b.arg - a.arg).toNat ≤ b.arg.toNat := by
        rw [UInt32.toNat_sub_of_le _ _ (Nat.le_of_lt hlt)]
        exact Nat.sub_le ..
      simp only [Instruction.load]
      split <;> omega
    · rename_i _ hge
      have hle : (a.arg - b.arg).toNat ≤ a.arg.toNat := by
        rw [UInt32.toNat_sub_of_le _ _ (Nat.le_of_not_lt hge)]
        exact Nat.sub_le ..
      simp only [Instruction.load]
      split <;> omega

/-- What is left of two inverse instructions moves the data pointer as far as both. -/
theorem motion_difference (hdist : a.dist = b.dist) (hinv : a.op.inverse? = some b.op) :
    (Window.difference a b).motion = a.motion + b.motion := by
  rcases isMotion_or_isArithmetic_of_inverse? hinv with ⟨ha, hb⟩ | ⟨ha, hb⟩
  · rw [Instruction.motion_of_isMotion ha, Instruction.motion_of_isMotion hb]
    rcases difference_cases hdist hinv with ⟨hnop, hzero⟩ | ⟨hop, -, hamount⟩
    · rw [hnop, hzero]
      rfl
    · have hmotion : (Window.difference a b).op.isMotion = true := by
        rcases hop with hop | hop <;> rwa [hop]
      rw [Instruction.motion_of_isMotion hmotion, hamount]
  · rw [Instruction.motion_of_isArithmetic ha, Instruction.motion_of_isArithmetic hb]
    rcases difference_cases hdist hinv with ⟨hnop, -⟩ | ⟨hop, -, -⟩
    · rw [hnop]
      rfl
    · have harith : (Window.difference a b).op.isArithmetic = true := by
        rcases hop with hop | hop <;> rwa [hop]
      rw [Instruction.motion_of_isArithmetic harith]
      rfl

/-- Inverse instructions with one distance address one cell. -/
theorem offset_eq_of_inverse? (hdist : a.dist = b.dist) (hinv : a.op.inverse? = some b.op) :
    a.offset = b.offset := by
  cases hop : a.op <;> rw [hop] at hinv <;> cases hb : b.op <;> rw [hb] at hinv <;> cases hinv <;>
    simp only [Instruction.offset, hop, hb]
  all_goals
    unfold Instruction.placeOffset
    rw [hdist]

end Difference

/-! ## A change between a motion and its way back -/

/-- A motion, a change of the cell it leads to and the way back, with the same
change made aside. -/
structure Excursion (there middle back aside : Instruction) : Prop where
  leaves : there.op.isMotion = true
  turns : back.op.isMotion = true
  returns : back.amount = -there.amount
  here : middle.offset = 0
  offset : aside.offset = there.amount
  same : (middle.op.isArithmetic = true ∧ aside.op.isArithmetic = true ∧
    aside.amount = middle.amount) ∨
    (middle.op.isSet = true ∧ aside.op.isSet = true ∧ aside.value = middle.value)

theorem excursion {there middle back : Instruction} {side : Direction} {change : Place → Opcode}
    (hchange : change = .add ∨ change = .sub ∨ change = .set) (hthere : there.op = .move side)
    (hmiddle : middle.op = change .here) (hback : back.op = .move side.opposite)
    (harg : there.arg = back.arg) :
    Excursion there middle back ⟨change (.aside side), middle.arg, there.arg⟩ where
  leaves := by rw [hthere]; rfl
  turns := by rw [hback]; rfl
  returns := by
    cases side <;> simp [Instruction.amount, hthere, hback, Direction.opposite, harg]
  here := by
    rcases hchange with rfl | rfl | rfl <;>
      simp [Instruction.offset, hmiddle, Instruction.placeOffset]
  offset := by
    rcases hchange with rfl | rfl | rfl <;> cases side <;>
      simp [Instruction.amount, hthere, Instruction.offset, Instruction.placeOffset]
  same := by
    rcases hchange with rfl | rfl | rfl
    · exact .inl ⟨by rw [hmiddle]; rfl, rfl, by simp [Instruction.amount, hmiddle]⟩
    · exact .inl ⟨by rw [hmiddle]; rfl, rfl, by simp [Instruction.amount, hmiddle]⟩
    · exact .inr ⟨by rw [hmiddle]; rfl, rfl, rfl⟩

theorem Excursion.motion_middle {there middle back aside : Instruction}
    (h : Excursion there middle back aside) : middle.motion = 0 ∧ aside.motion = 0 := by
  rcases h.same with ⟨hm, ha, -⟩ | ⟨hm, ha, -⟩
  · exact ⟨Instruction.motion_of_isArithmetic hm, Instruction.motion_of_isArithmetic ha⟩
  · exact ⟨Instruction.motion_of_isSet hm, Instruction.motion_of_isSet ha⟩

/-! ## The counts of a fused run -/

/-- A fusion adds up no more than was there. -/
theorem Fuses.load_le {xs : List Instruction} {y : Instruction} (h : Fuses xs y)
    (arithmetic : Bool) : y.load arithmetic ≤ (Block.instrs xs .done).load arithmetic := by
  cases h with
  | @cancel a b hdist hinv => exact load_difference_le a b arithmetic
  | @merge a b hdist hop hagg =>
    simp only [Block.instrs_cons, Block.instrs_nil, Block.load, Instruction.load, ← hop]
    split
    · rw [UInt32.toNat_add]
      exact Nat.mod_le _ _
    · omega
  | @aside there middle back side change hchange hthere hmiddle hback harg =>
    simp only [Block.instrs_cons, Block.instrs_nil, Block.load]
    have : (⟨change (.aside side), middle.arg, there.arg⟩ : Instruction).load arithmetic =
        middle.load arithmetic := by
      rcases hchange with rfl | rfl | rfl <;>
        simp [Instruction.load, hmiddle, Opcode.isMotion, Opcode.isArithmetic]
    omega
  | @overwrite first last between hset hall =>
    have : ({ first with arg := last.arg } : Instruction).load arithmetic = 0 := by
      cases hop : first.op <;>
        simp_all [Instruction.load, Opcode.isSet, Opcode.isMotion, Opcode.isArithmetic]
    omega
  | absorb hset harith hdist =>
    simp [Instruction.load, hset, Opcode.isMotion, Opcode.isArithmetic]

/-! ## The motion of a fused run -/

section FusedMotion

variable {a b : Instruction} (rest : Block)

theorem motion_pair (a b : Instruction) :
    (Block.instrs [a, b] rest).motion = rest.motion.map (a.motion + b.motion + ·) := by
  simp [Block.motion, Function.comp_def, Int64.add_assoc]

theorem motion_merge (hop : a.op = b.op) (hload : a.load false + b.load false < 2 ^ 32) :
    { a with arg := a.arg + b.arg }.motion = a.motion + b.motion := by
  cases hm : a.op.isMotion with
  | true =>
    have hsum : a.arg.toNat + b.arg.toNat < 2 ^ 32 := by
      simpa [Instruction.load, ← hop, hm] using hload
    have hmerged : { a with arg := a.arg + b.arg }.motion =
      { a with arg := a.arg + b.arg }.amount :=
      Instruction.motion_of_isMotion hm
    rw [hmerged, Instruction.motion_of_isMotion hm, Instruction.motion_of_isMotion (hop ▸ hm),
      Instruction.amount_merge hop hsum]
  | false =>
    have hmerged : { a with arg := a.arg + b.arg }.motion = 0 := Instruction.motion_eq_zero hm
    have hb : b.op.isMotion = false := hop ▸ hm
    rw [hmerged, Instruction.motion_eq_zero hm, Instruction.motion_eq_zero hb, Int64.add_zero]

theorem motion_aside {there middle back aside : Instruction}
    (h : Excursion there middle back aside) :
    (Block.instr aside rest).motion = (Block.instrs [there, middle, back] rest).motion := by
  obtain ⟨hmiddle, haside⟩ := h.motion_middle
  simp only [Block.instrs_cons, Block.instrs_nil, Block.motion, hmiddle, haside,
    Instruction.motion_of_isMotion h.leaves, Instruction.motion_of_isMotion h.turns, h.returns,
    Option.map_map]
  congr 1
  funext moved
  simp only [Function.comp_apply]
  grind

/-- Assignments leave the data pointer where it is. -/
theorem motion_instrs_of_isSet {xs : List Instruction} (hall : ∀ x ∈ xs, x.op.isSet = true) :
    (Block.instrs xs rest).motion = rest.motion := by
  induction xs with
  | nil => rfl
  | cons x xs ih =>
    rw [Block.instrs_cons, Block.motion, ih fun x hx => hall x (List.mem_cons_of_mem _ hx),
      Instruction.motion_of_isSet (hall x List.mem_cons_self)]
    simp

end FusedMotion

/-- A fusion of the counts that fit into an operand moves the data pointer as far as
the run did. -/
theorem Fuses.motion_eq {xs : List Instruction} {y : Instruction} (h : Fuses xs y)
    (hload : (Block.instrs xs .done).load false < 2 ^ 32) (rest : Block) :
    (Block.instr y rest).motion = (Block.instrs xs rest).motion := by
  cases h with
  | @cancel a b hdist hinv => rw [motion_pair, Block.motion, motion_difference hdist hinv]
  | @merge a b hdist hop hagg =>
    rw [motion_pair, Block.motion, motion_merge hop hload]
  | aside hchange hthere hmiddle hback harg =>
    exact motion_aside rest (excursion hchange hthere hmiddle hback harg)
  | @overwrite first last between hset hall =>
    have hkept : ∀ x ∈ [{ first with arg := last.arg }], x.op.isSet = true := by
      intro x hx
      obtain rfl := List.mem_singleton.1 hx
      exact hset
    have hrun : ∀ x ∈ first :: (between ++ [last]), x.op.isSet = true := by
      intro x hx
      rcases List.mem_cons.1 hx with rfl | hx
      · exact hset
      · rw [(hall x hx).1]
        exact hset
    rw [motion_instrs_of_isSet rest hrun]
    exact motion_instrs_of_isSet rest hkept
  | @absorb first second place hset harith hdist =>
    have hsecond : second.op.isArithmetic = true := by
      rcases harith with h | h <;> rw [h] <;> rfl
    have hfirst : first.op.isSet = true := by rw [hset]; rfl
    have hkept : { first with arg := (first.value + second.change).toUInt32 }.motion = 0 :=
      Instruction.motion_of_isSet hfirst
    rw [motion_pair, Block.motion, hkept, Instruction.motion_of_isSet hfirst,
      Instruction.motion_of_isArithmetic hsecond]
    rfl

/-! ## The effect of a fused run -/

section FusedEffects

variable {a b : Instruction} (rest : Block) (target : Int64) (sofar : Effect)

theorem effectFrom_difference (hdist : a.dist = b.dist) (hinv : a.op.inverse? = some b.op) :
    (Block.instr (Window.difference a b) rest).effectFrom target sofar =
      (Block.instrs [a, b] rest).effectFrom target sofar := by
  simp only [Block.instrs_cons, Block.instrs_nil, Block.effectFrom]
  rcases isMotion_or_isArithmetic_of_inverse? hinv with ⟨ha, hb⟩ | ⟨ha, hb⟩
  · simp only [Instruction.effectOn_of_isMotion ha, Instruction.effectOn_of_isMotion hb,
      Option.bind_some, Instruction.motion_of_isMotion ha, Instruction.motion_of_isMotion hb]
    rcases difference_cases hdist hinv with ⟨hnop, hzero⟩ | ⟨hop, -, hamount⟩
    · have hback : target - a.amount - b.amount = target := by grind
      simp [hnop, hback]
    · have hmotion : (Window.difference a b).op.isMotion = true := by
        rcases hop with hop | hop <;> rwa [hop]
      have hback : target - a.amount - b.amount = target - (Window.difference a b).amount := by
        grind
      rw [Instruction.effectOn_of_isMotion hmotion, Instruction.motion_of_isMotion hmotion, hback]
      rfl
  · have hoffset := offset_eq_of_inverse? hdist hinv
    simp only [Instruction.effectOn_of_isArithmetic ha, Instruction.effectOn_of_isArithmetic hb,
      Option.bind_some, Instruction.motion_of_isArithmetic ha,
      Instruction.motion_of_isArithmetic hb, Int64.sub_zero, ← hoffset]
    rcases difference_cases hdist hinv with ⟨hnop, hzero⟩ | ⟨hop, hkept, hamount⟩
    · by_cases htarget : a.offset = target
      · simp [hnop, htarget, Effect.andThen_adds_adds, hzero]
      · simp [hnop, htarget]
    · have harith : (Window.difference a b).op.isArithmetic = true := by
        rcases hop with hop | hop <;> rwa [hop]
      have hsame : (Window.difference a b).offset = a.offset := by
        rcases hop with hop | hop
        · exact Instruction.offset_congr hop hkept
        · exact (Instruction.offset_congr hop (hkept.trans hdist)).trans hoffset.symm
      rw [Instruction.effectOn_of_isArithmetic harith, Instruction.motion_of_isArithmetic harith,
        hsame, hamount]
      by_cases htarget : a.offset = target
      · simp [htarget, Effect.andThen_adds_adds]
      · simp [htarget]

theorem effectFrom_merge (hdist : a.dist = b.dist) (hop : a.op = b.op)
    (hagg : a.op.isAggregatable = true) (hload : a.load true + b.load true < 2 ^ 32) :
    (Block.instr { a with arg := a.arg + b.arg } rest).effectFrom target sofar =
      (Block.instrs [a, b] rest).effectFrom target sofar := by
  have hb : b.op.isAggregatable = true := hop ▸ hagg
  have hsum : a.arg.toNat + b.arg.toNat < 2 ^ 32 := by
    have hcount (x : Instruction) (hx : x.op.isAggregatable = true) :
        x.load true = x.arg.toNat := by
      rcases Opcode.isMotion_or_isArithmetic_of_isAggregatable hx with h | h <;>
        simp [Instruction.load, h]
    simpa [hcount a hagg, hcount b hb] using hload
  have hamount := Instruction.amount_merge hop hsum
  simp only [Block.instrs_cons, Block.instrs_nil, Block.effectFrom]
  generalize hm : ({ a with arg := a.arg + b.arg } : Instruction) = merged at hamount ⊢
  have hmop : merged.op = a.op := by rw [← hm]
  have hmdist : merged.dist = a.dist := by rw [← hm]
  rcases Opcode.isMotion_or_isArithmetic_of_isAggregatable hagg with ha | ha
  · have hb : b.op.isMotion = true := hop ▸ ha
    have hmerged : merged.op.isMotion = true := hmop ▸ ha
    have hback : target - merged.amount = target - a.amount - b.amount := by grind
    simp only [Instruction.effectOn_of_isMotion, Instruction.motion_of_isMotion, ha, hb, hmerged,
      Option.bind_some, hback]
  · have hb : b.op.isArithmetic = true := hop ▸ ha
    have hmerged : merged.op.isArithmetic = true := hmop ▸ ha
    have hboffset : b.offset = a.offset := Instruction.offset_congr hop.symm hdist.symm
    have hmoffset : merged.offset = a.offset := Instruction.offset_congr hmop hmdist
    simp only [Instruction.effectOn_of_isArithmetic, Instruction.motion_of_isArithmetic, ha, hb,
      hmerged, Option.bind_some, Int64.sub_zero, hboffset, hmoffset, hamount]
    by_cases htarget : a.offset = target
    · simp [htarget, Effect.andThen_adds_adds]
    · simp [htarget]

theorem effectFrom_aside {there middle back aside : Instruction}
    (h : Excursion there middle back aside) :
    (Block.instr aside rest).effectFrom target sofar =
      (Block.instrs [there, middle, back] rest).effectFrom target sofar := by
  have hhome : target - there.amount - back.amount = target := by
    have := h.returns
    grind
  have hiff : (0 = target - there.amount) = (there.amount = target) := by
    apply propext
    constructor <;> intro h <;> grind
  simp only [Block.instrs_cons, Block.instrs_nil, Block.effectFrom,
    Instruction.effectOn_of_isMotion h.leaves, Instruction.effectOn_of_isMotion h.turns,
    Option.bind_some, Instruction.motion_of_isMotion h.leaves,
    Instruction.motion_of_isMotion h.turns]
  rcases h.same with ⟨hm, hr, hamount⟩ | ⟨hm, hr, hvalue⟩
  · simp only [Instruction.effectOn_of_isArithmetic, Instruction.motion_of_isArithmetic, hm, hr,
      Option.bind_some, Int64.sub_zero, h.here, hhome, hiff, h.offset, hamount]
  · simp only [Instruction.effectOn_of_isSet, Instruction.motion_of_isSet, hm, hr,
      Option.bind_some, Int64.sub_zero, h.here, hhome, hiff, h.offset, hvalue]

theorem effectFrom_overwrite {first last : Instruction} {between : List Instruction}
    (hset : first.op.isSet = true)
    (hall : ∀ x ∈ between ++ [last], x.op = first.op ∧ x.dist = first.dist) :
    (Block.instr { first with arg := last.arg } rest).effectFrom target sofar =
      (Block.instrs (first :: (between ++ [last])) rest).effectFrom target sofar := by
  have hrun (ys : List Instruction) (effect : Effect)
      (hys : ∀ x ∈ ys, x.op = first.op ∧ x.dist = first.dist) :
      (Block.instrs (ys ++ [last]) rest).effectFrom target effect =
        rest.effectFrom target
          (if first.offset = target then .assigns last.value else effect) := by
    have hlast := hall last (by simp)
    induction ys generalizing effect with
    | nil =>
      have hl : last.op.isSet = true := hlast.1 ▸ hset
      simp [Block.effectFrom, Instruction.effectOn_of_isSet hl, Instruction.motion_of_isSet hl,
        Instruction.offset_congr hlast.1 hlast.2]
    | cons x ys ih =>
      have hx := hys x List.mem_cons_self
      have hxset : x.op.isSet = true := hx.1 ▸ hset
      rw [List.cons_append, Block.instrs_cons, Block.effectFrom,
        Instruction.effectOn_of_isSet hxset, Instruction.motion_of_isSet hxset, Int64.sub_zero,
        Option.bind_some, ih _ fun z hz => hys z (List.mem_cons_of_mem _ hz),
        Instruction.offset_congr hx.1 hx.2]
      by_cases htarget : first.offset = target <;> simp [htarget]
  have hrun := hrun (first :: between) sofar fun x hx => by
    rcases List.mem_cons.1 hx with rfl | hx
    · exact ⟨rfl, rfl⟩
    · exact hall x (List.mem_append_left _ hx)
  rw [← List.cons_append, hrun, Block.effectFrom]
  have hkept : ({ first with arg := last.arg } : Instruction).op.isSet = true := hset
  rw [Instruction.effectOn_of_isSet hkept, Instruction.motion_of_isSet hkept, Int64.sub_zero]
  rfl

theorem effectFrom_absorb {first second : Instruction} {place : Place}
    (hset : first.op = .set place) (harith : second.op = .add place ∨ second.op = .sub place)
    (hdist : first.dist = second.dist) :
    (Block.instr { first with arg := (first.value + second.change).toUInt32 } rest).effectFrom
        target sofar =
      (Block.instrs [first, second] rest).effectFrom target sofar := by
  have hfirst : first.op.isSet = true := by rw [hset]; rfl
  have hsecond : second.op.isArithmetic = true := by
    rcases harith with h | h <;> rw [h] <;> rfl
  have hkept :
      ({ first with arg := (first.value + second.change).toUInt32 } : Instruction).op.isSet
        = true := hfirst
  have hoffset : second.offset = first.offset := by
    rcases harith with h | h <;>
      simp [Instruction.offset, h, hset, Instruction.placeOffset, hdist]
  have hsame : ({ first with arg := (first.value + second.change).toUInt32 } : Instruction).offset
      = first.offset := rfl
  have hvalue : ({ first with arg := (first.value + second.change).toUInt32 } : Instruction).value
      = first.value + second.change := UInt8.toUInt8_toUInt32 _
  simp only [Block.instrs_cons, Block.instrs_nil, Block.effectFrom,
    Instruction.effectOn_of_isSet hfirst, Instruction.effectOn_of_isSet hkept,
    Instruction.effectOn_of_isArithmetic hsecond, Instruction.motion_of_isSet hfirst,
    Instruction.motion_of_isSet hkept, Instruction.motion_of_isArithmetic hsecond,
    Option.bind_some, Int64.sub_zero, hoffset, hsame, hvalue]
  by_cases htarget : first.offset = target <;> simp [htarget, Effect.andThen, Instruction.change]

end FusedEffects

/-- A fusion of the counts that fit into an operand acts on every cell as the run did. -/
theorem Fuses.effectFrom_eq {xs : List Instruction} {y : Instruction} (h : Fuses xs y)
    (hload : (Block.instrs xs .done).load true < 2 ^ 32) (rest : Block) (target : Int64)
    (sofar : Effect) :
    (Block.instr y rest).effectFrom target sofar =
      (Block.instrs xs rest).effectFrom target sofar := by
  cases h with
  | cancel hdist hinv => exact effectFrom_difference rest target sofar hdist hinv
  | merge hdist hop hagg =>
    exact effectFrom_merge rest target sofar hdist hop hagg hload
  | aside hchange hthere hmiddle hback harg =>
    exact effectFrom_aside rest target sofar (excursion hchange hthere hmiddle hback harg)
  | overwrite hset hall => exact effectFrom_overwrite rest target sofar hset hall
  | absorb hset harith hdist => exact effectFrom_absorb rest target sofar hset harith hdist

end TapeCode
