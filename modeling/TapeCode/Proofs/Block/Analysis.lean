import TapeCode.Proofs.Block
import TapeCode.Span.Effect
import TapeCode.Span.Observation

/-!
# The analyses of a block

The analyses of a span walk over slots and look up the end of every loop. On a block they are
plain recursions: `Block.motion`, `Block.effectFrom` and `Block.observes`.
`Program.displacement?_of_holds`, `Program.effect?_of_holds` and `Program.observes_of_holds` state
that a span that is laid out as a block has the block's answers.
-/

namespace TapeCode

@[simp] theorem Effect.andThen_assigns (e : Effect) (v : Cell) :
    e.andThen (assigns v) = assigns v := by
  cases e <;> rfl

namespace Instruction

/-- How far an instruction moves the data pointer. -/
def motion (x : Instruction) : Int64 :=
  match x.op with
  | .move _ => x.amount
  | _ => 0

/-- The effect on the cell `target` away from the data pointer once an instruction has followed
the effect `sofar`, if it can be told. -/
def effectOn (x : Instruction) (target : Int64) (sofar : Effect) : Option Effect :=
  match x.op with
  | .add _ | .sub _ => some (if x.offset = target then sofar.andThen (.adds x.amount) else sofar)
  | .set _ => some (if x.offset = target then sofar.andThen (.assigns x.value) else sofar)
  | .input => if target = 0 then none else some sofar
  | _ => some sofar

/-- An instruction looks at the cell `target` away from the data pointer. -/
def observes (x : Instruction) (target : Int64) : Bool :=
  match x.op with
  | .print | .input => target = 0
  | _ => false

@[simp] theorem motion_nop : nop.motion = 0 := rfl

@[simp] theorem effectOn_nop (target : Int64) (sofar : Effect) :
    nop.effectOn target sofar = some sofar := rfl

section Classes

variable {x : Instruction}

theorem motion_of_isMotion (h : x.op.isMotion = true) : x.motion = x.amount := by
  cases hop : x.op <;> simp_all [Opcode.isMotion, motion]

theorem motion_eq_zero (h : x.op.isMotion = false) : x.motion = 0 := by
  cases hop : x.op <;> simp_all [Opcode.isMotion, motion]

theorem motion_of_isArithmetic (h : x.op.isArithmetic = true) : x.motion = 0 := by
  cases hop : x.op <;> simp_all [Opcode.isArithmetic, motion]

theorem motion_of_isSet (h : x.op.isSet = true) : x.motion = 0 := by
  cases hop : x.op <;> simp_all [Opcode.isSet, motion]

theorem effectOn_of_isMotion (h : x.op.isMotion = true) (target : Int64) (sofar : Effect) :
    x.effectOn target sofar = some sofar := by
  cases hop : x.op <;> simp_all [Opcode.isMotion, effectOn]

theorem effectOn_of_isArithmetic (h : x.op.isArithmetic = true) (target : Int64)
    (sofar : Effect) :
    x.effectOn target sofar =
      some (if x.offset = target then sofar.andThen (.adds x.amount) else sofar) := by
  cases hop : x.op <;> simp_all [Opcode.isArithmetic, effectOn]

theorem effectOn_of_isSet (h : x.op.isSet = true) (target : Int64) (sofar : Effect) :
    x.effectOn target sofar =
      some (if x.offset = target then .assigns x.value else sofar) := by
  cases hop : x.op <;> simp_all [Opcode.isSet, effectOn]

end Classes

end Instruction

namespace Block

/-- How far a block moves the data pointer, if that can be told. -/
def motion : Block → Option Int64
  | done => some 0
  | instr x rest => rest.motion.map (x.motion + ·)
  | loop kind body rest =>
    if kind = .counted ∨ body.motion = some 0 then rest.motion else none
  | stub _ _ => none

/-- The effect on the cell `target` away from the data pointer once a block has followed the
effect `sofar`, if it can be told. -/
def effectFrom : Block → Int64 → Effect → Option Effect
  | done, _, sofar => some sofar
  | instr x rest, target, sofar =>
    (x.effectOn target sofar).bind (rest.effectFrom (target - x.motion))
  | loop kind body rest, target, sofar =>
    if kind = .counted ∨ body.motion = some 0 then
      if target = 0 then rest.effectFrom target (sofar.andThen (.assigns 0))
      else if body.effectFrom target .unchanged = some .unchanged then
        rest.effectFrom target sofar
      else none
    else none
  | stub _ _, _, _ => none

/-- A block may look at the cell `target` away from the data pointer. -/
def observes : Block → Int64 → Bool
  | done, _ => false
  | instr x rest, target => x.observes target || rest.observes (target - x.motion)
  | loop kind body rest, target =>
    target = 0 || (kind = .tested && !decide (body.motion = some 0)) || body.observes target
      || rest.observes target
  | stub _ _, _ => true

/-- A block brings the data pointer back and leaves the cell under it as it was. -/
def Inert (block : Block) : Prop :=
  block.motion = some 0 ∧ block.effectFrom 0 .unchanged = some .unchanged

/-! ## Vacant slots -/

@[simp] theorem motion_nops (n : Nat) (rest : Block) : (nops n rest).motion = rest.motion := by
  induction n with
  | zero => rfl
  | succ n ih => simp [motion, ih]

@[simp] theorem effectFrom_nops (n : Nat) (rest : Block) (target : Int64) (sofar : Effect) :
    (nops n rest).effectFrom target sofar = rest.effectFrom target sofar := by
  induction n with
  | zero => rfl
  | succ n ih => simp [effectFrom, ih]

/-! ## The motion of a block behind another -/

theorem motion_append (front tail : Block) :
    (front.append tail).motion =
      front.motion.bind fun moved => tail.motion.map (moved + ·) := by
  induction front with
  | done => simp [append, motion]
  | instr x rest ih =>
    simp only [append, motion, ih]
    cases rest.motion <;> cases tail.motion <;> simp [Int64.add_assoc]
  | loop kind body rest _ ih =>
    simp only [append, motion, ih]
    split <;> simp
  | stub kind rest => rfl

end Block

namespace Program

variable {p : Program} {i stop : Nat} {block : Block}

/-! ## One slot of a span -/

theorem isStationary_iff : p.isStationary i stop = true ↔ p.displacementFrom stop i 0 = some 0 :=
  decide_eq_true_iff

section Slots

variable {x : Instruction} {kind : LoopKind}

/-- Every slot but the start of a loop is taken by itself. -/
theorem displacementFrom_of_not_isOpen (hlt : i < stop) (hx : p[i]? = some x)
    (hopen : x.op.isOpen = false) (moved : Int64) :
    p.displacementFrom stop i moved = p.displacementFrom stop (i + 1) (moved + x.motion) := by
  rw [displacementFrom, if_pos hlt]
  simp only [hx]
  cases hop : x.op <;> simp_all [Opcode.isOpen, Instruction.motion]

/-- A loop is taken together with its body. -/
theorem displacementFrom_of_opens (hlt : i < stop) (hx : p[i]? = some x)
    (hop : x.op = .opens kind) (moved : Int64) :
    p.displacementFrom stop i moved = (p.closeOf? i stop).bind fun close =>
      if kind = .counted ∨ p.isStationary (i + 1) close then
        p.displacementFrom stop (close + 1) moved
      else none := by
  rw [displacementFrom, if_pos hlt]
  simp only [hx, hop, isStationary_iff]
  split
  · rename_i hfound
    rw [hfound]
    rfl
  · rename_i close hfound
    rw [hfound]
    rfl

theorem effectFrom_of_not_isOpen (hlt : i < stop) (hx : p[i]? = some x)
    (hopen : x.op.isOpen = false) (target : Int64) (sofar : Effect) :
    p.effectFrom stop i target sofar =
      (x.effectOn target sofar).bind (p.effectFrom stop (i + 1) (target - x.motion)) := by
  rw [effectFrom, if_pos hlt]
  simp only [hx, Instruction.effectOn]
  cases hop : x.op <;> simp_all [Opcode.isOpen, Instruction.motion]
  split <;> rfl

theorem effectFrom_of_opens (hlt : i < stop) (hx : p[i]? = some x) (hop : x.op = .opens kind)
    (target : Int64) (sofar : Effect) :
    p.effectFrom stop i target sofar = (p.closeOf? i stop).bind fun close =>
      if kind = .counted ∨ p.isStationary (i + 1) close then
        if target = 0 then p.effectFrom stop (close + 1) target (sofar.andThen (.assigns 0))
        else if p.effectFrom close (i + 1) target .unchanged = some .unchanged then
          p.effectFrom stop (close + 1) target sofar
        else none
      else none := by
  rw [effectFrom, if_pos hlt]
  simp only [hx, hop]
  split
  · rename_i hfound
    rw [hfound]
    rfl
  · rename_i close hfound
    rw [hfound]
    rfl

end Slots

/-! ## The analyses of a layout -/

/-- A span has the displacement of its block. -/
theorem displacementFrom_of_holds (h : p.Holds i block stop) (moved : Int64) :
    p.displacementFrom stop i moved = block.motion.map (moved + ·) := by
  induction h generalizing moved with
  | done => rw [displacementFrom, if_neg (Nat.lt_irrefl _)]; simp [Block.motion]
  | @instr i stop x rest hx hjump hrest ih =>
    rw [displacementFrom_of_not_isOpen hrest.le hx (Opcode.isOpen_eq_false hjump), ih,
      Block.motion, Option.map_map]
    simp [Function.comp_def, Int64.add_assoc]
  | @loop i close stop kind body rest hloop hbody hrest ihBody ihRest =>
    have hopen : i < close := hbody.le
    have hclose : close < stop := hrest.le
    obtain ⟨a, ha, haop, -⟩ := hloop.opens
    have hzero : (body.motion.map (0 + ·) = some 0) ↔ body.motion = some 0 := by
      cases body.motion <;> simp
    rw [displacementFrom_of_opens (Nat.lt_trans hopen hclose) ha haop,
      hloop.closeOf? hopen hclose, Option.bind_some, Block.motion]
    simp only [isStationary_iff, ihBody, ihRest, hzero]
    split <;> rfl
  | @stub i stop a kind rest ha haop hat hrest ih =>
    rw [displacementFrom_of_opens hrest.le ha haop, closeOf?_eq_none ha hat]
    rfl

theorem displacement?_of_holds (h : p.Holds i block stop) :
    p.displacement? i stop = block.motion := by
  rw [displacement?, displacementFrom_of_holds h]
  cases block.motion <;> simp

theorem isStationary_of_holds (h : p.Holds i block stop) :
    p.isStationary i stop = decide (block.motion = some 0) := by
  rw [isStationary, displacement?_of_holds h]

/-- A span has the effect of its block. -/
theorem effectFrom_of_holds (h : p.Holds i block stop) (target : Int64) (sofar : Effect) :
    p.effectFrom stop i target sofar = block.effectFrom target sofar := by
  induction h generalizing target sofar with
  | done => rw [effectFrom, if_neg (Nat.lt_irrefl _)]; rfl
  | @instr i stop x rest hx hjump hrest ih =>
    rw [effectFrom_of_not_isOpen hrest.le hx (Opcode.isOpen_eq_false hjump), Block.effectFrom]
    exact congrArg _ (funext (ih _))
  | @loop i close stop kind body rest hloop hbody hrest ihBody ihRest =>
    have hopen : i < close := hbody.le
    have hclose : close < stop := hrest.le
    obtain ⟨a, ha, haop, -⟩ := hloop.opens
    rw [effectFrom_of_opens (Nat.lt_trans hopen hclose) ha haop, hloop.closeOf? hopen hclose,
      Option.bind_some, Block.effectFrom]
    simp only [isStationary_of_holds hbody, decide_eq_true_eq, ihBody, ihRest]
  | @stub i stop a kind rest ha haop hat hrest ih =>
    rw [effectFrom_of_opens hrest.le ha haop, closeOf?_eq_none ha hat]
    rfl

theorem effect?_of_holds (h : p.Holds i block stop) (target : Int64) :
    p.effect? i stop target = block.effectFrom target .unchanged :=
  effectFrom_of_holds h target .unchanged

theorem isInert_of_holds (h : p.Holds i block stop) : p.isInert i stop = true ↔ block.Inert := by
  simp [isInert, isStationary_of_holds h, effect?_of_holds h, Block.Inert]

/-- A span looks at the cells that its block looks at. -/
theorem observes_of_holds (h : p.Holds i block stop) (target : Int64) :
    p.observes i stop target = block.observes target := by
  induction h generalizing target with
  | done => rw [observes, if_neg (Nat.lt_irrefl _)]; rfl
  | @instr i stop x rest hx hjump hrest ih =>
    have hlt : i < stop := hrest.le
    rw [observes, if_pos hlt]
    simp only [hx, Block.observes, Instruction.observes]
    cases hop : x.op <;> simp_all [Opcode.isJump, Instruction.motion]
  | @loop i close stop kind body rest hloop hbody hrest ihBody ihRest =>
    have hopen : i < close := hbody.le
    have hclose : close < stop := hrest.le
    obtain ⟨a, ha, haop, -⟩ := hloop.opens
    rw [observes, if_pos (Nat.lt_trans hopen hclose)]
    simp only [ha, haop, Block.observes]
    split
    · rename_i hfound
      rw [hloop.closeOf? hopen hclose] at hfound
      cases hfound
    · rename_i found hfound
      obtain rfl := hloop.eq_of_closeOf? hfound
      rw [ihBody, ihRest, isStationary_of_holds hbody]
  | @stub i stop a kind rest ha haop hat hrest ih =>
    have hlt : i < stop := hrest.le
    rw [observes, if_pos hlt]
    simp only [ha, haop, Block.observes]
    split
    · rfl
    · rename_i hfound
      rw [closeOf?_eq_none ha hat] at hfound
      cases hfound

end Program

end TapeCode
