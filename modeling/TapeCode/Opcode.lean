/-!
# Opcodes

The operations of a flat tape program. The eight source symbols need only motions, arithmetic on
the current cell, input, output and *tested* loops; the optimizer adds assignments, arithmetic on
a cell aside of the data pointer, and *counted* loops, which lower their own cell at the start of
every round.

The main definitions are the type `Opcode`, its classes (`Opcode.isMotion`, `Opcode.isArithmetic`,
`Opcode.isJump`, …), and the two involutions `Opcode.inverse?` and `Opcode.partner?`.
-/

namespace TapeCode

/-- A side of the data pointer. -/
inductive Direction where
  | left
  | right
  deriving DecidableEq, Repr

/-- The other side. -/
def Direction.opposite : Direction → Direction
  | left => right
  | right => left

@[simp] theorem Direction.opposite_opposite (d : Direction) : d.opposite.opposite = d := by
  cases d <;> rfl

/-- The cell an instruction addresses: the one under the data pointer, or one aside of it. -/
inductive Place where
  | here
  | aside (side : Direction)
  deriving DecidableEq, Repr

/-- How a loop runs: a tested loop only looks at its cell, a counted one also lowers it by one at
the start of every round. -/
inductive LoopKind where
  | tested
  | counted
  deriving DecidableEq, Repr

/-- The operation of an instruction. -/
inductive Opcode where
  | nop
  | move (side : Direction)
  | add (place : Place)
  | sub (place : Place)
  | set (place : Place)
  | print
  | input
  | opens (kind : LoopKind)
  | closes (kind : LoopKind)
  deriving DecidableEq, Repr

namespace Opcode

/-- Adjacent occurrences merge into one instruction with the summed count. -/
def isAggregatable : Opcode → Bool
  | move _ | add .here | sub .here => true
  | _ => false

/-- Moves the data pointer. -/
def isMotion : Opcode → Bool
  | move _ => true
  | _ => false

/-- Adds to or subtracts from a cell. -/
def isArithmetic : Opcode → Bool
  | add _ | sub _ => true
  | _ => false

/-- Assigns a cell. -/
def isSet : Opcode → Bool
  | set _ => true
  | _ => false

/-- Stands at one end of a loop. -/
def isJump : Opcode → Bool
  | opens _ | closes _ => true
  | _ => false

/-- Stands at the start of a loop. -/
def isOpen : Opcode → Bool
  | opens _ => true
  | _ => false

/-- Does something: every opcode but `nop`. -/
def isLive : Opcode → Bool
  | nop => false
  | _ => true

/-- The opcode that undoes this one, if there is one. -/
def inverse? : Opcode → Option Opcode
  | move d => some (move d.opposite)
  | add p => some (sub p)
  | sub p => some (add p)
  | _ => none

/-- The opcode at the other end of a loop. -/
def partner? : Opcode → Option Opcode
  | opens k => some (closes k)
  | closes k => some (opens k)
  | _ => none

/-- The name of the opcode. -/
def name : Opcode → String
  | nop => "Nop"
  | move .left => "MoveLeft"
  | move .right => "MoveRight"
  | add .here => "Add"
  | add (.aside .left) => "AddLeft"
  | add (.aside .right) => "AddRight"
  | sub .here => "Sub"
  | sub (.aside .left) => "SubLeft"
  | sub (.aside .right) => "SubRight"
  | set .here => "Set"
  | set (.aside .left) => "SetLeft"
  | set (.aside .right) => "SetRight"
  | print => "Print"
  | input => "Input"
  | opens .tested => "JumpIfZero"
  | closes .tested => "JumpIfNonZero"
  | opens .counted => "While"
  | closes .counted => "WhileEnd"

/-- All opcodes, each once. -/
def all : List Opcode :=
  [nop, move .left, move .right, add .here, sub .here, print, input, opens .tested,
    closes .tested, set .here, add (.aside .left), add (.aside .right), sub (.aside .left),
    sub (.aside .right), set (.aside .left), set (.aside .right), opens .counted, closes .counted]

/-- The opcode of a given name. -/
def ofName? (name : String) : Option Opcode :=
  all.find? (·.name == name)

/-! ## Laws of the two involutions -/

/-- Undoing is mutual. -/
theorem inverse?_symm {a b : Opcode} (h : a.inverse? = some b) : b.inverse? = some a := by
  cases a <;> simp_all [inverse?] <;> subst h <;> simp

/-- Standing at the two ends of a loop is mutual. -/
theorem partner?_symm {a b : Opcode} (h : a.partner? = some b) : b.partner? = some a := by
  cases a <;> simp_all [partner?] <;> subst h <;> rfl

/-- Exactly the jumps have a partner. -/
theorem isSome_partner? (a : Opcode) : a.partner?.isSome = a.isJump := by
  cases a <;> rfl

/-- The start of a loop is a jump. -/
theorem isJump_of_isOpen {a : Opcode} (h : a.isOpen = true) : a.isJump = true := by
  cases a <;> simp_all [isOpen, isJump]

theorem isOpen_eq_false {a : Opcode} (h : a.isJump = false) : a.isOpen = false := by
  cases a <;> simp_all [isOpen, isJump]

/-- A jump that is not the start of a loop is the end of one. -/
theorem exists_closes {a : Opcode} (h : a.isJump = true) (hopen : a.isOpen = false) :
    ∃ kind, a = closes kind := by
  cases a with
  | opens => cases hopen
  | closes kind => exact ⟨kind, rfl⟩
  | _ => cases h

theorem exists_opens {a : Opcode} (h : a.isOpen = true) : ∃ kind, a = opens kind := by
  cases a with
  | opens kind => exact ⟨kind, rfl⟩
  | _ => cases h

/-- An opcode with an inverse is live. -/
theorem isLive_of_inverse? {a b : Opcode} (h : a.inverse? = some b) : a.isLive = true := by
  cases a <;> simp_all [inverse?, isLive]

/-- An aggregatable opcode is live. -/
theorem isLive_of_isAggregatable {a : Opcode} (h : a.isAggregatable = true) :
    a.isLive = true := by
  cases a <;> simp_all [isAggregatable, isLive]

/-- An assignment is live. -/
theorem isLive_of_isSet {a : Opcode} (h : a.isSet = true) : a.isLive = true := by
  cases a <;> simp_all [isSet, isLive]

/-- A jump is live. -/
theorem isLive_of_partner? {a b : Opcode} (h : a.partner? = some b) : a.isLive = true := by
  cases a <;> simp_all [partner?, isLive]

end Opcode

end TapeCode
