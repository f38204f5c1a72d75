import TapeCode.Opcode

/-!
# Instructions

An instruction is an opcode with two unsigned 32-bit operands. The *argument* is a count, a value
or the index of the other end of a loop, as the opcode has it; the *distance* says how far aside
the addressed cell lies, for the opcodes that address one.

`Instruction.amount` and `Instruction.offset` read the operands as signed machine words;
`Instruction.change` and `Instruction.value` read them as cells.
-/

namespace TapeCode

/-- One cell of the tape: a byte, with arithmetic modulo 256. -/
abbrev Cell := UInt8

/-- A signed amount as it acts on a cell: its remainder modulo 256. -/
def Cell.ofAmount (amount : Int64) : Cell :=
  amount.toUInt64.toUInt8

/-- An opcode and its operands. -/
structure Instruction where
  op : Opcode
  /-- The count, the value, or the index of the other end of a loop. -/
  arg : UInt32 := 0
  /-- How far aside the addressed cell lies. -/
  dist : UInt32 := 0
  deriving DecidableEq, Repr

namespace Instruction

/-- The argument of a loop end without a partner. -/
def unresolved : UInt32 := 4294967295

/-- The instruction that stands in a vacated slot. -/
def nop : Instruction := ⟨.nop, 0, 0⟩

/-- Does something: its opcode is not `nop`. -/
def isLive (instr : Instruction) : Bool :=
  instr.op.isLive

@[simp] theorem isLive_nop : nop.isLive = false := rfl

/-- The signed number that an operand stands for. -/
def signed (operand : UInt32) : Int64 :=
  operand.toUInt64.toInt64

/-- The signed distance from the data pointer to the cell at `place`. -/
def placeOffset (instr : Instruction) : Place → Int64
  | .here => 0
  | .aside .left => - signed instr.dist
  | .aside .right => signed instr.dist

/-- The signed distance from the data pointer to the cell that the instruction changes by
arithmetic or by an assignment; zero for every other opcode. -/
def offset (instr : Instruction) : Int64 :=
  match instr.op with
  | .add place | .sub place | .set place => instr.placeOffset place
  | _ => 0

/-- The signed change that arithmetic makes to its cell and a motion to the data pointer; zero for
every other opcode. -/
def amount (instr : Instruction) : Int64 :=
  match instr.op with
  | .add _ | .move .right => signed instr.arg
  | .sub _ | .move .left => - signed instr.arg
  | _ => 0

/-- What arithmetic adds to its cell, modulo 256. -/
def change (instr : Instruction) : Cell :=
  Cell.ofAmount instr.amount

/-- What an assignment stores in its cell. -/
def value (instr : Instruction) : Cell :=
  instr.arg.toUInt8

/-- The index that a jump designates: its argument, unless that is `unresolved`. -/
def target? (instr : Instruction) : Option Nat :=
  if instr.arg = unresolved then none else some instr.arg.toNat

end Instruction

end TapeCode
