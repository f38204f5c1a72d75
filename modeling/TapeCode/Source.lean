import TapeCode.Link
import TapeCode.Stream.Input

/-!
# From source text to a program

A source is a sequence of bytes, eight of which are symbols; every other byte is a comment. The
program is built one symbol at a time (`Builder.addSymbol`): repeated motions and repeated
arithmetic merge into one instruction, a `[` waits for its `]`, and a `]` without a waiting `[` is
dropped and noted.

The main definitions are `parse`, from bytes, and `load`, from an input stream.
-/

namespace TapeCode

/-- The eight symbols of the source language. -/
inductive Symbol where
  | left
  | right
  | plus
  | minus
  | dot
  | comma
  | openBracket
  | closeBracket
  deriving DecidableEq, Repr

namespace Symbol

/-- The byte that writes a symbol. -/
def byte : Symbol → UInt8
  | left => '<'.toUInt8
  | right => '>'.toUInt8
  | plus => '+'.toUInt8
  | minus => '-'.toUInt8
  | dot => '.'.toUInt8
  | comma => ','.toUInt8
  | openBracket => '['.toUInt8
  | closeBracket => ']'.toUInt8

/-- The symbol that a byte writes; every other byte is a comment. -/
def ofByte? (b : UInt8) : Option Symbol :=
  if b = left.byte then some left
  else if b = right.byte then some right
  else if b = plus.byte then some plus
  else if b = minus.byte then some minus
  else if b = dot.byte then some dot
  else if b = comma.byte then some comma
  else if b = openBracket.byte then some openBracket
  else if b = closeBracket.byte then some closeBracket
  else none

/-- The opcode that a symbol stands for. -/
def op : Symbol → Opcode
  | left => .move .left
  | right => .move .right
  | plus => .add .here
  | minus => .sub .here
  | dot => .print
  | comma => .input
  | openBracket => .opens .tested
  | closeBracket => .closes .tested

/-- A byte reads as a symbol exactly if it writes it. -/
theorem ofByte?_eq_some_iff {b : UInt8} {s : Symbol} : ofByte? b = some s ↔ s.byte = b := by
  constructor
  · intro h
    simp only [ofByte?] at h
    repeat' split at h
    all_goals simp_all
  · rintro rfl
    cases s <;> decide

end Symbol

/-- A program under construction. -/
structure Builder where
  program : Program := #[]
  /-- The loop starts that still wait for their end, innermost first. -/
  waiting : List Nat := []
  /-- The byte offsets of the ends that had no start, in source order. -/
  unmatched : Array Nat := #[]
  deriving DecidableEq, Repr

namespace Builder

/-- Appends an instruction with an empty distance. -/
def push (builder : Builder) (op : Opcode) (arg : UInt32) : Builder :=
  { builder with program := builder.program.push { op, arg } }

/-- Counts one more occurrence of the last instruction, which is given. -/
def extend (builder : Builder) (last : Instruction) : Builder :=
  let slot := builder.program.size - 1
  { builder with program := builder.program.put slot { last with arg := last.arg + 1 } }

/-- Appends an occurrence of an opcode that merges with one just before it. -/
def count (builder : Builder) (op : Opcode) : Builder :=
  match builder.program.back? with
  | some last => if last.op = op then builder.extend last else builder.push op 1
  | none => builder.push op 1

/-- Starts a loop whose end is not yet known. -/
def openLoop (builder : Builder) : Builder :=
  let start := builder.program.size
  { builder with
    program := builder.program.push { op := .opens .tested, arg := Instruction.unresolved }
    waiting := start :: builder.waiting }

/-- Ends the innermost waiting loop and links its two ends, or notes that there is none. -/
def closeLoop (builder : Builder) (offset : Nat) : Builder :=
  match builder.waiting with
  | [] => { builder with unmatched := builder.unmatched.push offset }
  | start :: waiting =>
    let close := builder.program.size
    { builder with
      program :=
        (builder.program.put start { op := .opens .tested, arg := UInt32.ofNat close }).push
          { op := .closes .tested, arg := UInt32.ofNat start }
      waiting }

/-- Adds one symbol, which stands at the given byte offset. -/
def addSymbol (builder : Builder) (symbol : Symbol) (offset : Nat) : Builder :=
  match symbol with
  | .openBracket => builder.openLoop
  | .closeBracket => builder.closeLoop offset
  | symbol =>
    if symbol.op.isAggregatable then builder.count symbol.op else builder.push symbol.op 1

/-- Adds the byte at the given offset, which may be a comment. -/
def addByte (builder : Builder) (b : UInt8) (offset : Nat) : Builder :=
  match Symbol.ofByte? b with
  | some symbol => builder.addSymbol symbol offset
  | none => builder

/-- Adds the bytes of a source from the given offset on. -/
def addBytes (builder : Builder) (offset : Nat) : List UInt8 → Builder
  | [] => builder
  | b :: bytes => (builder.addByte b offset).addBytes (offset + 1) bytes

end Builder

/-- The outcome of reading a source. -/
structure Parsed where
  program : Program
  /-- The byte offsets of the dropped ends of loops, in source order. -/
  unmatched : Array Nat
  deriving DecidableEq, Repr

/-- What the user is told about a dropped end of a loop. -/
def unmatchedWarning (offset : Nat) : Warning where
  message := "This ] has no matching ["
  position := some (.single offset)

/-- What the user is told about a source. -/
def Parsed.warnings (parsed : Parsed) : List Warning :=
  parsed.unmatched.toList.map unmatchedWarning

/-- The program that a source writes. A `[` without an end stays unresolved. -/
def parse (source : List UInt8) : Parsed :=
  let builder := Builder.addBytes {} 0 source
  ⟨builder.program, builder.unmatched⟩

/-- The program that a stream delivers, or the failure that kept it from being read. -/
def load (input : Input) : Except Failure Parsed :=
  input.readAll.map fun bytes => parse bytes.toList

end TapeCode
