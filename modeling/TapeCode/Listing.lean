import TapeCode.Program

/-!
# The listing of a program

One line of text per instruction, for people to read. An empty program has an empty listing; every
line of another ends with a line feed.
-/

namespace TapeCode

/-- The word for a side in a listing. -/
def Direction.word : Direction → String
  | .left => "LEFT"
  | .right => "RIGHT"

namespace Instruction

/-- Where an instruction acts, as the listing says it: nothing for the current cell, else
` TO n LEFT` or ` TO n RIGHT`. -/
def placeText (instr : Instruction) : Place → String
  | .here => ""
  | .aside side => " TO " ++ toString instr.dist.toNat ++ " " ++ side.word

/-- The line of an instruction in a listing. -/
def text (instr : Instruction) : String :=
  let count := toString instr.arg.toNat
  match instr.op with
  | .nop => "NOP"
  | .move side => "MOVE " ++ count ++ " " ++ side.word
  | .add place => "ADD " ++ count ++ instr.placeText place
  | .sub place => "SUB " ++ count ++ instr.placeText place
  | .set place => "SET " ++ count ++ instr.placeText place
  | .print => "PRINT"
  | .input => "INPUT"
  | .opens .tested => "JZ " ++ count
  | .closes .tested => "JNZ " ++ count
  | .opens .counted => "WHILE " ++ count
  | .closes .counted => "END " ++ count

end Instruction

/-- The listing of a program: the lines of its instructions, each ended by a line feed. -/
def Program.listing (p : Program) : String :=
  p.foldl (fun text instr => text ++ instr.text ++ "\n") ""

end TapeCode
