import TapeCode.Stream.Failure

/-!
# Faults

The ways in which a run can go wrong. A fault holds the index of the instruction that raised it.
-/

namespace TapeCode

/-- Why a run stopped before the end of its program. -/
inductive Fault where
  /-- A cell was accessed that the tape does not reach. -/
  | outOfBounds (ip : Nat) (dp address : Int64) (size : Nat)
  /-- A byte could not be written, or the output not be flushed. -/
  | output (ip : Nat) (cause : Failure)
  /-- A byte could not be read. -/
  | input (ip : Nat) (cause : Failure)
  deriving DecidableEq, Repr

/-- The message of a fault. -/
def Fault.message : Fault → String
  | outOfBounds ip dp address size =>
    "memory access out of bounds (ip: " ++ toString ip ++ ", dp: " ++ toString dp.toInt
      ++ ", address: " ++ toString address.toInt ++ ", size: " ++ toString size ++ ")"
  | output ip cause => "failed to write output (ip: " ++ toString ip ++ "): " ++ cause.name
  | input ip cause => "failed to read input (ip: " ++ toString ip ++ "): " ++ cause.name

end TapeCode
