/-!
# Stream failures

The ways in which one operation on a stream can fail. A read that is interrupted is tried again,
and a write fails with `writeZero` if the stream takes nothing; all other failures are treated
alike, and told apart by their names alone.
-/

namespace TapeCode

/-- Why a read, a write or a flush failed. -/
inductive Failure where
  | interrupted
  | brokenPipe
  | wouldBlock
  | unexpectedEof
  | timedOut
  | permissionDenied
  | invalidData
  | writeZero
  /-- A failure of any other kind, by the name of the kind. -/
  | other (kind : String)
  deriving DecidableEq, Repr

namespace Failure

/-- The name of a failure. -/
def name : Failure → String
  | interrupted => "Interrupted"
  | brokenPipe => "BrokenPipe"
  | wouldBlock => "WouldBlock"
  | unexpectedEof => "UnexpectedEof"
  | timedOut => "TimedOut"
  | permissionDenied => "PermissionDenied"
  | invalidData => "InvalidData"
  | writeZero => "WriteZero"
  | other kind => kind

/-- The failures that are most often met. -/
def common : List Failure :=
  [interrupted, brokenPipe, wouldBlock, unexpectedEof, timedOut, permissionDenied, invalidData,
    writeZero, other "Other"]

/-- The common failure of a given name. -/
def ofName? (name : String) : Option Failure :=
  common.find? (·.name == name)

end Failure

end TapeCode
