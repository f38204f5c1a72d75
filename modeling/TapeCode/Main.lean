import TapeCode.Command
import TapeCode.Command.Log.Filter

/-!
# The program

`main` carries out the command on the real system: files, standard streams and the environment.
-/

namespace TapeCode.Console

/-- The environment variable that holds the log filter. -/
def filterVariable : String := "TAPECODE_LOG"

/-- The system's text for an error. -/
def systemText (error : IO.Error) : String :=
  let withCode (code : UInt32) (details : String) : String :=
    details ++ " (os error " ++ toString code.toNat ++ ")"
  match error with
  | .noFileOrDirectory _ code details => withCode code details
  | .inappropriateType _ code details => withCode code details
  | .permissionDenied _ code details => withCode code details
  | .invalidArgument _ code details => withCode code details
  | .resourceExhausted _ code details => withCode code details
  | .otherError code details => withCode code details
  | error => toString error

/-- How a failed operation on a standard stream looks to a machine. -/
def failureOf (error : IO.Error) : Failure :=
  match error with
  | .resourceVanished _ _ => .brokenPipe
  | .permissionDenied _ _ _ => .permissionDenied
  | .timeExpired _ _ => .timedOut
  | .interrupted _ _ _ => .interrupted
  | _ => .other "Other"

/-- Reads what is left of an open source. -/
def readOpened (handle : IO.FS.Handle) : IO (Except SourceError (List UInt8)) := do
  try
    let bytes ← handle.readBinToEnd
    return .ok bytes.toList
  catch error => return .error (.cannotRead (systemText error))

/-- Reads the source at a path. -/
def readSource (path : String) : IO (Except SourceError (List UInt8)) := do
  try
    readOpened (← IO.FS.Handle.mk path .read)
  catch error => return .error (.cannotOpen (systemText error))

/-- Writes a file at a path. -/
def writeFile (path text : String) : IO (Except String Unit) := do
  try
    IO.FS.writeFile path text
    return .ok ()
  catch error => return .error (systemText error)

/-- Gives a machine that is about to read and has no input left the next byte from a stream. -/
def supply (program : Program) (stdin : IO.FS.Stream) (machine : Machine) : IO Machine := do
  let asks := program[machine.ip]?.any (·.op == .input)
  if asks && machine.input.isEmpty then
    try
      let bytes ← stdin.read 1
      return { machine with input := .ofBytes bytes.toList }
    catch error => return { machine with input := [.failure (failureOf error)] }
  else return machine

/-- Passes on what a machine has printed since the instruction at `ip`. -/
def drain (stdout : IO.FS.Stream) (ip : Nat) (machine : Machine) : IO Machine := do
  if machine.output.bytes.isEmpty then return machine
  let bytes := machine.output.bytes
  let machine := { machine with output := {} }
  try
    stdout.write ⟨bytes⟩
    return machine
  catch error => return machine.fail (.output ip (failureOf error))

/-- Takes steps until the machine stops or has used up its budget. -/
partial def advance (program : Program) (stdin stdout : IO.FS.Stream) (budget : Nat)
    (machine : Machine) : IO Machine := do
  if machine.canStep program && machine.steps < budget then
    let ip := machine.ip
    let machine ← supply program stdin machine
    let machine ← drain stdout ip (machine.step program)
    advance program stdin stdout budget machine
  else return machine

/-- Runs a program on the standard streams. -/
def run (program : Program) (tape : Tape) (budget : Nat) : IO (Machine × Outcome) := do
  let stdout ← IO.getStdout
  let stopped ← advance program (← IO.getStdin) stdout budget { tape }
  try
    stdout.flush
    return stopped.run program budget
  catch error =>
    return { stopped with output.flushFailure := some (failureOf error) }.run program budget

/-- The real system as a host of the command. -/
def host (filter : LogFilter) (inColor : Bool) : Host IO where
  readSource := readSource
  writeFile := writeFile
  warn warning := IO.eprintln (if inColor then warning.colored else warning.plain)
  log line := if filter.admits {} line then IO.eprintln line.text else pure ()
  run := run

/-- How the command is used. -/
def usage : String :=
  "Usage: tapecode <source> [--out PATH] [--opt 0|1|2] [--generate] [--growable] [--memory N] "
    ++ "[--max-steps N]"

end TapeCode.Console

/-- Carries out the command; wrong arguments give the exit status 2. -/
def main (args : List String) : IO UInt32 := do
  match TapeCode.Options.ofArgs? args with
  | none =>
    IO.eprintln TapeCode.Console.usage
    return 2
  | some options =>
    let filter := TapeCode.LogFilter.ofSpec (← IO.getEnv TapeCode.Console.filterVariable)
    let inColor ← (← IO.getStdout).isTty
    return UInt32.ofNat
      (← TapeCode.Command.perform (TapeCode.Console.host filter inColor) options)
