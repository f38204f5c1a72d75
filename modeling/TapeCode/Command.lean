import TapeCode.Command.Log
import TapeCode.Command.Options
import TapeCode.Machine.Run

/-!
# The command

The command reads a source, optimizes it, writes a listing if it is asked to, and runs the
program. `Command.perform` is what it does, in terms of the few things it asks of its surroundings
(`Host`); its answer is the exit status.
-/

namespace TapeCode

/-- Why the source could not be had, with the system's text. -/
inductive SourceError where
  | cannotOpen (reason : String)
  | cannotRead (reason : String)
  deriving DecidableEq, Repr

/-- What the command asks of its surroundings. -/
structure Host (m : Type → Type) where
  /-- Reads the source at a path. -/
  readSource : String → m (Except SourceError (List UInt8))
  /-- Writes a file at a path, or answers with the system's text. -/
  writeFile : String → String → m (Except String Unit)
  /-- Shows a warning. -/
  warn : Warning → m Unit
  /-- Shows a log line, if the log is to hold it. -/
  log : LogLine → m Unit
  /-- Runs a program on a tape, within a budget of steps. -/
  run : Program → Tape → Nat → m (Machine × Outcome)

namespace Command

variable {m : Type → Type} [Monad m]

/-- A line that the command logs about itself. -/
def note (severity : Severity) (message : String) : LogLine :=
  { severity, component := .command, message }

/-- Shows the log lines and then the warnings of one stage. -/
def tell (host : Host m) (lines : List LogLine) (warnings : List Warning) : m Unit := do
  lines.forM host.log
  warnings.forM host.warn

/-- Writes the listing; the answer tells why that failed, if it did. -/
def writeListing (host : Host m) (path : String) (program : Program) :
    m (Except String Unit) := do
  host.log (note .info ("Writing to file " ++ path))
  host.writeFile path program.listing

/-- What is logged when a program has come to an end. -/
def finished (steps : Nat) : LogLine :=
  note .info ("Program finished (in " ++ toString steps ++ " steps)")

/-- What is logged at the end of a run. -/
def closing : Outcome → List LogLine
  | .completed steps => [finished steps]
  | .faulted steps fault =>
    [note .error ("Got out with an error: " ++ fault.message), finished steps]
  | .outOfSteps steps =>
    [note .warn ("Step limit reached after " ++ toString steps ++ " steps")]

/-- The exit status after a run. -/
def status : Outcome → Nat
  | .completed _ => 0
  | .faulted _ _ => 2
  | .outOfSteps _ => 3

/-- Runs the program and logs how it ended; the answer is the exit status. -/
def runProgram (host : Host m) (options : Options) (program : Program) : m Nat := do
  host.log (note .info ("Running program " ++ options.source))
  let (machine, outcome) ← host.run program (.blank options.memory options.growable)
    (options.maxSteps.getD Machine.maxSteps)
  (machine.fault.toList.map (·.logLine machine.steps)).forM host.log
  (closing outcome).forM host.log
  return status outcome

/-- The exit status after something outside the program went wrong. -/
def failed (host : Host m) (message : String) : m Nat := do
  host.log (note .error message)
  return 1

/-- Carries out the command; the answer is the exit status. -/
def perform (host : Host m) (options : Options) : m Nat := do
  match ← host.readSource options.source with
  | .error (.cannotOpen reason) =>
    failed host ("No input file " ++ options.source ++ ": " ++ reason)
  | .error (.cannotRead reason) =>
    failed host ("Failed to read " ++ options.source ++ ": " ++ reason)
  | .ok source =>
    let parsed := parse source
    tell host parsed.log parsed.warnings
    let optimized := parsed.program.optimize options.level
    tell host optimized.log optimized.warnings
    if options.generate then
      match ← writeListing host options.listingPath optimized.program with
      | .error reason =>
        failed host ("Failed to create file " ++ options.listingPath ++ ": " ++ reason)
      | .ok () => runProgram host options optimized.program
    else runProgram host options optimized.program

end Command

end TapeCode
