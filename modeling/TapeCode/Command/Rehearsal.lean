import TapeCode.Command
import TapeCode.Command.Directory
import TapeCode.Command.Log.Filter

/-!
# Rehearsals

A rehearsal carries out the command without touching the system: on a directory, an input and a
log that are values. `Command.rehearse` tells what the command would leave behind.
-/

namespace TapeCode.Command

/-- The surroundings of a rehearsal. -/
structure Scene where
  directory : Directory
  /-- The bytes on the standard input. -/
  stdin : List UInt8 := []
  /-- Which log lines are shown. -/
  filter : LogFilter := .default
  /-- The names by which the filter knows the components. -/
  names : ComponentNames := {}
  /-- The bytes on the standard output. -/
  stdout : Array UInt8 := #[]
  /-- The lines on the standard error stream. -/
  stderr : Array String := #[]
  deriving DecidableEq, Repr

namespace Scene

/-- A line without the carriage return that may stand at its end. -/
def trimReturn (line : String) : String :=
  if line.endsWith "\r" then String.ofList line.toList.dropLast else line

/-- The lines of a text. A line ends at a newline, or at a carriage return and a newline. -/
def linesOf (text : String) : List String :=
  (text.splitOn "\n").map trimReturn

/-- Shows a text, and a newline behind it, on the standard error stream. -/
def tell (text : String) (scene : Scene) : Scene :=
  { scene with stderr := scene.stderr ++ linesOf text }

/-- The source at a path. -/
def source (scene : Scene) (path : String) : Except SourceError (List UInt8) :=
  match scene.directory.read path with
  | .ok bytes => .ok bytes
  | .error (.cannotOpen cause) => .error (.cannotOpen cause.text)
  | .error (.cannotRead cause) => .error (.cannotRead cause.text)

/-- Writes a file at a path. -/
def write (path text : String) (scene : Scene) : Except String Unit × Scene :=
  match scene.directory.write path text.toUTF8.toList with
  | .ok directory => (.ok (), { scene with directory })
  | .error cause => (.error cause.text, scene)

/-- Runs a program on the standard streams. -/
def run (program : Program) (tape : Tape) (budget : Nat) (scene : Scene) :
    (Machine × Outcome) × Scene :=
  let start : Machine := { tape, input := .ofBytes scene.stdin }
  let (machine, outcome) := start.run program budget
  ((machine, outcome), { scene with stdout := scene.stdout ++ machine.output.bytes })

/-- The surroundings of a rehearsal as a host of the command. -/
def host : Host (StateM Scene) where
  readSource path := do return (← get).source path
  writeFile path text := modifyGet (write path text)
  warn warning := modify (tell warning.plain)
  log line := modify fun scene =>
    if scene.filter.admits scene.names line then scene.tell line.text else scene
  run program tape budget := modifyGet (run program tape budget)

end Scene

/-- Carries out the command with the given arguments; the answer is the exit status and what is
left behind, or nothing if the arguments are refused. -/
def rehearse (args : List String) (scene : Scene) : Option (Nat × Scene) :=
  (Options.ofArgs? args).map fun options => (perform Scene.host options).run scene

end TapeCode.Command
