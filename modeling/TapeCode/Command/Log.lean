import TapeCode.Command.Log.Line
import TapeCode.Machine.Fault
import TapeCode.Optimization
import TapeCode.Source

/-!
# The log

What is logged about the reading of a source, an optimization and a fault. Each of these
happenings has its log lines, with the numbers that describe it as named values.
-/

namespace TapeCode

/-- A dropped end of a loop is logged with its byte offset. -/
def Parsed.log (parsed : Parsed) : List LogLine :=
  parsed.unmatched.toList.map fun offset =>
    { severity := .debug, component := .source, message := "unmatched ] discarded"
      values := [("byte", toString offset)] }

/-- A firing is logged with its rule and its index. -/
def Firing.logLine (firing : Firing) : LogLine where
  severity := .trace
  component := .optimization
  message := "rewrite"
  values := [("rule", firing.rule.name), ("index", toString firing.index)]

/-- A broken link is logged with both its ends and its opcode. -/
def Program.BrokenLink.logLine (link : Program.BrokenLink) : LogLine where
  severity := .warn
  component := .compaction
  message := "jump target lost its partner"
  values :=
    [("index", toString link.index), ("target", toString link.target), ("op", link.jump.op.name)]

/-- The summary of a pass. -/
def Pass.summary (pass : Pass) (number : Nat) : LogLine where
  severity := .debug
  component := .optimization
  message := "optimiser pass"
  values :=
    [("pass", toString number), ("rewrites", toString pass.firings.size),
      ("len", toString pass.size)]

/-- A pass is logged by its firings, its broken links and a summary. -/
def Pass.log (pass : Pass) (number : Nat) : List LogLine :=
  pass.firings.toList.map (·.logLine) ++ pass.broken.map (·.logLine) ++ [pass.summary number]

/-- An optimization is logged pass by pass, counted from one. -/
def Optimized.log (optimized : Optimized) : List LogLine :=
  (optimized.passes.toList.zipIdx 1).flatMap fun (pass, number) => pass.log number

/-- A fault is logged with the number of steps taken. -/
def Fault.logLine (fault : Fault) (steps : Nat) : LogLine where
  severity := .trace
  component := .machine
  message := "execution fault"
  values := [("error", fault.message), ("steps", toString steps)]

end TapeCode
