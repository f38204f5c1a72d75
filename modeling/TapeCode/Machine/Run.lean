import TapeCode.Machine

/-!
# Runs

A run takes steps until the program ends, a fault is recorded or a budget is used up, and then
flushes the output. The budget bounds the total number of steps of a machine, so a run can be
resumed with a larger one.

The main definitions are `Machine.advance`, which takes a number of steps, and `Machine.run`,
which keeps to a budget and tells how it ended.
-/

namespace TapeCode

/-- How a run ended, with the total number of steps. -/
inductive Outcome where
  | completed (steps : Nat)
  | faulted (steps : Nat) (fault : Fault)
  | outOfSteps (steps : Nat)
  deriving DecidableEq, Repr

namespace Machine

/-- Takes up to `n` steps, and stops where the machine stops. -/
def advance (program : Program) : Nat → Machine → Machine
  | 0, m => m
  | n + 1, m => if m.canStep program then advance program n (m.step program) else m

/-- Flushes the output, which may record a fault. -/
def flush (m : Machine) : Machine :=
  let flushed := { m with output := m.output.flush }
  match m.output.flushFailure with
  | some cause => flushed.fail (.output m.ip cause)
  | none => flushed

/-- Takes steps until the machine stops or has taken `budget` steps in all, then flushes. -/
def run (program : Program) (budget : Nat) (m : Machine) : Machine × Outcome :=
  let stopped := m.advance program (budget - m.steps)
  let finished := stopped.flush
  let outcome :=
    if stopped.canStep program then .outOfSteps stopped.steps
    else match finished.fault with
      | some fault => .faulted stopped.steps fault
      | none => .completed stopped.steps
  (finished, outcome)

/-- The largest number of steps that is counted. A run with this budget stops where its program
stops, or else when the count is full. -/
def maxSteps : Nat := UInt64.size - 1

/-- Runs to the end. -/
def runToEnd (program : Program) (m : Machine) : Machine :=
  (m.run program maxSteps).1

/-- Runs with the budgets `budget`, `budget + 1`, … , at most `n` of them, until one is not used
up. The answer tells after each run where the data pointer stood and what was under it, if that
was in the band. -/
def watch (program : Program) (m : Machine) (budget : Nat) :
    Nat → Machine × List (Int64 × Option Cell)
  | 0 => (m, [])
  | n + 1 =>
    let (m, outcome) := m.run program budget
    let seen := (m.dp, m.tape.peek? m.dp)
    match outcome with
    | .outOfSteps _ =>
      let (m, rest) := m.watch program (budget + 1) n
      (m, seen :: rest)
    | _ => (m, [seen])

/-- A program run to its end on a fixed tape of the default size: what it printed, and the fault
that stopped it, if there was one. -/
def execute (program : Program) (input : List UInt8) : Array UInt8 × Option Fault :=
  let start : Machine := { tape := .blank Tape.margin false, input := .ofBytes input }
  let stopped := start.runToEnd program
  (stopped.output.bytes, stopped.fault)

end Machine

end TapeCode
