import TapeCode.Machine.Fault
import TapeCode.Program
import TapeCode.Stream.Input
import TapeCode.Stream.Output
import TapeCode.Tape

/-!
# The machine

A machine is one execution of a program in progress: an instruction pointer, a data pointer, a
tape, two streams, the number of steps taken and the first fault, if there was one.

`Machine.step` carries out the instruction under the instruction pointer. It is built from the
accesses `Machine.update` (change a cell), `Machine.probe` (look at the current cell),
`Machine.emit` and `Machine.receive` (write and read one byte). An access that goes wrong records
a fault and changes nothing else; looking at a cell out of reach shows zero.
-/

namespace TapeCode

/-- One execution of a program in progress. -/
structure Machine where
  /-- The instruction pointer. -/
  ip : Nat := 0
  /-- The data pointer. -/
  dp : Int64 := 0
  tape : Tape
  input : Input := []
  output : Output := {}
  /-- The number of instructions carried out. -/
  steps : Nat := 0
  /-- The first fault. -/
  fault : Option Fault := none
  deriving DecidableEq, Repr

namespace Machine

/-- The machine still has an instruction to carry out. -/
def canStep (program : Program) (m : Machine) : Bool :=
  m.fault.isNone && m.ip < program.size

/-! ## Accesses -/

/-- Records a fault, unless there already is one. -/
def fail (m : Machine) (fault : Fault) : Machine :=
  { m with fault := m.fault.or (some fault) }

/-- The fault of an access to an address out of reach. -/
def outOfBounds (m : Machine) (address : Int64) : Fault :=
  .outOfBounds m.ip m.dp address m.tape.size

/-- Changes the cell at a distance from the data pointer. -/
def update (m : Machine) (offset : Int64) (f : Cell → Cell) : Machine :=
  let address := m.dp + offset
  if m.tape.Reaches address then { m with tape := m.tape.modify address.toNatClampNeg f }
  else m.fail (m.outOfBounds address)

/-- The value of the current cell, zero if it is out of reach. -/
def current (m : Machine) : Cell :=
  if m.tape.Reaches m.dp then m.tape.cell m.dp.toNatClampNeg else 0

/-- The machine after it has looked at the current cell: the tape may have grown to it. -/
def probe (m : Machine) : Machine :=
  if m.tape.Reaches m.dp then { m with tape := m.tape.extendTo m.dp.toNatClampNeg }
  else m.fail (m.outOfBounds m.dp)

/-- Writes one byte. -/
def emit (m : Machine) (b : UInt8) : Machine :=
  if m.output.isFull then m.fail (.output m.ip m.output.refusal)
  else { m with output := m.output.push b }

/-- Reads one byte into the current cell. If nothing arrives the cell keeps its value. -/
def receive (m : Machine) : Machine :=
  let (result, rest) := m.input.readByte
  let m := { m with input := rest }
  match result with
  | .byte b => m.update 0 fun _ => b
  | .nothing => m
  | .failed cause => m.fail (.input m.ip cause)

/-! ## Steps -/

/-- Goes on with the next instruction. -/
def next (m : Machine) : Machine :=
  { m with ip := m.ip + 1 }

/-- Goes on with the instruction at an index. -/
def goto (m : Machine) (ip : Nat) : Machine :=
  { m with ip }

/-- The index behind the slot that a jump designates; an unresolved jump leaves the program. -/
def landing (size : Nat) (instr : Instruction) : Nat :=
  match instr.target? with
  | some target => target + 1
  | none => size

/-- Carries out one instruction of a program of the given size. -/
def perform (m : Machine) (size : Nat) (instr : Instruction) : Machine :=
  match instr.op with
  | .nop => m.next
  | .move _ => { m with dp := m.dp + instr.amount }.next
  | .add _ | .sub _ => (m.update instr.offset (· + instr.change)).next
  | .set _ => (m.update instr.offset fun _ => instr.value).next
  | .print =>
    let b := m.current
    let m := m.probe
    if m.fault.isNone then (m.emit b).next else m.next
  | .input => m.receive.next
  | .opens kind =>
    let cell := m.current
    let m := m.probe
    if cell = 0 then m.goto (landing size instr)
    else match kind with
      | .tested => m.next
      | .counted => (m.update 0 (· - 1)).next
  | .closes kind =>
    let cell := m.current
    let m := m.probe
    if cell = 0 then m.next
    else match kind with
      | .tested => m.goto (landing size instr)
      | .counted => m.goto (instr.target?.getD size)

/-- Carries out the instruction under the instruction pointer, if there is one. -/
def step (program : Program) (m : Machine) : Machine :=
  match program[m.ip]? with
  | some instr => { m with steps := m.steps + 1 }.perform program.size instr
  | none => m

end Machine

end TapeCode
