import TapeCode.Proofs.Stepper

/-!
# The source language

What a source means, without a program. A reading goes over the source one byte at a time and does
what its symbols say to a data pointer, a tape and two streams (`Reading.step`). All other bytes
are passed over. The other end of a loop is looked for by counting the brackets on the way
(`seek`): a `]` without a `[` is passed over, and a `[` without a `]` ends the reading if the cell
is zero and is passed over if it is not.

`Reading.EndsAs` says what a reading leaves behind when it ends, and `Machine.EndsAs` says the
same of a machine under a program.
-/

namespace TapeCode

/-! ## The state -/

/-- What a run can run into, wherever it does. -/
inductive Trouble where
  | outOfBounds (dp address : Int64) (size : Nat)
  | output (cause : Failure)
  | input (cause : Failure)
  deriving DecidableEq, Repr

/-- What the symbols of a source act on. -/
structure State where
  dp : Int64
  tape : Tape
  input : Input
  output : Output
  /-- What the run has run into. -/
  trouble : Option Trouble := none
  deriving DecidableEq, Repr

namespace State

/-- The current cell is not in the band, and the band does not grow to it. -/
def stray (s : State) : State :=
  { s with trouble := some (.outOfBounds s.dp s.dp s.tape.size) }

/-- Moves the data pointer. -/
def move (s : State) (amount : Int64) : State :=
  { s with dp := s.dp + amount }

/-- Changes the current cell. -/
def change (s : State) (f : Cell → Cell) : State :=
  if s.tape.Reaches s.dp then { s with tape := s.tape.modify s.dp.toNatClampNeg f } else s.stray

/-- The value of the current cell, zero if it is out of reach. -/
def cell (s : State) : Cell :=
  if s.tape.Reaches s.dp then s.tape.cell s.dp.toNatClampNeg else 0

/-- Looks at the current cell, to which the band may have to grow. -/
def look (s : State) : State :=
  if s.tape.Reaches s.dp then { s with tape := s.tape.extendTo s.dp.toNatClampNeg } else s.stray

/-- Writes the current cell. -/
def print (s : State) : State :=
  if s.look.trouble.isSome then s.look
  else if s.output.isFull then { s.look with trouble := some (.output s.output.refusal) }
  else { s.look with output := s.output.push s.cell }

/-- Reads a byte into the current cell, which stays as it is if none arrives. -/
def read (s : State) : State :=
  match s.input.readByte with
  | (.byte b, rest) => { s with input := rest }.change fun _ => b
  | (.nothing, rest) => { s with input := rest }
  | (.failed cause, rest) => { s with input := rest, trouble := some (.input cause) }

/-- Flushes the output at the end of a run. -/
def flush (s : State) : State :=
  let flushed := { s with output := s.output.flush }
  match s.output.flushFailure with
  | some cause => { flushed with trouble := s.trouble.or (some (.output cause)) }
  | none => flushed

end State

/-! ## Brackets -/

/-- How many bytes come before the bracket that leaves the nesting that one stands in. Brackets of
the kind `enter` nest deeper, those of the kind `leave` end a nesting, and `depth` of them are to
be ended first. -/
def seek (enter leave : UInt8) (depth : Nat) : List UInt8 → Option Nat
  | [] => none
  | b :: bytes =>
    if b = leave then
      match depth with
      | 0 => some 0
      | depth + 1 => (seek enter leave depth bytes).map (· + 1)
    else if b = enter then (seek enter leave (depth + 1) bytes).map (· + 1)
    else (seek enter leave depth bytes).map (· + 1)

/-- The offset of the `]` that ends the loop of the `[` at an offset. -/
def closing? (source : List UInt8) (offset : Nat) : Option Nat :=
  (seek '['.toUInt8 ']'.toUInt8 0 (source.drop (offset + 1))).map (offset + 1 + ·)

/-- The offset of the `[` that starts the loop of the `]` at an offset. -/
def opening? (source : List UInt8) (offset : Nat) : Option Nat :=
  (seek ']'.toUInt8 '['.toUInt8 0 (source.take offset).reverse).map (offset - 1 - ·)

/-! ## Readings -/

/-- A source that is being read. -/
structure Reading where
  /-- The offset of the next byte. -/
  offset : Nat := 0
  state : State
  deriving DecidableEq, Repr

namespace Reading

/-- Goes on with the next byte. -/
def pass (r : Reading) (state : State) : Reading :=
  ⟨r.offset + 1, state⟩

/-- Does what the next byte says. -/
def step (source : List UInt8) (r : Reading) : Reading :=
  match source[r.offset]? with
  | none => r
  | some b =>
    if b = '>'.toUInt8 then r.pass (r.state.move 1)
    else if b = '<'.toUInt8 then r.pass (r.state.move (-1))
    else if b = '+'.toUInt8 then r.pass (r.state.change (· + 1))
    else if b = '-'.toUInt8 then r.pass (r.state.change (· - 1))
    else if b = '.'.toUInt8 then r.pass r.state.print
    else if b = ','.toUInt8 then r.pass r.state.read
    else if b = '['.toUInt8 then
      if r.state.cell = 0 then
        match closing? source r.offset with
        | some close => ⟨close + 1, r.state.look⟩
        | none => ⟨source.length, r.state.look⟩
      else r.pass r.state.look
    else if b = ']'.toUInt8 then
      match opening? source r.offset with
      | some start => if r.state.cell = 0 then r.pass r.state.look else ⟨start + 1, r.state.look⟩
      | none => r.pass r.state
    else r.pass r.state

/-- There is a byte left, and nothing has gone wrong. -/
def canStep (source : List UInt8) (r : Reading) : Bool :=
  r.state.trouble.isNone && r.offset < source.length

/-- The stepper that reads a source. -/
def stepper (source : List UInt8) : Stepper Reading :=
  ⟨canStep source, step source⟩

/-- The reading of a source comes to its end and leaves a state behind. -/
def EndsAs (source : List UInt8) (r : Reading) (s : State) : Prop :=
  ∃ k r', (stepper source).Stops k r r' ∧ r'.state.flush = s

end Reading

/-! ## The state of a machine -/

/-- What a fault says apart from where it happened. -/
def Fault.trouble : Fault → Trouble
  | outOfBounds _ dp address size => .outOfBounds dp address size
  | output _ cause => .output cause
  | input _ cause => .input cause

namespace Machine

/-- A machine without its place and its number of steps. -/
def state (m : Machine) : State where
  dp := m.dp
  tape := m.tape
  input := m.input
  output := m.output
  trouble := m.fault.map (·.trouble)

/-- The run of a program comes to its end and leaves a state behind. -/
def EndsAs (p : Program) (m : Machine) (s : State) : Prop :=
  ∃ budget, (m.run p budget).2.IsFinal ∧ (m.run p budget).1.state = s

variable {p : Program} {m : Machine}

theorem trouble_eq_none_iff : m.state.trouble = none ↔ m.fault = none :=
  Option.map_eq_none_iff

theorem state_fail (h : m.fault = none) (fault : Fault) :
    (m.fail fault).state = { m.state with trouble := some fault.trouble } := by
  simp [fail, state, h]

theorem state_flush (m : Machine) : m.flush.state = m.state.flush := by
  have houtput : m.state.output = m.output := rfl
  rw [flush, State.flush, houtput]
  cases m.output.flushFailure with
  | none => rfl
  | some cause =>
    dsimp only [fail, state]
    cases m.fault <;> rfl

/-- A machine ends where it stops. -/
theorem endsAs_iff (hsteps : m.steps = 0) {s : State} :
    m.EndsAs p s ↔ ∃ k m', (stepper p).Stops k m m' ∧ m'.state.flush = s := by
  constructor
  · rintro ⟨n, hfinal, rfl⟩
    obtain ⟨k, m', hle, hstops⟩ := exists_stops_of_run hsteps hfinal
    rw [run_of_stops hsteps hstops hle]
    exact ⟨k, m', hstops, (state_flush m').symm⟩
  · rintro ⟨k, m', hstops, rfl⟩
    refine ⟨k, isFinal_of_stops hsteps hstops (Nat.le_refl k), ?_⟩
    rw [run_of_stops hsteps hstops (Nat.le_refl k), state_flush]

/-! ## What instructions do to the state -/

theorem state_update (h : m.fault = none) (f : Cell → Cell) :
    (m.update 0 f).state = m.state.change f := by
  unfold update State.change
  rw [Int64.add_zero]
  by_cases hreach : m.tape.Reaches m.dp
  · exact (congrArg state (if_pos hreach)).trans (if_pos hreach).symm
  · exact (congrArg state (if_neg hreach)).trans ((state_fail h _).trans (if_neg hreach).symm)

theorem state_probe (h : m.fault = none) : m.probe.state = m.state.look := by
  unfold probe State.look
  by_cases hreach : m.tape.Reaches m.dp
  · exact (congrArg state (if_pos hreach)).trans (if_pos hreach).symm
  · exact (congrArg state (if_neg hreach)).trans ((state_fail h _).trans (if_neg hreach).symm)

theorem state_emit (h : m.fault = none) (b : UInt8) :
    (m.emit b).state =
      if m.output.isFull then { m.state with trouble := some (.output m.output.refusal) }
      else { m.state with output := m.output.push b } := by
  unfold emit
  split
  · exact state_fail h _
  · rfl

theorem state_receive (h : m.fault = none) : m.receive.state = m.state.read := by
  have hinput : m.state.input = m.input := rfl
  unfold receive State.read
  rw [hinput]
  rcases m.input.readByte with ⟨result, rest⟩
  cases result with
  | byte b => exact state_update (m := { m with input := rest }) h fun _ => b
  | nothing => rfl
  | failed cause => exact state_fail (m := { m with input := rest }) h _

end Machine

end TapeCode
