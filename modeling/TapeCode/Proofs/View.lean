import TapeCode.Machine

/-!
# Views

A view is what a program can tell of a machine: its data pointer, what its tape shows at every
index, the length of the band if it is fixed, and its two streams. The length of a growable band,
the instruction pointer and the step counter are left out, so that two machines have one view
exactly if programs treat them alike.

`Instruction.act` is what an instruction other than a jump does to a view, and
`Machine.report_perform` states that the machine does just that.
-/

namespace TapeCode

/-- The ways in which an access goes wrong, without the place where it did. -/
inductive Fault.Kind where
  | outOfBounds
  | output (cause : Failure)
  | input (cause : Failure)
  deriving DecidableEq, Repr

/-- The kind of a fault. -/
def Fault.kind : Fault → Fault.Kind
  | outOfBounds .. => .outOfBounds
  | output _ cause => .output cause
  | input _ cause => .input cause

/-- What a program can tell of a machine. -/
@[ext] structure View where
  dp : Int64
  /-- The length of the band, if it is fixed. -/
  limit : Option Nat
  cells : Nat → Cell
  input : Input
  output : Output

namespace View

/-- The index of the cell at a distance from the data pointer, if that cell can be accessed. -/
def index? (v : View) (offset : Int64) : Option Nat :=
  if 0 ≤ v.dp + offset ∧ v.limit.all ((v.dp + offset).toNatClampNeg < ·) then
    some (v.dp + offset).toNatClampNeg
  else none

/-- The view with another value in a cell. -/
def store (v : View) (i : Nat) (value : Cell) : View :=
  { v with cells := fun j => if j = i then value else v.cells j }

/-- Changes the cell at a distance from the data pointer. -/
def update (v : View) (offset : Int64) (f : Cell → Cell) : Option Fault.Kind × View :=
  match v.index? offset with
  | some i => (none, v.store i (f (v.cells i)))
  | none => (some .outOfBounds, v)

/-- Writes one byte. -/
def emit (v : View) (b : UInt8) : Option Fault.Kind × View :=
  if v.output.isFull then (some (.output v.output.refusal), v)
  else (none, { v with output := v.output.push b })

/-- Reads one byte into the current cell. -/
def receive (v : View) : Option Fault.Kind × View :=
  let v' := { v with input := v.input.readByte.2 }
  match v.input.readByte.1 with
  | .byte b => v'.update 0 fun _ => b
  | .nothing => (none, v')
  | .failed cause => (some (.input cause), v')

/-- Flushes the output. -/
def flush (v : View) : View :=
  { v with output := v.output.flush }

end View

/-- What an instruction other than a jump does, and the fault that it raises. -/
def Instruction.act (x : Instruction) (v : View) : Option Fault.Kind × View :=
  match x.op with
  | .move _ => (none, { v with dp := v.dp + x.amount })
  | .add _ | .sub _ => v.update x.offset (· + x.change)
  | .set _ => v.update x.offset fun _ => x.value
  | .print =>
    match v.index? 0 with
    | some i => v.emit (v.cells i)
    | none => (some .outOfBounds, v)
  | .input => v.receive
  | _ => (none, v)

/-- The length of the band, if it is fixed. -/
def Tape.limit (tape : Tape) : Option Nat :=
  if tape.growable then none else some tape.size

theorem Tape.reaches_iff {tape : Tape} {address : Int64} :
    tape.Reaches address ↔
      0 ≤ address ∧ tape.limit.all (address.toNatClampNeg < ·) = true := by
  unfold Reaches limit
  cases tape.growable <;> simp

/-- Extending a band to an index that it reaches leaves a fixed band alone. -/
theorem Tape.limit_extendTo {tape : Tape} {address : Int64} (h : tape.Reaches address) :
    (tape.extendTo address.toNatClampNeg).limit = tape.limit := by
  unfold limit
  rw [growable_extendTo]
  cases hgrow : tape.growable with
  | true => rfl
  | false =>
    have hlt : address.toNatClampNeg < tape.size := by simpa [hgrow] using h.2
    rw [extendTo, if_pos hlt]

theorem Tape.limit_modify {tape : Tape} {address : Int64} (h : tape.Reaches address)
    (f : Cell → Cell) : (tape.modify address.toNatClampNeg f).limit = tape.limit := by
  rw [← limit_extendTo h]
  unfold limit
  rw [growable_modify, size_modify, growable_extendTo]

namespace Machine

/-- The view of a machine. -/
def view (m : Machine) : View where
  dp := m.dp
  limit := m.tape.limit
  cells := m.tape.cell
  input := m.input
  output := m.output

/-- The kind of its fault, if it has one, and its view. -/
def report (m : Machine) : Option Fault.Kind × View :=
  (m.fault.map (·.kind), m.view)

variable {m : Machine}

theorem report_eq {v : View} (h : m.fault = none) (hview : m.view = v) :
    m.report = (none, v) := by
  rw [report, h, hview]
  rfl

theorem fault_eq_none_of_report {v : View} (h : m.report = (none, v)) :
    m.fault = none ∧ m.view = v := by
  obtain ⟨hfault, hview⟩ := Prod.mk.inj h
  exact ⟨Option.map_eq_none_iff.1 hfault, hview⟩

/-! ## Accesses -/

/-- The addresses that a tape reaches are those that the view can access. -/
theorem index?_view (m : Machine) (offset : Int64) :
    m.view.index? offset =
      if m.tape.Reaches (m.dp + offset) then some (m.dp + offset).toNatClampNeg else none := by
  unfold View.index?
  split
  · rename_i hreach
    exact (if_pos (Tape.reaches_iff.2 hreach)).symm
  · rename_i hreach
    exact (if_neg fun h => hreach (Tape.reaches_iff.1 h)).symm

theorem report_fail (h : m.fault = none) (fault : Fault) :
    (m.fail fault).report = (some fault.kind, m.view) := by
  simp [fail, report, h, view]

theorem report_update (h : m.fault = none) (offset : Int64) (f : Cell → Cell) :
    (m.update offset f).report = m.view.update offset f := by
  unfold update View.update
  rw [index?_view]
  dsimp only
  split
  · rename_i hreach
    refine report_eq h (View.ext rfl (Tape.limit_modify hreach f) (funext fun j => ?_) rfl rfl)
    exact Tape.cell_modify m.tape _ j f
  · exact report_fail h _

theorem current_eq (m : Machine) :
    m.current = match m.view.index? 0 with
      | some i => m.view.cells i
      | none => 0 := by
  rw [index?_view, Int64.add_zero, current]
  split <;> rfl

theorem report_probe (h : m.fault = none) :
    m.probe.report = match m.view.index? 0 with
      | some _ => (none, m.view)
      | none => (some .outOfBounds, m.view) := by
  rw [index?_view, Int64.add_zero, probe]
  split
  · rename_i hreach
    refine report_eq h (View.ext rfl (Tape.limit_extendTo hreach) (funext fun j => ?_) rfl rfl)
    exact Tape.cell_extendTo m.tape _ j
  · exact report_fail h _

theorem report_emit (h : m.fault = none) (b : UInt8) : (m.emit b).report = m.view.emit b := by
  unfold emit View.emit
  have hfull : m.view.output.isFull = m.output.isFull := rfl
  rw [hfull]
  split
  · exact report_fail h _
  · exact report_eq h rfl

theorem report_receive (h : m.fault = none) : m.receive.report = m.view.receive := by
  unfold receive View.receive
  have hinput : m.view.input = m.input := rfl
  rw [hinput]
  rcases m.input.readByte with ⟨result, rest⟩
  cases result with
  | byte b => exact report_update (m := { m with input := rest }) h 0 fun _ => b
  | nothing => exact report_eq h rfl
  | failed cause => exact report_fail (m := { m with input := rest }) h _

/-! ## Instructions -/

/-- An instruction other than a jump acts on the view, and raises the fault that
it raises there. -/
theorem report_perform (h : m.fault = none) (size : Nat) {x : Instruction}
    (hjump : x.op.isJump = false) : (m.perform size x).report = x.act m.view := by
  unfold perform Instruction.act
  cases hop : x.op with
  | nop => exact report_eq h rfl
  | move => exact report_eq h rfl
  | add => exact report_update h _ _
  | sub => exact report_update h _ _
  | set => exact report_update h _ _
  | print =>
    have hprobe := report_probe h
    have hcurrent := m.current_eq
    dsimp only
    cases hindex : m.view.index? 0 with
    | none =>
      rw [hindex] at hprobe
      have hfault : m.probe.fault.isNone = false := by
        cases hp : m.probe.fault with
        | none => rw [report, hp] at hprobe; cases hprobe
        | some fault => rfl
      rw [hfault]
      exact hprobe
    | some i =>
      rw [hindex] at hprobe hcurrent
      obtain ⟨hfault, hview⟩ := fault_eq_none_of_report hprobe
      rw [hfault, hcurrent]
      have hemit := report_emit hfault (m.view.cells i)
      rw [hview] at hemit
      exact hemit
  | input => exact report_receive h
  | opens => rw [hop] at hjump; cases hjump
  | closes => rw [hop] at hjump; cases hjump

/-- The instruction pointer and the number of steps. -/
def control (m : Machine) : Nat × Nat :=
  (m.ip, m.steps)

@[simp] theorem control_update (m : Machine) (offset : Int64) (f : Cell → Cell) :
    (m.update offset f).control = m.control := by
  unfold update
  dsimp only
  split <;> rfl

@[simp] theorem control_probe (m : Machine) : m.probe.control = m.control := by
  unfold probe
  split <;> rfl

@[simp] theorem control_emit (m : Machine) (b : UInt8) : (m.emit b).control = m.control := by
  unfold emit
  split <;> rfl

@[simp] theorem control_receive (m : Machine) : m.receive.control = m.control := by
  unfold receive
  dsimp only
  split
  · exact control_update ..
  · rfl
  · rfl

theorem control_next {m m' : Machine} (h : m'.control = m.control) :
    m'.next.control = (m.ip + 1, m.steps) := by
  obtain ⟨hip, hsteps⟩ := Prod.mk.inj h
  simp [next, control, hip, hsteps]

/-- After an instruction other than a jump the machine goes on with the next one. -/
theorem control_perform (m : Machine) (size : Nat) {x : Instruction}
    (hjump : x.op.isJump = false) : (m.perform size x).control = (m.ip + 1, m.steps) := by
  unfold perform
  cases hop : x.op with
  | nop => rfl
  | move => rfl
  | add => exact control_next (control_update ..)
  | sub => exact control_next (control_update ..)
  | set => exact control_next (control_update ..)
  | print =>
    dsimp only
    split
    · exact control_next ((control_emit ..).trans (control_probe m))
    · exact control_next (control_probe m)
  | input => exact control_next (control_receive m)
  | opens => rw [hop] at hjump; cases hjump
  | closes => rw [hop] at hjump; cases hjump

end Machine

end TapeCode
