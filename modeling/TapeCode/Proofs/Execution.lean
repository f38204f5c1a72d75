import TapeCode.Machine.Run
import TapeCode.Proofs.Course

/-!
# Steps of the machine

`Machine.Takes p k m m'` says that the machine takes `k` steps on the way from `m` to `m'`. What a
jump does to the view is told by `Machine.Looks`: both ends of a loop look at the current cell and
go on at one of two slots. `Machine.nextIp` says where a machine goes on, whatever the instruction
is.
-/

namespace TapeCode

/-- The outcome of a run that has come to its end with a fault or without one. -/
def Outcome.ofEnd (steps : Nat) : Option Fault → Outcome
  | some fault => .faulted steps fault
  | none => .completed steps

namespace Machine

variable {p : Program} {m m' : Machine}

/-! ## Steps -/

theorem advance_of_canStep_eq_false (h : m.canStep p = false) (n : Nat) : m.advance p n = m := by
  cases n with
  | zero => rfl
  | succ n =>
    rw [advance, h]
    rfl

theorem advance_of_fault {fault : Fault} (h : m.fault = some fault) (n : Nat) :
    m.advance p n = m :=
  advance_of_canStep_eq_false (by simp [canStep, h]) n

theorem advance_add (p : Program) (m : Machine) (a b : Nat) :
    m.advance p (a + b) = (m.advance p a).advance p b := by
  induction a generalizing m with
  | zero => rw [Nat.zero_add]; rfl
  | succ a ih =>
    rw [Nat.add_right_comm, advance, advance]
    cases h : m.canStep p with
    | true => exact ih (m.step p)
    | false => exact (advance_of_canStep_eq_false h b).symm

/-- A machine without a fault has had none before. -/
theorem fault_eq_none_of_advance {n : Nat} (h : (m.advance p n).fault = none) :
    m.fault = none := by
  cases hfault : m.fault with
  | none => rfl
  | some fault => rwa [advance_of_fault hfault, hfault] at h

theorem fault_eq_none_of_le {a n : Nat} (hle : a ≤ n) (h : (m.advance p n).fault = none) :
    (m.advance p a).fault = none := by
  obtain ⟨l, rfl⟩ := Nat.exists_eq_add_of_le hle
  rw [advance_add] at h
  exact fault_eq_none_of_advance h

/-- The machine takes `k` steps, all of them. -/
structure Takes (p : Program) (k : Nat) (m m' : Machine) : Prop where
  advance : m.advance p k = m'
  steps : m'.steps = m.steps + k

theorem Takes.refl (p : Program) (m : Machine) : Takes p 0 m m :=
  ⟨rfl, rfl⟩

theorem Takes.trans {m'' : Machine} {a b : Nat} (h : Takes p a m m') (h' : Takes p b m' m'') :
    Takes p (a + b) m m'' := by
  obtain ⟨rfl, hsteps⟩ := h
  obtain ⟨rfl, hsteps'⟩ := h'
  exact ⟨advance_add p m a b, by rw [hsteps', hsteps, Nat.add_assoc]⟩

/-- A machine that has come to its end stays there. -/
theorem Takes.advance_add {k left : Nat} (h : Takes p k m m') (hend : m'.canStep p = false) :
    m.advance p (k + left) = m' := by
  rw [Machine.advance_add, h.advance, advance_of_canStep_eq_false hend]

theorem canStep_of_getElem? {x : Instruction} (hfault : m.fault = none) (hx : p[m.ip]? = some x) :
    m.canStep p = true := by
  have hlt := (Array.getElem?_eq_some_iff.1 hx).1
  simp [canStep, hfault, hlt]

/-- The machine with its step counted. -/
def counted (m : Machine) : Machine :=
  { m with steps := m.steps + 1 }

theorem step_of_getElem? {x : Instruction} (hx : p[m.ip]? = some x) :
    m.step p = m.counted.perform p.size x := by
  simp only [step, hx]
  rfl

@[simp] theorem steps_update (m : Machine) (offset : Int64) (f : Cell → Cell) :
    (m.update offset f).steps = m.steps :=
  (Prod.mk.inj (control_update m offset f)).2

@[simp] theorem steps_probe (m : Machine) : m.probe.steps = m.steps :=
  (Prod.mk.inj (control_probe m)).2

/-- Only the step itself is counted. -/
theorem steps_perform (m : Machine) (size : Nat) (x : Instruction) :
    (m.perform size x).steps = m.steps := by
  cases hjump : x.op.isJump with
  | false => exact (Prod.mk.inj (control_perform m size hjump)).2
  | true =>
    unfold perform
    cases hop : x.op with
    | opens kind =>
      dsimp only
      split
      · exact steps_probe m
      · cases kind with
        | tested => exact steps_probe m
        | counted => exact (steps_update ..).trans (steps_probe m)
    | closes kind =>
      dsimp only
      split
      · exact steps_probe m
      · cases kind with
        | tested => exact steps_probe m
        | counted => exact steps_probe m
    | _ => rw [hop] at hjump; cases hjump

theorem takes_step {x : Instruction} (hfault : m.fault = none) (hx : p[m.ip]? = some x) :
    Takes p 1 m (m.counted.perform p.size x) := by
  refine ⟨?_, steps_perform ..⟩
  rw [advance, canStep_of_getElem? hfault hx, ← step_of_getElem? hx]
  rfl

/-! ## Flushing -/

@[simp] theorem output_update (m : Machine) (offset : Int64) (f : Cell → Cell) :
    (m.update offset f).output = m.output := by
  unfold update
  dsimp only
  split <;> rfl

@[simp] theorem output_probe (m : Machine) : m.probe.output = m.output := by
  unfold probe
  split <;> rfl

theorem output_emit (m : Machine) (b : UInt8) :
    (m.emit b).output = { m.output with bytes := (m.emit b).output.bytes } := by
  unfold emit
  split <;> rfl

@[simp] theorem output_receive (m : Machine) : m.receive.output = m.output := by
  unfold receive
  dsimp only
  split
  · exact output_update ..
  · rfl
  · rfl

/-- All that instructions change of the output is the bytes that it has taken. -/
theorem output_perform (m : Machine) (size : Nat) (x : Instruction) :
    (m.perform size x).output = { m.output with bytes := (m.perform size x).output.bytes } := by
  unfold perform
  cases x.op with
  | nop => rfl
  | move => rfl
  | add => simp [next]
  | sub => simp [next]
  | set => simp [next]
  | print =>
    dsimp only
    split
    · simpa [next] using output_emit m.probe m.current
    · simp [next]
  | input => simp [next]
  | opens kind =>
    dsimp only
    split
    · simp [goto]
    · cases kind <;> simp [next]
  | closes kind =>
    dsimp only
    split
    · simp [next]
    · cases kind <;> simp [goto]

theorem output_advance (p : Program) (n : Nat) (m : Machine) :
    (m.advance p n).output = { m.output with bytes := (m.advance p n).output.bytes } := by
  induction n generalizing m with
  | zero => rfl
  | succ n ih =>
    rw [advance]
    split
    · rw [ih, step]
      split
      · rw [output_perform]
      · rfl
    · rfl

theorem flushFailure_advance (p : Program) (n : Nat) (m : Machine) :
    (m.advance p n).output.flushFailure = m.output.flushFailure := by
  rw [output_advance]

/-- Flushing changes the output, and records a fault at most. -/
theorem flush_eq (m : Machine) :
    m.flush = { m with output := m.output.flush, fault := m.flush.fault } := by
  unfold flush
  dsimp only
  split <;> rfl

theorem view_flush (m : Machine) : m.flush.view = m.view.flush := by
  rw [flush_eq]
  rfl

/-- An output that can be flushed raises no fault. -/
theorem flush_of_flushFailure (hflush : m.output.flushFailure = none) :
    m.flush = { m with output := m.output.flush } := by
  unfold flush
  rw [hflush]

theorem fail_of_fault {fault : Fault} (h : m.fault = some fault) (fault' : Fault) :
    m.fail fault' = m := by
  rw [fail, h, Option.some_or, ← h]

theorem fault_eq_none_of_flush (h : m.flush.fault = none) :
    m.fault = none ∧ m.output.flushFailure = none := by
  cases hflush : m.output.flushFailure with
  | none => exact ⟨by rw [← h, flush_of_flushFailure hflush], rfl⟩
  | some cause => simp [flush, hflush, fail] at h

/-- A fault that was recorded before is not replaced by one of the flush. -/
theorem flush_of_fault {fault : Fault} (h : m.fault = some fault) :
    m.flush = { m with output := m.output.flush } := by
  unfold flush
  dsimp only
  split
  · exact fail_of_fault (m := { m with output := m.output.flush }) h _
  · rfl

theorem fault_flush_of_fault {fault : Fault} (h : m.fault = some fault) :
    m.flush.fault = some fault := by
  rw [flush_of_fault h, ← h]

/-- A run that has come to its end is flushed, and its outcome tells the fault that
it has then. -/
theorem run_of_stopped {n : Nat} (hsteps : m.steps = 0) (hadvance : m.advance p n = m')
    (hend : m'.canStep p = false) :
    m.run p n = (m'.flush, .ofEnd m'.steps m'.flush.fault) := by
  simp only [run, hsteps, Nat.sub_zero, hadvance, hend]
  cases m'.flush.fault <;> rfl

theorem run_of_canStep {n : Nat} (hsteps : m.steps = 0) (hadvance : m.advance p n = m')
    (hcan : m'.canStep p = true) : m.run p n = (m'.flush, .outOfSteps m'.steps) := by
  simp [run, hsteps, hadvance, hcan]

theorem run_of_faulted {n : Nat} {fault : Fault} (hsteps : m.steps = 0)
    (hadvance : m.advance p n = m') (hfault : m'.fault = some fault) :
    m.run p n = (m'.flush, .faulted m'.steps fault) := by
  have hend : m'.canStep p = false := by simp [canStep, hfault]
  rw [run_of_stopped hsteps hadvance hend, fault_flush_of_fault hfault]
  rfl

theorem run_of_completed {n : Nat} (hsteps : m.steps = 0) (hflush : m.output.flushFailure = none)
    (hadvance : m.advance p n = m') (hend : m'.canStep p = false) (hfault : m'.fault = none) :
    m.run p n = (m'.flush, .completed m'.steps) := by
  have hflush' : m'.output.flushFailure = none := by rw [← hadvance, flushFailure_advance, hflush]
  rw [run_of_stopped hsteps hadvance hend, flush_of_flushFailure hflush', hfault]
  rfl

/-! ## Looks at the current cell -/

/-- What the start of a loop does to the view before a round. -/
def entry (kind : LoopKind) (v : View) : Option Fault.Kind × View :=
  match kind with
  | .tested => (none, v)
  | .counted => v.update 0 (· - 1)

theorem precedes_entry (kind : LoopKind) (v : View) : v.Precedes (entry kind v).2 := by
  cases kind with
  | tested => exact .refl v
  | counted => exact v.precedes_update 0 _

theorem enter_eq (kind : LoopKind) :
    Course.enter kind = .free (entry kind) (precedes_entry kind) := by
  cases kind <;> rfl

/-- A machine after a look at its cell: it is at one slot if the cell is zero, and else at another
one, and has changed its view. -/
structure Looks (m m' : Machine) (skipped taken : Nat) (f : View → Option Fault.Kind × View) :
    Prop where
  outOfBounds : m.view.index? 0 = none → m'.report = (some .outOfBounds, m.view)
  zero : ∀ i, m.view.index? 0 = some i → m.view.cells i = 0 →
    m'.report = (none, m.view) ∧ m'.ip = skipped
  nonzero : ∀ i, m.view.index? 0 = some i → m.view.cells i ≠ 0 →
    m'.report = f m.view ∧ m'.ip = taken

/-- Without a fault the cell is within reach. -/
theorem Looks.exists_index {skipped taken : Nat} {f : View → Option Fault.Kind × View}
    (h : m.Looks m' skipped taken f) (hfault : m'.fault = none) :
    ∃ i, m.view.index? 0 = some i ∧
      (m.view.cells i = 0 ∧ m'.ip = skipped ∧ m'.view = m.view ∨
        m.view.cells i ≠ 0 ∧ m'.ip = taken ∧ f m.view = (none, m'.view)) := by
  have hreport := report_eq hfault rfl
  cases hindex : m.view.index? 0 with
  | none => cases hreport.symm.trans (h.outOfBounds hindex)
  | some i =>
    refine ⟨i, rfl, ?_⟩
    by_cases hcell : m.view.cells i = 0
    · obtain ⟨hsame, hip⟩ := h.zero i hindex hcell
      exact .inl ⟨hcell, hip, (Prod.mk.inj (hreport.symm.trans hsame)).2⟩
    · obtain ⟨hf, hip⟩ := h.nonzero i hindex hcell
      exact .inr ⟨hcell, hip, hf.symm.trans hreport⟩

theorem report_probe_of_none (h : m.fault = none) (hindex : m.view.index? 0 = none) :
    m.probe.report = (some .outOfBounds, m.view) := by
  rw [report_probe h, hindex]

theorem report_probe_of_some {i : Nat} (h : m.fault = none) (hindex : m.view.index? 0 = some i) :
    m.probe.report = (none, m.view) := by
  rw [report_probe h, hindex]

theorem current_of_none (hindex : m.view.index? 0 = none) : m.current = 0 := by
  rw [current_eq, hindex]

theorem current_of_some {i : Nat} (hindex : m.view.index? 0 = some i) :
    m.current = m.view.cells i := by
  rw [current_eq, hindex]

variable {x : Instruction} {kind : LoopKind}

theorem looks_opens (h : m.fault = none) (size : Nat) (hop : x.op = .opens kind) :
    m.Looks (m.perform size x) (landing size x) (m.ip + 1) (entry kind) := by
  have hip : m.probe.ip = m.ip := (Prod.mk.inj (control_probe m)).1
  refine ⟨fun hindex => ?_, fun i hindex hcell => ?_, fun i hindex hcell => ?_⟩
  · rw [perform, hop]
    dsimp only
    rw [current_of_none hindex, if_pos rfl]
    exact report_probe_of_none h hindex
  · rw [perform, hop]
    dsimp only
    rw [current_of_some hindex, if_pos hcell]
    exact ⟨report_probe_of_some h hindex, rfl⟩
  · have hprobe := report_probe_of_some h hindex
    rw [perform, hop]
    dsimp only
    rw [current_of_some hindex, if_neg hcell]
    cases kind with
    | tested => exact ⟨hprobe, congrArg (· + 1) hip⟩
    | counted =>
      obtain ⟨hfault, hview⟩ := fault_eq_none_of_report hprobe
      have hupdate := report_update hfault 0 (· - 1)
      rw [hview] at hupdate
      exact ⟨hupdate, congrArg (· + 1) ((Prod.mk.inj (control_update ..)).1.trans hip)⟩

/-- Where the end of a loop goes on with another round. -/
def restart (kind : LoopKind) (size : Nat) (x : Instruction) : Nat :=
  match kind with
  | .tested => landing size x
  | .counted => x.target?.getD size

theorem looks_closes (h : m.fault = none) (size : Nat) (hop : x.op = .closes kind) :
    m.Looks (m.perform size x) (m.ip + 1) (restart kind size x) fun v => (none, v) := by
  have hip : m.probe.ip = m.ip := (Prod.mk.inj (control_probe m)).1
  refine ⟨fun hindex => ?_, fun i hindex hcell => ?_, fun i hindex hcell => ?_⟩
  · rw [perform, hop]
    dsimp only
    rw [current_of_none hindex, if_pos rfl]
    exact report_probe_of_none h hindex
  · rw [perform, hop]
    dsimp only
    rw [current_of_some hindex, if_pos hcell]
    exact ⟨report_probe_of_some h hindex, congrArg (· + 1) hip⟩
  · have hprobe := report_probe_of_some h hindex
    rw [perform, hop]
    dsimp only
    rw [current_of_some hindex, if_neg hcell]
    cases kind with
    | tested => exact ⟨hprobe, rfl⟩
    | counted => exact ⟨hprobe, rfl⟩

/-! ## Where an instruction leads -/

/-- Where the machine goes on after an instruction of a program of the given size. -/
def nextIp (m : Machine) (size : Nat) (x : Instruction) : Nat :=
  match x.op with
  | .opens _ => if m.current = 0 then landing size x else m.ip + 1
  | .closes kind => if m.current = 0 then m.ip + 1 else restart kind size x
  | _ => m.ip + 1

theorem nextIp_of_not_isJump (hjump : x.op.isJump = false) (size : Nat) :
    m.nextIp size x = m.ip + 1 := by
  unfold nextIp
  cases hop : x.op with
  | opens => rw [hop] at hjump; cases hjump
  | closes => rw [hop] at hjump; cases hjump
  | _ => rfl

theorem ip_perform (m : Machine) (size : Nat) (x : Instruction) :
    (m.perform size x).ip = m.nextIp size x := by
  have hprobe : m.probe.ip = m.ip := (Prod.mk.inj (control_probe m)).1
  unfold nextIp
  cases hop : x.op with
  | opens kind =>
    rw [perform, hop]
    dsimp only
    split
    · rfl
    · cases kind with
      | tested => exact congrArg (· + 1) hprobe
      | counted => exact congrArg (· + 1) ((Prod.mk.inj (control_update ..)).1.trans hprobe)
  | closes kind =>
    rw [perform, hop]
    dsimp only
    split
    · exact congrArg (· + 1) hprobe
    · cases kind <;> rfl
  | _ => exact (Prod.mk.inj (control_perform m size (by rw [hop]; rfl))).1

end Machine

end TapeCode
