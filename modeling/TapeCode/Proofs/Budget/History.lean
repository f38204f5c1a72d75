import TapeCode.Proofs.Budget

/-!
# Histories of calls

A machine can be called again after it has faulted, and the output can fail its flushes in one
call and not in another. `Machine.History` is any number of such calls, and `Machine.Evolves` is
what happens to the machine on the way, step by step and flush by flush, with the faults that are
recorded.

The first fault is the last one (`Evolves.toList_fault`), and it is final: nothing happens to a
machine with a fault but that its output is flushed (`Evolves.of_fault`), and it answers every
call with that fault (`call_iff_of_fault`).
-/

namespace TapeCode.Machine

variable {p : Program} {m m' m'' : Machine} {budget : ℕ∞} {outcome : Outcome} {fault : Fault}
  {k n : ℕ} {log log' : List Fault}

/-- The machine with an output that fails its flushes in the given way, or does not fail them. -/
def flushing (m : Machine) (failure : Option Failure) : Machine :=
  { m with output := { m.output with flushFailure := failure } }

theorem flushing_eq_self {failure : Option Failure} (h : m.output.flushFailure = failure) :
    m.flushing failure = m := by
  subst h
  rfl

/-- A call as its caller sees it. -/
structure Exchange where
  /-- How the output fails to be flushed, if it does. -/
  failure : Option Failure
  /-- The bound on the steps in all; `⊤` for a run to the end. -/
  budget : ℕ∞
  outcome : Outcome

/-- Calls one after the other, with an output that is flushed in its own way in each of them. -/
inductive History (p : Program) : List Exchange → Machine → Machine → Prop
  | nil {m : Machine} : History p [] m m
  | cons {call : Exchange} {calls : List Exchange} {m m' m'' : Machine} :
    Call p call.budget (m.flushing call.failure) (m', call.outcome) → History p calls m' m'' →
      History p (call :: calls) m m''

/-- The fault that the second machine has and the first one has not, if there is one. -/
def recorded (m m' : Machine) : List Fault :=
  if m'.fault = m.fault then [] else m'.fault.toList

/-- The second machine is the first one after any number of steps and flushes. The list holds the
faults that were recorded, in order. -/
inductive Evolves (p : Program) : List Fault → Machine → Machine → Prop
  | refl {m : Machine} : Evolves p [] m m
  | step {log : List Fault} {m m' : Machine} : m.canStep p = true → Evolves p log (m.step p) m' →
    Evolves p (m.recorded (m.step p) ++ log) m m'
  | flush {log : List Fault} {m m' : Machine} : Evolves p log m.flush m' →
    Evolves p (m.recorded m.flush ++ log) m m'
  | flushing {log : List Fault} {m m' : Machine} (failure : Option Failure) :
    Evolves p log (m.flushing failure) m' → Evolves p log m m'

namespace Evolves

theorem trans (h : Evolves p log m m') (h' : Evolves p log' m' m'') :
    Evolves p (log ++ log') m m'' := by
  induction h with
  | refl => exact h'
  | step hcan _ ih => rw [List.append_assoc]; exact .step hcan (ih h')
  | flush _ ih => rw [List.append_assoc]; exact .flush (ih h')
  | flushing failure _ ih => exact .flushing failure (ih h')

theorem of_takes (h : (stepper p).Takes k m m') : ∃ log, Evolves p log m m' := by
  induction h with
  | refl => exact ⟨[], .refl⟩
  | head hcan _ ih =>
    obtain ⟨log, hrest⟩ := ih
    exact ⟨_, .step hcan hrest⟩

end Evolves

theorem Evolves.of_call (h : Call p budget m (m', outcome)) : ∃ log, Evolves p log m m' := by
  obtain ⟨k, stopped, htakes, rfl, -⟩ := exists_takes_of_call h
  obtain ⟨log, hsteps⟩ := Evolves.of_takes htakes
  exact ⟨_, hsteps.trans (.flush .refl)⟩

variable {calls : List Exchange}

theorem History.exists_evolves (h : History p calls m m') : ∃ log, Evolves p log m m' := by
  induction h with
  | nil => exact ⟨[], .refl⟩
  | cons hcall _ ih =>
    obtain ⟨log, hfirst⟩ := Evolves.of_call hcall
    obtain ⟨log', hrest⟩ := ih
    exact ⟨_, (Evolves.flushing _ hfirst).trans hrest⟩

/-! ## One fault at most -/

theorem toList_fault_of_recorded (h : m.fault = none ∨ m'.fault = m.fault) :
    m'.fault.toList = m.fault.toList ++ m.recorded m' := by
  unfold recorded
  split
  · rename_i hsame
    rw [hsame, List.append_nil]
  · rename_i hdiffers
    rw [h.resolve_right hdiffers]
    rfl

/-- Flushing does not replace a fault. -/
theorem fault_flush (m : Machine) : m.fault = none ∨ m.flush.fault = m.fault := by
  cases hfault : m.fault with
  | none => exact .inl rfl
  | some fault => exact .inr (fault_flush_of_fault hfault)

theorem fault_eq_none_of_canStep (h : m.canStep p = true) : m.fault = none := by
  simp only [canStep, Bool.and_eq_true, Option.isNone_iff_eq_none] at h
  exact h.1

/-- The faults that a machine ends up with are the one that it had and those that were recorded.
Since a machine has one fault at most, no more than one is recorded, and none if it had one. -/
theorem Evolves.toList_fault (h : Evolves p log m m') :
    m'.fault.toList = m.fault.toList ++ log := by
  induction h with
  | refl => exact (List.append_nil _).symm
  | step hcan _ ih =>
    rw [ih, toList_fault_of_recorded (.inl (fault_eq_none_of_canStep hcan)), List.append_assoc]
  | flush _ ih => rw [ih, toList_fault_of_recorded (fault_flush _), List.append_assoc]
  | flushing failure _ ih => exact ih

/-! ## After a fault -/

/-- The second machine is the first one, but its output may have been flushed, and may be flushed
in another way from now on. -/
def Rests (m m' : Machine) : Prop :=
  ∃ failure, m' = m.flushing failure ∨ m' = (m.flushing none).flush.flushing failure

namespace Rests

theorem refl (m : Machine) : m.Rests m :=
  ⟨m.output.flushFailure, .inl rfl⟩

theorem of_flushing {failure : Option Failure} (h : (m.flushing failure).Rests m') :
    m.Rests m' := by
  obtain ⟨failure', rfl | rfl⟩ := h
  · exact ⟨failure', .inl rfl⟩
  · exact ⟨failure', .inr rfl⟩

/-- A flush that is followed by another one makes no difference. -/
theorem of_flush (hfault : m.fault = some fault) (h : m.flush.Rests m') : m.Rests m' := by
  have hflush : m.flush = { m with output := m.output.flush } := flush_of_fault hfault
  cases hfailure : m.output.flushFailure with
  | some cause =>
    rw [Output.flush_of_flushFailure hfailure] at hflush
    rwa [hflush] at h
  | none =>
    have hidle : m.flushing none = m := flushing_eq_self hfailure
    have hidle' : m.flush.flushing none = m.flush :=
      flushing_eq_self (by rw [hflush]; exact hfailure)
    have htwice : m.flush.flush = m.flush := by
      rw [flush_of_fault (fault_flush_of_fault hfault), hflush, Output.flush_flush]
    obtain ⟨failure, rfl | rfl⟩ := h
    · exact ⟨failure, .inr (by rw [hidle])⟩
    · exact ⟨failure, .inr (by rw [hidle', htwice, hidle])⟩

end Rests

/-- No more steps are taken then, and nothing changes but the output, by flushes. -/
theorem Evolves.of_fault (h : Evolves p log m m') (hfault : m.fault = some fault) :
    m.Rests m' := by
  induction h with
  | refl => exact .refl _
  | step hcan _ _ =>
    rw [fault_eq_none_of_canStep hcan] at hfault
    cases hfault
  | flush _ ih => exact .of_flush hfault (ih (fault_flush_of_fault hfault))
  | flushing failure _ ih => exact .of_flushing (ih hfault)

theorem run_of_fault (h : m.fault = some fault) (n : ℕ) :
    m.run p n = (m.flush, .faulted m.steps fault) := by
  simp [run, advance_of_fault h, fault_flush_of_fault h, canStep, h]

/-- A machine with a fault is called in vain: the call comes back with that fault, and all that it
does is flush the output. -/
theorem call_iff_of_fault (h : m.fault = some fault) :
    Call p budget m (m', outcome) ↔ m' = m.flush ∧ outcome = .faulted m.steps fault := by
  have hended : m.canStep p = false := by simp [canStep, h]
  constructor
  · intro hcall
    generalize hresult : (m', outcome) = result at hcall
    cases hcall with
    | bounded budget =>
      rw [run_of_fault h] at hresult
      exact Prod.mk.inj hresult
    | unbounded hstops =>
      obtain ⟨-, rfl⟩ := hstops.unique ⟨.refl, hended⟩
      rw [fault_flush_of_fault h] at hresult
      exact Prod.mk.inj hresult
  · rintro ⟨rfl, rfl⟩
    cases budget with
    | top =>
      have hcall := Call.unbounded (p := p) ⟨.refl, hended⟩
      rwa [fault_flush_of_fault h] at hcall
    | coe budget =>
      have hcall := Call.bounded (p := p) budget m
      rwa [run_of_fault h] at hcall

/-- All later calls have one answer. -/
theorem History.outcome_eq (h : History p calls m m') (hfault : m.fault = some fault) :
    ∀ call ∈ calls, call.outcome = .faulted m.steps fault := by
  induction h with
  | nil => exact fun call hcall => (List.not_mem_nil hcall).elim
  | @cons call calls m m₁ m₂ hcall _ ih =>
    have hflushing : (m.flushing call.failure).fault = some fault := hfault
    obtain ⟨rfl, houtcome⟩ := (call_iff_of_fault hflushing).1 hcall
    have hsteps : (m.flushing call.failure).flush.steps = m.steps := by
      rw [flush_eq]
      rfl
    exact List.forall_mem_cons.2 ⟨houtcome, hsteps ▸ ih (fault_flush_of_fault hflushing)⟩

/-- The first fault is final. On the way through any history of calls one fault is recorded at
most, and from then on nothing of the machine changes but that its output is flushed, and how. All
calls after it come back, and answer with that fault and the steps counted until then, whether or
not the output can be flushed in them. -/
theorem fault_final {p : Program} {calls : List Exchange} {m m' : Machine}
    (h : History p calls m m') :
    (∃ log, Evolves p log m m') ∧
    (∀ log a b, Evolves p log a b → b.fault.toList = a.fault.toList ++ log ∧
      (a.fault ≠ none → a.Rests b)) ∧
    ∀ fault, m'.fault = some fault →
      (∀ later m'', History p later m' m'' →
        (∀ call ∈ later, call.outcome = .faulted m'.steps fault) ∧ m'.Rests m'') ∧
      ∀ (failure : Option Failure) (budget : ℕ∞),
        Call p budget (m'.flushing failure)
          ((m'.flushing failure).flush, .faulted m'.steps fault) := by
  refine ⟨h.exists_evolves, fun log a b hlog => ⟨hlog.toList_fault, fun hsome => ?_⟩,
    fun fault hfault => ⟨fun later m'' hlater => ?_, fun failure budget => ?_⟩⟩
  · obtain ⟨fault, hfault⟩ := Option.ne_none_iff_exists'.1 hsome
    exact hlog.of_fault hfault
  · obtain ⟨log, hlog⟩ := hlater.exists_evolves
    exact ⟨hlater.outcome_eq hfault, hlog.of_fault hfault⟩
  · exact (call_iff_of_fault (m := m'.flushing failure) hfault).2 ⟨rfl, rfl⟩

/-- A machine that goes out of bounds on the left of its band, after it was paused there. The
flush fails in the call that records the fault, and no longer in the one after it. -/
theorem fault_final_of_paused :
    ∃ m, History #[⟨.move .left, 1, 0⟩, ⟨.add .here, 1, 0⟩]
        [⟨none, (1 : ℕ), .outOfSteps 1⟩,
          ⟨some .brokenPipe, (9 : ℕ), .faulted 2 (.outOfBounds 1 (-1) (-1) 1)⟩]
        { tape := .blank 1 false } m ∧
      Call #[⟨.move .left, 1, 0⟩, ⟨.add .here, 1, 0⟩] ⊤ (m.flushing none)
        (m.flushing none, .faulted 2 (.outOfBounds 1 (-1) (-1) 1)) := by
  have h : History #[⟨.move .left, 1, 0⟩, ⟨.add .here, 1, 0⟩]
      [⟨none, (1 : ℕ), .outOfSteps 1⟩,
        ⟨some .brokenPipe, (9 : ℕ), .faulted 2 (.outOfBounds 1 (-1) (-1) 1)⟩]
      { tape := .blank 1 false } _ :=
    .cons (.bounded 1 _) (.cons (.bounded 9 _) .nil)
  exact ⟨_, h, ((fault_final h).2.2 _ rfl).2 none ⊤⟩

end TapeCode.Machine
