import TapeCode.Proofs.Execution

/-!
# Steppers

A stepper takes one step after the other for as long as it can. `Stepper.Takes A k a b` says that
it takes `k` steps on the way from `a` to `b`, and `Stepper.Stops A k a b` that it stops there.

One stepper refines another if it matches every step of the other one by one or more of its own,
and stops, perhaps after some more steps, where the other one stops (`Stepper.Refines`). Since a
step is never matched by nothing, the two stop on the same starts, the coarse one after no more
steps (`Refines.stops`, `Refines.of_stops`).

The machine is a stepper for every program, and a run is told by where it stops
(`Machine.run_of_stops`, `Machine.exists_stops_of_run`).
-/

namespace TapeCode

/-- A step, and when it is taken. -/
structure Stepper (σ : Type) where
  canStep : σ → Bool
  step : σ → σ

namespace Stepper

variable {σ τ : Type} {A : Stepper σ} {B : Stepper τ} {a b c : σ} {k n : Nat}

/-- Takes `k` steps from the first state to the second. -/
inductive Takes (A : Stepper σ) : Nat → σ → σ → Prop
  | refl {a : σ} : Takes A 0 a a
  | head {k : Nat} {a b : σ} : A.canStep a = true → Takes A k (A.step a) b → Takes A (k + 1) a b

/-- Takes `k` steps from the first state to the second, and stops there. -/
structure Stops (A : Stepper σ) (k : Nat) (a b : σ) : Prop where
  takes : A.Takes k a b
  ended : A.canStep b = false

theorem Takes.single (h : A.canStep a = true) : A.Takes 1 a (A.step a) :=
  .head h .refl

theorem Takes.trans (h : A.Takes k a b) (h' : A.Takes n b c) : A.Takes (k + n) a c := by
  induction h with
  | refl => rwa [Nat.zero_add]
  | head hcan _ ih => rw [Nat.add_right_comm]; exact .head hcan (ih h')

theorem Stops.after_takes (h : A.Takes k a b) (h' : A.Stops n b c) : A.Stops (k + n) a c :=
  ⟨h.trans h'.takes, h'.ended⟩

/-- Steps that are taken are taken on the way to the end. -/
theorem Stops.of_takes (h : A.Stops n a c) (h' : A.Takes k a b) :
    ∃ l, n = k + l ∧ A.Stops l b c := by
  induction h' generalizing n with
  | refl => exact ⟨n, (Nat.zero_add n).symm, h⟩
  | @head k a b hcan _ ih =>
    obtain ⟨htakes, hended⟩ := h
    cases htakes with
    | refl => rw [hcan] at hended; cases hended
    | head _ hrest =>
      obtain ⟨l, rfl, hstops⟩ := ih ⟨hrest, hended⟩
      exact ⟨l, by omega, hstops⟩

/-- A stepper stops in one place. -/
theorem Stops.unique (h : A.Stops k a b) (h' : A.Stops n a c) : k = n ∧ b = c := by
  obtain ⟨l, rfl, ⟨htakes, -⟩⟩ := h'.of_takes h.takes
  cases htakes with
  | refl => exact ⟨rfl, rfl⟩
  | head hcan => rw [h.ended] at hcan; cases hcan

/-- Every step of the coarse stepper `B` is matched by one or more of the fine stepper `A`, and
where `B` stops `A` soon does. The first relation holds on the way, the second one at the end. -/
structure Refines (A : Stepper σ) (B : Stepper τ) (R S : σ → τ → Prop) : Prop where
  step : ∀ a b, R a b → B.canStep b = true → ∃ k a', A.Takes (k + 1) a a' ∧ R a' (B.step b)
  stop : ∀ a b, R a b → B.canStep b = false → ∃ k a', A.Stops k a a' ∧ S a' b

namespace Refines

variable {R S : σ → τ → Prop} {d d' : τ}

/-- Where the coarse stepper stops, the fine one does, after no fewer steps. -/
theorem of_stops (h : Refines A B R S) (hrel : R a d) (hstops : B.Stops n d d') :
    ∃ k b, n ≤ k ∧ A.Stops k a b ∧ S b d' := by
  obtain ⟨htakes, hended⟩ := hstops
  induction htakes generalizing a with
  | refl =>
    obtain ⟨k, b, hstops, hend⟩ := h.stop a _ hrel hended
    exact ⟨k, b, Nat.zero_le k, hstops, hend⟩
  | head hcan _ ih =>
    obtain ⟨j, a', htakes, hrel'⟩ := h.step a _ hrel hcan
    obtain ⟨k, b, hle, hstops, hend⟩ := ih hrel' hended
    exact ⟨j + 1 + k, b, by omega, .after_takes htakes hstops, hend⟩

/-- Where the fine stepper stops, the coarse one does, after no more steps. The induction is on
the steps that the fine one has left. -/
theorem stops (h : Refines A B R S) (hrel : R a d) (hstops : A.Stops n a b) :
    ∃ k d', k ≤ n ∧ B.Stops k d d' ∧ S b d' := by
  induction n using Nat.strongRecOn generalizing a d with
  | ind n ih =>
    cases hcan : B.canStep d with
    | false =>
      obtain ⟨k, b', hstops', hend⟩ := h.stop a d hrel hcan
      obtain ⟨-, rfl⟩ := hstops.unique hstops'
      exact ⟨0, d, Nat.zero_le n, ⟨.refl, hcan⟩, hend⟩
    | true =>
      obtain ⟨j, a', htakes, hrel'⟩ := h.step a d hrel hcan
      obtain ⟨l, rfl, hrest⟩ := hstops.of_takes htakes
      obtain ⟨k, d', hle, hstops', hend⟩ := ih l (by omega) hrel' hrest
      exact ⟨k + 1, d', by omega, ⟨.head hcan hstops'.takes, hstops'.ended⟩, hend⟩

end Refines

end Stepper

/-! ## The machine as a stepper -/

/-- The run came to its end within its budget. -/
def Outcome.IsFinal : Outcome → Prop
  | outOfSteps _ => False
  | _ => True

namespace Machine

variable {p : Program} {m m' : Machine} {k n : Nat}

/-- The machine under a program. -/
def stepper (p : Program) : Stepper Machine :=
  ⟨canStep p, step p⟩

/-- The machine has not begun to run. -/
structure AtStart (m : Machine) : Prop where
  ip : m.ip = 0
  steps : m.steps = 0
  fault : m.fault = none

theorem steps_step (h : m.canStep p = true) : (m.step p).steps = m.steps + 1 := by
  have hlt : m.ip < p.size := by
    simp only [canStep, Bool.and_eq_true, decide_eq_true_eq] at h
    exact h.2
  rw [step_of_getElem? (Array.getElem?_eq_getElem hlt), steps_perform]
  rfl

theorem takes_of_stepper (h : (stepper p).Takes k m m') : Takes p k m m' := by
  induction h with
  | refl => exact .refl p _
  | @head k m m' hcan _ ih =>
    refine ⟨?_, ?_⟩
    · exact (if_pos hcan).trans ih.advance
    · have hsteps : ((stepper p).step m).steps = m.steps + 1 := steps_step hcan
      rw [ih.steps, hsteps]
      omega

/-- All that steps change of the output is the bytes that it has taken. -/
theorem output_of_takes (h : (stepper p).Takes k m m') :
    m'.output = { m.output with bytes := m'.output.bytes } := by
  rw [← (takes_of_stepper h).advance]
  exact output_advance p k m

theorem flushFailure_of_takes (h : (stepper p).Takes k m m') :
    m'.output.flushFailure = m.output.flushFailure := by
  rw [output_of_takes h]

/-- A machine that can take no more steps has stopped on the way. -/
theorem exists_stops_of_advance (h : (m.advance p n).canStep p = false) :
    ∃ k ≤ n, (stepper p).Stops k m (m.advance p n) := by
  induction n generalizing m with
  | zero => exact ⟨0, Nat.le_refl 0, .refl, h⟩
  | succ n ih =>
    cases hcan : m.canStep p with
    | false =>
      rw [advance_of_canStep_eq_false hcan]
      exact ⟨0, Nat.zero_le _, .refl, hcan⟩
    | true =>
      rw [advance, if_pos hcan] at h ⊢
      obtain ⟨k, hle, hstops⟩ := ih h
      exact ⟨k + 1, Nat.succ_le_succ hle, .head hcan hstops.takes, hstops.ended⟩

/-- A run with enough steps ends where the machine stops. -/
theorem run_of_stops (hsteps : m.steps = 0) (h : (stepper p).Stops k m m') (hle : k ≤ n) :
    m.run p n = (m'.flush, .ofEnd k m'.flush.fault) := by
  have htakes := takes_of_stepper h.takes
  obtain ⟨l, rfl⟩ : ∃ l, n = k + l := ⟨n - k, by omega⟩
  have hcount : m'.steps = k := by rw [htakes.steps, hsteps, Nat.zero_add]
  rw [run_of_stopped hsteps (htakes.advance_add h.ended) h.ended, hcount]

theorem isFinal_of_stops (hsteps : m.steps = 0) (h : (stepper p).Stops k m m') (hle : k ≤ n) :
    (m.run p n).2.IsFinal := by
  rw [run_of_stops hsteps h hle]
  cases m'.flush.fault <;> trivial

theorem exists_stops_of_run (hsteps : m.steps = 0) (h : (m.run p n).2.IsFinal) :
    ∃ k m', k ≤ n ∧ (stepper p).Stops k m m' := by
  cases hcan : (m.advance p n).canStep p with
  | false =>
    obtain ⟨k, hle, hstops⟩ := exists_stops_of_advance hcan
    exact ⟨k, _, hle, hstops⟩
  | true =>
    rw [run, hsteps, Nat.sub_zero] at h
    dsimp only at h
    rw [if_pos hcan] at h
    exact h.elim

end Machine

end TapeCode
