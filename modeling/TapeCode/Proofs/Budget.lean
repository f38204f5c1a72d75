import Mathlib.Data.ENat.Lattice
import TapeCode.Proofs.Stepper
import TapeCode.Source

/-!
# A run in several calls

A machine that has been paused can be run again, with another budget or without one.
`Machine.Call` is one such call; budgets are numbers of steps in all, and the budget `⊤` is that
of a run to the end. `Machine.Calls` is any number of calls one after the other.

All that a call says about where a machine ends up is that it has settled (`Machine.Settles`): it
can take no more steps, or its budget is used up. Settling is passed on from call to call, with
the larger of the budgets (`Settles.trans`), so that a run in several calls is one run
(`Machine.calls_as_one`), as long as the flushes between the calls make no difference
(`Output.FlushesIdly`). They do for a stream that holds its bytes back until it is flushed
(`Machine.calls_apart_of_buffered`).
-/

namespace TapeCode

/-- Flushing the stream never fails and has no bearing on what it takes. -/
structure Output.FlushesIdly (output : Output) : Prop where
  flushFailure : output.flushFailure = none
  capacity : output.capacity = none

theorem Output.FlushesIdly.flush {output : Output} (h : output.FlushesIdly) :
    output.flush = output :=
  Output.flush_eq_self (by simp [Output.flush, h.flushFailure, h.capacity])

namespace Machine

variable {p : Program} {m m' m'' : Machine} {budget budget' : ℕ∞} {budgets : List ℕ∞}
  {outcome : Outcome} {k n : ℕ}

/-- One call on a machine, with a bound on its steps in all or without one: the machine
that the call leaves behind, and its answer. A call without a bound comes back only if
the machine stops. -/
inductive Call (p : Program) : ℕ∞ → Machine → Machine × Outcome → Prop
  | bounded (budget : ℕ) (m : Machine) : Call p budget m (m.run p budget)
  | unbounded {k : ℕ} {m stopped : Machine} : (stepper p).Stops k m stopped →
    Call p ⊤ m (stopped.flush, .ofEnd stopped.steps stopped.flush.fault)

/-- Calls one after the other. -/
inductive Calls (p : Program) : List ℕ∞ → Machine → Machine → Prop
  | nil {m : Machine} : Calls p [] m m
  | cons {budget : ℕ∞} {budgets : List ℕ∞} {m m' m'' : Machine} {outcome : Outcome} :
    Call p budget m (m', outcome) → Calls p budgets m' m'' → Calls p (budget :: budgets) m m''

/-- What a call answers that leaves a machine behind. -/
def answer (p : Program) (m : Machine) : Outcome :=
  if m.canStep p then .outOfSteps m.steps else .ofEnd m.steps m.fault

theorem answer_eq_outOfSteps_iff :
    m.answer p = .outOfSteps n ↔ m.canStep p = true ∧ m.steps = n := by
  unfold answer
  split
  · rename_i hcan
    simp [hcan]
  · rename_i hcan
    cases m.fault <;> simp [hcan, Outcome.ofEnd]

/-! ## Counted steps -/

theorem steps_of_takes (h : (stepper p).Takes k m m') : m'.steps = m.steps + k :=
  (takes_of_stepper h).steps

/-- As many steps lead to one machine. -/
theorem eq_of_takes (h : (stepper p).Takes k m m') (h' : (stepper p).Takes k m m'') : m' = m'' :=
  (takes_of_stepper h).advance.symm.trans (takes_of_stepper h').advance

/-- A machine takes all the steps that it is given, or it stops. -/
theorem exists_takes_advance (p : Program) (n : ℕ) (m : Machine) :
    ∃ k ≤ n, (stepper p).Takes k m (m.advance p n) ∧
      ((m.advance p n).canStep p = true → k = n) := by
  induction n generalizing m with
  | zero => exact ⟨0, Nat.le_refl 0, .refl, fun _ => rfl⟩
  | succ n ih =>
    cases hcan : m.canStep p with
    | false =>
      rw [advance_of_canStep_eq_false hcan]
      exact ⟨0, Nat.zero_le _, .refl, fun h => by rw [hcan] at h; cases h⟩
    | true =>
      obtain ⟨k, hle, htakes, hall⟩ := ih (m.step p)
      rw [advance, if_pos hcan]
      exact ⟨k + 1, Nat.succ_le_succ hle, .head hcan htakes, fun h => by rw [hall h]⟩

theorem flushesIdly_of_takes (hidle : m.output.FlushesIdly) (h : (stepper p).Takes k m m') :
    m'.output.FlushesIdly := by
  rw [output_of_takes h]
  exact ⟨hidle.flushFailure, hidle.capacity⟩

/-- Flushing changes nothing on the way if it makes no difference at first. -/
theorem flush_of_takes (hidle : m.output.FlushesIdly) (h : (stepper p).Takes k m m') :
    m'.flush = m' := by
  have hidle' := flushesIdly_of_takes hidle h
  rw [flush_of_flushFailure hidle'.flushFailure, hidle'.flush]

/-! ## Settling -/

/-- On its way from the first machine the second one has settled: it keeps to the budget, and it
either can take no more steps or has used the budget up. A budget that was used up before allows
no step. -/
structure Settles (p : Program) (budget : ℕ∞) (m m' : Machine) : Prop where
  takes : ∃ k, (stepper p).Takes k m m'
  within : (m'.steps : ℕ∞) ≤ max budget m.steps
  settled : m'.canStep p = false ∨ (m'.steps : ℕ∞) = max budget m.steps

namespace Settles

theorem le_steps (h : Settles p budget m m') : m.steps ≤ m'.steps := by
  obtain ⟨k, htakes⟩ := h.takes
  exact steps_of_takes htakes ▸ Nat.le_add_right _ _

/-- On its way to where it settles the machine takes no more steps than the budget has left. -/
theorem steps_le (h : Settles p budget m m') (htakes : (stepper p).Takes k m m') :
    (k : ℕ∞) ≤ budget - m.steps := by
  have hwithin := h.within
  rw [steps_of_takes htakes] at hwithin
  cases budget with
  | top => simp
  | coe budget =>
    rw [← Nat.mono_cast.map_max, Nat.cast_le] at hwithin
    rw [← ENat.natCast_sub, Nat.cast_le]
    omega

/-- A machine settles within the larger of two budgets if it settles within one
after the other. -/
theorem trans (h : Settles p budget m m') (h' : Settles p budget' m' m'') :
    Settles p (max budget budget') m m'' := by
  obtain ⟨k, htakes⟩ := h.takes
  obtain ⟨l, htakes'⟩ := h'.takes
  have hle : (m.steps : ℕ∞) ≤ m'.steps := Nat.cast_le.2 h.le_steps
  refine ⟨⟨k + l, htakes.trans htakes'⟩, ?_, ?_⟩
  · refine h'.within.trans (max_le ?_ (h.within.trans ?_))
    · exact (le_max_right _ _).trans (le_max_left _ _)
    · exact max_le_max (le_max_left _ _) (le_refl _)
  · rcases h.settled with hended | hsteps
    · -- A machine that could take no more steps has taken none since.
      cases htakes' with
      | refl => exact .inl hended
      | head hcan => exact absurd hcan (by simpa [stepper] using hended)
    · refine h'.settled.imp_right fun hsteps' => ?_
      rw [hsteps', hsteps, max_left_comm, max_assoc]

/-- A machine that starts from one place settles in one place. -/
theorem unique (h : Settles p budget m m') (h' : Settles p budget m m'') : m' = m'' := by
  -- The machine that settled first stopped, or had used up the budget the other one keeps to.
  have ordered {a b : Machine} {k l : ℕ} (ha : Settles p budget m a) (hb : Settles p budget m b)
      (hk : (stepper p).Takes k m a) (hl : (stepper p).Takes (k + l) m b) : a = b := by
    rcases ha.settled with hended | hsteps
    · rw [← (takes_of_stepper hl).advance, (takes_of_stepper hk).advance_add hended]
    · have hwithin := hb.within
      rw [← hsteps, Nat.cast_le, steps_of_takes hk, steps_of_takes hl] at hwithin
      obtain rfl : l = 0 := by omega
      exact eq_of_takes hk hl
  obtain ⟨k, htakes⟩ := h.takes
  obtain ⟨l, htakes'⟩ := h'.takes
  rcases Nat.le_total k l with hle | hle
  · obtain ⟨d, rfl⟩ := Nat.exists_eq_add_of_le hle
    exact ordered h h' htakes htakes'
  · obtain ⟨d, rfl⟩ := Nat.exists_eq_add_of_le hle
    exact (ordered h' h htakes' htakes).symm

end Settles

/-- With a budget that is a number the machine always settles. -/
theorem settles_advance (p : Program) (budget : ℕ) (m : Machine) :
    Settles p budget m (m.advance p (budget - m.steps)) := by
  obtain ⟨k, hle, htakes, hall⟩ := exists_takes_advance p (budget - m.steps) m
  have hsteps := steps_of_takes htakes
  refine ⟨⟨k, htakes⟩, ?_, ?_⟩
  · rw [← Nat.mono_cast.map_max, Nat.cast_le]
    omega
  · cases hcan : (m.advance p (budget - m.steps)).canStep p with
    | false => exact .inl rfl
    | true =>
      have hk := hall hcan
      rw [← Nat.mono_cast.map_max, Nat.cast_inj]
      exact .inr (by omega)

/-- Steps that are taken are taken on the way to where more steps lead. -/
theorem takes_of_takes_add (h : (stepper p).Takes k m m') (h' : (stepper p).Takes (k + n) m m'') :
    (stepper p).Takes n m' m'' := by
  induction h with
  | refl => rwa [Nat.zero_add] at h'
  | head hcan _ ih =>
    rw [Nat.add_right_comm] at h'
    cases h' with
    | head _ hrest => exact ih hrest

/-- A machine that settles within the larger of two budgets settles within one on the way, and
then within the other. -/
theorem Settles.split (h : Settles p (max budget budget') m m'') :
    ∃ m', Settles p budget m m' ∧ Settles p budget' m' m'' := by
  obtain ⟨n, htakes⟩ := h.takes
  cases budget with
  | top =>
    have hended : m''.canStep p = false := h.settled.resolve_right (by simp)
    exact ⟨m'', ⟨⟨n, htakes⟩, by simp, .inl hended⟩, ⟨0, .refl⟩, le_max_right _ _, .inl hended⟩
  | coe budget =>
    have hfirst := settles_advance p budget m
    obtain ⟨k, htakes'⟩ := hfirst.takes
    refine ⟨_, hfirst, ?_⟩
    generalize m.advance p (budget - m.steps) = m' at hfirst htakes' ⊢
    have hrest : ∃ l, (stepper p).Takes l m' m'' := by
      rcases h.settled with hended | hsteps
      · obtain ⟨l, -, hstops⟩ := Stepper.Stops.of_takes ⟨htakes, hended⟩ htakes'
        exact ⟨l, hstops.takes⟩
      · have hle : (m'.steps : ℕ∞) ≤ m''.steps :=
          hfirst.within.trans (hsteps ▸ max_le_max (le_max_left _ _) (le_refl _))
        rw [Nat.cast_le, steps_of_takes htakes, steps_of_takes htakes'] at hle
        obtain ⟨l, rfl⟩ : ∃ l, n = k + l := ⟨n - k, by omega⟩
        exact ⟨l, takes_of_takes_add htakes' htakes⟩
    rcases hfirst.settled with hended | hsteps
    · obtain ⟨l, htakes''⟩ := hrest
      cases htakes'' with
      | refl => exact ⟨⟨0, .refl⟩, le_max_right _ _, .inl hended⟩
      | head hcan => exact absurd hcan (by simpa [stepper] using hended)
    · have hbound : max (max (budget : ℕ∞) budget') m.steps = max budget' m'.steps := by
        rw [hsteps, max_left_comm, max_assoc]
      exact ⟨hrest, hbound ▸ h.within, hbound ▸ h.settled⟩

/-! ## Calls -/

/-- A run leaves the machine where it settles, and tells whether it can go on from there. -/
theorem run_eq_answer (hidle : m.output.FlushesIdly) (budget : ℕ) :
    m.run p budget =
      (m.advance p (budget - m.steps), (m.advance p (budget - m.steps)).answer p) := by
  obtain ⟨k, htakes⟩ := (settles_advance p budget m).takes
  rw [run, flush_of_takes hidle htakes, answer]
  cases (m.advance p (budget - m.steps)).fault <;> rfl

/-- So does every call. -/
theorem call_iff (hidle : m.output.FlushesIdly) :
    Call p budget m (m', outcome) ↔ Settles p budget m m' ∧ outcome = m'.answer p := by
  constructor
  · intro h
    generalize hresult : (m', outcome) = result at h
    cases h with
    | bounded budget =>
      rw [run_eq_answer hidle] at hresult
      obtain ⟨rfl, rfl⟩ := Prod.mk.inj hresult
      exact ⟨settles_advance p budget m, rfl⟩
    | @unbounded k _ stopped hstops =>
      rw [flush_of_takes hidle hstops.takes] at hresult
      obtain ⟨rfl, rfl⟩ := Prod.mk.inj hresult
      have hended : m'.canStep p = false := hstops.ended
      exact ⟨⟨⟨k, hstops.takes⟩, by simp, .inl hended⟩, by simp [answer, hended]⟩
  · rintro ⟨hsettles, rfl⟩
    cases budget with
    | top =>
      obtain ⟨k, htakes⟩ := hsettles.takes
      have hended : m'.canStep p = false := hsettles.settled.resolve_right (by simp)
      have hcall := Call.unbounded ⟨htakes, hended⟩
      rw [flush_of_takes hidle htakes] at hcall
      simpa [answer, hended] using hcall
    | coe budget =>
      have hcall := Call.bounded (p := p) budget m
      rw [run_eq_answer hidle] at hcall
      rwa [hsettles.unique (settles_advance p budget m)]

/-- Calls one after the other settle the machine as the largest of their budgets does. -/
theorem calls_iff (hidle : m.output.FlushesIdly) :
    Calls p budgets m m' ↔ Settles p (budgets.foldr max 0) m m' := by
  induction budgets generalizing m with
  | nil =>
    have hrefl (m : Machine) : Settles p 0 m m := ⟨⟨0, .refl⟩, by simp, by simp⟩
    constructor
    · intro h
      cases h
      exact hrefl _
    · intro h
      rw [← (hrefl m).unique h]
      exact .nil
  | cons budget budgets ih =>
    constructor
    · intro h
      cases h with
      | cons hcall hcalls =>
        obtain ⟨hsettles, -⟩ := (call_iff hidle).1 hcall
        obtain ⟨k, htakes⟩ := hsettles.takes
        exact hsettles.trans ((ih (flushesIdly_of_takes hidle htakes)).1 hcalls)
    · intro h
      obtain ⟨middle, hfirst, hrest⟩ := h.split
      obtain ⟨k, htakes⟩ := hfirst.takes
      exact .cons ((call_iff hidle).2 ⟨hfirst, rfl⟩)
        ((ih (flushesIdly_of_takes hidle htakes)).2 hrest)

/-- A run without a budget is the run to the end, as long as its steps can be counted. -/
theorem runToEnd_of_call (hidle : m.output.FlushesIdly) (h : Call p ⊤ m (m', outcome))
    (hcount : m'.steps ≤ maxSteps) : m.runToEnd p = m' := by
  obtain ⟨hsettles, -⟩ := (call_iff hidle).1 h
  obtain ⟨k, htakes⟩ := hsettles.takes
  have hended : m'.canStep p = false := hsettles.settled.resolve_right (by simp)
  have hsteps := steps_of_takes htakes
  obtain ⟨l, hl⟩ : ∃ l, maxSteps - m.steps = k + l := ⟨maxSteps - m.steps - k, by omega⟩
  rw [runToEnd, run_eq_answer hidle, hl, (takes_of_stepper htakes).advance_add hended]

/-! ## A run in several calls -/

/-- A call takes no more steps than its budget has left, and then flushes. -/
theorem exists_takes_of_call (h : Call p budget m (m', outcome)) :
    ∃ (k : ℕ) (stopped : Machine), (stepper p).Takes k m stopped ∧ m' = stopped.flush ∧
      m'.steps = m.steps + k ∧ (k : ℕ∞) ≤ budget - m.steps := by
  have hsteps {k : ℕ} {stopped : Machine} (htakes : (stepper p).Takes k m stopped) :
      stopped.flush.steps = m.steps + k := by
    rw [flush_eq, ← steps_of_takes htakes]
  generalize hresult : (m', outcome) = result at h
  cases h with
  | bounded budget =>
    obtain ⟨rfl, -⟩ := Prod.mk.inj hresult
    have hsettles := settles_advance p budget m
    obtain ⟨k, htakes⟩ := hsettles.takes
    exact ⟨k, _, htakes, rfl, hsteps htakes, hsettles.steps_le htakes⟩
  | @unbounded k _ stopped hstops =>
    obtain ⟨rfl, -⟩ := Prod.mk.inj hresult
    exact ⟨k, stopped, hstops.takes, rfl, hsteps hstops.takes, by simp⟩

/-- A run in several calls is one run. Each call takes no more steps than its budget has left. If
no flush makes a difference, calls leave the machine just where one call with the largest of their
budgets leaves it, and they come back if that one does. Each of them answers that its steps are
used up if and only if the uninterrupted run is still going after as many steps, and else tells
the end of the uninterrupted run. Running to the end is the call without a budget, as long as the
steps can be counted. -/
theorem calls_as_one {p : Program} {m : Machine} :
    (∀ (budget : ℕ∞) (m' : Machine) (outcome : Outcome), Call p budget m (m', outcome) →
      ∃ (k : ℕ) (stopped : Machine), (stepper p).Takes k m stopped ∧ m' = stopped.flush ∧
        m'.steps = m.steps + k ∧ (k : ℕ∞) ≤ budget - m.steps) ∧
    (m.output.FlushesIdly →
      (∀ (budgets : List ℕ∞) (m' : Machine),
        Calls p budgets m m' ↔ ∃ outcome, Call p (budgets.foldr max 0) m (m', outcome)) ∧
      ∀ (before : List ℕ∞) (budget : ℕ∞) (m₁ m₂ : Machine) (outcome : Outcome),
        Calls p before m m₁ → Call p budget m₁ (m₂, outcome) →
        (∃ k : ℕ, (stepper p).Takes k m₁ m₂ ∧ m₂.steps = m₁.steps + k ∧
          (k : ℕ∞) ≤ budget - m₁.steps) ∧
        (∀ s : ℕ, outcome = .outOfSteps s ↔
          (s : ℕ∞) = max budget m₁.steps ∧ (m.advance p (s - m.steps)).canStep p = true) ∧
        ((∀ s : ℕ, outcome ≠ .outOfSteps s) → ∃ (k : ℕ) (stopped : Machine),
          (stepper p).Stops k m stopped ∧ outcome = .ofEnd stopped.steps stopped.fault) ∧
        (budget = ⊤ → m₂.steps ≤ maxSteps → m₁.runToEnd p = m₂)) := by
  refine ⟨fun budget m' outcome => exists_takes_of_call, fun hidle =>
    ⟨fun budgets m' => ?_, fun before budget m₁ m₂ outcome hbefore hcall => ?_⟩⟩
  · rw [calls_iff hidle]
    exact ⟨fun h => ⟨_, (call_iff hidle).2 ⟨h, rfl⟩⟩, fun ⟨_, h⟩ => ((call_iff hidle).1 h).1⟩
  · have hsettles₁ := (calls_iff hidle).1 hbefore
    obtain ⟨k₁, htakes₁⟩ := hsettles₁.takes
    have hidle₁ := flushesIdly_of_takes hidle htakes₁
    obtain ⟨hsettles, rfl⟩ := (call_iff hidle₁).1 hcall
    obtain ⟨k, htakes⟩ := hsettles.takes
    have hsteps := steps_of_takes htakes
    have hpath := htakes₁.trans htakes
    have htotal := steps_of_takes hpath
    refine ⟨⟨k, htakes, hsteps, hsettles.steps_le htakes⟩, fun s => ?_, fun hover => ?_, ?_⟩
    · rw [answer_eq_outOfSteps_iff]
      constructor
      · rintro ⟨hcan, rfl⟩
        refine ⟨hsettles.settled.resolve_left (by simp [hcan]), ?_⟩
        rwa [htotal, Nat.add_sub_cancel_left, (takes_of_stepper hpath).advance]
      · rintro ⟨hs, hcan⟩
        have hle := hsettles.within
        rw [← hs, Nat.cast_le, htotal] at hle
        obtain ⟨l, rfl⟩ : ∃ l, s = m.steps + (k₁ + k + l) := ⟨s - m.steps - (k₁ + k), by omega⟩
        rw [Nat.add_sub_cancel_left, advance_add, (takes_of_stepper hpath).advance] at hcan
        -- Where a machine can go on, it could go on before.
        have hgoing : m₂.canStep p = true := by
          refine Bool.not_eq_false _ |>.mp fun hended => ?_
          rw [advance_of_canStep_eq_false hended, hended] at hcan
          cases hcan
        have hused := hsettles.settled.resolve_left (by simp [hgoing])
        rw [← hs, Nat.cast_inj] at hused
        exact ⟨hgoing, hused⟩
    · have hended : m₂.canStep p = false := by
        refine Bool.not_eq_true _ |>.mp fun hcan => ?_
        exact hover m₂.steps (answer_eq_outOfSteps_iff.2 ⟨hcan, rfl⟩)
      exact ⟨k₁ + k, m₂, ⟨hpath, hended⟩, by simp [answer, hended]⟩
    · rintro rfl hcount
      exact runToEnd_of_call hidle₁ hcall hcount

/-- A counting loop (`++[-]`) that takes six steps, paused after three, asked for less than it has
done, and then run to its end. -/
theorem calls_as_one_of_paused :
    (Machine.run (parse [43, 43, 91, 45, 93]).program 9 { tape := .blank 1 false }).2 =
        .completed 6 ∧
      Calls (parse [43, 43, 91, 45, 93]).program [3, 1, 9] { tape := .blank 1 false }
        (Machine.run (parse [43, 43, 91, 45, 93]).program 9 { tape := .blank 1 false }).1 := by
  have hlargest : [3, 1, 9].foldr max 0 = ((9 : ℕ) : ℕ∞) := rfl
  have hcall := Call.bounded (p := (parse [43, 43, 91, 45, 93]).program) 9
    { tape := .blank 1 false }
  rw [← hlargest] at hcall
  exact ⟨by decide, ((calls_as_one.2 ⟨rfl, rfl⟩).1 _ _).2 ⟨_, hcall⟩⟩

/-- A machine whose output holds one byte until it is flushed. -/
def cramped : Machine :=
  { tape := .blank 1 false, output := .buffered 1 .wouldBlock }

/-- Two bytes are printed (`..`) if the run is paused between them, since the flush makes room for
the second one. Without a pause the second one cannot be written, though no flush fails. -/
theorem calls_apart_of_buffered :
    cramped.output.flushFailure = none ∧ ∃ (m m' : Machine) (outcome : Outcome),
      Calls (parse [46, 46]).program [(1 : ℕ), ⊤] cramped m ∧
      Call (parse [46, 46]).program ([((1 : ℕ) : ℕ∞), ⊤].foldr max 0) cramped (m', outcome) ∧
      m.fault = none ∧ m.output.bytes = #[0, 0] ∧
      m'.fault = some (.output 1 .wouldBlock) ∧ m'.output.bytes = #[0] := by
  have hlargest : [((1 : ℕ) : ℕ∞), ⊤].foldr max 0 = ⊤ := by simp
  rw [hlargest]
  obtain ⟨k, -, hrest⟩ := exists_stops_of_advance (p := (parse [46, 46]).program) (n := 1)
    (m := (cramped.run (parse [46, 46]).program 1).1) (by decide)
  obtain ⟨l, -, hwhole⟩ := exists_stops_of_advance (p := (parse [46, 46]).program) (n := 2)
    (m := cramped) (by decide)
  refine ⟨rfl, _, _, _, .cons (.bounded 1 _) (.cons (.unbounded hrest) .nil),
    .unbounded hwhole, ?_⟩
  decide

end Machine

end TapeCode
