import TapeCode.Rule

/-!
# Sweeps

A sweep visits every index of a program once, the last one first, and at each index carries out
the edit of the first rule that applies. No slot moves, so the jump targets stay valid.

`Program.sweep_liveCount` states that the live count falls by at least one for every firing.
-/

namespace TapeCode

/-- A rule that was applied, and where. -/
structure Firing where
  rule : Rule
  index : Nat
  deriving DecidableEq, Repr

/-- The state of a sweep: the program as edited so far, and the firings in order. -/
structure Sweep where
  program : Program
  firings : Array Firing
  deriving DecidableEq, Repr

namespace Sweep

/-- Carries out the first rule that applies at `i`, if there is one. -/
def visit (sweep : Sweep) (i : Nat) : Sweep :=
  match Rule.first? sweep.program i with
  | some (rule, edit) =>
    { program := edit.apply sweep.program, firings := sweep.firings.push ⟨rule, i⟩ }
  | none => sweep

/-- Visits the indices below `n`, the last one first. -/
def visitBelow (sweep : Sweep) : Nat → Sweep
  | 0 => sweep
  | n + 1 => (sweep.visit n).visitBelow n

end Sweep

/-- One sweep over a whole program. -/
def Program.sweep (p : Program) : Sweep :=
  Sweep.visitBelow ⟨p, #[]⟩ p.size

/-! ## The live count -/

/-- An edit proposed at an index is one that some rule proposes there. -/
theorem Rule.edit?_of_first? {p : Program} {i : Nat} {rule : Rule} {edit : Edit}
    (h : Rule.first? p i = some (rule, edit)) : rule.edit? p i = some edit := by
  obtain ⟨rule', -, hr⟩ := List.exists_of_findSome?_eq_some h
  obtain ⟨edit', he, hpair⟩ := Option.map_eq_some_iff.1 hr
  cases hpair
  exact he

theorem Sweep.visit_liveCount (sweep : Sweep) (i : Nat) :
    (sweep.visit i).firings.size + (sweep.visit i).program.liveCount ≤
      sweep.firings.size + sweep.program.liveCount := by
  unfold visit
  split
  · rename_i rule edit h
    have := Rule.liveCount_apply_lt (Rule.edit?_of_first? h)
    simp only [Array.size_push]
    omega
  · exact Nat.le_refl _

theorem Sweep.visitBelow_liveCount (sweep : Sweep) (n : Nat) :
    (sweep.visitBelow n).firings.size + (sweep.visitBelow n).program.liveCount ≤
      sweep.firings.size + sweep.program.liveCount := by
  induction n generalizing sweep with
  | zero => exact Nat.le_refl _
  | succ n ih => exact Nat.le_trans (ih _) (visit_liveCount sweep n)

/-- Every firing of a sweep lowers the live count. -/
theorem Program.sweep_liveCount (p : Program) :
    p.sweep.firings.size + p.sweep.program.liveCount ≤ p.liveCount := by
  simpa [Program.sweep] using Sweep.visitBelow_liveCount ⟨p, #[]⟩ p.size

end TapeCode
