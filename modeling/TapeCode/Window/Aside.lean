import TapeCode.Window.Adjacent

/-!
# Arithmetic and assignments aside

Edits for a window that moves the data pointer, changes one cell and moves back: the change
becomes a single instruction that acts aside. Each edit lowers the live count.
-/

namespace TapeCode.Window

/-- The instruction between a nonzero motion and its way back, with the side and the distance of
the motion. -/
def excursion? (p : Program) (i : Nat) : Option (Direction × UInt32 × Instruction) :=
  match p[i]?, p[i + 1]?, p[i + 2]? with
  | some go, some middle, some back =>
    match go.op with
    | .move side =>
      if back.op = .move side.opposite ∧ go.arg ≠ 0 ∧ go.arg = back.arg then
        some (side, go.arg, middle)
      else none
    | _ => none
  | _, _, _ => none

/-- A motion, nonzero arithmetic and the way back become arithmetic aside. -/
def offsetArithmetic? (p : Program) (i : Nat) : Option Edit :=
  match excursion? p i with
  | some (side, dist, ⟨.add .here, arg, _⟩) =>
    if arg = 0 then none
    else some { start := i + 1, stop := i + 3, writes := [(i, ⟨.add (.aside side), arg, dist⟩)] }
  | some (side, dist, ⟨.sub .here, arg, _⟩) =>
    if arg = 0 then none
    else some { start := i + 1, stop := i + 3, writes := [(i, ⟨.sub (.aside side), arg, dist⟩)] }
  | _ => none

/-- A motion, an assignment and the way back become an assignment aside. -/
def offsetSet? (p : Program) (i : Nat) : Option Edit :=
  match excursion? p i with
  | some (side, dist, ⟨.set .here, arg, _⟩) =>
    some { start := i + 1, stop := i + 3, writes := [(i, ⟨.set (.aside side), arg, dist⟩)] }
  | _ => none

/-! ## The live count -/

/-- An excursion begins with a motion. -/
theorem of_excursion? {p : Program} {i : Nat} {side : Direction} {dist : UInt32}
    {middle : Instruction} (h : excursion? p i = some (side, dist, middle)) :
    ∃ go, p[i]? = some go ∧ go.isLive = true ∧ p[i + 1]? = some middle := by
  unfold excursion? at h
  split at h
  · rename_i go middle' back hi hnext _
    split at h
    · rename_i side' hgo
      split at h
      · cases h
        exact ⟨go, hi, by simp [Instruction.isLive, hgo, Opcode.isLive], hnext⟩
      · simp at h
    · simp at h
  · simp at h

theorem liveCount_lt_of_offsetArithmetic? {p : Program} {i : Nat} {edit : Edit}
    (h : offsetArithmetic? p i = some edit) : (edit.apply p).liveCount < p.liveCount := by
  unfold offsetArithmetic? at h
  split at h
  · rename_i hexc
    obtain ⟨go, hi, hgo, hnext⟩ := of_excursion? hexc
    split at h
    · simp at h
    · cases h
      exact liveCount_apply_window_lt hi hnext hgo rfl (by omega)
  · rename_i hexc
    obtain ⟨go, hi, hgo, hnext⟩ := of_excursion? hexc
    split at h
    · simp at h
    · cases h
      exact liveCount_apply_window_lt hi hnext hgo rfl (by omega)
  · simp at h

theorem liveCount_lt_of_offsetSet? {p : Program} {i : Nat} {edit : Edit}
    (h : offsetSet? p i = some edit) : (edit.apply p).liveCount < p.liveCount := by
  unfold offsetSet? at h
  split at h
  · rename_i hexc
    obtain ⟨go, hi, hgo, hnext⟩ := of_excursion? hexc
    cases h
    exact liveCount_apply_window_lt hi hnext hgo rfl (by omega)
  · simp at h

end TapeCode.Window
