import TapeCode.Program

/-!
# Edits

An edit changes a program in place, so that every index and every jump target stays valid: it
vacates a range of slots and then writes a few single ones. `Edit.liveCount_apply_lt` gives the
condition under which an edit makes a program do less.
-/

namespace TapeCode

/-- A change to a program that keeps its size. -/
structure Edit where
  /-- The first slot to vacate. -/
  start : Nat
  /-- The slot behind the last one to vacate. -/
  stop : Nat
  /-- The single slots to write afterwards. -/
  writes : List (Nat × Instruction) := []
  deriving DecidableEq, Repr

namespace Edit

/-- Writes single slots in order; writes past the end are ignored. -/
def writeAll (p : Program) : List (Nat × Instruction) → Program
  | [] => p
  | (i, instr) :: rest => writeAll (p.put i instr) rest

/-- The program after the edit. -/
def apply (edit : Edit) (p : Program) : Program :=
  writeAll (p.vacate edit.start edit.stop) edit.writes

@[simp] theorem size_writeAll (p : Program) (writes : List (Nat × Instruction)) :
    (writeAll p writes).size = p.size := by
  induction writes generalizing p with
  | nil => rfl
  | cons w rest ih => simp [writeAll, ih]

@[simp] theorem size_apply (edit : Edit) (p : Program) : (edit.apply p).size = p.size := by
  simp [apply]

/-- A slot that is not written keeps its instruction. -/
theorem getElem?_writeAll_of_notMem {p : Program} {writes : List (Nat × Instruction)} {i : Nat}
    (h : i ∉ writes.map Prod.fst) : (writeAll p writes)[i]? = p[i]? := by
  induction writes generalizing p with
  | nil => rfl
  | cons w rest ih =>
    simp only [List.map_cons, List.mem_cons, not_or] at h
    rw [writeAll, ih h.2, Program.getElem?_put_ne fun e => h.1 e.symm]

/-- If every written slot is live, writing brings no slot alive. -/
theorem isLive_of_isLive_writeAll {p : Program} {writes : List (Nat × Instruction)}
    (h : ∀ w ∈ writes, p[w.1]?.any (·.isLive) = true) {i : Nat}
    (hi : (writeAll p writes)[i]?.any (·.isLive) = true) : p[i]?.any (·.isLive) = true := by
  by_cases hm : i ∈ writes.map Prod.fst
  · obtain ⟨w, hw, rfl⟩ := List.mem_map.1 hm
    exact h w hw
  · rwa [getElem?_writeAll_of_notMem hm] at hi

/-- An edit lowers the live count if it vacates a live slot for good and writes only to live slots
outside the vacated range. -/
theorem liveCount_apply_lt {edit : Edit} {p : Program} {k : Nat}
    (hk : edit.start ≤ k ∧ k < edit.stop) (hlive : p[k]?.any (·.isLive) = true)
    (hwrites : ∀ w ∈ edit.writes,
      ¬ (edit.start ≤ w.1 ∧ w.1 < edit.stop) ∧ p[w.1]?.any (·.isLive) = true) :
    (edit.apply p).liveCount < p.liveCount := by
  have outside : ∀ w ∈ edit.writes, (p.vacate edit.start edit.stop)[w.1]? = p[w.1]? := by
    intro w hw
    rw [Program.getElem?_vacate, if_neg fun h => (hwrites w hw).1 ⟨h.1, h.2.1⟩]
  refine Program.liveCount_lt_of_vacated (size_apply edit p) (fun i hi => ?_) hlive ?_
  · have hv := isLive_of_isLive_writeAll
      (fun w hw => by rw [outside w hw]; exact (hwrites w hw).2) hi
    rw [Program.getElem?_vacate] at hv
    split at hv
    · simp at hv
    · exact hv
  · have hnot : k ∉ edit.writes.map Prod.fst := by
      intro hm
      obtain ⟨w, hw, rfl⟩ := List.mem_map.1 hm
      exact (hwrites w hw).1 hk
    have hsize : k < p.size := by
      refine Nat.lt_of_not_le fun hle => ?_
      simp [Array.getElem?_eq_none hle] at hlive
    rw [apply, getElem?_writeAll_of_notMem hnot, Program.getElem?_vacate,
      if_pos ⟨hk.1, hk.2, hsize⟩]
    rfl

end Edit

end TapeCode
