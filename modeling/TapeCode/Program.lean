import TapeCode.Instruction

/-!
# Programs

A program is a flat array of instructions; a loop is a pair of jumps that hold each other's index.
`Program.liveCount`, the number of instructions that do something, is the measure by which every
optimization goes down (`Program.liveCount_lt_of_vacated`).
-/

namespace TapeCode

/-- A flat tape program. -/
abbrev Program := Array Instruction

namespace Program

/-- The number of instructions other than `nop`. -/
def liveCount (p : Program) : Nat :=
  p.countP (·.isLive)

/-- The number of instructions other than `nop` in the first `n` slots. -/
def liveBefore (p : Program) (n : Nat) : Nat :=
  (p.toList.take n).countP (·.isLive)

/-- Another instruction in one slot; a slot past the end is ignored. -/
@[noinline] def put (p : Program) (i : Nat) (instr : Instruction) : Program :=
  p.setIfInBounds i instr

/-- The slots `start`, …, `stop - 1` vacated; slots past the end are ignored. -/
def vacate (p : Program) (start stop : Nat) : Program :=
  if start < stop then vacate (p.put start .nop) (start + 1) stop else p
termination_by stop - start

/-! ## Slots -/

@[simp] theorem size_put (p : Program) (i : Nat) (instr : Instruction) :
    (p.put i instr).size = p.size :=
  Array.size_setIfInBounds

/-- A slot holds what was put there. -/
theorem getElem?_put (p : Program) (i j : Nat) (instr : Instruction) :
    (p.put i instr)[j]? = if i = j then (if i < p.size then some instr else none) else p[j]? :=
  Array.getElem?_setIfInBounds

/-- Putting an instruction leaves the other slots alone. -/
theorem getElem?_put_ne {p : Program} {i j : Nat} {instr : Instruction} (h : i ≠ j) :
    (p.put i instr)[j]? = p[j]? := by
  rw [getElem?_put, if_neg h]

@[simp] theorem size_vacate (p : Program) (start stop : Nat) :
    (p.vacate start stop).size = p.size := by
  fun_induction vacate p start stop with
  | case1 p start h ih => simpa using ih
  | case2 => rfl

/-- Vacating clears its slots and keeps all others. -/
theorem getElem?_vacate (p : Program) (start stop i : Nat) :
    (p.vacate start stop)[i]? =
      if start ≤ i ∧ i < stop ∧ i < p.size then some .nop else p[i]? := by
  fun_induction vacate p start stop with
  | case1 p start h ih =>
    rw [ih, size_put, getElem?_put]
    split <;> split <;> grind
  | case2 p start h =>
    rw [if_neg (by omega)]

/-! ## The live count -/

theorem liveCount_eq_liveBefore_size (p : Program) : p.liveCount = p.liveBefore p.size := by
  simp [liveCount, liveBefore, List.take_of_length_le]

theorem liveBefore_zero (p : Program) : p.liveBefore 0 = 0 := by
  simp [liveBefore]

theorem liveBefore_succ (p : Program) (n : Nat) :
    p.liveBefore (n + 1) =
      p.liveBefore n + if p[n]?.any (·.isLive) then 1 else 0 := by
  simp only [liveBefore, List.take_add_one, List.countP_append, Array.getElem?_toList]
  cases p[n]? <;> simp [List.countP_singleton]

/-- If no slot comes alive, the live count does not rise. -/
theorem liveBefore_le_of_forall {p q : Program}
    (h : ∀ i : Nat, q[i]?.any (·.isLive) = true → p[i]?.any (·.isLive) = true) (n : Nat) :
    q.liveBefore n ≤ p.liveBefore n := by
  induction n with
  | zero => simp [liveBefore_zero]
  | succ n ih =>
    rw [liveBefore_succ, liveBefore_succ]
    cases hq : q[n]?.any (·.isLive) with
    | false => exact Nat.le_trans ih (Nat.le_add_right _ _)
    | true => exact Nat.add_le_add ih (by simp [h n hq])

/-- If no slot comes alive and a live slot is vacated, the live count falls. -/
theorem liveBefore_lt_of_vacated {p q : Program}
    (h : ∀ i : Nat, q[i]?.any (·.isLive) = true → p[i]?.any (·.isLive) = true) {k n : Nat}
    (hk : k < n) (hp : p[k]?.any (·.isLive) = true) (hq : q[k]?.any (·.isLive) = false) :
    q.liveBefore n < p.liveBefore n := by
  induction n with
  | zero => omega
  | succ n ih =>
    rw [liveBefore_succ, liveBefore_succ]
    rcases Nat.lt_succ_iff_lt_or_eq.1 hk with hlt | rfl
    · cases hn : q[n]?.any (·.isLive) with
      | false => exact Nat.lt_of_lt_of_le (ih hlt) (Nat.le_add_right _ _)
      | true => exact Nat.add_lt_add_of_lt_of_le (ih hlt) (by simp [h n hn])
    · rw [if_pos hp, if_neg (by simp [hq])]
      exact Nat.lt_succ_of_le (liveBefore_le_of_forall h k)

/-- An edit that keeps the size, brings no slot alive and vacates a live one lowers
the live count. -/
theorem liveCount_lt_of_vacated {p q : Program} (hsize : q.size = p.size)
    (h : ∀ i : Nat, q[i]?.any (·.isLive) = true → p[i]?.any (·.isLive) = true) {k : Nat}
    (hp : p[k]?.any (·.isLive) = true) (hq : q[k]?.any (·.isLive) = false) :
    q.liveCount < p.liveCount := by
  rw [liveCount_eq_liveBefore_size, liveCount_eq_liveBefore_size, hsize]
  refine liveBefore_lt_of_vacated h (Nat.lt_of_not_le fun hk => ?_) hp hq
  simp [Array.getElem?_eq_none hk] at hp

end Program

end TapeCode
