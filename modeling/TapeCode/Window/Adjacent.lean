import TapeCode.Edit

/-!
# Adjacent instructions

Edits for a window whose instructions stand next to each other and act on the same place: inverse
instructions cancel, equal ones merge, an assignment swallows the assignments and the arithmetic
behind it. Each edit lowers the live count.
-/

namespace TapeCode.Window

/-- What remains of an instruction and its inverse, which have the same distance: the larger of
the two counts, less the smaller. -/
def difference (first second : Instruction) : Instruction :=
  if first.arg = second.arg then .nop
  else if first.arg < second.arg then { second with arg := second.arg - first.arg }
  else { first with arg := first.arg - second.arg }

/-- Adjacent inverse instructions with one distance leave their difference; adjacent equal
aggregatable ones leave their sum. -/
def inverseFold? (p : Program) (i : Nat) : Option Edit :=
  match p[i]?, p[i + 1]? with
  | some first, some second =>
    if first.dist ≠ second.dist then none
    else if first.op.inverse? = some second.op then
      some { start := i + 1, stop := i + 2, writes := [(i, difference first second)] }
    else if first.op = second.op ∧ first.op.isAggregatable then
      some {
        start := i + 1
        stop := i + 2
        writes := [(i, { first with arg := first.arg + second.arg })] }
    else none
  | _, _ => none

/-- Arithmetic that follows an assignment to the same cell goes into the value assigned. -/
def foldIntoSet? (p : Program) (i : Nat) : Option Edit :=
  match p[i]?, p[i + 1]? with
  | some first, some second =>
    match first.op with
    | .set place =>
      if (second.op = .add place ∨ second.op = .sub place) ∧ first.dist = second.dist then
        some {
          start := i + 1
          stop := i + 2
          writes := [(i, { first with arg := (first.value + second.change).toUInt32 })] }
      else none
    | _ => none
  | _, _ => none

/-- The first index from `i` on whose instruction does not have the given opcode and distance. -/
def runEnd (p : Program) (op : Opcode) (dist : UInt32) (i : Nat) : Nat :=
  match h : p[i]? with
  | some instr => if instr.op = op ∧ instr.dist = dist then runEnd p op dist (i + 1) else i
  | none => i
termination_by p.size - i
decreasing_by
  have := (Array.getElem?_eq_some_iff.1 h).1
  omega

/-- A run of at least two assignments to one cell leaves the last value. -/
def mergeSets? (p : Program) (i : Nat) : Option Edit :=
  match p[i]? with
  | none => none
  | some first =>
    if first.op.isSet then
      let stop := runEnd p first.op first.dist (i + 1)
      match p[stop - 1]? with
      | some last =>
        if i + 1 < stop then
          some { start := i + 1, stop, writes := [(i, { first with arg := last.arg })] }
        else none
      | none => none
    else none

/-! ## The live count -/

/-- The bookkeeping shared by the edits that shrink a window to its first slot: that slot is
written, and the slot after it is vacated for good. -/
theorem liveCount_apply_window_lt {p : Program} {i stop : Nat} {first second result : Instruction}
    (hi : p[i]? = some first) (hnext : p[i + 1]? = some second) (hfirst : first.isLive = true)
    (hsecond : second.isLive = true) (hstop : i + 1 < stop) :
    (Edit.apply { start := i + 1, stop, writes := [(i, result)] } p).liveCount < p.liveCount := by
  refine Edit.liveCount_apply_lt (k := i + 1) ⟨Nat.le_refl _, hstop⟩ (by simp [hnext, hsecond]) ?_
  intro w hw
  obtain rfl := List.mem_singleton.1 hw
  exact ⟨fun h => absurd h.1 (Nat.not_succ_le_self i), by simp [hi, hfirst]⟩

theorem liveCount_lt_of_inverseFold? {p : Program} {i : Nat} {edit : Edit}
    (h : inverseFold? p i = some edit) : (edit.apply p).liveCount < p.liveCount := by
  unfold inverseFold? at h
  split at h
  · rename_i first second hi hnext
    split at h
    · simp at h
    · split at h
      · rename_i hinv
        cases h
        exact liveCount_apply_window_lt hi hnext (Opcode.isLive_of_inverse? hinv)
          (Opcode.isLive_of_inverse? (Opcode.inverse?_symm hinv)) (by omega)
      · split at h
        · rename_i hagg
          cases h
          exact liveCount_apply_window_lt hi hnext (Opcode.isLive_of_isAggregatable hagg.2)
            (Opcode.isLive_of_isAggregatable (hagg.1 ▸ hagg.2)) (by omega)
        · simp at h
  · simp at h

theorem liveCount_lt_of_foldIntoSet? {p : Program} {i : Nat} {edit : Edit}
    (h : foldIntoSet? p i = some edit) : (edit.apply p).liveCount < p.liveCount := by
  unfold foldIntoSet? at h
  split at h
  · rename_i first second hi hnext
    split at h
    · rename_i place hset
      split at h
      · rename_i harith
        cases h
        refine liveCount_apply_window_lt hi hnext ?_ ?_ (by omega)
        · simp [Instruction.isLive, hset, Opcode.isLive]
        · rcases harith.1 with hop | hop <;> simp [Instruction.isLive, hop, Opcode.isLive]
      · simp at h
    · simp at h
  · simp at h

/-- A run that reaches past its first slot begins with a matching instruction. -/
theorem exists_of_lt_runEnd {p : Program} {op : Opcode} {dist : UInt32} {i : Nat}
    (h : i < runEnd p op dist i) : ∃ instr, p[i]? = some instr ∧ instr.op = op := by
  rw [runEnd] at h
  split at h
  · rename_i instr hi
    split at h
    · rename_i hm
      exact ⟨instr, hi, hm.1⟩
    · omega
  · omega

theorem liveCount_lt_of_mergeSets? {p : Program} {i : Nat} {edit : Edit}
    (h : mergeSets? p i = some edit) : (edit.apply p).liveCount < p.liveCount := by
  unfold mergeSets? at h
  split at h
  · simp at h
  · rename_i first hi
    split at h
    · rename_i hset
      have hlive : first.op.isLive = true := Opcode.isLive_of_isSet hset
      dsimp only at h
      split at h
      · split at h
        · rename_i hlt
          cases h
          obtain ⟨second, hnext, hop⟩ := exists_of_lt_runEnd hlt
          exact liveCount_apply_window_lt hi hnext hlive
            (by simp [Instruction.isLive, hop, hlive])
            hlt
        · simp at h
      · simp at h
    · simp at h

end TapeCode.Window
