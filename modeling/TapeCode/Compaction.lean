import TapeCode.Link

/-!
# Compaction

Compacting a program removes its `nop`s and moves the targets of its jumps along: a jump to a slot
then designates what stands at that slot, or the first survivor behind it. A target past the end
of the program moves to its new end. `Program.compact` also tells which links are broken
afterwards; a program without a `nop` is left alone, whatever its links are.
-/

namespace TapeCode

/-- A compacted program, with the links that are broken in it. -/
structure Compaction where
  program : Program
  broken : List Program.BrokenLink
  deriving DecidableEq, Repr

namespace Program

/-- For every `n` up to the size of the program, the number of live instructions in the
first `n` slots. -/
def liveTable (p : Program) : Array Nat :=
  p.foldl (fun table instr =>
    table.push (table.back?.getD 0 + if instr.isLive then 1 else 0)) #[0]

/-- The table agrees with the count. -/
theorem getElem?_liveTable {p : Program} {n : Nat} (h : n ≤ p.size) :
    p.liveTable[n]? = some (p.liveBefore n) := by
  have key : p.liveTable.size = p.size + 1 ∧
      ∀ k ≤ p.size, p.liveTable[k]? = some (p.liveBefore k) := by
    refine Array.foldl_induction
      (motive := fun n (table : Array Nat) =>
        table.size = n + 1 ∧ ∀ k ≤ n, table[k]? = some (p.liveBefore k)) ?_ ?_
    · simp [liveBefore_zero]
    · rintro i table ⟨hsize, hk⟩
      refine ⟨by simp [hsize], fun k hle => ?_⟩
      rcases Nat.lt_or_ge i.val k with hlt | hge
      · obtain rfl : k = i.val + 1 := by omega
        have hlast : table.back? = some (p.liveBefore i.val) := by
          rw [Array.back?_eq_getElem?, hsize]
          exact hk i.val (Nat.le_refl _)
        rw [Array.getElem?_push, if_pos hsize.symm, hlast, liveBefore_succ]
        simp
      · rw [Array.getElem?_push, if_neg (by omega)]
        exact hk k hge
  exact key.2 n h

/-- A jump that designated a slot designates where the slot's content, or the first survivor
behind it, lands. -/
def retarget (liveTable : Array Nat) (size : Nat) (instr : Instruction) : Instruction :=
  match instr.target? with
  | some target =>
    if instr.op.isJump then
      { instr with arg := UInt32.ofNat (liveTable.getD (min target size) 0) }
    else instr
  | none => instr

/-- The program without its `nop`s, and the links that are broken afterwards. -/
def compact (p : Program) : Compaction :=
  if p.all (·.isLive) then ⟨p, []⟩
  else
    let compacted : Program := (p.filter (·.isLive)).map (retarget p.liveTable p.size)
    ⟨compacted, compacted.brokenLinks⟩

@[simp] theorem op_retarget (liveTable : Array Nat) (size : Nat) (instr : Instruction) :
    (retarget liveTable size instr).op = instr.op := by
  unfold retarget
  split
  · split <;> rfl
  · rfl

/-- Compaction keeps the live count. -/
@[simp] theorem liveCount_compact (p : Program) : p.compact.program.liveCount = p.liveCount := by
  unfold compact
  split
  · rfl
  · simp only [liveCount, Array.countP_map, Array.countP_filter]
    congr 1
    funext instr
    simp [Instruction.isLive]

end Program

end TapeCode
