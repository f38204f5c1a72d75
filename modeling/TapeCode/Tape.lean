import TapeCode.Instruction

/-!
# The tape

A tape is a band of cells. A fixed band has only the cells it was made with; a growable one is
extended with zeros when a cell behind its end is accessed. Addresses are signed machine words, so
that an address may lie before the band; `Tape.Reaches` says which addresses can be accessed.

`Tape.cell` is the view of a tape by which its operations are described: the value at an index,
zero behind the end.
-/

namespace TapeCode

/-- A band of cells. -/
structure Tape where
  cells : Array Cell
  growable : Bool
  deriving DecidableEq, Repr

namespace Tape

/-- The number of cells of a tape when none is asked for, and the number of cells behind an
accessed one after growth, that one included. -/
def margin : Nat := 30000

/-- A tape of zeros. -/
def blank (size : Nat) (growable : Bool) : Tape :=
  ⟨Array.replicate size 0, growable⟩

/-- The number of cells. -/
def size (tape : Tape) : Nat :=
  tape.cells.size

/-- The value at an index, zero behind the end. -/
def cell (tape : Tape) (i : Nat) : Cell :=
  tape.cells[i]?.getD 0

/-- The value at an address, if the address lies in the band as it is. -/
def peek? (tape : Tape) (address : Int64) : Option Cell :=
  if 0 ≤ address then tape.cells[address.toNatClampNeg]? else none

/-- The address can be accessed: it is not negative, and it lies in the band or the band grows. -/
def Reaches (tape : Tape) (address : Int64) : Prop :=
  0 ≤ address ∧ (address.toNatClampNeg < tape.size ∨ tape.growable = true)

instance (tape : Tape) (address : Int64) : Decidable (tape.Reaches address) := by
  unfold Reaches
  infer_instance

/-- The tape with the index inside its band. -/
def extendTo (tape : Tape) (i : Nat) : Tape :=
  if i < tape.size then tape
  else { tape with cells := tape.cells ++ Array.replicate (i + margin - tape.size) 0 }

/-- The band with another value at an index. -/
@[noinline] def store (cells : Array Cell) (i : Nat) (value : Cell) : Array Cell :=
  cells.setIfInBounds i value

/-- The tape with a changed value at an index, which is first brought inside the band. -/
def modify (tape : Tape) (i : Nat) (f : Cell → Cell) : Tape :=
  let tape := tape.extendTo i
  let value := f (tape.cell i)
  { tape with cells := store tape.cells i value }

/-! ## The view of the operations -/

@[simp] theorem cell_blank (size : Nat) (growable : Bool) (i : Nat) :
    (blank size growable).cell i = 0 := by
  simp only [cell, blank, Array.getElem?_replicate]
  split <;> rfl

@[simp] theorem size_blank (size : Nat) (growable : Bool) : (blank size growable).size = size :=
  Array.size_replicate

@[simp] theorem growable_extendTo (tape : Tape) (i : Nat) :
    (tape.extendTo i).growable = tape.growable := by
  unfold extendTo
  split <;> rfl

/-- A band does not grow to an index that it has. -/
theorem extendTo_of_lt {tape : Tape} {i : Nat} (h : i < tape.size) : tape.extendTo i = tape :=
  if_pos h

theorem lt_size_extendTo (tape : Tape) (i : Nat) : i < (tape.extendTo i).size := by
  unfold extendTo
  split
  · assumption
  · simp [size, margin] at *
    omega

theorem size_le_size_extendTo (tape : Tape) (i : Nat) : tape.size ≤ (tape.extendTo i).size := by
  unfold extendTo
  split
  · exact Nat.le_refl _
  · simp [size]

/-- Growth changes no value. -/
@[simp] theorem cell_extendTo (tape : Tape) (i j : Nat) :
    (tape.extendTo i).cell j = tape.cell j := by
  unfold extendTo
  split
  · rfl
  · simp only [cell, Array.getElem?_append, Array.getElem?_replicate]
    split
    · rfl
    · rename_i h
      rw [Array.getElem?_eq_none (Nat.le_of_not_lt h)]
      split <;> rfl

@[simp] theorem growable_modify (tape : Tape) (i : Nat) (f : Cell → Cell) :
    (tape.modify i f).growable = tape.growable := by
  simp [modify]

@[simp] theorem size_modify (tape : Tape) (i : Nat) (f : Cell → Cell) :
    (tape.modify i f).size = (tape.extendTo i).size := by
  simp [modify, store, size]

/-- A change is seen at its index and nowhere else. -/
theorem cell_modify (tape : Tape) (i j : Nat) (f : Cell → Cell) :
    (tape.modify i f).cell j = if j = i then f (tape.cell i) else tape.cell j := by
  have hlt : i < (tape.extendTo i).cells.size := lt_size_extendTo tape i
  rw [← cell_extendTo tape i j, ← cell_extendTo tape i i]
  simp only [modify, store, cell, Array.getElem?_setIfInBounds, if_pos hlt]
  split
  · rename_i h
    rw [if_pos h.symm]
    rfl
  · rename_i h
    rw [if_neg fun e => h e.symm]

end Tape

end TapeCode
