import TapeCode.Span.Effect
import TapeCode.Span.Observation
import TapeCode.Window.Adjacent

/-!
# Loops

Edits for a window that holds a linked loop: a loop that only counts its cell to zero becomes an
assignment, a loop that cannot run vanishes, and a loop that takes one off its cell every round
becomes a counted loop. Each edit lowers the live count.
-/

namespace TapeCode.Window

/-- Adds to or subtracts from the current cell. -/
def isPlainArithmetic (instr : Instruction) : Bool :=
  instr.op = .add .here || instr.op = .sub .here

/-- A tested loop whose body is one step up or down leaves zero in its cell. Arithmetic right
after the loop goes into the value assigned. -/
def constantSet? (p : Program) (i : Nat) : Option Edit :=
  match p[i]?, p[i + 1]? with
  | some start, some step =>
    if start.op = .opens .tested ∧ p.closeOf? i p.size = some (i + 2)
        ∧ isPlainArithmetic step ∧ step.arg = 1 then
      let (value, stop) : Cell × Nat :=
        match p[i + 3]? with
        | some next => if isPlainArithmetic next then (next.change, i + 4) else (0, i + 3)
        | none => (0, i + 3)
      some { start := i + 1, stop, writes := [(i, { op := .set .here, arg := value.toUInt32 })] }
    else none
  | _, _ => none

/-- A loop right after its cell is set to zero never runs. -/
def unreachableLoop? (p : Program) (i : Nat) : Option Edit :=
  match p[i]?, p[i + 1]? with
  | some first, some start =>
    if first.op = .set .here ∧ first.arg = 0 ∧ start.op.isOpen then
      (p.closeOf? (i + 1) p.size).map fun close => { start := i + 1, stop := close + 1 }
    else none
  | _, _ => none

/-- Takes one off the current cell. -/
def isDecrement (instr : Instruction) : Bool :=
  instr.op = .sub .here && instr.arg = 1

/-- The slot in the body `start`, …, `stop - 1` of a loop whose decrement the loop itself can take
over: the first slot, if the rest of the body leaves the data pointer and the cell alone; else the
last, if the rest also never looks at the cell. -/
def takenDecrement? (p : Program) (start stop : Nat) : Option Nat :=
  if p[start]?.any isDecrement && p.isInert (start + 1) stop then some start
  else if p[stop - 1]?.any isDecrement && p.isInert start (stop - 1)
      && !p.observes start (stop - 1) 0 then
    some (stop - 1)
  else none

/-- A tested loop that counts its cell down by one a round becomes a counted loop. -/
def safeWhile? (p : Program) (i : Nat) : Option Edit :=
  match p[i]?, p.closeOf? i p.size with
  | some start, some close =>
    if start.op = .opens .tested ∧ i + 1 < close then
      (takenDecrement? p (i + 1) close).map fun slot => {
        start := slot
        stop := slot + 1
        writes := [
          (i, { op := .opens .counted, arg := UInt32.ofNat close }),
          (close, { op := .closes .counted, arg := UInt32.ofNat i })] }
    else none
  | _, _ => none

/-! ## The live count -/

/-- Plain arithmetic is live. -/
theorem isLive_of_isPlainArithmetic {instr : Instruction} (h : isPlainArithmetic instr = true) :
    instr.isLive = true := by
  simp only [isPlainArithmetic, Bool.or_eq_true, decide_eq_true_eq] at h
  rcases h with h | h <;> simp [Instruction.isLive, h, Opcode.isLive]

theorem liveCount_lt_of_constantSet? {p : Program} {i : Nat} {edit : Edit}
    (h : constantSet? p i = some edit) : (edit.apply p).liveCount < p.liveCount := by
  unfold constantSet? at h
  split at h
  · rename_i start step hi hnext
    split at h
    · rename_i hc
      have hlive : start.isLive = true := by simp [Instruction.isLive, hc.1, Opcode.isLive]
      cases h
      refine liveCount_apply_window_lt hi hnext hlive (isLive_of_isPlainArithmetic hc.2.2.1) ?_
      split
      · split <;> simp
      · simp
    · simp at h
  · simp at h

theorem liveCount_lt_of_unreachableLoop? {p : Program} {i : Nat} {edit : Edit}
    (h : unreachableLoop? p i = some edit) : (edit.apply p).liveCount < p.liveCount := by
  unfold unreachableLoop? at h
  split at h
  · rename_i first start hi hnext
    split at h
    · rename_i hc
      obtain ⟨close, hclose, rfl⟩ := Option.map_eq_some_iff.1 h
      have := Program.closeOf?_bounds hclose
      refine Edit.liveCount_apply_lt (k := i + 1) ⟨Nat.le_refl _, by simp; omega⟩ ?_ (by simp)
      have hopen := hc.2.2
      cases hop : start.op <;> simp_all [Opcode.isOpen, Instruction.isLive, Opcode.isLive]
    · simp at h
  · simp at h

/-- A decrement is live. -/
theorem isLive_of_isDecrement {instr : Instruction} (h : isDecrement instr = true) :
    instr.isLive = true := by
  simp only [isDecrement, Bool.and_eq_true, decide_eq_true_eq] at h
  simp [Instruction.isLive, h.1, Opcode.isLive]

/-- The decrement that a loop takes over is a live slot of its body. -/
theorem of_takenDecrement? {p : Program} {start stop slot : Nat} (hlt : start < stop)
    (h : takenDecrement? p start stop = some slot) :
    start ≤ slot ∧ slot < stop ∧ p[slot]?.any (·.isLive) = true := by
  have live (k : Nat) (hk : p[k]?.any isDecrement = true) : p[k]?.any (·.isLive) = true := by
    cases hp : p[k]? with
    | none => simp [hp] at hk
    | some instr => simpa [hp] using isLive_of_isDecrement (by simpa [hp] using hk)
  unfold takenDecrement? at h
  split at h
  · rename_i hc
    cases h
    exact ⟨Nat.le_refl _, hlt, live _ (by simp_all)⟩
  · split at h
    · rename_i hc
      cases h
      exact ⟨by omega, by omega, live _ (by simp_all)⟩
    · simp at h

/-- The two ends of a linked pair are live. -/
theorem isLive_of_linked {p : Program} {i j : Nat} (h : p.linked i j = true) :
    p[i]?.any (·.isLive) = true ∧ p[j]?.any (·.isLive) = true := by
  obtain ⟨a, b, ha, hb, hop, -, -⟩ := Program.linked_iff.1 h
  simp [ha, hb, Instruction.isLive, Opcode.isLive_of_partner? hop,
    Opcode.isLive_of_partner? (Opcode.partner?_symm hop)]

theorem liveCount_lt_of_safeWhile? {p : Program} {i : Nat} {edit : Edit}
    (h : safeWhile? p i = some edit) : (edit.apply p).liveCount < p.liveCount := by
  unfold safeWhile? at h
  split at h
  · rename_i start close _ hclose
    split at h
    · rename_i hc
      obtain ⟨slot, hslot, rfl⟩ := Option.map_eq_some_iff.1 h
      obtain ⟨hle, hlt, hlive⟩ := of_takenDecrement? hc.2 hslot
      obtain ⟨hi, hc⟩ := isLive_of_linked (Program.linked_of_closeOf? hclose)
      refine Edit.liveCount_apply_lt (k := slot) ⟨Nat.le_refl _, by simp⟩ hlive ?_
      simp only [List.mem_cons, List.not_mem_nil, or_false, forall_eq_or_imp, forall_eq]
      exact ⟨⟨by omega, hi⟩, ⟨by omega, hc⟩⟩
    · simp at h
  · simp at h

end TapeCode.Window
