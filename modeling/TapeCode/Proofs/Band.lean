import TapeCode.Proofs.Execution
import TapeCode.Source

/-!
# Fixed and growable bands

What a program does depends on the length of its band only where it goes out of bounds. A tape
mirrors another one if it shows the same cells and has room for as many (`Tape.Mirrors`), and a
machine mirrors another one if they differ in their tapes alone. An instruction that does not go
out of bounds keeps this, as long as the band of the second machine has room for what the first
one's has grown to (`Machine.Mirrors.perform`).

A fixed band is mirrored by a growable one of its own length, and a growable band by a fixed one
that is as long as it ever becomes. `Machine.bands_agree` says so of whole runs.
-/

namespace TapeCode

namespace Tape

variable {limit : Option Nat} {t t' : Tape} {address : Int64}

/-- The second tape shows what the first one shows. Its band has the given limit, and the length
of the first one's if that is fixed. -/
structure Mirrors (limit : Option Nat) (t t' : Tape) : Prop where
  cell : ∀ i, t'.cell i = t.cell i
  limit : t'.limit = limit
  fixed : t.growable = false → t'.size = t.size

/-- The tape with its band as it is, which may grow now. -/
def growing (t : Tape) : Tape :=
  { t with growable := true }

/-- An address that a fixed tape reaches lies inside its band. -/
theorem Reaches.lt_size (h : t.Reaches address) (hfixed : t.growable = false) :
    address.toNatClampNeg < t.size := by
  simpa [hfixed] using h.2

namespace Mirrors

/-- What the first tape reaches the second one reaches, if it has room for what the first one
grows to. -/
theorem reaches (h : t.Mirrors limit t') (hreach : t.Reaches address)
    (hroom : ∀ n ∈ limit, (t.extendTo address.toNatClampNeg).size ≤ n) : t'.Reaches address := by
  rw [reaches_iff, h.limit]
  refine ⟨hreach.1, ?_⟩
  cases limit with
  | none => rfl
  | some n => exact decide_eq_true (Nat.lt_of_lt_of_le (lt_size_extendTo ..) (hroom n rfl))

/-- Both tapes are extended to a cell, or none is. -/
theorem size_extendTo (h : t.Mirrors limit t') (hreach : t.Reaches address)
    (hfixed : t.growable = false) :
    (t'.extendTo address.toNatClampNeg).size = (t.extendTo address.toNatClampNeg).size := by
  have hlt := hreach.lt_size hfixed
  rw [extendTo_of_lt hlt, extendTo_of_lt (h.fixed hfixed ▸ hlt), h.fixed hfixed]

theorem extendTo (h : t.Mirrors limit t') (hreach : t.Reaches address)
    (hreach' : t'.Reaches address) :
    (t.extendTo address.toNatClampNeg).Mirrors limit (t'.extendTo address.toNatClampNeg) where
  cell i := by rw [cell_extendTo, cell_extendTo, h.cell]
  limit := (limit_extendTo hreach').trans h.limit
  fixed hfixed := h.size_extendTo hreach (by rwa [growable_extendTo] at hfixed)

theorem modify (h : t.Mirrors limit t') (hreach : t.Reaches address)
    (hreach' : t'.Reaches address) (f : Cell → Cell) :
    (t.modify address.toNatClampNeg f).Mirrors limit (t'.modify address.toNatClampNeg f) where
  cell i := by rw [cell_modify, cell_modify, h.cell, h.cell]
  limit := (limit_modify hreach' f).trans h.limit
  fixed hfixed := by
    rw [size_modify, size_modify]
    exact h.size_extendTo hreach (by rwa [growable_modify] at hfixed)

/-- A tape with a limited band is fixed, and its band is as long as the limit says. -/
theorem fixed_of_limit {length : Nat} (h : t.Mirrors (some length) t') :
    t'.growable = false ∧ t'.size = length := by
  simpa [Tape.limit] using h.limit

/-- A fixed band is mirrored without a limit by itself, if it may grow. -/
theorem eq_growing (h : t.Mirrors none t') (hfixed : t.growable = false) : t' = t.growing := by
  have hgrowable : t'.growable = true := by simpa [Tape.limit] using h.limit
  have hcells : t'.cells = t.cells := by
    refine Array.ext (h.fixed hfixed) fun i hi hi' => ?_
    have hcell := h.cell i
    rwa [Tape.cell, Tape.cell, Array.getElem?_eq_getElem hi,
      Array.getElem?_eq_getElem hi'] at hcell
  obtain ⟨cells, growable⟩ := t'
  rw [growing]
  congr

end Mirrors

/-! ## What an access does to a tape -/

/-- A tape after an access to the cell `i`: its band may have grown to the cell, and the cell may
have changed. -/
inductive Accessed (t : Tape) (i : Nat) : Tape → Prop
  | kept : Accessed t i t
  | extended : Accessed t i (t.extendTo i)
  | changed (f : Cell → Cell) : Accessed t i (t.modify i f)

theorem modify_extendTo (t : Tape) (i : Nat) (f : Cell → Cell) :
    (t.extendTo i).modify i f = t.modify i f := by
  rw [modify, modify, extendTo_of_lt (lt_size_extendTo t i)]

theorem exists_zeros_extendTo (t : Tape) (i : Nat) :
    ∃ n, (t.extendTo i).cells = t.cells ++ Array.replicate n 0 ∧ (0 < n → t.size ≤ i) := by
  unfold extendTo
  split
  · exact ⟨0, by simp, by simp⟩
  · rename_i hlt
    exact ⟨i + margin - t.size, rfl, fun _ => Nat.le_of_not_lt hlt⟩

namespace Accessed

variable {i : Nat}

theorem growable_eq (h : t.Accessed i t') : t'.growable = t.growable := by
  cases h with
  | kept => rfl
  | extended => exact growable_extendTo t i
  | changed f => exact growable_modify t i f

/-- An access never makes a band shorter. -/
theorem size_le (h : t.Accessed i t') : t.size ≤ t'.size := by
  cases h with
  | kept => exact Nat.le_refl _
  | extended => exact size_le_size_extendTo t i
  | changed f => exact size_modify t i f ▸ size_le_size_extendTo t i

/-- An access appends zeros to a band and then stores to one cell, which is a new one if
there are any. -/
theorem exists_zeros (h : t.Accessed i t') :
    ∃ (n : Nat) (value : Cell),
      t'.cells = (t.cells ++ Array.replicate n 0).setIfInBounds i value ∧
        (0 < n → t.size ≤ i) := by
  -- To store to a cell what it holds changes nothing.
  have same (cells : Array Cell) : cells = cells.setIfInBounds i (cells[i]?.getD 0) := by
    refine Array.ext_getElem? fun j => ?_
    rw [Array.getElem?_setIfInBounds]
    split
    · rename_i hij
      subst hij
      split
      · rename_i hlt
        rw [Array.getElem?_eq_getElem hlt]
        rfl
      · rename_i hge
        exact Array.getElem?_eq_none (Nat.le_of_not_lt hge)
    · rfl
  obtain ⟨n, hcells, hnew⟩ := exists_zeros_extendTo t i
  cases h with
  | kept => exact ⟨0, _, by simpa using same t.cells, by simp⟩
  | extended => exact ⟨n, _, hcells.trans (same _), hnew⟩
  | changed f =>
    refine ⟨n, f (t.cell i), ?_, hnew⟩
    rw [modify, cell_extendTo, store, hcells]

end Accessed

end Tape

namespace Machine

variable {p : Program} {limit : Option Nat} {size : Nat} {m m' : Machine} {x : Instruction}

/-- The index of the cell that an instruction looks at or changes. -/
def cellIndex (m : Machine) (x : Instruction) : Nat :=
  (m.dp + x.offset).toNatClampNeg

theorem accessed_update (m : Machine) (offset : Int64) (f : Cell → Cell) :
    m.tape.Accessed (m.dp + offset).toNatClampNeg (m.update offset f).tape := by
  unfold update
  dsimp only
  split
  · exact .changed f
  · exact .kept

theorem accessed_probe (m : Machine) : m.tape.Accessed (m.dp + 0).toNatClampNeg m.probe.tape := by
  rw [Int64.add_zero]
  unfold probe
  split
  · exact .extended
  · exact .kept

theorem accessed_receive (m : Machine) :
    m.tape.Accessed (m.dp + 0).toNatClampNeg m.receive.tape := by
  unfold receive
  dsimp only
  split
  · exact accessed_update { m with input := m.input.readByte.2 } 0 _
  · exact .kept
  · exact .kept

theorem tape_emit (m : Machine) (b : UInt8) : (m.emit b).tape = m.tape := by
  unfold emit
  split <;> rfl

theorem dp_probe (m : Machine) : m.probe.dp = m.dp := by
  unfold probe
  split <;> rfl

/-- A look at a cell and a change of it are one access. -/
theorem accessed_probe_update (m : Machine) (f : Cell → Cell) :
    m.tape.Accessed (m.dp + 0).toNatClampNeg (m.probe.update 0 f).tape := by
  unfold update
  rw [dp_probe]
  dsimp only
  split
  · rw [Int64.add_zero]
    unfold probe
    split
    · exact (Tape.modify_extendTo m.tape _ f).symm ▸ .changed f
    · exact .changed f
  · exact accessed_probe m

/-- An instruction accesses one cell at most. -/
theorem accessed_perform (m : Machine) (size : Nat) (x : Instruction) :
    m.tape.Accessed (m.cellIndex x) (m.perform size x).tape := by
  unfold cellIndex perform Instruction.offset
  cases hop : x.op with
  | nop => exact .kept
  | move => exact .kept
  | add => exact accessed_update ..
  | sub => exact accessed_update ..
  | set => exact accessed_update ..
  | print =>
    dsimp only
    split
    · rw [next, tape_emit]
      exact accessed_probe m
    · exact accessed_probe m
  | input => exact accessed_receive m
  | opens kind =>
    dsimp only
    split
    · exact accessed_probe m
    · cases kind with
      | tested => exact accessed_probe m
      | counted => exact accessed_probe_update m _
  | closes kind =>
    dsimp only
    split
    · exact accessed_probe m
    · cases kind with
      | tested => exact accessed_probe m
      | counted => exact accessed_probe m

theorem accessed_step (hx : p[m.ip]? = some x) :
    m.tape.Accessed (m.cellIndex x) (m.step p).tape := by
  rw [step_of_getElem? hx]
  exact accessed_perform m.counted ..

theorem accessed_step_of_canStep (h : m.canStep p = true) :
    ∃ i, m.tape.Accessed i (m.step p).tape := by
  simp only [canStep, Bool.and_eq_true, decide_eq_true_eq] at h
  exact ⟨_, accessed_step (Array.getElem?_eq_getElem h.2)⟩

theorem accessed_advance_one (hx : p[m.ip]? = some x) :
    m.tape.Accessed (m.cellIndex x) (m.advance p 1).tape := by
  rw [advance]
  split
  · exact accessed_step hx
  · exact .kept

/-- The band never becomes shorter. -/
theorem size_le_size_advance (p : Program) (n : Nat) (m : Machine) :
    m.tape.size ≤ (m.advance p n).tape.size := by
  induction n generalizing m with
  | zero => exact Nat.le_refl _
  | succ n ih =>
    rw [advance]
    split
    · rename_i hcan
      obtain ⟨i, haccess⟩ := accessed_step_of_canStep hcan
      exact Nat.le_trans haccess.size_le (ih _)
    · exact Nat.le_refl _

theorem growable_advance (p : Program) (n : Nat) (m : Machine) :
    (m.advance p n).tape.growable = m.tape.growable := by
  induction n generalizing m with
  | zero => rfl
  | succ n ih =>
    rw [advance]
    split
    · rename_i hcan
      obtain ⟨i, haccess⟩ := accessed_step_of_canStep hcan
      rw [ih, haccess.growable_eq]
    · rfl

/-! ## Machines on two tapes -/

/-- The machine on another tape. -/
def onTape (m : Machine) (t : Tape) : Machine :=
  { m with tape := t }

/-- The machine has not gone out of bounds. -/
def InBounds (m : Machine) : Prop :=
  m.fault.map (·.kind) ≠ some .outOfBounds

instance (m : Machine) : Decidable m.InBounds :=
  inferInstanceAs (Decidable (_ ≠ _))

/-- The machine has not gone out of bounds, and its band has not grown out of a limit. -/
structure KeepsTo (limit : Option Nat) (m : Machine) : Prop where
  inBounds : m.InBounds
  size_le : ∀ n ∈ limit, m.tape.size ≤ n

/-- The second machine is the first one on a tape that mirrors its own. -/
def Mirrors (limit : Option Nat) (m m' : Machine) : Prop :=
  ∃ t, m' = m.onTape t ∧ m.tape.Mirrors limit t

namespace KeepsTo

/-- What keeps to a limit did so before. -/
theorem before (h : m'.KeepsTo limit) (hfault : m.fault = none ∨ m'.fault = m.fault)
    (hsize : m.tape.size ≤ m'.tape.size) : m.KeepsTo limit := by
  refine ⟨?_, fun n hn => Nat.le_trans hsize (h.size_le n hn)⟩
  unfold InBounds
  rcases hfault with hnone | hsame
  · simp [hnone]
  · rw [← hsame]
    exact h.inBounds

theorem not_fail_outOfBounds (hfault : m.fault = none) (address : Int64) :
    ¬ (m.fail (m.outOfBounds address)).KeepsTo limit := by
  intro h
  exact h.inBounds (by simp [fail, hfault, outOfBounds, Fault.kind])

theorem reaches_of_update {offset : Int64} {f : Cell → Cell}
    (h : (m.update offset f).KeepsTo limit)
    (hfault : m.fault = none) : m.tape.Reaches (m.dp + offset) := by
  by_cases hreach : m.tape.Reaches (m.dp + offset)
  · exact hreach
  · rw [update, if_neg hreach] at h
    exact absurd h (not_fail_outOfBounds hfault _)

theorem reaches_of_probe (h : m.probe.KeepsTo limit) (hfault : m.fault = none) :
    m.tape.Reaches m.dp := by
  by_cases hreach : m.tape.Reaches m.dp
  · exact hreach
  · rw [probe, if_neg hreach] at h
    exact absurd h (not_fail_outOfBounds hfault _)

end KeepsTo

namespace Mirrors

theorem update {offset : Int64} {f : Cell → Cell} (h : m.Mirrors limit m')
    (hfault : m.fault = none) (hkeeps : (m.update offset f).KeepsTo limit) :
    (m.update offset f).Mirrors limit (m'.update offset f) := by
  obtain ⟨t, rfl, ht⟩ := h
  have hreach := hkeeps.reaches_of_update hfault
  have hupdate : m.update offset f =
      { m with tape := m.tape.modify (m.dp + offset).toNatClampNeg f } := if_pos hreach
  rw [hupdate] at hkeeps ⊢
  have hreach' : t.Reaches (m.dp + offset) :=
    ht.reaches hreach fun n hn => Tape.size_modify m.tape _ f ▸ hkeeps.size_le n hn
  exact ⟨_, if_pos hreach', ht.modify hreach hreach' f⟩

theorem probe (h : m.Mirrors limit m') (hfault : m.fault = none)
    (hkeeps : m.probe.KeepsTo limit) :
    m.probe.Mirrors limit m'.probe ∧ m.probe.fault = none ∧ m'.current = m.current := by
  obtain ⟨t, rfl, ht⟩ := h
  have hreach := hkeeps.reaches_of_probe hfault
  have hprobe : m.probe = { m with tape := m.tape.extendTo m.dp.toNatClampNeg } := if_pos hreach
  rw [hprobe] at hkeeps ⊢
  have hreach' : t.Reaches m.dp := ht.reaches hreach hkeeps.size_le
  refine ⟨⟨_, if_pos hreach', ht.extendTo hreach hreach'⟩, hfault, ?_⟩
  have hcurrent : m.current = m.tape.cell m.dp.toNatClampNeg := if_pos hreach
  have hcurrent' : (m.onTape t).current = t.cell m.dp.toNatClampNeg := if_pos hreach'
  rw [hcurrent, hcurrent', ht.cell]

theorem emit (h : m.Mirrors limit m') (b : UInt8) : (m.emit b).Mirrors limit (m'.emit b) := by
  obtain ⟨t, rfl, ht⟩ := h
  refine ⟨t, ?_, by rwa [tape_emit]⟩
  unfold Machine.emit onTape
  dsimp only
  split <;> rfl

theorem receive (h : m.Mirrors limit m') (hfault : m.fault = none)
    (hkeeps : m.receive.KeepsTo limit) : m.receive.Mirrors limit m'.receive := by
  obtain ⟨t, rfl, ht⟩ := h
  have hinput : (m.onTape t).input = m.input := rfl
  unfold Machine.receive at hkeeps ⊢
  rw [hinput]
  generalize m.input.readByte = read at hkeeps ⊢
  obtain ⟨result, rest⟩ := read
  cases result with
  | byte b => exact update (m := { m with input := rest }) ⟨t, rfl, ht⟩ hfault hkeeps
  | nothing => exact ⟨t, rfl, ht⟩
  | failed cause => exact ⟨t, rfl, ht⟩

theorem next (h : m.Mirrors limit m') : m.next.Mirrors limit m'.next := by
  obtain ⟨t, rfl, ht⟩ := h
  exact ⟨t, rfl, ht⟩

theorem goto (h : m.Mirrors limit m') (ip : Nat) : (m.goto ip).Mirrors limit (m'.goto ip) := by
  obtain ⟨t, rfl, ht⟩ := h
  exact ⟨t, rfl, ht⟩

theorem fault_eq (h : m.Mirrors limit m') : m'.fault = m.fault := by
  obtain ⟨t, rfl, -⟩ := h
  rfl

end Mirrors

theorem fault_update_of_fault {fault : Fault} (h : m.fault = some fault) (offset : Int64)
    (f : Cell → Cell) : (m.update offset f).fault = m.fault := by
  unfold update
  dsimp only
  split
  · rfl
  · rw [fail_of_fault h]

/-- If a change of a cell keeps to a limit, what went before did so. -/
theorem KeepsTo.of_update {offset : Int64} {f : Cell → Cell}
    (h : (m.update offset f).KeepsTo limit) : m.KeepsTo limit := by
  refine h.before ?_ (accessed_update m offset f).size_le
  cases hfault : m.fault with
  | none => exact .inl rfl
  | some fault => exact .inr (fault_update_of_fault hfault offset f ▸ hfault)

/-- An instruction that does not go out of bounds does the same on both tapes. -/
theorem Mirrors.perform (h : m.Mirrors limit m') (hfault : m.fault = none)
    (hkeeps : (m.perform size x).KeepsTo limit) :
    (m.perform size x).Mirrors limit (m'.perform size x) := by
  unfold Machine.perform at hkeeps ⊢
  cases hop : x.op with
  | nop => exact h.next
  | move =>
    obtain ⟨t, rfl, ht⟩ := h
    exact ⟨t, rfl, ht⟩
  | add =>
    rw [hop] at hkeeps
    exact (h.update hfault (hkeeps.before (.inr rfl) (Nat.le_refl _))).next
  | sub =>
    rw [hop] at hkeeps
    exact (h.update hfault (hkeeps.before (.inr rfl) (Nat.le_refl _))).next
  | set =>
    rw [hop] at hkeeps
    exact (h.update hfault (hkeeps.before (.inr rfl) (Nat.le_refl _))).next
  | print =>
    rw [hop] at hkeeps
    dsimp only at hkeeps ⊢
    have hprobe : m.probe.KeepsTo limit := by
      split at hkeeps
      · rename_i hnone
        exact hkeeps.before (.inl (Option.isNone_iff_eq_none.1 hnone))
          (Nat.le_of_eq (congrArg Tape.size (tape_emit ..).symm))
      · exact hkeeps.before (.inr rfl) (Nat.le_refl _)
    obtain ⟨hmirrors, hnone, hcurrent⟩ := h.probe hfault hprobe
    rw [hmirrors.fault_eq, hnone, hcurrent]
    exact (hmirrors.emit _).next
  | input =>
    rw [hop] at hkeeps
    exact (h.receive hfault (hkeeps.before (.inr rfl) (Nat.le_refl _))).next
  | opens kind =>
    rw [hop] at hkeeps
    dsimp only at hkeeps ⊢
    have hprobe : m.probe.KeepsTo limit := by
      split at hkeeps
      · exact hkeeps.before (.inr rfl) (Nat.le_refl _)
      · cases kind with
        | tested => exact hkeeps.before (.inr rfl) (Nat.le_refl _)
        | counted => exact KeepsTo.of_update (hkeeps.before (.inr rfl) (Nat.le_refl _))
    obtain ⟨hmirrors, hnone, hcurrent⟩ := h.probe hfault hprobe
    rw [hcurrent]
    split
    · exact hmirrors.goto _
    · rename_i hcell
      rw [if_neg hcell] at hkeeps
      cases kind with
      | tested => exact hmirrors.next
      | counted => exact (hmirrors.update hnone (hkeeps.before (.inr rfl) (Nat.le_refl _))).next
  | closes kind =>
    rw [hop] at hkeeps
    dsimp only at hkeeps ⊢
    have hprobe : m.probe.KeepsTo limit := by
      split at hkeeps
      · exact hkeeps.before (.inr rfl) (Nat.le_refl _)
      · cases kind <;> exact hkeeps.before (.inr rfl) (Nat.le_refl _)
    obtain ⟨hmirrors, hnone, hcurrent⟩ := h.probe hfault hprobe
    rw [hcurrent]
    split
    · exact hmirrors.next
    · cases kind <;> exact hmirrors.goto _

/-- A fault that was recorded stays, so that a machine that keeps to a limit did so all along. -/
theorem KeepsTo.of_advance {n : Nat} (h : (m.advance p n).KeepsTo limit) : m.KeepsTo limit := by
  refine h.before ?_ (size_le_size_advance p n m)
  cases hfault : m.fault with
  | none => exact .inl rfl
  | some fault =>
    rw [advance_of_fault hfault, hfault]
    exact .inr rfl

/-- A run that does not go out of bounds is the same on both tapes. -/
theorem Mirrors.advance {n : Nat} (h : m.Mirrors limit m')
    (hkeeps : (m.advance p n).KeepsTo limit) :
    (m.advance p n).Mirrors limit (m'.advance p n) := by
  induction n generalizing m m' with
  | zero => exact h
  | succ n ih =>
    have hcan : m'.canStep p = m.canStep p := by
      obtain ⟨t, rfl, -⟩ := h
      rfl
    rw [Machine.advance] at hkeeps ⊢
    rw [Machine.advance, hcan]
    split
    · rename_i hstep
      rw [if_pos hstep] at hkeeps
      refine ih ?_ hkeeps
      simp only [canStep, Bool.and_eq_true, Option.isNone_iff_eq_none, decide_eq_true_eq] at hstep
      have hx := Array.getElem?_eq_getElem hstep.2
      have hx' : p[m'.ip]? = some p[m.ip] := by
        obtain ⟨t, rfl, -⟩ := h
        exact hx
      have hstepped := hkeeps.of_advance
      rw [step_of_getElem? hx] at hstepped ⊢
      rw [step_of_getElem? hx']
      obtain ⟨t, rfl, ht⟩ := h
      exact Mirrors.perform (m := m.counted) ⟨t, rfl, ht⟩ hstep.1 hstepped
    · exact h

theorem KeepsTo.of_flush (h : m.flush.KeepsTo limit) : m.KeepsTo limit := by
  have htape : m.flush.tape = m.tape := by rw [flush_eq]
  refine h.before ?_ (Nat.le_of_eq (congrArg Tape.size htape.symm))
  cases hfault : m.fault with
  | none => exact .inl rfl
  | some fault => exact .inr (by rw [flush_of_fault hfault, hfault])

theorem Mirrors.flush (h : m.Mirrors limit m') : m.flush.Mirrors limit m'.flush := by
  obtain ⟨t, rfl, ht⟩ := h
  refine ⟨t, ?_, ?_⟩
  · unfold Machine.flush onTape
    dsimp only
    split <;> rfl
  · rw [flush_eq]
    exact ht

/-- So is what a call leaves behind, and its answer. -/
theorem Mirrors.run {budget : Nat} {stopped : Machine} {outcome : Outcome}
    (h : m.Mirrors limit m') (hrun : m.run p budget = (stopped, outcome))
    (hkeeps : stopped.KeepsTo limit) :
    ∃ stopped', m'.run p budget = (stopped', outcome) ∧ stopped.Mirrors limit stopped' := by
  have hsteps : m'.steps = m.steps := by
    obtain ⟨t, rfl, -⟩ := h
    rfl
  obtain ⟨rfl, rfl⟩ := Prod.mk.inj hrun
  have hmirrors := h.advance hkeeps.of_flush
  refine ⟨_, Prod.ext rfl ?_, hsteps ▸ hmirrors.flush⟩
  have hfault := hmirrors.flush.fault_eq
  obtain ⟨t, heq, -⟩ := hmirrors
  dsimp only [Machine.run]
  rw [hsteps, hfault, heq]
  rfl

/-! ## Bands of zeros -/

/-- The machine on a tape of zeros. -/
def onBlank (m : Machine) (length : Nat) (growable : Bool) : Machine :=
  m.onTape (.blank length growable)

/-- The machine on its own band, which may grow now. -/
def growing (m : Machine) : Machine :=
  m.onTape m.tape.growing

/-- A band of zeros is mirrored by one of another length if it may grow. -/
theorem mirrors_onBlank {length length' : Nat} {growable growable' : Bool}
    (hlimit : (Tape.blank length' growable').limit = limit)
    (hlength : growable = false → length' = length) :
    (m.onBlank length growable).Mirrors limit (m.onBlank length' growable') :=
  ⟨.blank length' growable', rfl, fun i => by simp [onBlank, onTape], hlimit, fun hfixed => by
    simpa [onBlank, onTape] using hlength hfixed⟩

/-- A machine on a fixed band is mirrored without a limit by the one whose band may grow. -/
theorem Mirrors.eq_growing (h : m.Mirrors none m') (hfixed : m.tape.growable = false) :
    m' = m.growing := by
  obtain ⟨t, rfl, ht⟩ := h
  rw [growing, ht.eq_growing hfixed]

/-- The length of the band makes no difference as long as it is long enough. Let a program be run
on a fixed band of zeros and on a growable one. Unless the first run goes out of bounds, the
second one goes through the same states and ends in the same way if its band is as long at first.
Unless the second run goes out of bounds, the first one ends in the same way with the same cells,
if its band is at least as long as the other one has become. A step never makes a growable band
shorter; it appends zeros to it, and can then change the cell that its instruction is about, which
is a new one if there are any. -/
theorem bands_agree (p : Program) (m : Machine) (length : Nat) :
    (∀ n m', (m.onBlank length false).advance p n = m' → m'.InBounds →
      (m.onBlank length true).advance p n = m'.growing) ∧
    (∀ budget m' outcome, (m.onBlank length false).run p budget = (m', outcome) → m'.InBounds →
      (m.onBlank length true).run p budget = (m'.growing, outcome)) ∧
    (∀ budget m' outcome length', (m.onBlank length true).run p budget = (m', outcome) →
      m'.InBounds → m'.tape.size ≤ length' →
      ∃ t : Tape, (m.onBlank length' false).run p budget = (m'.onTape t, outcome) ∧
        t.growable = false ∧ t.size = length' ∧
        (∀ i, t.cell i = m'.tape.cell i) ∧ ∀ i, m'.tape.size ≤ i → t.cell i = 0) ∧
    ∀ n m₁ m₂, (m.onBlank length true).advance p n = m₁ →
      (m.onBlank length true).advance p (n + 1) = m₂ →
      m₁.tape.size ≤ m₂.tape.size ∧
      ∀ x, p[m₁.ip]? = some x → ∃ (zeros : Nat) (value : Cell),
        m₂.tape.cells =
          (m₁.tape.cells ++ Array.replicate zeros 0).setIfInBounds (m₁.cellIndex x) value ∧
        (0 < zeros → m₁.tape.size ≤ m₁.cellIndex x) := by
  have hblank : (m.onBlank length false).Mirrors none (m.onBlank length true) :=
    mirrors_onBlank rfl fun _ => rfl
  refine ⟨?_, ?_, ?_, ?_⟩
  · rintro n m' rfl hbounds
    exact (hblank.advance ⟨hbounds, nofun⟩).eq_growing (growable_advance ..)
  · intro budget m' outcome hrun hbounds
    obtain ⟨m'', hrun', hmirrors⟩ := hblank.run hrun ⟨hbounds, nofun⟩
    have hfixed : m'.tape.growable = false := by
      rw [← (Prod.mk.inj hrun).1, flush_eq]
      exact growable_advance ..
    rw [hrun', hmirrors.eq_growing hfixed]
  · intro budget m' outcome length' hrun hbounds hsize
    have hlonger : (m.onBlank length true).Mirrors (some length') (m.onBlank length' false) :=
      mirrors_onBlank (congrArg some (Tape.size_blank ..)) nofun
    obtain ⟨m'', hrun', t, rfl, ht⟩ := hlonger.run hrun
      ⟨hbounds, fun n hn => Option.some.inj hn ▸ hsize⟩
    refine ⟨t, hrun', ht.fixed_of_limit.1, ht.fixed_of_limit.2, ht.cell, fun i hi => ?_⟩
    rw [ht.cell, Tape.cell, Array.getElem?_eq_none hi]
    rfl
  · rintro n m₁ m₂ rfl rfl
    rw [advance_add]
    exact ⟨size_le_size_advance .., fun x hx => (accessed_advance_one hx).exists_zeros⟩

/-- A loop that moves the count of one cell to the next (`++[->+<]`): on a fixed band of two
cells and on a growable one, and then on a growable band of one cell, which grows, and on a
longer fixed one. -/
theorem bands_agree_of_transport :
    (∃ m : Machine, m.steps = 7 ∧ (onBlank { tape := .blank 0 false } 2 true).advance
      (parse [43, 43, 91, 45, 62, 43, 60, 93]).program 7 = m.growing) ∧
    (∃ m : Machine, (onBlank { tape := .blank 0 false } 2 true).run
      (parse [43, 43, 91, 45, 62, 43, 60, 93]).program 20 = (m.growing, .completed 12)) ∧
    ∃ (m : Machine) (t : Tape), (onBlank { tape := .blank 0 false } 1 true).run
        (parse [43, 43, 91, 45, 62, 43, 60, 93]).program 20 = (m, .completed 12) ∧
      1 < m.tape.size ∧ t.size = m.tape.size + 3 ∧ t.cell 1 = 2 ∧
      (onBlank { tape := .blank 0 false } (m.tape.size + 3) false).run
        (parse [43, 43, 91, 45, 62, 43, 60, 93]).program 20 = (m.onTape t, .completed 12) := by
  obtain ⟨hsteps, hgrowing, -⟩ :=
    bands_agree (parse [43, 43, 91, 45, 62, 43, 60, 93]).program { tape := .blank 0 false } 2
  obtain ⟨-, -, hlonger, -⟩ :=
    bands_agree (parse [43, 43, 91, 45, 62, 43, 60, 93]).program { tape := .blank 0 false } 1
  refine ⟨⟨_, by decide, hsteps 7 _ rfl (by decide)⟩, ⟨_, hgrowing 20 _ _ rfl (by decide)⟩, ?_⟩
  -- A growable band of two cells does not grow, so that the run on it can be followed.
  have htwo : (onBlank { tape := .blank 0 false } 2 true).Mirrors none
      (onBlank { tape := .blank 0 false } 1 true) := mirrors_onBlank rfl nofun
  have hrun : (onBlank { tape := .blank 0 false } 2 true).run
      (parse [43, 43, 91, 45, 62, 43, 60, 93]).program 20 = (_, .completed 12) :=
    Prod.ext rfl (by decide)
  obtain ⟨m, hrun', hmirrors⟩ := htwo.run hrun ⟨by decide, nofun⟩
  have hbounds : m.InBounds := by
    rw [InBounds, hmirrors.fault_eq]
    decide
  have hcell : m.tape.cell 1 = 2 := by
    obtain ⟨t, rfl, ht⟩ := hmirrors
    exact (ht.cell 1).trans (by decide)
  have hsize : 1 < m.tape.size := by
    refine Nat.lt_of_not_le fun hle => ?_
    rw [Tape.cell, Array.getElem?_eq_none hle] at hcell
    cases hcell
  obtain ⟨t, hlong, -, hlength, hsame, -⟩ :=
    hlonger 20 m _ (m.tape.size + 3) hrun' hbounds (Nat.le_add_right _ _)
  exact ⟨m, t, hrun', hsize, hlength, (hsame 1).trans hcell, hlong⟩

end Machine

end TapeCode
