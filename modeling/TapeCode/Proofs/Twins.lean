import TapeCode.Proofs.Band

/-!
# Machines that differ in one cell

Twins are two machines that differ in the value of one cell at most, be it under the data pointer
or elsewhere (`Machine.Twins`). Their bands are equally long, so they reach the same addresses and
go out of bounds together. What they do may part ways only where the cell is looked at: an
instruction that finds the same current cell, or does not ask for it, keeps them twins
(`Machine.Twins.perform`).
-/

namespace TapeCode

namespace Tape

variable {i : Nat} {t t' : Tape}

/-- The two tapes show the same cells but for one. -/
structure Twins (i : Nat) (t t' : Tape) : Prop where
  growable : t'.growable = t.growable
  size : t'.size = t.size
  cell : ∀ j, j ≠ i → t'.cell j = t.cell j

namespace Twins

theorem refl (i : Nat) (t : Tape) : t.Twins i t :=
  ⟨rfl, rfl, fun _ _ => rfl⟩

theorem reaches_iff (h : t.Twins i t') (address : Int64) :
    t'.Reaches address ↔ t.Reaches address := by
  unfold Reaches
  rw [h.growable, h.size]

theorem size_extendTo (h : t.Twins i t') (j : Nat) :
    (t'.extendTo j).size = (t.extendTo j).size := by
  have hsize := h.size
  unfold Tape.extendTo
  rw [hsize]
  split
  · exact hsize
  · simp only [Tape.size, Array.size_append] at hsize ⊢
    rw [hsize]

theorem extendTo (h : t.Twins i t') (j : Nat) : (t.extendTo j).Twins i (t'.extendTo j) where
  growable := by rw [growable_extendTo, growable_extendTo, h.growable]
  size := h.size_extendTo j
  cell k hk := by rw [cell_extendTo, cell_extendTo, h.cell k hk]

/-- A change that is made to a cell of both is made to the same value, or to the cell in which
they differ. -/
theorem modify (h : t.Twins i t') (j : Nat) (f : Cell → Cell) :
    (t.modify j f).Twins i (t'.modify j f) where
  growable := by rw [growable_modify, growable_modify, h.growable]
  size := by rw [size_modify, size_modify, h.size_extendTo]
  cell k hk := by
    rw [cell_modify, cell_modify]
    split
    · rename_i hkj
      rw [h.cell j (hkj ▸ hk)]
    · exact h.cell k hk

end Twins

end Tape

namespace Machine

variable {p : Program} {i : Nat} {m m' : Machine} {x : Instruction}

/-- The two machines are equal but for the value of one cell. -/
def Twins (i : Nat) (m m' : Machine) : Prop :=
  ∃ t, m' = m.onTape t ∧ m.tape.Twins i t

namespace Twins

theorem refl (i : Nat) (m : Machine) : m.Twins i m :=
  ⟨m.tape, rfl, .refl i m.tape⟩

theorem update (h : m.Twins i m') (offset : Int64) (f : Cell → Cell) :
    (m.update offset f).Twins i (m'.update offset f) := by
  obtain ⟨t, rfl, ht⟩ := h
  by_cases hreach : m.tape.Reaches (m.dp + offset)
  · have hupdate : m.update offset f =
        { m with tape := m.tape.modify (m.dp + offset).toNatClampNeg f } := if_pos hreach
    rw [hupdate]
    exact ⟨_, if_pos ((ht.reaches_iff _).2 hreach), ht.modify _ f⟩
  · have hupdate : m.update offset f = m.fail (m.outOfBounds (m.dp + offset)) := if_neg hreach
    rw [hupdate]
    refine ⟨t, (if_neg fun h => hreach ((ht.reaches_iff _).1 h)).trans ?_, ht⟩
    simp only [outOfBounds, onTape, ht.size]
    rfl

theorem probe (h : m.Twins i m') : m.probe.Twins i m'.probe := by
  obtain ⟨t, rfl, ht⟩ := h
  by_cases hreach : m.tape.Reaches m.dp
  · have hprobe : m.probe = { m with tape := m.tape.extendTo m.dp.toNatClampNeg } := if_pos hreach
    rw [hprobe]
    exact ⟨_, if_pos ((ht.reaches_iff _).2 hreach), ht.extendTo _⟩
  · have hprobe : m.probe = m.fail (m.outOfBounds m.dp) := if_neg hreach
    rw [hprobe]
    refine ⟨t, (if_neg fun h => hreach ((ht.reaches_iff _).1 h)).trans ?_, ht⟩
    simp only [outOfBounds, onTape, ht.size]
    rfl

/-- A cell other than the one in which they differ looks the same to both. -/
theorem current_eq (h : m.Twins i m') (hne : 0 ≤ m.dp → m.dp.toNatClampNeg ≠ i) :
    m'.current = m.current := by
  obtain ⟨t, rfl, ht⟩ := h
  unfold current
  by_cases hreach : m.tape.Reaches m.dp
  · rw [if_pos hreach]
    exact (if_pos ((ht.reaches_iff m.dp).2 hreach)).trans (ht.cell _ (hne hreach.1))
  · rw [if_neg hreach]
    exact if_neg fun h => hreach ((ht.reaches_iff m.dp).1 h)

theorem emit (h : m.Twins i m') (b : UInt8) : (m.emit b).Twins i (m'.emit b) := by
  obtain ⟨t, rfl, ht⟩ := h
  refine ⟨t, ?_, by rwa [tape_emit]⟩
  unfold Machine.emit onTape
  dsimp only
  split <;> rfl

theorem receive (h : m.Twins i m') : m.receive.Twins i m'.receive := by
  obtain ⟨t, rfl, ht⟩ := h
  have hinput : (m.onTape t).input = m.input := rfl
  unfold Machine.receive
  rw [hinput]
  generalize m.input.readByte = read
  obtain ⟨result, rest⟩ := read
  cases result with
  | byte b => exact update (m := { m with input := rest }) ⟨t, rfl, ht⟩ 0 fun _ => b
  | nothing => exact ⟨t, rfl, ht⟩
  | failed cause => exact ⟨t, rfl, ht⟩

theorem next (h : m.Twins i m') : m.next.Twins i m'.next := by
  obtain ⟨t, rfl, ht⟩ := h
  exact ⟨t, rfl, ht⟩

theorem goto (h : m.Twins i m') (ip : Nat) : (m.goto ip).Twins i (m'.goto ip) := by
  obtain ⟨t, rfl, ht⟩ := h
  exact ⟨t, rfl, ht⟩

theorem fault_eq (h : m.Twins i m') : m'.fault = m.fault := by
  obtain ⟨t, rfl, -⟩ := h
  rfl

theorem ip_eq (h : m.Twins i m') : m'.ip = m.ip := by
  obtain ⟨t, rfl, -⟩ := h
  rfl

theorem canStep_eq (h : m.Twins i m') (p : Program) : m'.canStep p = m.canStep p := by
  obtain ⟨t, rfl, -⟩ := h
  rfl

end Twins

/-- What an instruction looks at before it goes on: only printing and jumps ask for
the current cell. -/
def Asks (x : Instruction) : Prop :=
  x.op = .print ∨ x.op.isJump = true

/-- An instruction that finds the same current cell, if it asks for it, keeps machines twins. -/
theorem Twins.perform (h : m.Twins i m') (hcurrent : Asks x → m'.current = m.current)
    (size : Nat) : (m.perform size x).Twins i (m'.perform size x) := by
  unfold Machine.perform
  cases hop : x.op with
  | nop => exact h.next
  | move =>
    obtain ⟨t, rfl, ht⟩ := h
    exact ⟨t, rfl, ht⟩
  | add => exact (h.update _ _).next
  | sub => exact (h.update _ _).next
  | set => exact (h.update _ _).next
  | print =>
    dsimp only
    rw [hcurrent (.inl hop), h.probe.fault_eq]
    split
    · exact (h.probe.emit _).next
    · exact h.probe.next
  | input => exact h.receive.next
  | opens kind =>
    dsimp only
    rw [hcurrent (.inr (by rw [hop]; rfl))]
    split
    · exact h.probe.goto _
    · cases kind with
      | tested => exact h.probe.next
      | counted => exact (h.probe.update 0 _).next
  | closes kind =>
    dsimp only
    rw [hcurrent (.inr (by rw [hop]; rfl))]
    split
    · exact h.probe.next
    · cases kind <;> exact h.probe.goto _

theorem Twins.step (h : m.Twins i m') (hx : p[m.ip]? = some x)
    (hcurrent : Asks x → m'.current = m.current) : (m.step p).Twins i (m'.step p) := by
  have hx' : p[m'.ip]? = some x := by rw [h.ip_eq, hx]
  rw [step_of_getElem? hx, step_of_getElem? hx']
  obtain ⟨t, rfl, ht⟩ := h
  exact Twins.perform (m := m.counted) ⟨t, rfl, ht⟩ hcurrent p.size

end Machine

end TapeCode
