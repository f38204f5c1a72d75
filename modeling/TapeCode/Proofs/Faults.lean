import TapeCode.Proofs.Band
import TapeCode.Proofs.Compaction

/-!
# Steps that fault

An instruction faults for one of two reasons. The cell that it accesses is out of reach
(`Machine.missed?`), or the stream that it uses refuses (`Machine.refused?`). Which fault a step
records is told by `Machine.raises?`, from the machine before the step (`Machine.fault_perform`).

A step that faults is not undone, but there is next to nothing to undo (`Machine.Raises.faults`).
It leaves the data pointer, the tape and the output as they were, with one exception: a byte is
refused only after the machine has looked at its cell, and a growable band has grown to the cell
by then.
-/

namespace TapeCode

/-- An address is out of reach if it lies before the band, or behind the end of a fixed one. -/
theorem Tape.not_reaches_iff {t : Tape} {address : Int64} :
    ¬ t.Reaches address ↔
      address.toInt < 0 ∨ t.growable = false ∧ (t.size : Int) ≤ address.toInt := by
  have hzero : 0 ≤ address ↔ 0 ≤ address.toInt := Int64.le_iff_toInt_le
  have hnat : address.toNatClampNeg = address.toInt.toNat := rfl
  rw [Reaches, hzero, hnat]
  cases t.growable with
  | true => simp
  | false => simp only [Bool.false_eq_true, or_false, true_and]; omega

/-- To extend a band is to append zeros, if anything. -/
theorem Tape.extendTo_eq_append (t : Tape) (i : Nat) :
    ∃ n, t.extendTo i = { t with cells := t.cells ++ Array.replicate n 0 } := by
  obtain ⟨n, hcells, -⟩ := exists_zeros_extendTo t i
  refine ⟨n, ?_⟩
  rw [← hcells, ← growable_extendTo t i]

namespace Machine

variable {p : Program} {m m' : Machine} {x : Instruction} {address offset : Int64}
  {f : Cell → Cell} {fault : Fault}

/-! ## Which fault is recorded -/

/-- The address of the cell that an instruction accesses, if it accesses one. The input is asked
first, and if no byte arrives no cell is accessed. -/
def address? (m : Machine) (x : Instruction) : Option Int64 :=
  match x.op with
  | .nop | .move _ => none
  | .add _ | .sub _ | .set _ => some (m.dp + x.offset)
  | .print | .opens _ | .closes _ => some m.dp
  | .input =>
    match m.input.readByte.1 with
    | .byte _ => some m.dp
    | _ => none

/-- The fault of an access to an address, if the address is out of reach. -/
def missed? (m : Machine) (address : Int64) : Option Fault :=
  if m.tape.Reaches address then none else some (m.outOfBounds address)

/-- The fault of the stream that an instruction uses, if the stream refuses. -/
def refused? (m : Machine) (x : Instruction) : Option Fault :=
  match x.op with
  | .print => if m.output.isFull then some (.output m.ip m.output.refusal) else none
  | .input =>
    match m.input.readByte.1 with
    | .failed cause => some (.input m.ip cause)
    | _ => none
  | _ => none

/-- The fault that an instruction raises: an access out of reach comes before a
stream that refuses. -/
def raises? (m : Machine) (x : Instruction) : Option Fault :=
  ((m.address? x).bind m.missed?).or (m.refused? x)

/-- The ways for an instruction to raise a fault, which tells of the machine as it was before. -/
inductive Raises (m : Machine) (x : Instruction) : Fault → Prop
  | missed {address : Int64} : m.address? x = some address → ¬ m.tape.Reaches address →
    Raises m x (.outOfBounds m.ip m.dp address m.tape.size)
  | full : x.op = .print → m.tape.Reaches m.dp → m.output.isFull = true →
    Raises m x (.output m.ip m.output.refusal)
  | failed {cause : Failure} : x.op = .input → m.input.readByte.1 = .failed cause →
    Raises m x (.input m.ip cause)

theorem missed?_eq_some_iff :
    m.missed? address = some fault ↔ ¬ m.tape.Reaches address ∧
      m.outOfBounds address = fault := by
  unfold missed?
  split <;> simp_all

theorem missed?_eq_none_iff : m.missed? address = none ↔ m.tape.Reaches address := by
  unfold missed?
  split <;> simp_all

theorem refused?_eq_some_iff :
    m.refused? x = some fault ↔
      (x.op = .print ∧ m.output.isFull = true ∧ .output m.ip m.output.refusal = fault) ∨
      (x.op = .input ∧ ∃ cause, m.input.readByte.1 = .failed cause ∧
        .input m.ip cause = fault) := by
  unfold refused?
  cases x.op with
  | print => cases m.output.isFull <;> simp
  | input => cases m.input.readByte.1 <;> simp
  | _ => simp

theorem raises?_eq_some_iff : m.raises? x = some fault ↔ m.Raises x fault := by
  simp only [raises?, Option.or_eq_some_iff, Option.bind_eq_some_iff, Option.bind_eq_none_iff,
    missed?_eq_some_iff, missed?_eq_none_iff, refused?_eq_some_iff]
  constructor
  · rintro (⟨address, haddress, hmissed, rfl⟩ |
      ⟨hreach, ⟨hop, hfull, rfl⟩ | ⟨hop, cause, hread, rfl⟩⟩)
    · exact .missed haddress hmissed
    · exact .full hop (hreach m.dp (by rw [address?, hop])) hfull
    · exact .failed hop hread
  · intro h
    cases h with
    | missed haddress hmissed => exact .inl ⟨_, haddress, hmissed, rfl⟩
    | full hop hreach hfull =>
      refine .inr ⟨fun address haddress => ?_, .inl ⟨hop, hfull, rfl⟩⟩
      rw [address?, hop] at haddress
      exact Option.some.inj haddress ▸ hreach
    | failed hop hread =>
      refine .inr ⟨fun address haddress => ?_, .inr ⟨hop, _, hread, rfl⟩⟩
      simp [address?, hop, hread] at haddress

theorem fault_fail (h : m.fault = none) (fault : Fault) : (m.fail fault).fault = some fault := by
  rw [fail, h, Option.none_or]

theorem fault_update (h : m.fault = none) (offset : Int64) (f : Cell → Cell) :
    (m.update offset f).fault = m.missed? (m.dp + offset) := by
  unfold update missed?
  dsimp only
  split
  · exact h
  · exact fault_fail h _

theorem fault_probe (h : m.fault = none) : m.probe.fault = m.missed? m.dp := by
  unfold probe missed?
  split
  · exact h
  · exact fault_fail h _

theorem fault_emit (h : m.fault = none) (b : UInt8) :
    (m.emit b).fault =
      if m.output.isFull then some (.output m.ip m.output.refusal) else none := by
  unfold emit
  split
  · exact fault_fail h _
  · exact h

/-- A cell that is out of reach is seen as zero. -/
theorem current_of_missed (h : m.missed? m.dp = some fault) : m.current = 0 :=
  if_neg (missed?_eq_some_iff.1 h).1

/-- A cell that has been looked at can be changed. -/
theorem fault_probe_update (h : m.fault = none) (hreach : m.tape.Reaches m.dp) (f : Cell → Cell) :
    (m.probe.update 0 f).fault = none := by
  have hprobe : m.probe.fault = none := (fault_probe h).trans (missed?_eq_none_iff.2 hreach)
  rw [fault_update hprobe, Int64.add_zero]
  exact missed?_eq_none_iff.2 (seen_probe hprobe).1

/-- An instruction records the fault that it raises. -/
theorem fault_perform (h : m.fault = none) (size : Nat) (x : Instruction) :
    (m.perform size x).fault = m.raises? x := by
  have hread : { m with input := m.input.readByte.2 }.fault = none := h
  unfold perform raises? address? refused?
  cases hop : x.op with
  | nop => exact h
  | move => exact h
  | add | sub | set =>
    dsimp only
    rw [Option.bind_some, Option.or_none]
    exact fault_update h ..
  | print =>
    dsimp only
    rw [Option.bind_some, ← fault_probe h]
    cases hprobe : m.probe.fault with
    | some fault => exact hprobe
    | none =>
      -- Only a byte that could be looked at is offered to the output.
      have hip : m.probe.ip = m.ip := (Prod.mk.inj (control_probe m)).1
      have hemit := fault_emit hprobe m.current
      rw [output_probe, hip] at hemit
      exact hemit
  | input =>
    dsimp only [receive, next]
    cases hbyte : m.input.readByte.1 with
    | byte b =>
      have hupdate := fault_update hread 0 fun _ => b
      rw [Int64.add_zero] at hupdate
      dsimp only
      rw [hupdate, Option.bind_some, Option.or_none]
      rfl
    | nothing => exact h
    | failed cause => exact fault_fail hread _
  | opens kind =>
    dsimp only
    rw [Option.bind_some, Option.or_none, ← fault_probe h]
    cases hprobe : m.probe.fault with
    | some fault =>
      -- The jump is taken as over a zero, and the cell is not touched again.
      rw [if_pos (current_of_missed ((fault_probe h).symm.trans hprobe))]
      exact hprobe
    | none =>
      split
      · exact hprobe
      · cases kind with
        | tested => exact hprobe
        | counted => exact fault_probe_update h (reaches_of_probe hprobe) _
  | closes kind =>
    dsimp only
    rw [Option.bind_some, Option.or_none, ← fault_probe h]
    split
    · rfl
    · cases kind <;> rfl

/-! ## What a fault leaves alone -/

/-- The data pointer, the tape and the output. -/
def kept (m : Machine) : Int64 × Tape × Output :=
  (m.dp, m.tape, m.output)

/-- An access that faults changes nothing. -/
theorem kept_update (h : ¬ m.tape.Reaches (m.dp + offset)) :
    (m.update offset f).kept = m.kept := by
  rw [update, if_neg h]
  rfl

theorem kept_probe (h : ¬ m.tape.Reaches m.dp) : m.probe.kept = m.kept := by
  rw [probe, if_neg h]
  rfl

/-- An instruction whose cell is out of reach leaves everything as it was. -/
theorem kept_perform_of_missed (size : Nat) (haddress : m.address? x = some address)
    (hmissed : ¬ m.tape.Reaches address) : (m.perform size x).kept = m.kept := by
  unfold address? at haddress
  unfold perform
  cases hop : x.op with
  | nop | move => rw [hop] at haddress; cases haddress
  | add | sub | set =>
    rw [hop] at haddress
    obtain rfl := Option.some.inj haddress
    exact kept_update hmissed
  | print =>
    rw [hop] at haddress
    obtain rfl := Option.some.inj haddress
    have hprobe : m.probe.fault.isNone = false := by
      rw [probe, if_neg hmissed, fail]
      cases m.fault <;> rfl
    dsimp only
    rw [hprobe]
    exact kept_probe hmissed
  | input =>
    rw [hop] at haddress
    dsimp only [receive, next] at haddress ⊢
    cases hbyte : m.input.readByte.1 with
    | byte b =>
      rw [hbyte] at haddress
      obtain rfl := Option.some.inj haddress
      have hhere : ¬ m.tape.Reaches (m.dp + 0) := by rwa [Int64.add_zero]
      exact kept_update (m := { m with input := m.input.readByte.2 }) hhere
    | nothing | failed => rw [hbyte] at haddress; cases haddress
  | opens | closes =>
    rw [hop] at haddress
    obtain rfl := Option.some.inj haddress
    have hcurrent : m.current = 0 := if_neg hmissed
    dsimp only
    rw [if_pos hcurrent]
    exact kept_probe hmissed

/-- A byte that is refused is the exception: the machine has looked at the cell of
the byte before. -/
theorem kept_perform_of_full (h : m.fault = none) (size : Nat) (hop : x.op = .print)
    (hreach : m.tape.Reaches m.dp) (hfull : m.output.isFull = true) :
    (m.perform size x).kept = (m.dp, m.tape.extendTo m.dp.toNatClampNeg, m.output) := by
  unfold perform
  rw [hop, probe, if_pos hreach]
  dsimp only
  rw [h, emit, if_pos hfull]
  rfl

theorem kept_perform_of_failed (size : Nat) (hop : x.op = .input) {cause : Failure}
    (hread : m.input.readByte.1 = .failed cause) : (m.perform size x).kept = m.kept := by
  unfold perform
  rw [hop]
  dsimp only [receive]
  rw [hread]
  rfl

/-- What a step leaves behind that carries out `x` and faults. -/
structure Faults (m : Machine) (x : Instruction) (fault : Fault) (m' : Machine) : Prop where
  raised : m.Raises x fault
  dp : m'.dp = m.dp
  output : m'.output = m.output
  steps : m'.steps = m.steps + 1
  /-- The cells that were there are as they were. -/
  cells : ∀ i, i < m.tape.size → m'.tape.cells[i]? = m.tape.cells[i]?
  /-- No cell is new, unless a growable band was extended with zeros before a byte was refused. -/
  tape : m'.tape = m.tape ∨
    x.op = .print ∧ m.tape.growable = true ∧ fault = .output m.ip m.output.refusal ∧
      ∃ n, m'.tape = { m.tape with cells := m.tape.cells ++ Array.replicate n 0 }

theorem Faults.of_kept (hraised : m.Raises x fault) (hsteps : m'.steps = m.steps + 1)
    (hkept : m'.kept = m.kept) : m.Faults x fault m' := by
  obtain ⟨hdp, hrest⟩ := Prod.mk.inj hkept
  obtain ⟨htape, houtput⟩ := Prod.mk.inj hrest
  exact ⟨hraised, hdp, houtput, hsteps, fun i _ => by rw [htape], .inl htape⟩

/-- A step that faults leaves next to everything as it was. -/
theorem Raises.faults (h : m.Raises x fault) (hnone : m.fault = none) (hx : p[m.ip]? = some x) :
    m.Faults x fault (m.step p) := by
  have hsteps : (m.step p).steps = m.steps + 1 := steps_step (canStep_of_getElem? hnone hx)
  rw [step_of_getElem? hx] at hsteps ⊢
  have hraised := h
  cases h with
  | missed haddress hmissed =>
    exact .of_kept hraised hsteps
      (kept_perform_of_missed (m := m.counted) p.size haddress hmissed)
  | failed hop hread =>
    exact .of_kept hraised hsteps (kept_perform_of_failed (m := m.counted) p.size hop hread)
  | full hop hreach hfull =>
    have hkept := kept_perform_of_full (m := m.counted) hnone p.size hop hreach hfull
    obtain ⟨hdp, hrest⟩ := Prod.mk.inj hkept
    obtain ⟨htape, houtput⟩ := Prod.mk.inj hrest
    obtain ⟨n, hzeros⟩ := Tape.extendTo_eq_append m.tape m.dp.toNatClampNeg
    refine ⟨hraised, hdp, houtput, hsteps, fun i hi => ?_, ?_⟩
    · rw [htape, counted, hzeros]
      exact Array.getElem?_append_left hi
    · cases hgrowable : m.tape.growable with
      | true => exact .inr ⟨hop, rfl, rfl, n, htape.trans hzeros⟩
      | false => exact .inl (htape.trans (Tape.extendTo_of_lt (hreach.lt_size hgrowable)))

/-- A step records a fault if and only if its instruction raises it. -/
theorem fault_step_iff (h : m.fault = none) (hx : p[m.ip]? = some x) :
    (m.step p).fault = some fault ↔ m.Raises x fault := by
  have hraises : m.counted.raises? x = m.raises? x := rfl
  rw [step_of_getElem? hx, fault_perform (m := m.counted) h, hraises, raises?_eq_some_iff]

/-- A step goes out of bounds if and only if its instruction accesses a cell whose address, as a
machine word, is negative or behind the end of a fixed band. Whatever the fault is that a step
records, it tells of the machine as it was before the step; the step is counted, and the data
pointer, the cells and the output are as before, and so is the length of the band, except that a
growable one may have been extended with zeros to the cell whose byte the output then refused. -/
theorem faults_step (h : m.fault = none) (hx : p[m.ip]? = some x) :
    ((∃ (ip : Nat) (dp address : Int64) (size : Nat),
        (m.step p).fault = some (.outOfBounds ip dp address size)) ↔
      ∃ address, m.address? x = some address ∧
        (address.toInt < 0 ∨ m.tape.growable = false ∧ (m.tape.size : Int) ≤ address.toInt)) ∧
    ∀ fault, (m.step p).fault = some fault → m.Faults x fault (m.step p) := by
  refine ⟨?_, fun fault hfault => ((fault_step_iff h hx).1 hfault).faults h hx⟩
  simp only [fault_step_iff h hx, ← Tape.not_reaches_iff]
  constructor
  · rintro ⟨ip, dp, address, size, hraises⟩
    cases hraises with
    | missed haddress hmissed => exact ⟨address, haddress, hmissed⟩
  · rintro ⟨address, haddress, hmissed⟩
    exact ⟨_, _, _, _, .missed haddress hmissed⟩

/-- A cell is printed for which the band has to grow, and the output takes no byte. -/
theorem faults_step_of_refused :
    Faults { tape := .blank 0 true, output := { limit := some 0 } } ⟨.print, 1, 0⟩
      (.output 0 .writeZero)
      (step #[⟨.print, 1, 0⟩] { tape := .blank 0 true, output := { limit := some 0 } }) :=
  (faults_step rfl rfl).2 _ rfl

end Machine

end TapeCode
