import TapeCode.Proofs.Optimization

/-!
# Stream faults of optimized programs

A run may be cut short where an instruction reads or prints a byte and the stream fails. The cells
may then differ between a program as it was read and the optimized one, since a loop that was
taken in the middle of a round may count its cell at another time. All else is the same: the byte
that could not be transferred, what was printed and read before, and where the data pointer stands
(`transfer_optimize`).

The output stream may also refuse to be flushed when a run is over. That is another fault, with an
instruction pointer behind the program, and `Fault.OfTransfer` tells the two apart.
-/

namespace TapeCode

/-- The fault was raised by an instruction of the program that reads or prints a byte. -/
def Fault.OfTransfer (p : Program) : Fault → Prop
  | outOfBounds .. => False
  | output ip _ => ∃ x, p[ip]? = some x ∧ x.op = .print
  | input .. => True

/-- The machine at the start of a run that prints to a given stream. -/
def Start.writing (start : Start) (output : Output) : Machine :=
  { start.machine with output }

namespace Machine

variable {p : Program} {m m' : Machine} {n : Nat} {fault : Fault}

/-- A flush records no fault of an instruction. -/
theorem not_ofTransfer_of_flush (hfault : m.fault = none) (hip : p.size ≤ m.ip)
    (hflush : m.flush.fault = some fault) : ¬ fault.OfTransfer p := by
  unfold flush at hflush
  dsimp only at hflush
  split at hflush
  · rename_i cause _
    simp only [fail, hfault, Option.none_or, Option.some.injEq] at hflush
    subst hflush
    rintro ⟨x, hx, -⟩
    rw [Array.getElem?_eq_none hip] at hx
    cases hx
  · cases hfault.symm.trans hflush

namespace Attains

variable {q : Progress} {steps : Nat}

/-- A machine that has come to the end of its program has no fault but that of the flush. -/
theorem not_ofTransfer_of_end {k left : Nat} {v : View} (hsteps : m.steps = 0) (hn : n = k + left)
    (htakes : Takes p k m m') (hreport : m'.report = (none, v)) (hip : p.size ≤ m'.ip)
    (h : (m.run p n).2 = .faulted steps fault) : ¬ fault.OfTransfer p := by
  have hfault := (fault_eq_none_of_report hreport).1
  have hend : m'.canStep p = false := by simpa [canStep, hfault] using hip
  rw [run_of_stopped hsteps (hn ▸ htakes.advance_add hend) hend] at h
  cases hfound : m'.flush.fault with
  | none => rw [hfound] at h; cases h
  | some found =>
    rw [hfound] at h
    cases h
    exact not_ofTransfer_of_flush hfault hip hfound

/-- A machine that is stopped by an instruction shows the fault and the view of its progress, with
the output flushed. -/
theorem run_faulted {k left : Nat} {kind : Fault.Kind} {v : View} (hsteps : m.steps = 0)
    (hn : n = k + left) (htakes : Takes p k m m') (hreport : m'.report = (some kind, v)) :
    (∃ steps found, (m.run p n).2 = .faulted steps found ∧ found.kind = kind) ∧
      (m.run p n).1.view = v.flush := by
  obtain ⟨hkind, hview⟩ := Prod.mk.inj hreport
  obtain ⟨found, hfound, rfl⟩ := Option.map_eq_some_iff.1 hkind
  have hend : m'.canStep p = false := by simp [canStep, hfound]
  rw [run_of_faulted hsteps (hn ▸ htakes.advance_add hend) hfound, view_flush, hview]
  exact ⟨⟨_, found, rfl, rfl⟩, rfl⟩

/-- A run that an instruction stops by a stream fault has halted in its course. -/
theorem halted_of_ofTransfer (h : Attains p p.size n m q) (hsteps : m.steps = 0)
    (hrun : (m.run p n).2 = .faulted steps fault) (hfault : fault.OfTransfer p) :
    ∃ left v, q = .halted left (some fault.kind) v ∧ (m.run p n).1.view = v.flush := by
  cases h with
  | @paused m' v htakes hreport hip =>
    have hcan : (m.advance p (n - m.steps)).canStep p = true := by
      rw [hsteps, Nat.sub_zero, htakes.advance]
      simp [canStep, (fault_eq_none_of_report hreport).1, hip]
    rw [Machine.run] at hrun
    dsimp only at hrun
    rw [if_pos hcan] at hrun
    cases hrun
  | done hn htakes hreport hip =>
    exact absurd hfault
      (not_ofTransfer_of_end hsteps hn htakes hreport (Nat.le_of_eq hip.symm) hrun)
  | left hn htakes hreport hip =>
    exact absurd hfault (not_ofTransfer_of_end hsteps hn htakes hreport hip hrun)
  | @faulted k left m' kind v hn htakes hreport =>
    obtain ⟨⟨steps', found, houtcome, rfl⟩, hview⟩ := run_faulted hsteps hn htakes hreport
    rw [hrun] at houtcome
    cases houtcome
    exact ⟨left, v, rfl, hview⟩

/-- A run whose course halts by a fault is stopped by it. -/
theorem faulted_of_halted {left : Nat} {kind : Fault.Kind} {v : View}
    (h : Attains p p.size n m (.halted left (some kind) v)) (hsteps : m.steps = 0) :
    (∃ steps found, (m.run p n).2 = .faulted steps found ∧ found.kind = kind) ∧
      (m.run p n).1.view = v.flush := by
  cases h with
  | faulted hn htakes hreport => exact run_faulted hsteps hn htakes hreport

end Attains

end Machine

/-- Behind a course that halts by a fault of a stream the other one halts by the same fault. -/
theorem Progress.Trails.of_transfer {lead left : Nat} {kind : Fault.Kind} {u : View}
    {q : Progress} (h : (Progress.halted left (some kind) u).Trails lead q)
    (hkind : kind ≠ .outOfBounds) :
    ∃ left' u', q = .halted left' (some kind) u' ∧ u.sansCells = u'.sansCells := by
  cases h with
  | faulted _ hsame => exact ⟨_, _, rfl, hsame⟩
  | outOfBounds => exact absurd rfl hkind

theorem Fault.OfTransfer.kind_ne {p : Program} {fault : Fault} (h : fault.OfTransfer p) :
    fault.kind ≠ .outOfBounds := by
  cases fault with
  | outOfBounds => exact h.elim
  | output => exact Fault.Kind.noConfusion
  | input => exact Fault.Kind.noConfusion

/-- Where an instruction of the program of a source cannot read or print a byte, the run of the
optimized program is stopped by a fault of the same kind, with the same output, the same unread
input and the same data pointer. -/
theorem transfer_optimize {source : List UInt8} (hlength : source.length < 2 ^ 32) (level : Level)
    (start : Start) (output : Output) {budget steps : Nat} {fault : Fault}
    (h : ((start.writing output).run (parse source).program budget).2 = .faulted steps fault)
    (hfault : fault.OfTransfer (parse source).program) :
    ∃ steps' fault', ((start.writing output).run
        ((parse source).program.optimize level).program budget).2 = .faulted steps' fault' ∧
      fault'.kind = fault.kind ∧
      ((start.writing output).run (parse source).program budget).1.output =
        ((start.writing output).run ((parse source).program.optimize level).program
          budget).1.output ∧
      ((start.writing output).run (parse source).program budget).1.input =
        ((start.writing output).run ((parse source).program.optimize level).program
          budget).1.input ∧
      ((start.writing output).run (parse source).program budget).1.dp =
        ((start.writing output).run ((parse source).program.optimize level).program
          budget).1.dp := by
  obtain ⟨F, G, hF, hG, htrails⟩ := exists_tracks hlength level
  have hattains := hF budget (start.writing output) rfl rfl
  have hattains' := hG budget (start.writing output) rfl rfl
  obtain ⟨left, v, hhalted, hview⟩ := hattains.halted_of_ofTransfer rfl h hfault
  have hahead := htrails.run budget (start.writing output).view
  rw [hhalted] at hahead
  obtain ⟨left', u, hhalted', hsame⟩ := hahead.of_transfer hfault.kind_ne
  rw [hhalted'] at hattains'
  obtain ⟨⟨steps', fault', houtcome, hkind⟩, hview'⟩ := hattains'.faulted_of_halted rfl
  have houtput : v.output.flush = u.output.flush := congrArg (·.output.flush) hsame
  have hinput : v.input = u.input := congrArg (·.input) hsame
  have hdp : v.dp = u.dp := congrArg (·.dp) hsame
  exact ⟨steps', fault', houtcome, hkind,
    (congrArg (·.output) hview).trans (houtput.trans (congrArg (·.output) hview').symm),
    (congrArg (·.input) hview).trans (hinput.trans (congrArg (·.input) hview').symm),
    (congrArg (·.dp) hview).trans (hdp.trans (congrArg (·.dp) hview').symm)⟩

/-- A stream that takes one byte, under a program that prints two in a loop that is taken at its
back (`++[>+.<-]`). -/
theorem transfer_optimize_of_full :
    ∃ steps' fault', (Machine.run ((parse [43, 43, 91, 62, 43, 46, 60, 45, 93]).program.optimize
        .minimal).program 40 (Start.writing ⟨0, 2, false, []⟩ { limit := some 1 })).2 =
        .faulted steps' fault' ∧ fault'.kind = .output .writeZero := by
  have h : (Machine.run (parse [43, 43, 91, 62, 43, 46, 60, 45, 93]).program 40
      (Start.writing ⟨0, 2, false, []⟩ { limit := some 1 })).2 =
      .faulted 11 (.output 4 .writeZero) := by
    decide +kernel
  obtain ⟨steps', fault', houtcome, hkind, -⟩ := transfer_optimize (by decide) .minimal
    ⟨0, 2, false, []⟩ { limit := some 1 } h ⟨{ op := .print, arg := 1 }, by decide +kernel, rfl⟩
  exact ⟨steps', fault', houtcome, hkind⟩

end TapeCode
