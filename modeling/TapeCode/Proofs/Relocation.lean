import TapeCode.Proofs.Stepper

/-!
# Machines that stand elsewhere

Two machines that differ only in where they stand, in how many steps they have taken and in the
index that their fault names: `Machine.Relocated f m m'` says that, with a fault of `m` at `i`,
the second one has the same fault at `f i`. An instruction keeps that, whatever program it stands
in, as long as the second machine stands at the image of the slot of the first one
(`Relocated.perform`).
-/

namespace TapeCode

/-- The same fault of an instruction that stands elsewhere. -/
def Fault.relocate (f : Nat → Nat) : Fault → Fault
  | outOfBounds ip dp address size => .outOfBounds (f ip) dp address size
  | output ip cause => .output (f ip) cause
  | input ip cause => .input (f ip) cause

namespace Machine

variable {f : Nat → Nat} {m m' : Machine} {x : Instruction}

/-- The second machine is the first one but for its place, its number of steps and the place of
its fault. -/
structure Relocated (f : Nat → Nat) (m m' : Machine) : Prop where
  dp : m'.dp = m.dp
  tape : m'.tape = m.tape
  input : m'.input = m.input
  output : m'.output = m.output
  fault : m'.fault = m.fault.map (·.relocate f)

namespace Relocated

/-- Neither the place of a machine nor its number of steps matters. -/
theorem congr {m₁ m₁' : Machine} (h : m.Relocated f m')
    (hleft : ∃ ip steps, m₁ = { m with ip, steps })
    (hright : ∃ ip steps, m₁' = { m' with ip, steps }) : m₁.Relocated f m₁' := by
  obtain ⟨_, _, rfl⟩ := hleft
  obtain ⟨_, _, rfl⟩ := hright
  exact ⟨h.dp, h.tape, h.input, h.output, h.fault⟩

theorem isSome_fault (h : m.Relocated f m') : m'.fault.isSome = m.fault.isSome := by
  rw [h.fault, Option.isSome_map]

theorem fault_eq_none_iff (h : m.Relocated f m') : m'.fault = none ↔ m.fault = none := by
  rw [h.fault, Option.map_eq_none_iff]

theorem current (h : m.Relocated f m') : m'.current = m.current := by
  rw [Machine.current, Machine.current, h.dp, h.tape]

theorem fail (h : m.Relocated f m') (fault : Fault) :
    (m.fail fault).Relocated f (m'.fail (fault.relocate f)) := by
  refine ⟨h.dp, h.tape, h.input, h.output, ?_⟩
  rw [Machine.fail, Machine.fail, h.fault]
  cases m.fault <;> rfl

/-- Flushes that do not fail treat both machines alike. -/
theorem flush (h : m.Relocated f m') (hflush : m.output.flushFailure = none) :
    m.flush.Relocated f m'.flush := by
  have hflush' : m'.output.flushFailure = none := by rw [h.output, hflush]
  rw [flush_of_flushFailure hflush, flush_of_flushFailure hflush']
  exact ⟨h.dp, h.tape, h.input, congrArg Output.flush h.output, h.fault⟩

/-- An address out of reach is out of reach of both machines. -/
theorem fail_outOfBounds (h : m.Relocated f m') (hip : m'.ip = f m.ip) (address : Int64) :
    (m.fail (m.outOfBounds address)).Relocated f (m'.fail (m'.outOfBounds address)) := by
  have hfault : m'.outOfBounds address = (m.outOfBounds address).relocate f := by
    rw [outOfBounds, outOfBounds, Fault.relocate, hip, h.dp, h.tape]
  rw [hfault]
  exact h.fail _

theorem update (h : m.Relocated f m') (hip : m'.ip = f m.ip) (offset : Int64) (g : Cell → Cell) :
    (m.update offset g).Relocated f (m'.update offset g) := by
  unfold Machine.update
  rw [h.dp, h.tape]
  dsimp only
  split
  · exact ⟨rfl, rfl, h.input, h.output, h.fault⟩
  · rw [← h.dp]
    exact h.fail_outOfBounds hip _

theorem probe (h : m.Relocated f m') (hip : m'.ip = f m.ip) : m.probe.Relocated f m'.probe := by
  unfold Machine.probe
  rw [h.dp, h.tape]
  split
  · exact ⟨rfl, rfl, h.input, h.output, h.fault⟩
  · rw [← h.dp]
    exact h.fail_outOfBounds hip _

theorem emit (h : m.Relocated f m') (hip : m'.ip = f m.ip) (b : UInt8) :
    (m.emit b).Relocated f (m'.emit b) := by
  unfold Machine.emit
  rw [h.output]
  split
  · rw [hip]
    exact h.fail (.output m.ip m.output.refusal)
  · exact ⟨h.dp, h.tape, h.input, rfl, h.fault⟩

theorem receive (h : m.Relocated f m') (hip : m'.ip = f m.ip) :
    m.receive.Relocated f m'.receive := by
  unfold Machine.receive
  rw [h.input]
  rcases m.input.readByte with ⟨result, rest⟩
  have hrest : Relocated f { m with input := rest } { m' with input := rest } :=
    ⟨h.dp, h.tape, rfl, h.output, h.fault⟩
  cases result with
  | byte b => exact hrest.update hip 0 fun _ => b
  | nothing => exact hrest
  | failed cause =>
    have hfail := hrest.fail (.input m.ip cause)
    rw [Fault.relocate, ← hip] at hfail
    exact hfail

theorem next (h : m.Relocated f m') : m.next.Relocated f m'.next :=
  h.congr ⟨_, _, rfl⟩ ⟨_, _, rfl⟩

theorem goto (h : m.Relocated f m') (i j : Nat) : (m.goto i).Relocated f (m'.goto j) :=
  h.congr ⟨_, _, rfl⟩ ⟨_, _, rfl⟩

theorem counted (h : m.Relocated f m') : m.counted.Relocated f m'.counted :=
  h.congr ⟨_, _, rfl⟩ ⟨_, _, rfl⟩

/-- The probe does not move the machine. -/
theorem ip_probe (hip : m'.ip = f m.ip) : m'.probe.ip = f m.probe.ip := by
  rw [(Prod.mk.inj (control_probe m)).1, (Prod.mk.inj (control_probe m')).1]
  exact hip

theorem perform_of_not_isJump (h : m.Relocated f m') (hip : m'.ip = f m.ip)
    (hjump : x.op.isJump = false) (size size' : Nat) :
    (m.perform size x).Relocated f (m'.perform size' x) := by
  unfold Machine.perform
  cases hop : x.op with
  | nop => exact h.next
  | move => exact ⟨congrArg (· + _) h.dp, h.tape, h.input, h.output, h.fault⟩
  | add => exact (h.update hip _ _).next
  | sub => exact (h.update hip _ _).next
  | set => exact (h.update hip _ _).next
  | print =>
    have hprobe := h.probe hip
    dsimp only
    rw [h.current, ← Option.not_isSome, ← Option.not_isSome, hprobe.isSome_fault]
    split
    · exact (hprobe.emit (ip_probe hip) _).next
    · exact hprobe.next
  | input => exact (h.receive hip).next
  | opens => rw [hop] at hjump; cases hjump
  | closes => rw [hop] at hjump; cases hjump

/-- Instructions that differ at most in where they jump to change nothing but the place in
different ways. -/
theorem perform {y : Instruction} (h : m.Relocated f m') (hip : m'.ip = f m.ip)
    (hop : y.op = x.op) (hsame : x.op.isJump = false → y = x) (size size' : Nat) :
    (m.perform size x).Relocated f (m'.perform size' y) := by
  have hprobe := h.probe hip
  cases hx : x.op with
  | opens kind =>
    rw [Machine.perform, Machine.perform, hop, hx]
    dsimp only
    rw [h.current]
    split
    · exact hprobe.goto _ _
    · cases kind with
      | tested => exact hprobe.next
      | counted => exact (hprobe.update (ip_probe hip) _ _).next
  | closes kind =>
    rw [Machine.perform, Machine.perform, hop, hx]
    dsimp only
    rw [h.current]
    split
    · exact hprobe.next
    · cases kind with
      | tested => exact hprobe.goto _ _
      | counted => exact hprobe.goto _ _
  | _ =>
    have hjump : x.op.isJump = false := by rw [hx]; rfl
    obtain rfl := hsame hjump
    exact h.perform_of_not_isJump hip hjump size size'

end Relocated

end Machine

end TapeCode
