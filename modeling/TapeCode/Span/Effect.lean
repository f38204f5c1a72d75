import TapeCode.Span.Displacement

/-!
# What a span does to one cell

`Program.effect? p start stop target` is the effect of running the slots `start`, …, `stop - 1` on
the cell `target` away from the data pointer at the start, or `none` if it cannot be told. An
effect either adds an amount, whatever the cell held, or leaves a fixed value; effects compose by
`Effect.andThen`.

A loop on the very cell leaves zero in it, since loops end only at zero. A loop on another cell is
understood only if its body comes back to where it began and leaves the cell alone.
-/

namespace TapeCode

/-- The effect of a span on one cell. -/
inductive Effect where
  /-- The cell changes by this amount, modulo 256. -/
  | adds (amount : Int64)
  /-- The cell ends up with this value. -/
  | assigns (value : Cell)
  deriving DecidableEq, Repr

namespace Effect

/-- The effect of doing nothing. -/
def unchanged : Effect := adds 0

/-- One effect followed by another: amounts add up, and an assignment overrides
what was before. -/
def andThen : Effect → Effect → Effect
  | adds a, adds b => adds (a + b)
  | assigns v, adds b => assigns (v + Cell.ofAmount b)
  | _, assigns w => assigns w

end Effect

namespace Program

/-- The effect of the slots `index`, …, `stop - 1` on the cell `target` away from the data
pointer, after the effect `sofar`. -/
def effectFrom (p : Program) (stop index : Nat) (target : Int64) (sofar : Effect) :
    Option Effect :=
  if index < stop then
    match p[index]? with
    | none => none
    | some instr =>
      match instr.op with
      | .move _ => effectFrom p stop (index + 1) (target - instr.amount) sofar
      | .add _ | .sub _ =>
        let effect := if instr.offset = target then sofar.andThen (.adds instr.amount) else sofar
        effectFrom p stop (index + 1) target effect
      | .set _ =>
        let effect :=
          if instr.offset = target then sofar.andThen (.assigns instr.value) else sofar
        effectFrom p stop (index + 1) target effect
      | .input => if target = 0 then none else effectFrom p stop (index + 1) target sofar
      | .opens kind =>
        match h : p.closeOf? index stop with
        | none => none
        | some close =>
          have := closeOf?_bounds h
          if kind = .counted ∨ p.isStationary (index + 1) close then
            if target = 0 then
              effectFrom p stop (close + 1) target (sofar.andThen (.assigns 0))
            else if effectFrom p close (index + 1) target .unchanged = some .unchanged then
              effectFrom p stop (close + 1) target sofar
            else none
          else none
      | _ => effectFrom p stop (index + 1) target sofar
  else some sofar
termination_by stop - index

/-- The effect of running the slots `start`, …, `stop - 1` on the cell `target` away from the data
pointer at the start, if it can be told. -/
def effect? (p : Program) (start stop : Nat) (target : Int64) : Option Effect :=
  p.effectFrom stop start target .unchanged

/-- Running the slots `start`, …, `stop - 1` leaves the data pointer where it was, and the cell
under it as it was. -/
def isInert (p : Program) (start stop : Nat) : Bool :=
  p.isStationary start stop && p.effect? start stop 0 = some .unchanged

end Program

end TapeCode
