import TapeCode.Link

/-!
# How far a span moves the data pointer

`Program.displacement? p start stop` is the distance that running the slots `start`, …, `stop - 1`
moves the data pointer, or `none` if it cannot be told. Motions add up. A tested loop counts for
nothing if its body comes back to where it began, and makes the answer unknown otherwise, since
the distance would depend on the number of rounds; a counted loop always comes back. A loop whose
other end is not linked inside the span makes the answer unknown too, as does a span that reaches
past the end of the program.
-/

namespace TapeCode.Program

/-- The displacement of the slots `index`, …, `stop - 1`, added to the distance `moved` so far. -/
def displacementFrom (p : Program) (stop index : Nat) (moved : Int64) : Option Int64 :=
  if index < stop then
    match p[index]? with
    | none => none
    | some instr =>
      match instr.op with
      | .move _ => displacementFrom p stop (index + 1) (moved + instr.amount)
      | .opens kind =>
        match h : p.closeOf? index stop with
        | none => none
        | some close =>
          have := closeOf?_bounds h
          if kind = .counted ∨ displacementFrom p close (index + 1) 0 = some 0 then
            displacementFrom p stop (close + 1) moved
          else none
      | _ => displacementFrom p stop (index + 1) moved
  else some moved
termination_by stop - index

/-- How far running the slots `start`, …, `stop - 1` moves the data pointer, if that
can be told. -/
def displacement? (p : Program) (start stop : Nat) : Option Int64 :=
  p.displacementFrom stop start 0

/-- Running the slots `start`, …, `stop - 1` leaves the data pointer where it was. -/
def isStationary (p : Program) (start stop : Nat) : Bool :=
  p.displacement? start stop = some 0

end TapeCode.Program
