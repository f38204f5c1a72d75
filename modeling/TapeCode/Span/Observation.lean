import TapeCode.Span.Displacement

/-!
# Whether a span looks at one cell

`Program.observes p start stop target` is false only if running the slots `start`, …, `stop - 1`
cannot depend on the value of the cell `target` away from the data pointer at the start. Printing,
reading over and testing a cell count as looking at it; whenever the walk loses track of the data
pointer, the answer is true.
-/

namespace TapeCode.Program

/-- Running the slots `start`, …, `stop - 1` may look at the cell `target` away from
the data pointer. -/
def observes (p : Program) (start stop : Nat) (target : Int64) : Bool :=
  if start < stop then
    match p[start]? with
    | none => true
    | some instr =>
      match instr.op with
      | .move _ => observes p (start + 1) stop (target - instr.amount)
      | .print | .input | .closes _ => target = 0 || observes p (start + 1) stop target
      | .opens kind =>
        match h : p.closeOf? start stop with
        | none => true
        | some close =>
          have := closeOf?_bounds h
          target = 0 || (kind = .tested && !p.isStationary (start + 1) close)
            || observes p (start + 1) close target || observes p (close + 1) stop target
      | _ => observes p (start + 1) stop target
  else false
termination_by stop - start

end TapeCode.Program
