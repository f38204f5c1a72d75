import TapeCode.Compaction
import TapeCode.Sweep

/-!
# Optimization

Optimizing alternates sweeps and compactions until a sweep finds nothing to do. Every firing
lowers the live count and compaction keeps it, so this ends. The outcome keeps a record of every
pass, from which `Optimized.warnings` reads what the user is told.
-/

namespace TapeCode

/-- How hard to optimize. -/
inductive Level where
  /-- Keep the program as it was read. -/
  | asRead
  /-- Apply the rules until none applies. -/
  | minimal
  /-- As `minimal`, with room for more. -/
  | maximal
  deriving DecidableEq, Repr

/-- The level when none is asked for. -/
def Level.default : Level := asRead

/-- What happened in one pass: a sweep and the compaction after it. -/
structure Pass where
  firings : Array Firing
  broken : List Program.BrokenLink
  /-- The size of the program after the compaction. -/
  size : Nat
  deriving DecidableEq, Repr

/-- An optimized program, with the record of the passes that led to it. -/
structure Optimized where
  program : Program
  passes : Array Pass
  deriving DecidableEq, Repr

/-- What the user is told after an optimization: the broken links of all passes in order. -/
def Optimized.warnings (optimized : Optimized) : List Warning :=
  optimized.passes.toList.flatMap fun pass => pass.broken.map (·.warning)

namespace Program

/-- Runs passes until one has no firing, and appends their records to `passes`. -/
def optimizeFrom (p : Program) (passes : Array Pass) : Optimized :=
  let swept := p.sweep
  let compacted := swept.program.compact
  let passes := passes.push ⟨swept.firings, compacted.broken, compacted.program.size⟩
  if swept.firings.size = 0 then ⟨compacted.program, passes⟩
  else optimizeFrom compacted.program passes
termination_by p.liveCount
decreasing_by
  have := p.sweep_liveCount
  have : swept.firings.size = p.sweep.firings.size := rfl
  rw [liveCount_compact]
  omega

/-- The program optimized at a level. -/
def optimize (p : Program) (level : Level) : Optimized :=
  match level with
  | .asRead => ⟨p, #[]⟩
  | .minimal | .maximal => p.optimizeFrom #[]

end Program

end TapeCode
