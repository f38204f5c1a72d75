import TapeCode.Window.Aside
import TapeCode.Window.Loop

/-!
# The rules of the optimizer

A rule looks at the window of a program that starts at one index and, if it knows a denser form,
proposes an edit. `Rule.all` lists the eight rules in the order in which they are tried, and
`Rule.liveCount_apply_lt` states that every proposed edit lowers the number of live instructions.
-/

namespace TapeCode

/-- The rules of the optimizer. -/
inductive Rule where
  /-- Adjacent inverse instructions cancel, adjacent equal aggregatable ones merge. -/
  | inverseFold
  /-- A loop that only counts its cell to zero becomes an assignment. -/
  | constantSet
  /-- Arithmetic between a motion and its way back becomes arithmetic aside. -/
  | offsetArithmetic
  /-- An assignment between a motion and its way back becomes an assignment aside. -/
  | offsetSet
  /-- Of consecutive assignments to one cell only the last remains. -/
  | mergeSets
  /-- A loop right after its cell is set to zero vanishes. -/
  | unreachableLoop
  /-- Arithmetic on a cell that was just assigned goes into the assignment. -/
  | foldIntoSet
  /-- A loop that counts its cell down by one a round becomes a counted loop. -/
  | safeWhile
  deriving DecidableEq, Repr

namespace Rule

/-- All rules, in the order in which they are tried. -/
def all : List Rule :=
  [inverseFold, constantSet, offsetArithmetic, offsetSet, mergeSets, unreachableLoop, foldIntoSet,
    safeWhile]

/-- The name of a rule. -/
def name : Rule → String
  | inverseFold => "InverseFold"
  | constantSet => "ConstantSet"
  | offsetArithmetic => "OffsetArithmetic"
  | offsetSet => "OffsetSet"
  | mergeSets => "MergeSets"
  | unreachableLoop => "UnreachableLoop"
  | foldIntoSet => "FoldIntoSet"
  | safeWhile => "SafeWhile"

/-- The rule of a given name. -/
def ofName? (name : String) : Option Rule :=
  all.find? (·.name == name)

/-! ## Trying a rule -/

/-- The edit that a rule proposes for the window at `i`, if it applies there. -/
def edit? (rule : Rule) (p : Program) (i : Nat) : Option Edit :=
  match rule with
  | inverseFold => Window.inverseFold? p i
  | constantSet => Window.constantSet? p i
  | offsetArithmetic => Window.offsetArithmetic? p i
  | offsetSet => Window.offsetSet? p i
  | mergeSets => Window.mergeSets? p i
  | unreachableLoop => Window.unreachableLoop? p i
  | foldIntoSet => Window.foldIntoSet? p i
  | safeWhile => Window.safeWhile? p i

/-- The program after a rule has been applied at `i`, if the rule applies there. -/
def applyAt? (rule : Rule) (p : Program) (i : Nat) : Option Program :=
  (rule.edit? p i).map (·.apply p)

/-- The first rule that applies at `i`, with its edit. -/
def first? (p : Program) (i : Nat) : Option (Rule × Edit) :=
  all.findSome? fun rule => (rule.edit? p i).map (rule, ·)

/-- Every edit that a rule proposes lowers the live count. -/
theorem liveCount_apply_lt {rule : Rule} {p : Program} {i : Nat} {edit : Edit}
    (h : rule.edit? p i = some edit) : (edit.apply p).liveCount < p.liveCount := by
  cases rule with
  | inverseFold => exact Window.liveCount_lt_of_inverseFold? h
  | constantSet => exact Window.liveCount_lt_of_constantSet? h
  | offsetArithmetic => exact Window.liveCount_lt_of_offsetArithmetic? h
  | offsetSet => exact Window.liveCount_lt_of_offsetSet? h
  | mergeSets => exact Window.liveCount_lt_of_mergeSets? h
  | unreachableLoop => exact Window.liveCount_lt_of_unreachableLoop? h
  | foldIntoSet => exact Window.liveCount_lt_of_foldIntoSet? h
  | safeWhile => exact Window.liveCount_lt_of_safeWhile? h

end Rule

end TapeCode
