import TapeCode.Command.Pattern.Brackets
import TapeCode.Command.Pattern.Group

/-!
# Patterns

A pattern is a regular expression: characters, classes, groups, alternatives with `|` between
them, and repetitions with `?`, `*` or `+`. Patterns are written inside braces, so that none holds
a closing brace and nothing that needs one is a pattern.

`Pattern.isSupported` tells whether a text is a pattern that can be matched: no part needs a table
of letters, none matches less than a whole character, and none is nested too deep.
-/

namespace TapeCode.Pattern

/-- How deep the parts of a pattern may be nested. -/
def nestingLimit : Nat := 250

/-- What is remembered of a part of a pattern. -/
structure Part where
  /-- How deep its parts are nested. -/
  height : Nat
  /-- A repetition may follow. -/
  repeatable : Bool := true
  deriving DecidableEq, Repr

/-- The alternatives of a group. -/
structure Branches where
  /-- The parts of the last alternative, last first. -/
  parts : List Part := []
  /-- The nesting of the alternatives before it. -/
  finished : List Nat := []
  deriving DecidableEq, Repr

namespace Branches

/-- Adds a part. -/
def add (branches : Branches) (part : Part) : Branches :=
  { branches with parts := part :: branches.parts }

/-- Begins another alternative. -/
def split (branches : Branches) : Branches :=
  { finished := heightOf (branches.parts.map (·.height)) :: branches.finished }

/-- How deep the alternatives are nested. -/
def height (branches : Branches) : Nat :=
  heightOf branches.split.finished

/-- Repeats the last part, if there is one that can be repeated. -/
def repeat? (branches : Branches) : Option Branches :=
  match branches.parts with
  | part :: parts =>
    if part.repeatable then some { branches with parts := { height := part.height + 1 } :: parts }
    else none
  | [] => none

end Branches

/-- What has been read of a pattern. -/
structure Reader where
  flags : Flags := {}
  /-- The alternatives of the innermost open group. -/
  branches : Branches := {}
  /-- The alternatives of the groups around it, with the flags that hold there. -/
  outer : List (Flags × Branches) := []
  /-- The names of groups. -/
  names : List (List Char) := []
  deriving DecidableEq, Repr

namespace Reader

/-- Adds a part to the innermost group. -/
def add (reader : Reader) (part : Part) : Reader :=
  { reader with branches := reader.branches.add part }

/-- Begins a group, or changes the flags. -/
def enter (reader : Reader) : Opening → Reader
  | .group flags name =>
    { flags
      outer := (reader.flags, reader.branches) :: reader.outer
      names := name.toList ++ reader.names }
  | .setting flags => { reader.add { height := 0, repeatable := false } with flags }

/-- Ends the innermost group, if there is one. -/
def leave? (reader : Reader) : Option Reader :=
  match reader.outer with
  | [] => none
  | (flags, branches) :: outer =>
    some { reader with
      flags, outer, branches := branches.add { height := reader.branches.height + 1 } }

/-- Reads the part that begins with a given character. -/
def step? (reader : Reader) (c : Char) (rest : List Char) : Option (Reader × List Char) := do
  match c with
  | '(' =>
    let (opening, rest) ← readOpening? reader.flags reader.names rest
    return (reader.enter opening, rest)
  | ')' => return (← reader.leave?, rest)
  | '|' => return ({ reader with branches := reader.branches.split }, rest)
  | '[' =>
    let (height, rest) ← readBrackets? reader.flags rest
    return (reader.add { height }, rest)
  | '?' | '*' | '+' =>
    let branches ← reader.branches.repeat?
    let rest := match rest with
      | '?' :: rest => rest
      | rest => rest
    return ({ reader with branches }, rest)
  | '\x7b' => none
  | c =>
    let (atom, rest) ← Atom.read? reader.flags (c :: rest)
    if atom.isSupported reader.flags then return (reader.add { height := 0 }, rest) else none

/-- Reads the rest of a pattern. Every step takes something away from the text. -/
def read? (reader : Reader) (cs : List Char) : Option Reader :=
  match reader.flags.skip cs with
  | [] => some reader
  | c :: rest =>
    match reader.step? c rest with
    | none => none
    | some (reader, rest) => if rest.length < cs.length then reader.read? rest else none
termination_by cs.length

end Reader

/-- The text is a pattern that can be matched. -/
def isSupported (text : List Char) : Bool :=
  match Reader.read? {} text with
  | none => false
  | some reader => reader.outer.isEmpty && reader.branches.height ≤ nestingLimit

end TapeCode.Pattern
