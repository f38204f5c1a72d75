import TapeCode.Command.Pattern.Atom

/-!
# Classes in brackets

A class in brackets is made of characters, ranges, named classes and further classes in brackets,
with the operators `&&`, `--` and `~~` between them. `readBrackets?` reads one, up to its closing
bracket, if it can be matched; the answer is how deep its parts are nested.
-/

namespace TapeCode.Pattern

/-- How deep parts are nested that stand side by side: a single part is not nested any deeper. -/
def heightOf : List Nat → Nat
  | [] => 0
  | [height] => height
  | heights => heights.foldl max 0 + 1

/-- The names of the named classes. -/
def classNames : List String :=
  ["alnum", "alpha", "ascii", "blank", "cntrl", "digit", "graph", "lower", "print", "punct",
    "space", "upper", "word", "xdigit"]

/-- Reads a named class without its opening bracket, as in `:alpha:]` or `:^alpha:]`; the answer
tells whether it is negated. -/
def readNamed? (cs : List Char) : Option (Bool × List Char) :=
  match cs with
  | ':' :: rest =>
    let (negated, rest) := match rest with
      | '^' :: rest => (true, rest)
      | rest => (false, rest)
    match rest.span (· != ':') with
    | (name, ':' :: ']' :: rest) =>
      if String.ofList name ∈ classNames then some (negated, rest) else none
    | _ => none
  | _ => none

/-- A class in brackets under construction. -/
structure OpenClass where
  /-- The nesting of the items since the last operator, last first. -/
  items : List Nat := []
  /-- The nesting of what stands before the last operator. -/
  left : Option Nat := none
  /-- There is nothing yet but dashes, which stand for themselves. -/
  fresh : Bool := true
  deriving DecidableEq, Repr

namespace OpenClass

/-- Adds an item that is nested to some depth. -/
def add (opened : OpenClass) (height : Nat) : OpenClass :=
  { opened with items := height :: opened.items, fresh := false }

/-- Adds a dash at the beginning. -/
def addDash (opened : OpenClass) : OpenClass :=
  { opened with items := 0 :: opened.items }

/-- How deep the parts of the class are nested. -/
def height (opened : OpenClass) : Nat :=
  match opened.left with
  | none => heightOf opened.items
  | some left => max left (heightOf opened.items) + 1

/-- Adds an operator. -/
def addOperator (opened : OpenClass) : OpenClass :=
  { left := some opened.height, fresh := false }

end OpenClass

/-- A character that stands for itself can be matched. -/
def admitsLiteral (flags : Flags) : Bool :=
  (Atom.literal '-' false).isSupportedInBrackets flags

/-- A named class can be matched. -/
def admitsNamed (flags : Flags) (negated : Bool) : Bool :=
  if flags.unicode then !flags.ignoreCase else !negated

/-- Reads a character, a range or a class with a short name. -/
def readRange? (flags : Flags) (cs : List Char) : Option (List Char) := do
  let (first, rest) ← Atom.readInBrackets? flags cs
  if !first.isSupportedInBrackets flags then none
  else match flags.skip rest with
    | '-' :: after =>
      if flags.peek? after ∈ [some ']', some '-'] then some ('-' :: after)
      else do
        let (last, rest) ← Atom.readInBrackets? flags (flags.skip after)
        match first, last with
        | .literal low _, .literal high _ =>
          if last.isSupportedInBrackets flags && low ≤ high then some rest else none
        | _, _ => none
    | rest => some rest

/-- Reads the beginning of a class, after its opening bracket. A negated class of bytes holds
bytes that are no whole characters. -/
def readOpen? (flags : Flags) (cs : List Char) : Option (List Char) :=
  match flags.skip cs with
  | '^' :: rest => if flags.unicode then some rest else none
  | rest => some rest

/-- What has been read of a class, with the classes around it. -/
structure BracketReader where
  opened : OpenClass := {}
  outer : List OpenClass := []
  deriving DecidableEq, Repr

/-- What reading on in a class leads to. -/
inductive BracketStep where
  /-- There is more to read. -/
  | more (reader : BracketReader) (rest : List Char)
  /-- The outermost class is closed. -/
  | closed (height : Nat) (rest : List Char)

/-- Reads the next part of a class. -/
def BracketReader.step? (flags : Flags) (reader : BracketReader) (cs : List Char) :
    Option BracketStep :=
  let { opened, outer } := reader
  match flags.skip cs with
  | [] => none
  | '-' :: rest =>
    if opened.fresh then
      if admitsLiteral flags then some (.more ⟨opened.addDash, outer⟩ rest) else none
    else match rest with
      | '-' :: rest => some (.more ⟨opened.addOperator, outer⟩ rest)
      | _ => do return .more ⟨opened.add 0, outer⟩ (← readRange? flags ('-' :: rest))
  | ']' :: rest =>
    if opened.fresh && opened.items.isEmpty then
      if admitsLiteral flags then some (.more ⟨opened.add 0, outer⟩ rest) else none
    else match outer with
      | [] => some (.closed (opened.height + 1) rest)
      | enclosing :: outer => some (.more ⟨enclosing.add (opened.height + 1), outer⟩ rest)
  | '[' :: rest =>
    match readNamed? rest with
    | some (negated, rest) =>
      if admitsNamed flags negated then some (.more ⟨opened.add 0, outer⟩ rest) else none
    | none => do
      let rest ← readOpen? flags rest
      return .more ⟨{}, { opened with fresh := false } :: outer⟩ rest
  | '&' :: '&' :: rest | '~' :: '~' :: rest => some (.more ⟨opened.addOperator, outer⟩ rest)
  | rest => do return .more ⟨opened.add 0, outer⟩ (← readRange? flags rest)

/-- Reads the rest of a class. Every step takes something away from the text. -/
def BracketReader.read? (flags : Flags) (reader : BracketReader) (cs : List Char) :
    Option (Nat × List Char) :=
  match reader.step? flags cs with
  | none => none
  | some (.closed height rest) => some (height, rest)
  | some (.more reader rest) =>
    if rest.length < cs.length then reader.read? flags rest else none
termination_by cs.length

/-- Reads a class after its opening bracket. -/
def readBrackets? (flags : Flags) (cs : List Char) : Option (Nat × List Char) := do
  BracketReader.read? flags {} (← readOpen? flags cs)

end TapeCode.Pattern
