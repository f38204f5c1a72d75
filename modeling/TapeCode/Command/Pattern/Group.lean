import TapeCode.Command.Pattern.Flags
import TapeCode.Command.Text

/-!
# Openings of groups

After an opening parenthesis come a name, flags or neither. `readOpening?` tells which; flags
without a group hold up to the end of the group around them.
-/

namespace TapeCode.Pattern

/-- What an opening parenthesis begins. -/
inductive Opening where
  /-- A group, with the flags that hold in it and its name if it has one. -/
  | group (flags : Flags) (name : Option (List Char))
  /-- No group, but the flags that hold from here on. -/
  | setting (flags : Flags)
  deriving DecidableEq, Repr

/-- A name begins with a letter or an underscore; dots, brackets and numbers may follow. -/
def isName : List Char → Bool
  | [] => false
  | c :: cs =>
    (c == '_' || isAlphabetic c) && cs.all fun c => c ∈ ['_', '.', '[', ']'] || isAlphanumeric c

/-- Reads a name that no group before has, and the sign behind it. -/
def readName? (names : List (List Char)) (cs : List Char) : Option (List Char × List Char) :=
  match cs.span (· != '>') with
  | (name, _ :: rest) => if isName name && name ∉ names then some (name, rest) else none
  | _ => none

/-- Reads flags and the sign behind them. -/
def readFlags? (flags : Flags) (cs : List Char) : Option (Opening × List Char) :=
  match cs.span fun c => c != ':' && c != ')' with
  | (written, ':' :: rest) => (flags.set? written).map fun flags => (.group flags none, rest)
  | (_ :: _, []) | ([], _) => none
  | (written, _ :: rest) => (flags.set? written).map fun flags => (.setting flags, rest)

/-- Reads what comes after an opening parenthesis, where some names are taken. -/
def readOpening? (flags : Flags) (names : List (List Char)) (cs : List Char) :
    Option (Opening × List Char) :=
  match flags.skip cs with
  | '?' :: 'P' :: '<' :: rest | '?' :: '<' :: rest =>
    (readName? names rest).map fun (name, rest) => (.group flags (some name), rest)
  | '?' :: rest => readFlags? flags rest
  | rest => some (.group flags none, rest)

end TapeCode.Pattern
