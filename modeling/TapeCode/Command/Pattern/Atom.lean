import TapeCode.Command.Pattern.Flags

/-!
# Atoms of a pattern

An atom is the smallest part of a pattern: a character, a class with a short name, or a condition
on a place. `Atom.read?` reads one, and `Atom.isSupported` tells whether it can be matched: that
takes no table of letters, and it never matches a part of a character.
-/

namespace TapeCode.Pattern

/-- The smallest parts of a pattern. -/
inductive Atom where
  /-- A character, perhaps written as a byte with two hexadecimal digits. -/
  | literal (c : Char) (asByte : Bool)
  /-- Digits, blanks or letters by a short name, or all but those. -/
  | class (negated : Bool)
  /-- The beginning or the end of a text or a line. -/
  | edge
  /-- The beginning or the end of a word, or no such place. -/
  | boundary
  /-- Any character. -/
  | dot
  deriving DecidableEq, Repr

namespace Atom

/-- The code point belongs to ASCII. -/
def isAscii (c : Char) : Bool :=
  c.toNat < 0x80

/-- An atom outside brackets that can be matched. Whatever depends on the case or the
kind of a character needs a table, unless it is about bytes; and a byte beyond ASCII is
no whole character. -/
def isSupported (flags : Flags) : Atom → Bool
  | literal c asByte => if flags.unicode then !flags.ignoreCase else !asByte || isAscii c
  | .class negated => !flags.unicode && !negated
  | edge => true
  | boundary => !flags.unicode
  | dot => flags.unicode

/-- An atom inside brackets that can be matched. A class of bytes holds only ASCII. -/
def isSupportedInBrackets (flags : Flags) : Atom → Bool
  | literal c _ => if flags.unicode then !flags.ignoreCase else isAscii c
  | .class negated => !flags.unicode && !negated
  | edge | boundary | dot => false

/-! ## Reading -/

/-- The value of a hexadecimal digit. -/
def hexDigit? (c : Char) : Option Nat :=
  if c.isDigit then some (c.toNat - '0'.toNat)
  else if 'a' ≤ c && c ≤ 'f' then some (c.toNat - 'a'.toNat + 10)
  else if 'A' ≤ c && c ≤ 'F' then some (c.toNat - 'A'.toNat + 10)
  else none

/-- Reads a given number of hexadecimal digits, which continue a value. -/
def readHex? (flags : Flags) : Nat → Nat → List Char → Option (Nat × List Char)
  | 0, value, cs => some (value, cs)
  | count + 1, value, cs =>
    match flags.skip cs with
    | [] => none
    | c :: rest => do readHex? flags count (value * 16 + (← hexDigit? c)) rest

/-- Reads the code of a character with a given number of hexadecimal digits. -/
def readCode? (flags : Flags) (count : Nat) (cs : List Char) : Option (Atom × List Char) := do
  let (value, rest) ← readHex? flags count 0 cs
  if value.isValidChar then some (literal (Char.ofNat value) (count == 2), rest) else none

/-- The control characters that have a letter. -/
def control? : Char → Option Char
  | 'a' => some '\x07'
  | 'f' => some '\x0c'
  | 't' => some '\t'
  | 'n' => some '\n'
  | 'r' => some '\r'
  | 'v' => some '\x0b'
  | _ => none

/-- Reads what comes after a backslash. Signs of ASCII stand for themselves; letters have a
meaning or are refused, and so are digits. -/
def readEscape? (flags : Flags) : List Char → Option (Atom × List Char)
  | [] => none
  | c :: rest =>
    if c = 'x' then readCode? flags 2 rest
    else if c = 'u' then readCode? flags 4 rest
    else if c = 'U' then readCode? flags 8 rest
    else if c ∈ ['d', 's', 'w'] then some (.class false, rest)
    else if c ∈ ['D', 'S', 'W'] then some (.class true, rest)
    else if c ∈ ['A', 'z'] then some (edge, rest)
    else if c ∈ ['b', 'B', '<', '>'] then some (boundary, rest)
    else match control? c with
      | some control => some (literal control false, rest)
      | none => if isAscii c && !c.isAlphanum then some (literal c false, rest) else none

/-- Reads an atom outside brackets. -/
def read? (flags : Flags) : List Char → Option (Atom × List Char)
  | [] => none
  | '\\' :: rest => readEscape? flags rest
  | '.' :: rest => some (dot, rest)
  | '^' :: rest | '$' :: rest => some (edge, rest)
  | c :: rest => some (literal c false, rest)

/-- Reads an atom inside brackets, where only the backslash is special. -/
def readInBrackets? (flags : Flags) : List Char → Option (Atom × List Char)
  | [] => none
  | '\\' :: rest => readEscape? flags rest
  | c :: rest => some (literal c false, rest)

end Atom

end TapeCode.Pattern
