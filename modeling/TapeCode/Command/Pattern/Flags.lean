import TapeCode.Command.Text

/-!
# Flags of a pattern

Flags say how a stretch of a pattern is read. `Flags.set?` changes them as a list of letters asks
for, and `Flags.skip` passes over what does not count.
-/

namespace TapeCode.Pattern

/-- How a stretch of a pattern is read. -/
structure Flags where
  /-- Letters stand for both their cases. -/
  ignoreCase : Bool := false
  /-- The pattern is about characters, not about bytes. -/
  unicode : Bool := true
  /-- Blanks do not count, and neither does what stands between a `#` and the end of its line. -/
  spaced : Bool := false
  deriving DecidableEq, Repr

namespace Flags

/-- The letters of the flags, and the dash before those that are taken back. -/
def letters : List Char :=
  ['i', 'm', 's', 'U', 'u', 'R', 'x', '-']

/-- The value of a flag after letters, of which those from the dash on take flags back. -/
def valueAfter (written : List Char) (letter : Char) (value : Bool) : Bool :=
  if letter ∈ written.takeWhile (· != '-') then true
  else if letter ∈ written then false
  else value

/-- The flags after letters that are known and different and do not end in the dash. -/
def set? (flags : Flags) (written : List Char) : Option Flags :=
  if written.all (· ∈ letters) && written.eraseDups == written &&
    written.getLast? != some '-' then
    some {
      ignoreCase := valueAfter written 'i' flags.ignoreCase
      unicode := valueAfter written 'u' flags.unicode
      spaced := valueAfter written 'x' flags.spaced }
  else none

/-- What comes after the blanks and comments at the beginning of a text, or after the rest
of a comment. -/
def afterSpace (inComment : Bool) : List Char → List Char
  | [] => []
  | c :: cs =>
    if inComment then afterSpace (c != '\n') cs
    else if isBlank c then afterSpace false cs
    else if c = '#' then afterSpace true cs
    else c :: cs

/-- What comes after the characters at the beginning of a text that do not count. -/
def skip (flags : Flags) (cs : List Char) : List Char :=
  if flags.spaced then afterSpace false cs else cs

/-- The character that decides whether a dash inside brackets stands between two characters: the
next one that is not blank, also if it is in a comment. -/
def peek? (flags : Flags) (cs : List Char) : Option Char :=
  if flags.spaced then
    match cs.dropWhile isBlank with
    | '#' :: comment => (comment.dropWhile isBlank).head?.or cs.head?
    | c :: _ => some c
    | [] => cs.head?
  else cs.head?

end Flags

end TapeCode.Pattern
