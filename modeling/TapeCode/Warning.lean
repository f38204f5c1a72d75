/-!
# Warnings

A warning is a message for the user, perhaps with the range of source bytes that it concerns.
`Warning.plain` and `Warning.colored` are its two printed forms.
-/

namespace TapeCode

/-- A range of byte offsets in a source, both ends included. -/
structure ByteRange where
  first : Nat
  last : Nat
  deriving DecidableEq, Repr

/-- The range of one byte. -/
def ByteRange.single (offset : Nat) : ByteRange :=
  ⟨offset, offset⟩

/-- The text of a range: one number for a single byte, else both ends with a dash between. -/
def ByteRange.text (range : ByteRange) : String :=
  if range.first = range.last then toString range.first
  else toString range.first ++ "-" ++ toString range.last

/-- A message to the user. -/
structure Warning where
  message : String
  position : Option ByteRange := none
  deriving DecidableEq, Repr

namespace Warning

/-- What follows the word "warning" in both printed forms. -/
def details (warning : Warning) : String :=
  match warning.position with
  | none => ": " ++ warning.message
  | some range => " (byte " ++ range.text ++ "): " ++ warning.message

/-- The warning as printed on a terminal without colours. -/
def plain (warning : Warning) : String :=
  "warning" ++ warning.details

/-- The warning as printed in colour: its first word is bold yellow. -/
def colored (warning : Warning) : String :=
  "\x1b[1;33mwarning\x1b[0m" ++ warning.details

end Warning

end TapeCode
