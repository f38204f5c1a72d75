import TapeCode.Command.Log.Severity

/-!
# Log lines

A log line tells what happened in one component of the program: a message and perhaps some named
values. `LogLine.text` is the line as it is shown, in which the control characters of the message
that start or end a terminal's control sequences are replaced by their codes.
-/

namespace TapeCode

/-- The components of the program that have something to log. -/
inductive Component where
  /-- The command as a whole. -/
  | command
  /-- The reading of a source. -/
  | source
  /-- The sweeps and their rules. -/
  | optimization
  /-- The compaction after a sweep. -/
  | compaction
  /-- The machine. -/
  | machine
  deriving DecidableEq, Repr

/-- The names under which the components are known to the user. -/
structure ComponentNames where
  command : String := "tapecode"
  source : String := "tapecode.source"
  optimization : String := "tapecode.optimization"
  compaction : String := "tapecode.compaction"
  machine : String := "tapecode.machine"
  deriving DecidableEq, Repr

/-- The name of a component. -/
def ComponentNames.name (names : ComponentNames) : Component → String
  | .command => names.command
  | .source => names.source
  | .optimization => names.optimization
  | .compaction => names.compaction
  | .machine => names.machine

/-- A line of the log. -/
structure LogLine where
  severity : Severity
  component : Component
  message : String
  /-- The named values, in the order in which they are shown. -/
  values : List (String × String) := []
  deriving DecidableEq, Repr

namespace LogLine

/-- The fields of a line are its message and its named values. -/
def hasField (line : LogLine) (name : String) : Bool :=
  name == "message" || line.values.any (·.1 == name)

/-! ## The shown form -/

/-- The code point of a character in hexadecimal digits, at least two. -/
def hexCode (c : Char) : String :=
  let digits := String.ofList (Nat.toDigits 16 c.toNat)
  if c.toNat < 16 then "0" ++ digits else digits

/-- A character of a message as it is shown: bell, backspace, form feed, escape, delete and the
control characters from U+0080 on are replaced by their codes. -/
def shownChar (c : Char) : String :=
  if c ∈ ['\x07', '\x08', '\x0c', '\x1b', '\x7f'] then "\\x" ++ hexCode c
  else if 0x80 ≤ c.toNat && c.toNat ≤ 0x9f then "\\u\x7b" ++ hexCode c ++ "\x7d"
  else c.toString

/-- A message as it is shown. -/
def shownMessage (message : String) : String :=
  String.join (message.toList.map shownChar)

/-- A named value as it is shown, behind what comes before it. -/
def shownValue (value : String × String) : String :=
  " " ++ value.1 ++ "=" ++ value.2

/-- A log line as it is shown. -/
def text (line : LogLine) : String :=
  line.severity.word ++ " " ++ shownMessage line.message
    ++ String.join (line.values.map shownValue)

end LogLine

end TapeCode
