import TapeCode.Command.Text

/-!
# Severities and thresholds

Every log line has a severity. A threshold says which severities are shown: those at least as
severe as a given one, or none. `Threshold.ofText?` reads a threshold from its word or its number.
-/

namespace TapeCode

/-- How severe a log line is. -/
inductive Severity where
  | error
  | warn
  | info
  | debug
  | trace
  deriving DecidableEq, Repr

namespace Severity

/-- The word for a severity at the start of a log line. -/
def word : Severity → String
  | error => "ERROR"
  | warn => "WARN"
  | info => "INFO"
  | debug => "DEBUG"
  | trace => "TRACE"

/-- The place of a severity: one for the most severe. -/
def rank : Severity → Nat
  | error => 1
  | warn => 2
  | info => 3
  | debug => 4
  | trace => 5

end Severity

/-- Which severities are shown. -/
inductive Threshold where
  /-- None. -/
  | off
  /-- Those that are at least as severe as the given one. -/
  | upTo (least : Severity)
  deriving DecidableEq, Repr

namespace Threshold

/-- The threshold lets a severity through. -/
def admits : Threshold → Severity → Bool
  | off, _ => false
  | upTo least, severity => severity.rank ≤ least.rank

/-- The word for a threshold. -/
def word : Threshold → String
  | off => "OFF"
  | upTo least => least.word

/-- The thresholds in the order of their numbers, from zero on. -/
def all : List Threshold :=
  [off, upTo .error, upTo .warn, upTo .info, upTo .debug, upTo .trace]

/-- The threshold with a given number, or with a given word in upper or lower case. -/
def ofText? (text : String) : Option Threshold :=
  match Numeral.count? text with
  | some number => all[number]?
  | none => all.find? (·.word == text.map Char.toUpper)

end Threshold

end TapeCode
