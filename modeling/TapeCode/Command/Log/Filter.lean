import TapeCode.Command.Log.Directive

/-!
# The log filter

A filter says which log lines are shown. `LogFilter.ofSpec` reads it from directives with commas
between them, and `LogFilter.admits` decides about a line: of the directives that concern the line
one counts, and its threshold has to let the line through.
-/

namespace TapeCode

/-- The directives of a filter, in the order in which they are given. -/
structure LogFilter where
  directives : List Directive
  deriving DecidableEq, Repr

namespace LogFilter

/-- The filter when none is asked for: everything up to `info`. -/
def default : LogFilter := ⟨[{ threshold := .upTo .info }]⟩

/-- The one that counts of a directive given earlier, if there is one, and a later one. -/
def prevailing (earlier : Option Directive) (later : Directive) : Directive :=
  match earlier with
  | some directive => if directive.outranks later then directive else later
  | none => later

/-- The directive that counts for a line. -/
def decisive? (filter : LogFilter) (names : ComponentNames) (line : LogLine) : Option Directive :=
  (filter.directives.filter (·.concerns names line)).foldl
    (fun earlier later => some (prevailing earlier later)) none

/-- The filter lets a line through. -/
def admits (filter : LogFilter) (names : ComponentNames) (line : LogLine) : Bool :=
  (filter.decisive? names line).any (·.threshold.admits line.severity)

/-- The filter that a text specifies. Without a text, or with one that is not well formed, it is
the default. -/
def ofSpec (spec : Option String) : LogFilter :=
  match spec with
  | none => default
  | some text =>
    match ((text.splitOn ",").filter (· != "")).mapM Directive.ofItem? with
    | some directives => ⟨directives.flatten⟩
    | none => default

end LogFilter

end TapeCode
