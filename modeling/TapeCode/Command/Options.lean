import TapeCode.Command.Text
import TapeCode.Optimization
import TapeCode.Tape

/-!
# The options of the command line

`Options.ofArgs?` reads the arguments of the command, or refuses them. There is one positional
argument, the source; an option that takes a value takes it from behind an equals sign or from the
next argument; no option is given twice; after `--` every argument is positional.
-/

namespace TapeCode

/-- What the command is asked to do. -/
structure Options where
  /-- The path of the source. -/
  source : String
  /-- The path of the listing, if one is given. -/
  out : Option String := none
  level : Level := .default
  /-- Write a listing before the run. -/
  generate : Bool := false
  /-- Let the tape grow. -/
  growable : Bool := false
  /-- The number of cells of the tape at the start. -/
  memory : Nat := Tape.margin
  /-- The number of steps after which to give up, if there is one. -/
  maxSteps : Option Nat := none
  deriving DecidableEq, Repr

namespace Options

/-- The path of the listing: the one given, else that of the source with `.abf` added. -/
def listingPath (options : Options) : String :=
  options.out.getD (options.source ++ ".abf")

/-! ## Values -/

open Numeral (digits? count?)

/-- A level, written as 0, 1 or 2, perhaps with leading zeros and a sign that does not matter. -/
def level? (text : String) : Option Level :=
  let number := match text.toList with
    | '+' :: rest => digits? rest
    | '-' :: rest => (digits? rest).filter (· = 0)
    | cs => digits? cs
  match number with
  | some 0 => some .asRead
  | some 1 => some .minimal
  | some 2 => some .maximal
  | _ => none

/-- A path, which is not empty. -/
def path? (text : String) : Option String :=
  if text = "" then none else some text

/-! ## Arguments -/

/-- What the arguments read so far have set. -/
structure Draft where
  source : Option String := none
  out : Option String := none
  level : Option Level := none
  generate : Bool := false
  growable : Bool := false
  memory : Option Nat := none
  maxSteps : Option Nat := none
  deriving DecidableEq, Repr

namespace Draft

/-- Sets something that has not been set, to a value that could be read. -/
def once {α : Type} (old new : Option α) : Option (Option α) :=
  match old, new with
  | none, some value => some (some value)
  | _, _ => none

/-- Takes a positional argument. -/
def positional? (draft : Draft) (arg : String) : Option Draft := do
  return { draft with source := ← once draft.source (path? arg) }

/-- Takes an option without a value; none if there is no such option or it was given before. -/
def flag? (draft : Draft) (name : String) : Option Draft :=
  match name with
  | "--generate" => if draft.generate then none else some { draft with generate := true }
  | "--growable" => if draft.growable then none else some { draft with growable := true }
  | _ => none

/-- The option takes a value. -/
def takesValue (name : String) : Bool :=
  name ∈ ["--out", "--opt", "--memory", "--max-steps"]

/-- Takes an option with a value; none if there is no such option, it was given before, or the
value cannot be read. -/
def valued? (draft : Draft) (name value : String) : Option Draft := do
  match name with
  | "--out" => return { draft with out := ← once draft.out (path? value) }
  | "--opt" => return { draft with level := ← once draft.level (level? value) }
  | "--memory" => return { draft with memory := ← once draft.memory (count? value) }
  | "--max-steps" => return { draft with maxSteps := ← once draft.maxSteps (count? value) }
  | _ => none

/-- The argument is an option: it begins with a dash and is more than that. -/
def isOption (arg : String) : Bool :=
  arg.startsWith "-" && arg != "-"

/-- Takes all arguments in order. -/
def take? (draft : Draft) : List String → Option Draft
  | [] => some draft
  | arg :: rest =>
    if arg = "--" then rest.foldlM positional? draft
    else if !isOption arg then do (← draft.positional? arg).take? rest
    else match arg.splitOn "=" with
      | [] | [_] =>
        if takesValue arg then
          match rest with
          | value :: rest =>
            if isOption value then none else do (← draft.valued? arg value).take? rest
          | [] => none
        else do (← draft.flag? arg).take? rest
      | name :: parts => do (← draft.valued? name ("=".intercalate parts)).take? rest

end Draft

/-- The options that the arguments of the command give, if they are well formed. -/
def ofArgs? (args : List String) : Option Options := do
  let draft ← Draft.take? {} args
  return {
    source := ← draft.source
    out := draft.out
    level := draft.level.getD .default
    generate := draft.generate
    growable := draft.growable
    memory := draft.memory.getD Tape.margin
    maxSteps := draft.maxSteps }

end Options

end TapeCode
