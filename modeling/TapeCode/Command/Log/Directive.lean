import TapeCode.Command.Log.Line
import TapeCode.Command.Pattern

/-!
# Directives of a log filter

A directive sets the threshold for some of the log lines: those of the components whose name
begins in a given way, perhaps only those that have a given field. It is written as an item of one
of the forms

* `level`, for all lines;
* `target` or `target=level`, for the components whose name begins with `target`;
* `target[context{field}]=level`, where every part but the brackets may be missing.

A level is the word or the number of a threshold. Without one, everything is shown. A context is a
named stretch of the run that lines may belong to, and `field=value` in the place of a field asks
for the value that such a context has: a number, or a text that a pattern describes. No line of
this log belongs to a context.

`Directive.ofItem?` reads an item, and `Directive.outranks` tells which of two directives about
the same line counts.
-/

namespace TapeCode

/-- A threshold for some of the log lines. -/
structure Directive where
  /-- The lines concerned are those of the components whose name begins like this. -/
  target : String := ""
  /-- The lines concerned have this field, if one is given. -/
  field : Option String := none
  threshold : Threshold
  deriving DecidableEq, Repr

namespace Directive

/-- The directive concerns a line. -/
def concerns (directive : Directive) (names : ComponentNames) (line : LogLine) : Bool :=
  directive.target.toList.isPrefixOf (names.name line.component).toList
    && directive.field.all line.hasField

/-- Of two directives about the same line the one with the longer target counts, then the one that
asks for a field, then the one whose field comes later in the alphabet. -/
def outranks (directive other : Directive) : Bool :=
  other.target.length < directive.target.length ||
    (directive.target.length == other.target.length &&
      match directive.field, other.field with
      | some field, some otherField => otherField < field
      | some _, none => true
      | none, _ => false)

/-! ## Places

The marks of an item, which separate its parts, are looked for in the item without the blanks
around it. Its parts are cut from the item as it is written, at the same distance from the
beginning. So blanks behind an item belong to its last part, and blanks before it push every part
towards the beginning. -/

/-- A place in an item. -/
structure Place where
  /-- The character in which a mark may be found; none behind the end. -/
  mark : Option Char
  /-- The character that a part has here. -/
  char : Char
  deriving DecidableEq, Repr

/-- A text without the blanks around it. -/
def trimBlanks (text : List Char) : List Char :=
  ((text.dropWhile isBlank).reverse.dropWhile isBlank).reverse

/-- The places of an item. -/
def placesOf (text : List Char) : List Place :=
  let marks := (trimBlanks text).map some
  (marks ++ List.replicate (text.length - marks.length) none).zipWith Place.mk text

/-- The places before the first of some marks, and the others. -/
def splitAtMark (marks : List Char) (places : List Place) : List Place × List Place :=
  places.span fun place => place.mark.all (· ∉ marks)

/-- The text of a part. -/
def textOf (places : List Place) : List Char :=
  places.map (·.char)

/-! ## Reading -/

/-- The part of an item in brackets. -/
structure Scope where
  context : List Char
  field : Option (List Char)
  deriving DecidableEq, Repr

/-- The parts of an item. -/
structure Item where
  target : List Char
  scope : Option Scope
  level : Option (List Char)
  deriving DecidableEq, Repr

/-- A target begins with a letter, a number, a dash, a colon or an underscore. -/
def isTargetStart (c : Char) : Bool :=
  isAlphanumeric c || c ∈ ['-', ':', '_']

/-- The first place has a mark. -/
def beginsWith (mark : Char) (places : List Place) : Bool :=
  places.head?.any (·.mark == some mark)

/-- Reads the part in brackets, if there is one, and answers what comes after it. -/
def readScope? (places : List Place) : Option (Option Scope × List Place) :=
  if beginsWith '[' places then
    let (context, rest) := splitAtMark [']', '\x7b'] places.tail
    if beginsWith ']' rest then
      some (some { context := textOf context, field := none }, rest.tail)
    else
      let (field, rest) := splitAtMark ['\x7d'] rest.tail
      if field != [] && beginsWith ']' rest.tail then
        some (some { context := textOf context, field := some (textOf field) }, rest.tail.tail)
      else none
  else some (none, places)

/-- Reads the level and the sign before it, if there is one. Nothing may stand where
it is missing. -/
def readLevel? (places : List Place) : Option (Option (List Char)) :=
  if beginsWith '=' places then some (some (textOf places.tail))
  else if places.all (·.mark.isNone) then some none
  else none

/-- The parts of an item, if it is well formed. -/
def Item.read? (text : List Char) : Option Item := do
  let places := placesOf text
  let (target, rest) := splitAtMark ['=', '['] places
  let (scope, rest) ← readScope? rest
  let level ← readLevel? rest
  let begins := match places.head?.bind (·.mark) with
    | some c => c == '[' || isTargetStart c
    | none => false
  if begins then some { target := textOf target, scope, level } else none

/-- The threshold behind the sign of an item: everything is shown if none is written. -/
def thresholdOf? : Option (List Char) → Option Threshold
  | none | some [] => some (.upTo .trace)
  | some level => Threshold.ofText? (String.ofList level)

/-- What a field is asked to be: a number or a pattern for its text. -/
def isValue (value : List Char) : Bool :=
  Numeral.isDecimal value || Pattern.isSupported value

/-- Reads a field into its name and, behind a sign, the value that is asked for, which ends at
another such sign. -/
def readField? (field : List Char) : Option (List Char × Option (List Char)) :=
  match field.span (· != '=') with
  | (name, []) => some (name, none)
  | (name, _ :: rest) =>
    let value := rest.takeWhile (· != '=')
    if isValue value then some (name, some value) else none

/-- The directives that an item gives, if its level and its field are well formed: one, or none if
it names a context or asks for a value, as no line of this log belongs to a context. -/
def Item.directives? (item : Item) : Option (List Directive) := do
  let target := String.ofList item.target
  let threshold ← thresholdOf? item.level
  match item.scope with
  | none =>
    match item.level, Threshold.ofText? target with
    | none, some threshold => return [{ threshold }]
    | _, _ => return [{ target, threshold }]
  | some { context, field := some field } =>
    match ← readField? field with
    | (name, none) =>
      if context = [] then return [{ target, field := some (String.ofList name), threshold }]
      else return []
    | (_, some _) => return []
  | some { context := _, field := none } => return []

/-- The directives that a written item gives, if it is well formed: one or, if it can concern no
line of this log, none. -/
def ofItem? (text : String) : Option (List Directive) := do
  (← Item.read? text.toList).directives?

end Directive

end TapeCode
