import TapeCode.Listing
import TapeCode.Proofs.Canonical

/-!
# Reading a listing back

A listing has one line for each instruction (`lines_listing`), and a line is made of words with
single blanks between them (`Instruction.splitOn_text`). The words name the opcode and every
operand that the opcode uses. All other operands of a program that comes from a source are known,
since rules, sweeps and compactions leave them as they are, so that the instruction can be read
back from its words (`Instruction.ofWords?_words`), and the program from its listing
(`Program.ofListing?_listing`).

`listing_identifies` puts this together: programs with one listing are one program.
-/

namespace TapeCode

/-! ## The words of a line -/

/-- The side that a word names. -/
def Direction.ofWord? : String → Option Direction
  | "LEFT" => some .left
  | "RIGHT" => some .right
  | _ => none

/-- The changes of a cell that a word names, wherever the cell lies. -/
def Opcode.changeOfWord? : String → Option (Place → Opcode)
  | "ADD" => some .add
  | "SUB" => some .sub
  | "SET" => some .set
  | _ => none

/-- The jump that a word names. -/
def Opcode.jumpOfWord? : String → Option Opcode
  | "JZ" => some (.opens .tested)
  | "JNZ" => some (.closes .tested)
  | "WHILE" => some (.opens .counted)
  | "END" => some (.closes .counted)
  | _ => none

namespace Instruction

/-- The words that say where an instruction acts. -/
def placeWords (x : Instruction) : Place → List String
  | .here => []
  | .aside side => ["TO", toString x.dist.toNat, side.word]

/-- The words of an instruction. -/
def words (x : Instruction) : List String :=
  let count := toString x.arg.toNat
  match x.op with
  | .nop => ["NOP"]
  | .move side => ["MOVE", count, side.word]
  | .add place => "ADD" :: count :: x.placeWords place
  | .sub place => "SUB" :: count :: x.placeWords place
  | .set place => "SET" :: count :: x.placeWords place
  | .print => ["PRINT"]
  | .input => ["INPUT"]
  | .opens .tested => ["JZ", count]
  | .closes .tested => ["JNZ", count]
  | .opens .counted => ["WHILE", count]
  | .closes .counted => ["END", count]

/-- The operand that the digits of a word write. -/
def operand (word : String) : UInt32 :=
  UInt32.ofNat (Nat.ofDigitChars 10 word.toList 0)

/-- The instruction that words name, with the operands that its opcode does not use as the loader
gives them. -/
def ofWords? : List String → Option Instruction
  | ["NOP"] => some .nop
  | ["PRINT"] => some { op := .print, arg := 1 }
  | ["INPUT"] => some { op := .input, arg := 1 }
  | ["MOVE", count, side] =>
    (Direction.ofWord? side).map fun side => { op := .move side, arg := operand count }
  | [word, count, "TO", dist, side] =>
    (Opcode.changeOfWord? word).bind fun change => (Direction.ofWord? side).map fun side =>
      ⟨change (.aside side), operand count, operand dist⟩
  | [word, count] =>
    (((Opcode.changeOfWord? word).map (· .here)).or (Opcode.jumpOfWord? word)).map fun op =>
      { op, arg := operand count }
  | _ => none

@[simp] theorem operand_repr (arg : UInt32) : operand arg.toNat.repr = arg := by
  rw [operand, Nat.repr_eq_ofList_toDigits, String.toList_ofList, Nat.ofDigitChars_ten_toDigits,
    UInt32.ofNat_toNat]

end Instruction

@[simp] theorem Direction.ofWord?_word (side : Direction) : ofWord? side.word = some side := by
  cases side <;> rfl

namespace Instruction

/-- A change of a cell can be read back from its words. -/
theorem ofWords?_change {word : String} {change : Place → Opcode}
    (hword : Opcode.changeOfWord? word = some change) {place : Place} {arg dist : UInt32}
    (hdist : place = .here → dist = 0) :
    ofWords? (word :: toString arg.toNat :: placeWords ⟨change place, arg, dist⟩ place) =
      some ⟨change place, arg, dist⟩ := by
  cases place with
  | here =>
    obtain rfl := hdist rfl
    simp [placeWords, ofWords?, hword]
  | aside side => simp [placeWords, ofWords?, hword]

/-- A jump can be read back from its words. -/
theorem ofWords?_jump {word : String} {op : Opcode} (hchange : Opcode.changeOfWord? word = none)
    (hword : Opcode.jumpOfWord? word = some op) (arg : UInt32) :
    ofWords? [word, toString arg.toNat] = some { op, arg } := by
  simp [ofWords?, hchange, hword]

/-- A canonical instruction can be read back from its words. -/
theorem ofWords?_words {x : Instruction} (h : x.Canonical) : ofWords? x.words = some x := by
  obtain ⟨op, arg, dist⟩ := x
  obtain ⟨hdist, hvacant, htransfer⟩ := h
  cases op with
  | nop =>
    obtain rfl : arg = 0 := hvacant rfl
    obtain rfl : dist = 0 := hdist rfl
    rfl
  | move side =>
    obtain rfl : dist = 0 := hdist rfl
    simp [words, ofWords?]
  | add place => exact ofWords?_change rfl fun hplace => hdist (by simp [hplace, Opcode.isAside])
  | sub place => exact ofWords?_change rfl fun hplace => hdist (by simp [hplace, Opcode.isAside])
  | set place => exact ofWords?_change rfl fun hplace => hdist (by simp [hplace, Opcode.isAside])
  | print =>
    obtain rfl : arg = 1 := htransfer (.inl rfl)
    obtain rfl : dist = 0 := hdist rfl
    rfl
  | input =>
    obtain rfl : arg = 1 := htransfer (.inr rfl)
    obtain rfl : dist = 0 := hdist rfl
    rfl
  | opens kind =>
    obtain rfl : dist = 0 := hdist rfl
    cases kind <;> exact ofWords?_jump rfl rfl arg
  | closes kind =>
    obtain rfl : dist = 0 := hdist rfl
    cases kind <;> exact ofWords?_jump rfl rfl arg

end Instruction

/-! ## The text of a line -/

/-- Has letters and digits only. -/
def isWord (text : String) : Bool :=
  text.toList.all (·.isAlphanum)

@[simp] theorem isWord_repr (n : Nat) : isWord n.repr = true := by
  rw [isWord, Nat.repr_eq_ofList_toDigits, String.toList_ofList, List.all_eq_true]
  intro c hc
  rw [Char.isAlphanum, Nat.isDigit_of_mem_toDigits (by decide) (by decide) hc, Bool.or_true]

@[simp] theorem Direction.isWord_word (side : Direction) : isWord side.word = true := by
  cases side <;> rfl

theorem notMem_of_isWord {text : String} {c : Char} (h : isWord text = true)
    (hc : c.isAlphanum = false) : c ∉ text.toList := by
  intro hmem
  rw [List.all_eq_true.1 h c hmem] at hc
  cases hc

theorem mem_of_mem_intercalate {α : Type} {separator : List α} {pieces : List (List α)} {c : α}
    (h : c ∈ separator.intercalate pieces) : c ∈ separator ∨ ∃ piece ∈ pieces, c ∈ piece := by
  induction pieces with
  | nil => simp at h
  | cons piece pieces ih =>
    cases pieces with
    | nil => exact .inr ⟨piece, List.mem_cons_self, by simpa using h⟩
    | cons next pieces =>
      rw [List.intercalate_cons_cons, List.mem_append, List.mem_append] at h
      rcases h with (hpiece | hseparator) | hrest
      · exact .inr ⟨piece, List.mem_cons_self, hpiece⟩
      · exact .inl hseparator
      · exact (ih hrest).imp_right fun ⟨piece, hmem, hc⟩ =>
          ⟨piece, List.mem_cons_of_mem _ hmem, hc⟩

namespace Instruction

variable {x : Instruction} {word : String}

theorem isWord_of_mem_words (h : word ∈ x.words) : isWord word = true := by
  have hkeyword : ["NOP", "MOVE", "ADD", "SUB", "SET", "PRINT", "INPUT", "JZ", "JNZ", "WHILE",
    "END", "TO"].all isWord = true := by decide
  have hall : x.words.all isWord = true := by
    obtain ⟨op, arg, dist⟩ := x
    cases op with
    | add place => cases place <;> simp_all [words, placeWords]
    | sub place => cases place <;> simp_all [words, placeWords]
    | set place => cases place <;> simp_all [words, placeWords]
    | opens kind => cases kind <;> simp_all [words]
    | closes kind => cases kind <;> simp_all [words]
    | _ => simp_all [words]
  exact List.all_eq_true.1 hall word h

theorem words_ne_nil (x : Instruction) : x.words ≠ [] := by
  obtain ⟨op, arg, dist⟩ := x
  cases op with
  | opens kind => cases kind <;> exact List.cons_ne_nil _ _
  | closes kind => cases kind <;> exact List.cons_ne_nil _ _
  | _ => exact List.cons_ne_nil _ _

/-- A line is its words with single blanks between them. -/
theorem toList_text (x : Instruction) :
    x.text.toList = [' '].intercalate (x.words.map String.toList) := by
  obtain ⟨op, arg, dist⟩ := x
  cases op with
  | add place => cases place <;> simp [text, words, placeText, placeWords, List.intercalate]
  | sub place => cases place <;> simp [text, words, placeText, placeWords, List.intercalate]
  | set place => cases place <;> simp [text, words, placeText, placeWords, List.intercalate]
  | opens kind => cases kind <;> simp [text, words, List.intercalate]
  | closes kind => cases kind <;> simp [text, words, List.intercalate]
  | _ => simp [text, words, List.intercalate]

/-- Cutting a line at its blanks gives the words back. -/
theorem splitOn_text (x : Instruction) :
    x.text.toList.splitOn ' ' = x.words.map String.toList := by
  rw [toList_text]
  refine List.splitOn_intercalate ' ' ?_ (by simp [words_ne_nil])
  intro piece hpiece
  obtain ⟨word, hword, rfl⟩ := List.mem_map.1 hpiece
  exact notMem_of_isWord (isWord_of_mem_words hword) (by decide)

/-- A line has no line feed of its own. -/
theorem lineFeed_notMem_text (x : Instruction) : '\n' ∉ x.text.toList := by
  rw [toList_text]
  intro h
  rcases mem_of_mem_intercalate h with hblank | ⟨piece, hpiece, hmem⟩
  · exact absurd hblank (by decide)
  · obtain ⟨word, hword, rfl⟩ := List.mem_map.1 hpiece
    exact notMem_of_isWord (isWord_of_mem_words hword) (by decide) hmem

/-- The instruction that a line names. -/
def ofText? (text : String) : Option Instruction :=
  ofWords? ((text.toList.splitOn ' ').map String.ofList)

/-- A canonical instruction can be read back from its line. -/
theorem ofText?_text (h : x.Canonical) : ofText? x.text = some x := by
  rw [ofText?, splitOn_text, List.map_map]
  simpa [Function.comp_def] using ofWords?_words h

end Instruction

/-! ## The lines of a listing -/

/-- The lines of a text, each ended by a line feed. What follows the last line feed is a line too,
unless it is empty. -/
def lines (text : String) : List String :=
  let pieces := (text.toList.splitOn '\n').map String.ofList
  if pieces.getLast? = some "" then pieces.dropLast else pieces

/-- Pieces that are each ended by a separator are separated pieces, the last of them empty. -/
theorem intercalate_concat_nil {α : Type} (c : α) (pieces : List (List α)) :
    [c].intercalate (pieces ++ [[]]) = pieces.flatMap (· ++ [c]) := by
  induction pieces with
  | nil => simp
  | cons piece pieces ih =>
    rw [List.cons_append, List.intercalate_cons_of_ne_nil (by simp), ih, List.flatMap_cons]

namespace Program

/-- A listing is its lines with a line feed behind each. -/
theorem toList_listing (p : Program) :
    p.listing.toList = (p.toList.map (·.text.toList)).flatMap (· ++ ['\n']) := by
  have step (instrs : List Instruction) (start : String) :
      (instrs.foldl (fun text x => text ++ x.text ++ "\n") start).toList =
        start.toList ++ (instrs.map (·.text.toList)).flatMap (· ++ ['\n']) := by
    induction instrs generalizing start with
    | nil => simp
    | cons x instrs ih => simp [ih]
  rw [listing, ← Array.foldl_toList, step]
  rfl

/-- A listing has one line for each instruction. -/
theorem lines_listing (p : Program) : lines p.listing = p.toList.map Instruction.text := by
  have hpieces : p.listing.toList.splitOn '\n' = p.toList.map (·.text.toList) ++ [[]] := by
    rw [toList_listing, ← intercalate_concat_nil]
    refine List.splitOn_intercalate '\n' ?_ (by simp)
    intro piece hpiece
    rcases List.mem_append.1 hpiece with hline | hlast
    · obtain ⟨x, -, rfl⟩ := List.mem_map.1 hline
      exact x.lineFeed_notMem_text
    · simp [List.mem_singleton.1 hlast]
  simp [lines, hpieces, Function.comp_def]

/-- The program that a listing shows. -/
def ofListing? (text : String) : Option Program :=
  ((lines text).mapM Instruction.ofText?).map List.toArray

/-- A canonical program can be read back from its listing. -/
theorem ofListing?_listing {p : Program} (h : p.Canonical) : ofListing? p.listing = some p := by
  have hread (instrs : List Instruction) (hcanonical : ∀ x ∈ instrs, x.Canonical) :
      (instrs.map Instruction.text).mapM Instruction.ofText? = some instrs := by
    induction instrs with
    | nil => rfl
    | cons x instrs ih =>
      rw [List.map_cons, List.mapM_cons,
        Instruction.ofText?_text (hcanonical x List.mem_cons_self),
        ih fun y hy => hcanonical y (List.mem_cons_of_mem _ hy)]
      rfl
  have hmem (x : Instruction) (hx : x ∈ p.toList) : x.Canonical := by
    obtain ⟨i, hi⟩ := List.getElem?_of_mem hx
    exact h i x (by rwa [Array.getElem?_toList] at hi)
  rw [ofListing?, lines_listing, hread _ hmem]
  rfl

end Program

variable {source source' : List UInt8} {p q : Program}

/-- A program that comes from a source can be told by its listing: another that comes from a
source and has the same listing has the same instructions, every operand included. A listing has
as many lines as the program has instructions. -/
theorem listing_identifies (hp : (parse source).program.Derives p)
    (hq : (parse source').program.Derives q) :
    (p.listing = q.listing → p = q) ∧ (lines p.listing).length = p.size := by
  constructor
  · intro h
    have hread := Program.ofListing?_listing (hp.canonical (canonical_parse source))
    rw [h, Program.ofListing?_listing (hq.canonical (canonical_parse source'))] at hread
    exact (Option.some.inj hread).symm
  · rw [Program.lines_listing, List.length_map, Array.length_toList]

/-- The loops `[-]` and `[+]` both become an assignment and two vacant slots, and have
one listing then. -/
theorem listing_identifies_of_cleared :
    (parse [91, 45, 93]).program.sweep.program = (parse [91, 43, 93]).program.sweep.program ∧
      (lines (parse [91, 45, 93]).program.sweep.program.listing).length = 3 := by
  obtain ⟨hsame, hlines⟩ :=
    @listing_identifies [91, 45, 93] [91, 43, 93] _ _ (.sweep .refl) (.sweep .refl)
  exact ⟨hsame (by decide +kernel), hlines.trans (by decide +kernel)⟩

end TapeCode
