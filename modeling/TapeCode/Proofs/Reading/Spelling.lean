import Mathlib.Data.List.Chain
import TapeCode.Proofs.Reading.Nesting

/-!
# Writing a program back

A program that has been read can be written back (`Program.spelling`): every instruction as its
symbol, as often as it counts. This gives the source without its comments and its strays
(`essence`), which reads as the same program. No two neighbours stand for one symbol that is
counted, so that an instruction that counts is written as a run of its symbol that cannot be made
longer (`spelling_parse`).

What a byte adds to the text of a program is the byte itself or nothing
(`Builder.Adds.spelling_eq`), and what it adds to the program does not depend on the offset where
it stands (`Builder.addByte_of_keeps`).
-/

namespace TapeCode

/-! ## The text of an instruction -/

/-- The symbol that stands for an opcode. -/
def Opcode.symbol? : Opcode → Option Symbol
  | .move .left => some .left
  | .move .right => some .right
  | .add .here => some .plus
  | .sub .here => some .minus
  | .print => some .dot
  | .input => some .comma
  | .opens .tested => some .openBracket
  | .closes .tested => some .closeBracket
  | _ => none

namespace Symbol

@[simp] theorem symbol?_op (symbol : Symbol) : symbol.op.symbol? = some symbol := by
  cases symbol <;> rfl

theorem ofByte?_byte (symbol : Symbol) : ofByte? symbol.byte = some symbol :=
  ofByte?_eq_some_iff.2 rfl

/-- Different symbols are written by different bytes. -/
theorem byte_inj {s t : Symbol} (h : s.byte = t.byte) : s = t :=
  Option.some.inj (s.ofByte?_byte.symm.trans (h ▸ t.ofByte?_byte))

end Symbol

namespace Instruction

variable {x : Instruction} {symbol : Symbol}

/-- How often the symbol of an instruction is written. -/
def repeats (x : Instruction) : Nat :=
  if x.op.isAggregatable then x.arg.toNat else 1

/-- The bytes that write an instruction. -/
def spelling (x : Instruction) : List UInt8 :=
  match x.op.symbol? with
  | some symbol => List.replicate x.repeats symbol.byte
  | none => []

/-- The instruction stands for a symbol and counts it at least once. -/
structure Written (x : Instruction) (symbol : Symbol) : Prop where
  op : x.op = symbol.op
  repeats : x.repeats ≠ 0

theorem spelling_of_op (h : x.op = symbol.op) :
    x.spelling = List.replicate x.repeats symbol.byte := by
  rw [spelling, h, symbol.symbol?_op]

theorem repeats_add_one (hagg : x.op.isAggregatable = true) (hroom : x.arg.toNat + 1 < 2 ^ 32) :
    { x with arg := x.arg + 1 }.repeats = x.repeats + 1 := by
  have hcount : (x.arg + 1).toNat = x.arg.toNat + 1 := by
    rw [UInt32.toNat_add, UInt32.toNat_one, Nat.mod_eq_of_lt hroom]
  rw [repeats, repeats, if_pos hagg, if_pos hagg, hcount]

/-- One more count is one more byte, if the operand has room for it. -/
theorem spelling_add_one (hop : x.op = symbol.op) (hagg : x.op.isAggregatable = true)
    (hroom : x.arg.toNat + 1 < 2 ^ 32) :
    { x with arg := x.arg + 1 }.spelling = x.spelling ++ [symbol.byte] := by
  rw [spelling_of_op (x := { x with arg := x.arg + 1 }) hop, spelling_of_op hop,
    repeats_add_one hagg hroom, List.replicate_succ']

theorem Written.head?_spelling (h : x.Written symbol) : x.spelling.head? = some symbol.byte := by
  rw [spelling_of_op h.op, List.head?_replicate, if_neg h.repeats]

theorem Written.getLast?_spelling (h : x.Written symbol) :
    x.spelling.getLast? = some symbol.byte := by
  rw [spelling_of_op h.op, List.getLast?_replicate, if_neg h.repeats]

end Instruction

/-! ## The text of a program -/

namespace Program

variable {p : Program} {i : Nat} {x y : Instruction}

/-- The bytes that write a program. -/
def spelling (p : Program) : List UInt8 :=
  p.toList.flatMap Instruction.spelling

/-- The opcodes of a program in order. -/
def ops (p : Program) : List Opcode :=
  p.toList.map (·.op)

/-- Every instruction stands for a symbol and counts it at least once. -/
def Written (p : Program) : Prop :=
  ∀ x ∈ p, ∃ symbol, x.Written symbol

/-- No two neighbours have one opcode that is counted. -/
def Merged (p : Program) : Prop :=
  p.ops.IsChain fun first second => first = second → first.isAggregatable = false

theorem spelling_push (p : Program) (x : Instruction) :
    spelling (p.push x) = p.spelling ++ x.spelling := by
  simp [spelling]

theorem ops_push (p : Program) (x : Instruction) : ops (p.push x) = p.ops ++ [x.op] := by
  simp [ops]

/-- Replacing an instruction by one that looks the same changes nothing that is seen
of the program. -/
theorem map_put {β : Type} (f : Instruction → β) (hy : p[i]? = some y) (h : f x = f y) :
    (p.put i x).toList.map f = p.toList.map f := by
  refine List.ext_getElem? fun j => ?_
  rw [List.getElem?_map, List.getElem?_map, Array.getElem?_toList, Array.getElem?_toList,
    getElem?_put]
  split
  · rename_i hij
    rw [if_pos (Array.getElem?_eq_some_iff.1 hy).1, ← hij, hy, Option.map_some,
      Option.map_some, h]
  · rfl

theorem spelling_put (hy : p[i]? = some y) (h : x.spelling = y.spelling) :
    (p.put i x).spelling = p.spelling := by
  rw [spelling, spelling, List.flatMap_def, List.flatMap_def, map_put Instruction.spelling hy h]

theorem ops_put (hy : p[i]? = some y) (h : x.op = y.op) : (p.put i x).ops = p.ops :=
  map_put (·.op) hy h

theorem Written.push (h : p.Written) (hx : ∃ symbol, x.Written symbol) : Written (p.push x) := by
  intro y hy
  rcases Array.mem_push.1 hy with hy | rfl
  · exact h y hy
  · exact hx

theorem Written.put (h : p.Written) (i : Nat) (hx : ∃ symbol, x.Written symbol) :
    (p.put i x).Written := by
  intro y hy
  rcases Array.mem_or_eq_of_mem_setIfInBounds hy with hy | rfl
  · exact h y hy
  · exact hx

theorem Merged.push (h : p.Merged)
    (hx : x.op.isAggregatable = true → ∀ last, p.back? = some last → last.op ≠ x.op) :
    Merged (p.push x) := by
  rw [Merged, ops_push, List.isChain_append]
  refine ⟨h, List.isChain_singleton _, fun first hfirst second hsecond hsame => ?_⟩
  obtain rfl : x.op = second := Option.some.inj hsecond
  rw [ops, List.getLast?_map, Array.getLast?_toList] at hfirst
  obtain ⟨last, hlast, rfl⟩ := Option.map_eq_some_iff.1 hfirst
  refine Bool.eq_false_iff.2 fun hagg => ?_
  exact hx (hsame ▸ hagg) last hlast hsame

theorem Merged.congr {q : Program} (h : p.Merged) (hops : q.ops = p.ops) : q.Merged := by
  rwa [Merged, hops]

end Program

/-! ## The essence of a source -/

/-- There is a symbol at an offset, and it is not a stray. -/
def isSymbol (source : List UInt8) (offset : Nat) : Bool :=
  (source[offset]?.bind Symbol.ofByte?).isSome && !isStray source offset

/-- The bytes before an offset, without comments and strays. -/
def essenceBefore (source : List UInt8) (stop : Nat) : List UInt8 :=
  ((List.range stop).filter (isSymbol source)).filterMap (source[·]?)

/-- A source without its comments and strays. -/
def essence (source : List UInt8) : List UInt8 :=
  essenceBefore source source.length

variable {source : List UInt8} {i : Nat} {b : UInt8}

theorem essenceBefore_succ (hb : source[i]? = some b) :
    essenceBefore source (i + 1) =
      essenceBefore source i ++ if isSymbol source i then [b] else [] := by
  rw [essenceBefore, range_succ_filter, List.filterMap_append]
  refine congrArg (essenceBefore source i ++ ·) ?_
  split
  · rw [List.filterMap_cons, hb, List.filterMap_nil]
  · rfl

theorem length_essenceBefore_le (source : List UInt8) (i : Nat) :
    (essenceBefore source i).length ≤ i := by
  calc (essenceBefore source i).length
      ≤ ((List.range i).filter (isSymbol source)).length := List.length_filterMap_le ..
    _ ≤ (List.range i).length := List.length_filter_le ..
    _ = i := List.length_range

/-! ## What a byte adds to the text -/

namespace Builder

variable {builder next : Builder} {b : UInt8}

/-- The byte is a symbol, and not an end without a start. -/
def Keeps (builder : Builder) (b : UInt8) : Prop :=
  ∃ symbol, Symbol.ofByte? b = some symbol ∧ (symbol = .closeBracket → builder.waiting ≠ [])

/-- A byte that is not kept leaves the program and the waiting starts alone. -/
theorem Adds.of_not_keeps (h : builder.Adds b next) (hnot : ¬ builder.Keeps b) :
    next.program = builder.program ∧ next.waiting = builder.waiting := by
  cases h with
  | skip => exact ⟨rfl, rfl⟩
  | @extend symbol _ hb hagg =>
    exact absurd ⟨symbol, hb, by rintro rfl; cases hagg⟩ hnot
  | @append symbol hb hjump =>
    exact absurd ⟨symbol, hb, by rintro rfl; cases hjump⟩ hnot
  | enter hb => exact absurd ⟨_, hb, nofun⟩ hnot
  | leave hb hwaiting =>
    refine absurd ⟨_, hb, fun _ hnil => ?_⟩ hnot
    rw [hwaiting] at hnil
    cases hnil

/-- The last instruction, as it was and as it counts one more. -/
theorem exists_extend {last : Instruction} (hback : builder.program.back? = some last) :
    ∃ front : Program, builder.program = front.push last ∧
      (builder.extend last).program = front.push { last with arg := last.arg + 1 } := by
  have hne : builder.program.size ≠ 0 := by
    intro hzero
    rw [Array.back?_eq_getElem?, hzero, Array.getElem?_eq_none (by omega)] at hback
    cases hback
  obtain ⟨front, x, hprogram⟩ := Array.eq_push_of_size_ne_zero hne
  rw [hprogram, Array.back?_push] at hback
  obtain rfl := Option.some.inj hback
  refine ⟨front, hprogram, ?_⟩
  rw [extend, hprogram, Program.put]
  apply Array.toList_inj.1
  simp

/-- The count of the last instruction is not larger than the text. -/
theorem arg_le_length {symbol : Symbol} {last : Instruction}
    (hback : builder.program.back? = some last) (hop : last.op = symbol.op)
    (hagg : last.op.isAggregatable = true) :
    last.arg.toNat ≤ builder.program.spelling.length := by
  obtain ⟨front, hprogram, -⟩ := exists_extend hback
  have hcount : last.spelling.length = last.arg.toNat := by
    rw [Instruction.spelling_of_op hop, List.length_replicate]
    exact if_pos hagg
  rw [hprogram, Program.spelling_push, List.length_append, hcount]
  exact Nat.le_add_left ..

/-- A byte that is kept is added to the text, if the last operand has room for it. -/
theorem Adds.spelling_eq (h : builder.Adds b next) (hkeeps : builder.Keeps b)
    (hstarts : builder.Starts) (hroom : builder.program.spelling.length + 1 < 2 ^ 32) :
    next.program.spelling = builder.program.spelling ++ [b] := by
  have hbyte {symbol : Symbol} (hb : Symbol.ofByte? b = some symbol) : symbol.byte = b :=
    Symbol.ofByte?_eq_some_iff.1 hb
  cases h with
  | skip hskip =>
    obtain ⟨symbol, hb, hwaits⟩ := hkeeps
    obtain ⟨hclose, hnil⟩ := hskip symbol hb
    exact absurd hnil (hwaits hclose)
  | @extend symbol last hb hagg hback hop =>
    have hagg : last.op.isAggregatable = true := hop ▸ hagg
    have hcount := arg_le_length hback hop hagg
    obtain ⟨front, hprogram, hextend⟩ := exists_extend hback
    rw [hextend, hprogram, Program.spelling_push, Program.spelling_push,
      Instruction.spelling_add_one hop hagg (by omega), hbyte hb, List.append_assoc]
  | @append symbol hb hjump =>
    have hspelling : Instruction.spelling { op := symbol.op, arg := 1 } = [symbol.byte] := by
      rw [Instruction.spelling_of_op rfl]
      cases symbol <;> rfl
    exact (Program.spelling_push _ _).trans (by rw [hspelling, hbyte hb])
  | enter hb =>
    refine (Program.spelling_push _ _).trans (congrArg (_ ++ ·) ?_)
    rw [← hbyte hb]
    rfl
  | @leave start waiting hb hwaiting =>
    have hstart := hstarts start (hwaiting ▸ List.mem_cons_self)
    refine (Program.spelling_push _ _).trans (congrArg₂ (· ++ ·) ?_ ?_)
    · exact Program.spelling_put hstart rfl
    · rw [← hbyte hb]
      rfl

/-- Every instruction that a byte adds or changes stands for a symbol and counts it. -/
theorem Adds.written (h : builder.Adds b next) (hwritten : builder.program.Written)
    (hroom : builder.program.spelling.length + 1 < 2 ^ 32) : next.program.Written := by
  cases h with
  | skip => exact hwritten
  | @extend symbol last hb hagg hback hop =>
    have hagg : last.op.isAggregatable = true := hop ▸ hagg
    have hcount := arg_le_length hback hop hagg
    refine hwritten.put _ ⟨symbol, hop, ?_⟩
    rw [Instruction.repeats_add_one hagg (by omega)]
    exact Nat.succ_ne_zero _
  | @append symbol hb hjump =>
    refine hwritten.push ⟨symbol, rfl, ?_⟩
    cases symbol <;> decide
  | enter => exact hwritten.push ⟨.openBracket, rfl, by decide⟩
  | leave =>
    refine (hwritten.put _ ⟨.openBracket, rfl, ?_⟩).push ⟨.closeBracket, rfl, ?_⟩
    · exact Nat.one_ne_zero
    · exact Nat.one_ne_zero

/-- A symbol that the last instruction counts adds no instruction. -/
theorem addByte_of_back? {symbol : Symbol} {last : Instruction}
    (hb : Symbol.ofByte? b = some symbol) (hagg : symbol.op.isAggregatable = true)
    (hback : builder.program.back? = some last) (hop : last.op = symbol.op) (offset : Nat) :
    builder.addByte b offset = builder.extend last := by
  have hcount : builder.count symbol.op = builder.extend last := by
    rw [count, hback]
    exact if_pos hop
  rw [addByte, hb]
  cases symbol <;> first | exact hcount | cases hagg

/-- No byte adds an instruction with the opcode of its neighbour, if that is counted. -/
theorem merged_addByte (h : builder.program.Merged) (hstarts : builder.Starts) (b : UInt8)
    (offset : Nat) : (builder.addByte b offset).program.Merged := by
  have hadds := builder.adds_addByte b offset
  generalize hnext : builder.addByte b offset = next at hadds
  cases hadds with
  | skip => exact h
  | @extend symbol last hb hagg hback hop =>
    rw [Array.back?_eq_getElem?] at hback
    exact h.congr (Program.ops_put hback rfl)
  | @append symbol hb hjump =>
    refine h.push fun hagg last hback hop => ?_
    have hsize :=
      congrArg (·.program.size) ((addByte_of_back? hb hagg hback hop offset).symm.trans hnext)
    simp at hsize
  | enter => exact h.push nofun
  | @leave start waiting hb hwaiting =>
    have hstart := hstarts start (hwaiting ▸ List.mem_cons_self)
    have hput : (builder.program.put start
        { op := .opens .tested, arg := UInt32.ofNat builder.program.size }).Merged :=
      h.congr (Program.ops_put hstart rfl)
    exact hput.push nofun

/-- What a byte that is kept adds does not depend on its offset or on the ends that
have been dropped. -/
theorem addByte_of_keeps (hkeeps : builder.Keeps b) (offset offset' : Nat)
    (unmatched : Array Nat) :
    { builder with unmatched }.addByte b offset' =
      { builder.addByte b offset with unmatched } := by
  obtain ⟨symbol, hb, hwaits⟩ := hkeeps
  have hcount (op : Opcode) :
      { builder with unmatched }.count op = { builder.count op with unmatched } := by
    unfold count
    dsimp only
    split
    · split <;> rfl
    · rfl
  unfold addByte
  rw [hb]
  cases symbol with
  | openBracket => rfl
  | closeBracket =>
    obtain ⟨start, waiting, hwaiting⟩ := List.exists_cons_of_ne_nil (hwaits rfl)
    simp only [addSymbol, closeLoop, hwaiting]
  | dot => rfl
  | comma => rfl
  | _ => exact hcount _

end Builder

/-! ## The text of a source -/

theorem isSymbol_iff (hb : source[i]? = some b) :
    isSymbol source i = true ↔ (upTo source i).Keeps b := by
  have hstray : isStray source i = true ↔ b = ']'.toUInt8 ∧ (upTo source i).waiting = [] := by
    rw [isStray_iff, hb, Option.some.injEq]
  rw [isSymbol, hb, Option.bind_some, Bool.and_eq_true, Bool.not_eq_true',
    ← Bool.not_eq_true, hstray, Option.isSome_iff_exists]
  constructor
  · rintro ⟨⟨symbol, hsymbol⟩, hnot⟩
    refine ⟨symbol, hsymbol, ?_⟩
    rintro rfl hnil
    exact hnot ⟨ofByte?_eq_closeBracket_iff.1 hsymbol, hnil⟩
  · rintro ⟨symbol, hsymbol, hwaits⟩
    refine ⟨⟨symbol, hsymbol⟩, ?_⟩
    rintro ⟨hclose, hnil⟩
    have hsame := hsymbol.symm.trans (ofByte?_eq_closeBracket_iff.2 hclose)
    exact hwaits (Option.some.inj hsame) hnil

theorem spelling_upTo (hlength : source.length < 2 ^ 32) (hle : i ≤ source.length) :
    (upTo source i).program.spelling = essenceBefore source i := by
  induction i with
  | zero => rfl
  | succ i ih =>
    have hb := List.getElem?_eq_getElem hle
    have hadds := adds_upTo hb
    have hbefore := ih (Nat.le_of_lt hle)
    rw [essenceBefore_succ hb, ← hbefore]
    by_cases hkeeps : (upTo source i).Keeps source[i]
    · have hroom := length_essenceBefore_le source i
      rw [if_pos ((isSymbol_iff hb).2 hkeeps)]
      exact hadds.spelling_eq hkeeps (starts_upTo hlength i) (by rw [hbefore]; omega)
    · rw [if_neg fun h => hkeeps ((isSymbol_iff hb).1 h), List.append_nil,
        (hadds.of_not_keeps hkeeps).1]

theorem written_upTo (hlength : source.length < 2 ^ 32) (hle : i ≤ source.length) :
    (upTo source i).program.Written := by
  induction i with
  | zero => exact fun x hx => absurd hx (Array.not_mem_empty x)
  | succ i ih =>
    have hroom := length_essenceBefore_le source i
    refine (adds_upTo (List.getElem?_eq_getElem hle)).written (ih (Nat.le_of_lt hle)) ?_
    rw [spelling_upTo hlength (Nat.le_of_lt hle)]
    omega

theorem merged_upTo (hlength : source.length < 2 ^ 32) (hle : i ≤ source.length) :
    (upTo source i).program.Merged := by
  induction i with
  | zero => exact List.isChain_nil
  | succ i ih =>
    rw [upTo_succ (List.getElem?_eq_getElem hle)]
    exact Builder.merged_addByte (ih (Nat.le_of_lt hle)) (starts_upTo hlength i) _ i

/-- The bytes that are kept build what all of them build, except that no end has been dropped. -/
theorem addBytes_essenceBefore (hle : i ≤ source.length) :
    Builder.addBytes {} 0 (essenceBefore source i) = { upTo source i with unmatched := #[] } := by
  induction i with
  | zero => rfl
  | succ i ih =>
    have hb := List.getElem?_eq_getElem hle
    rw [essenceBefore_succ hb, addBytes_append, ih (Nat.le_of_lt hle)]
    by_cases hkeeps : (upTo source i).Keeps source[i]
    · rw [if_pos ((isSymbol_iff hb).2 hkeeps), upTo_succ hb]
      exact Builder.addByte_of_keeps hkeeps i _ #[]
    · obtain ⟨hprogram, hwaiting⟩ := (adds_upTo hb).of_not_keeps hkeeps
      rw [if_neg fun h => hkeeps ((isSymbol_iff hb).1 h)]
      exact congrArg₂ (Builder.mk · · #[]) hprogram.symm hwaiting.symm

/-- The essence of a source reads as the source does, and no end is dropped. -/
theorem parse_essence (source : List UInt8) :
    parse (essence source) = ⟨(parse source).program, #[]⟩ := by
  have hbuilder := addBytes_essenceBefore (Nat.le_refl source.length)
  rw [parse, essence, hbuilder, ← program_upTo_length]

/-! ## Runs -/

/-- A run stands in a text between two parts. It consists of one byte, which stands there at least
once, and neither of the parts goes on with that byte. -/
structure MaximalRun (text before run behind : List UInt8) (b : UInt8) : Prop where
  text_eq : text = before ++ run ++ behind
  run_eq : run = List.replicate run.length b
  ne_nil : run ≠ []
  before : before.getLast? ≠ some b
  behind : behind.head? ≠ some b

section Runs

variable {p : Program} {front back : List Instruction} {x : Instruction} {c : UInt8}

/-- The text of some instructions ends as the last one does. -/
theorem exists_of_getLast?_spelling (h : ∀ y ∈ front, ∃ symbol : Symbol, y.Written symbol)
    (hlast : (front.flatMap Instruction.spelling).getLast? = some c) :
    ∃ y, front.getLast? = some y ∧ ∃ symbol : Symbol, y.op = symbol.op ∧ symbol.byte = c := by
  rcases List.eq_nil_or_concat front with rfl | ⟨front, y, rfl⟩
  · cases hlast
  · rw [List.concat_eq_append] at h hlast ⊢
    obtain ⟨symbol, hsymbol⟩ := h y (List.mem_append_right _ List.mem_cons_self)
    rw [List.flatMap_append, List.flatMap_singleton, List.getLast?_append,
      hsymbol.getLast?_spelling] at hlast
    exact ⟨y, List.getLast?_concat, symbol, hsymbol.op, Option.some.inj hlast⟩

/-- The text of some instructions starts as the first one does. -/
theorem exists_of_head?_spelling (h : ∀ y ∈ back, ∃ symbol : Symbol, y.Written symbol)
    (hhead : (back.flatMap Instruction.spelling).head? = some c) :
    ∃ y, back.head? = some y ∧ ∃ symbol : Symbol, y.op = symbol.op ∧ symbol.byte = c := by
  cases back with
  | nil => cases hhead
  | cons y back =>
    obtain ⟨symbol, hsymbol⟩ := h y List.mem_cons_self
    rw [List.flatMap_cons, List.head?_append, hsymbol.head?_spelling] at hhead
    exact ⟨y, rfl, symbol, hsymbol.op, Option.some.inj hhead⟩

/-- An instruction that counts is written as a run that cannot be made longer. -/
theorem Program.Merged.maximalRun (h : p.Merged) (hwritten : p.Written)
    (hsplit : p.toList = front ++ x :: back) {symbol : Symbol} (hx : x.Written symbol)
    (hagg : x.op.isAggregatable = true) :
    MaximalRun p.spelling (front.flatMap Instruction.spelling) x.spelling
      (back.flatMap Instruction.spelling) symbol.byte := by
  have hops : p.ops = front.map (·.op) ++ x.op :: back.map (·.op) := by
    rw [ops, hsplit, List.map_append, List.map_cons]
  rw [Merged, hops, List.isChain_append, List.isChain_cons] at h
  obtain ⟨-, ⟨hbehind, -⟩, hbefore⟩ := h
  have hparts : ∀ y ∈ front ++ x :: back, ∃ symbol : Symbol, y.Written symbol :=
    fun y hy => hwritten y (Array.mem_toList_iff.1 (hsplit ▸ hy))
  refine ⟨?_, ?_, ?_, fun hlast => ?_, fun hhead => ?_⟩
  · rw [spelling, hsplit, List.flatMap_append, List.flatMap_cons, List.append_assoc]
  · rw [Instruction.spelling_of_op hx.op, List.length_replicate]
  · rw [Instruction.spelling_of_op hx.op]
    exact mt (List.replicate_eq_nil_iff _).1 hx.repeats
  · obtain ⟨y, hy, other, hop, hbyte⟩ :=
      exists_of_getLast?_spelling (fun y hy => hparts y (List.mem_append_left _ hy)) hlast
    obtain rfl := Symbol.byte_inj hbyte
    have hsame : y.op = x.op := hop.trans hx.op.symm
    have hnot := hbefore y.op (by simp [hy]) x.op rfl hsame
    rw [hsame, hagg] at hnot
    cases hnot
  · obtain ⟨y, hy, other, hop, hbyte⟩ := exists_of_head?_spelling
      (fun y hy => hparts y (List.mem_append_right _ (List.mem_cons_of_mem x hy))) hhead
    obtain rfl := Symbol.byte_inj hbyte
    have hnot := hbehind y.op (by simp [hy]) (hx.op.trans hop.symm)
    rw [hagg] at hnot
    cases hnot

/-- Neighbours with one opcode are not counted. -/
theorem Program.Merged.not_isAggregatable {y : Instruction} {i : Nat} (h : p.Merged)
    (hx : p[i]? = some x) (hy : p[i + 1]? = some y)
    (hop : x.op = y.op) : x.op.isAggregatable = false := by
  obtain ⟨hi, rfl⟩ := Array.getElem?_eq_some_iff.1 hx
  obtain ⟨hnext, rfl⟩ := Array.getElem?_eq_some_iff.1 hy
  have hneighbours := List.isChain_iff_getElem.1 h i (by simpa [ops] using hnext)
  simpa [ops, hop] using hneighbours

end Runs

/-- The program of a source, written back, is the source without its comments and strays. Every
instruction stands for a symbol, which it counts at least once; an instruction that counts is
written as a run of its symbol that cannot be made longer, as neither of its neighbours has the
same opcode. The text reads as the same program, without a warning. -/
theorem spelling_parse {source : List UInt8} (hlength : source.length < 2 ^ 32) :
    (parse source).program.spelling = essence source ∧
      (∀ front x back, (parse source).program.toList = front ++ x :: back → ∃ symbol : Symbol,
        x.op = symbol.op ∧ x.spelling = List.replicate x.repeats symbol.byte ∧
        (x.op.isAggregatable = true → 1 ≤ x.arg.toNat ∧
          MaximalRun (essence source) (front.flatMap Instruction.spelling) x.spelling
            (back.flatMap Instruction.spelling) symbol.byte)) ∧
      (∀ (i : Nat) (x y : Instruction), (parse source).program[i]? = some x →
        (parse source).program[i + 1]? = some y → x.op = y.op → x.op.isAggregatable = false) ∧
      (parse (parse source).program.spelling).program = (parse source).program ∧
      (parse (parse source).program.spelling).warnings = [] := by
  have hle := Nat.le_refl source.length
  have hspelling : (parse source).program.spelling = essence source := by
    rw [← program_upTo_length, spelling_upTo hlength hle, essence]
  have hwritten : (parse source).program.Written := by
    rw [← program_upTo_length]
    exact written_upTo hlength hle
  have hmerged : (parse source).program.Merged := by
    rw [← program_upTo_length]
    exact merged_upTo hlength hle
  refine ⟨hspelling, fun front x back hsplit => ?_,
    fun i x y => hmerged.not_isAggregatable, ?_, ?_⟩
  · have hmem : x ∈ (parse source).program := by
      rw [← Array.mem_toList_iff, hsplit]
      exact List.mem_append_right _ List.mem_cons_self
    obtain ⟨symbol, hsymbol⟩ := hwritten x hmem
    refine ⟨symbol, hsymbol.op, Instruction.spelling_of_op hsymbol.op, fun hagg => ⟨?_, ?_⟩⟩
    · have hcount := hsymbol.repeats
      rw [Instruction.repeats, if_pos hagg] at hcount
      exact Nat.one_le_iff_ne_zero.2 hcount
    · rw [← hspelling]
      exact hmerged.maximalRun hwritten hsplit hsymbol hagg
  · rw [hspelling, parse_essence]
  · rw [hspelling, parse_essence]
    rfl

/-- A stray, a comment in a run, a loop in another one and a start without
an end (`]+x+[[-]].[`). -/
theorem spelling_parse_of_mixed :
    (parse [93, 43, 120, 43, 91, 91, 45, 93, 93, 46, 91]).program.spelling =
        [43, 43, 91, 91, 45, 93, 93, 46, 91] ∧
      (parse (parse [93, 43, 120, 43, 91, 91, 45, 93, 93, 46, 91]).program.spelling).warnings =
        [] := by
  have hlength :
      ([93, 43, 120, 43, 91, 91, 45, 93, 93, 46, 91] : List UInt8).length < 2 ^ 32 := by
    decide
  obtain ⟨hspelling, -, -, -, hwarnings⟩ := spelling_parse hlength
  have hessence : essence [93, 43, 120, 43, 91, 91, 45, 93, 93, 46, 91] =
      [43, 43, 91, 91, 45, 93, 93, 46, 91] := by decide
  exact ⟨hspelling.trans hessence, hwarnings⟩

end TapeCode
