import TapeCode.Proofs.Block.Parse

/-!
# What each byte of a source adds

`upTo source i` is the builder after the first `i` bytes of a source. A byte does one of five
things to it (`Builder.Adds`): it is passed over, it is counted by the last instruction, or it
adds an instruction of its own, which may start or end a loop. An instruction is fixed once
another one stands behind it, unless it is a loop start that waits for its end (`Builder.Fixed`).
-/

namespace TapeCode

namespace Builder

variable {builder next : Builder} {b : UInt8} {s : Nat} {x : Instruction}

/-- What one byte does to a builder. -/
inductive Adds (builder : Builder) (b : UInt8) : Builder → Prop
  | skip {unmatched : Array Nat} :
      (∀ symbol, Symbol.ofByte? b = some symbol → symbol = .closeBracket ∧ builder.waiting = []) →
      Adds builder b { builder with unmatched }
  | extend {symbol : Symbol} {last : Instruction} : Symbol.ofByte? b = some symbol →
      symbol.op.isAggregatable = true → builder.program.back? = some last → last.op = symbol.op →
      Adds builder b (builder.extend last)
  | append {symbol : Symbol} : Symbol.ofByte? b = some symbol → symbol.op.isJump = false →
      Adds builder b (builder.push symbol.op 1)
  | enter : Symbol.ofByte? b = some .openBracket → Adds builder b builder.openLoop
  | leave {start : Nat} {waiting : List Nat} : Symbol.ofByte? b = some .closeBracket →
      builder.waiting = start :: waiting →
      Adds builder b
        { builder with
          program := (builder.program.put start
            { op := .opens .tested, arg := UInt32.ofNat builder.program.size }).push
              { op := .closes .tested, arg := UInt32.ofNat start }
          waiting }

theorem adds_count {symbol : Symbol} (hb : Symbol.ofByte? b = some symbol)
    (hagg : symbol.op.isAggregatable = true) : builder.Adds b (builder.count symbol.op) := by
  have happend : builder.Adds b (builder.push symbol.op 1) :=
    .append hb (Opcode.isJump_of_isAggregatable hagg)
  unfold count
  split
  · rename_i last hlast
    split
    · rename_i hop
      exact .extend hb hagg hlast hop
    · exact happend
  · exact happend

theorem adds_addByte (builder : Builder) (b : UInt8) (offset : Nat) :
    builder.Adds b (builder.addByte b offset) := by
  unfold addByte
  cases hb : Symbol.ofByte? b with
  | none => exact .skip fun symbol h => by rw [hb] at h; cases h
  | some symbol =>
    cases symbol with
    | openBracket => exact .enter hb
    | closeBracket =>
      dsimp only [addSymbol, closeLoop]
      split
      · rename_i hwaiting
        refine .skip fun symbol h => ⟨?_, hwaiting⟩
        exact Option.some.inj (h.symm.trans hb)
      · rename_i hwaiting
        exact .leave hb hwaiting
    | dot => exact .append hb rfl
    | comma => exact .append hb rfl
    | left => exact adds_count hb rfl
    | right => exact adds_count hb rfl
    | plus => exact adds_count hb rfl
    | minus => exact adds_count hb rfl

@[simp] theorem size_extend (builder : Builder) (last : Instruction) :
    (builder.extend last).program.size = builder.program.size :=
  Program.size_put ..

@[simp] theorem size_push (builder : Builder) (op : Opcode) (arg : UInt32) :
    (builder.push op arg).program.size = builder.program.size + 1 :=
  Array.size_push _

@[simp] theorem size_openLoop (builder : Builder) :
    builder.openLoop.program.size = builder.program.size + 1 :=
  Array.size_push _

namespace Adds

theorem size_le (h : builder.Adds b next) : builder.program.size ≤ next.program.size := by
  cases h <;> simp

/-- The loop starts that wait after a byte. -/
theorem waiting_eq (h : builder.Adds b next) : next.waiting =
    match Symbol.ofByte? b with
    | some .openBracket => builder.program.size :: builder.waiting
    | some .closeBracket => builder.waiting.tail
    | _ => builder.waiting := by
  cases h with
  | skip hskip =>
    split
    · rename_i hb
      cases (hskip _ hb).1
    · rename_i hb
      rw [(hskip _ hb).2]
      rfl
    · rfl
  | @extend symbol last hb hagg hlast hop =>
    rw [hb]
    cases symbol with
    | openBracket => cases hagg
    | closeBracket => cases hagg
    | _ => rfl
  | @append symbol hb hjump =>
    rw [hb]
    cases symbol with
    | openBracket => cases hjump
    | closeBracket => cases hjump
    | _ => rfl
  | enter hb => rw [hb]; rfl
  | leave hb hwaiting => rw [hb, hwaiting]; rfl

/-- A slot changes only if it is a loop start that waits, or the last one, which may count. -/
theorem slot (h : builder.Adds b next) (hx : builder.program[s]? = some x)
    (hs : s ∉ builder.waiting) (hlast : s + 1 < next.program.size ∨ x.op.isAggregatable = false) :
    next.program[s]? = some x := by
  have hlt := (Array.getElem?_eq_some_iff.1 hx).1
  cases h with
  | skip => exact hx
  | @extend symbol last hb hagg hback hop =>
    have hne : builder.program.size - 1 ≠ s := by
      rintro rfl
      rcases hlast with hlast | hlast
      · rw [size_extend] at hlast
        omega
      · rw [Array.back?_eq_getElem?, hx] at hback
        rw [Option.some.inj hback, hop, hagg] at hlast
        cases hlast
    exact (Program.getElem?_put_ne hne).trans hx
  | append => exact (getElem?_push_of_lt hlt).trans hx
  | enter => exact (getElem?_push_of_lt hlt).trans hx
  | @leave start waiting hb hwaiting =>
    have hne : start ≠ s := by
      rintro rfl
      exact hs (hwaiting ▸ List.mem_cons_self)
    exact (getElem?_push_of_lt (by rwa [Program.size_put])).trans
      ((Program.getElem?_put_ne hne).trans hx)

theorem not_mem_waiting (h : builder.Adds b next) (hlt : s < builder.program.size)
    (hs : s ∉ builder.waiting) : s ∉ next.waiting := by
  rw [h.waiting_eq]
  split
  · exact fun hmem => (List.mem_cons.1 hmem).elim (Nat.ne_of_lt hlt) hs
  · exact fun hmem => hs (List.mem_of_mem_tail hmem)
  · exact hs

end Adds

/-- The slot holds an instruction that no further byte changes. -/
structure Fixed (builder : Builder) (s : Nat) (x : Instruction) : Prop where
  slot : builder.program[s]? = some x
  not_mem_waiting : s ∉ builder.waiting
  last : s + 1 < builder.program.size ∨ x.op.isAggregatable = false

theorem Fixed.of_adds (h : builder.Fixed s x) (hadds : builder.Adds b next) : next.Fixed s x := by
  have hlast : s + 1 < next.program.size ∨ x.op.isAggregatable = false :=
    h.last.imp_left fun hlt => Nat.lt_of_lt_of_le hlt hadds.size_le
  exact ⟨hadds.slot h.slot h.not_mem_waiting hlast,
    hadds.not_mem_waiting (Array.getElem?_eq_some_iff.1 h.slot).1 h.not_mem_waiting, hlast⟩

/-- The instructions in front of a new one are fixed. -/
theorem Adds.fixed (h : builder.Adds b next) (hsize : builder.program.size < next.program.size)
    (hx : builder.program[s]? = some x) (hs : s ∉ builder.waiting) : next.Fixed s x := by
  have hlt := (Array.getElem?_eq_some_iff.1 hx).1
  have hlast : s + 1 < next.program.size := by omega
  exact ⟨h.slot hx hs (.inl hlast), h.not_mem_waiting hlt hs, .inl hlast⟩

end Builder

/-! ## The bytes of a source -/

/-- The builder after the first `i` bytes of a source. -/
def upTo (source : List UInt8) (i : Nat) : Builder :=
  Builder.addBytes {} 0 (source.take i)

variable {source : List UInt8} {i n s : Nat} {b : UInt8} {x : Instruction}

theorem addBytes_append (builder : Builder) (offset : Nat) (front tail : List UInt8) :
    builder.addBytes offset (front ++ tail) =
      (builder.addBytes offset front).addBytes (offset + front.length) tail := by
  induction front generalizing builder offset with
  | nil => rfl
  | cons b front ih =>
    rw [List.cons_append, Builder.addBytes, ih, Builder.addBytes, List.length_cons,
      Nat.add_assoc, Nat.add_comm 1]

theorem upTo_succ (hb : source[i]? = some b) :
    upTo source (i + 1) = (upTo source i).addByte b i := by
  have hlt := (List.getElem?_eq_some_iff.1 hb).1
  rw [upTo, List.take_add_one, hb, Option.toList_some, addBytes_append, List.length_take,
    Nat.min_eq_left (Nat.le_of_lt hlt), Nat.zero_add]
  rfl

theorem adds_upTo (hb : source[i]? = some b) : (upTo source i).Adds b (upTo source (i + 1)) :=
  upTo_succ hb ▸ Builder.adds_addByte ..

theorem upTo_of_le (h : source.length ≤ i) : upTo source i = upTo source source.length := by
  rw [upTo, upTo, List.take_of_length_le h, List.take_length]

theorem program_upTo_length (source : List UInt8) :
    (upTo source source.length).program = (parse source).program := by
  rw [upTo, List.take_length]
  rfl

/-- What every further byte keeps holds at the end of a source. -/
theorem of_upTo {P : Builder → Prop}
    (hkeep : ∀ builder b next, P builder → builder.Adds b next → P next)
    (h : P (upTo source i)) : P (upTo source source.length) := by
  rcases Nat.le_total i source.length with hle | hle
  · induction hd : source.length - i generalizing i with
    | zero => rwa [show source.length = i by omega]
    | succ d ih =>
      have hlt : i < source.length := by omega
      refine ih (hkeep _ _ _ h (adds_upTo (List.getElem?_eq_getElem hlt))) hlt (by omega)
  · rwa [upTo_of_le hle] at h

/-- A fixed instruction stands in the program of the source. -/
theorem getElem?_parse (h : (upTo source i).Fixed s x) : (parse source).program[s]? = some x := by
  rw [← program_upTo_length]
  exact (of_upTo (fun _ _ _ => Builder.Fixed.of_adds) h).slot

theorem size_upTo_le (i : Nat) : (upTo source i).program.size ≤ (parse source).program.size := by
  rw [← program_upTo_length]
  exact of_upTo (P := fun builder => (upTo source i).program.size ≤ builder.program.size)
    (fun _ _ _ hle hadds => Nat.le_trans hle hadds.size_le) (Nat.le_refl _)

/-! ## Waiting loop starts -/

namespace Builder.Trail

variable {p : Program} {waiting : List Nat} {total stop start : Nat}

theorem slot (h : Trail p waiting total stop) (hmem : start ∈ waiting) :
    start < stop ∧ p[start]? = some { op := .opens .tested, arg := Instruction.unresolved } := by
  induction h with
  | base => cases hmem
  | @wait first total stop waiting block htrail hstart hholds _ ih =>
    have hlt : first < stop := hholds.le
    rcases List.mem_cons.1 hmem with rfl | hmem
    · exact ⟨hlt, hstart⟩
    · exact ⟨Nat.lt_trans (ih hmem).1 hlt, (ih hmem).2⟩

/-- A loop start waits once. -/
theorem not_mem (h : Trail p (start :: waiting) total stop) : start ∉ waiting := by
  cases h with
  | wait htrail => exact fun hmem => Nat.lt_irrefl _ (htrail.slot hmem).1

end Builder.Trail

/-- The loop starts that wait are unresolved. -/
def Builder.Starts (builder : Builder) : Prop :=
  ∀ start ∈ builder.waiting, builder.program[start]? =
    some { op := .opens .tested, arg := Instruction.unresolved }

theorem valid_upTo (hlength : source.length < 2 ^ 32) (i : Nat) :
    (upTo source i).Valid (source.take i).length := by
  have hcount : 0 + (source.take i).length < 2 ^ 32 := by
    rw [List.length_take]
    omega
  have hvalid := Builder.Valid.empty.addBytes hcount 0
  rwa [Nat.zero_add] at hvalid

theorem starts_upTo (hlength : source.length < 2 ^ 32) (i : Nat) : (upTo source i).Starts := by
  obtain ⟨total, htrail, -⟩ := (valid_upTo hlength i).trail
  exact fun start hmem => (htrail.slot hmem).2

end TapeCode
