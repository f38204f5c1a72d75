import TapeCode.Proofs.Block.Compact
import TapeCode.Source

/-!
# The program that a source writes

While a source is read, the loop starts that still wait for their end cut the program into blocks:
one in front of the first of them, and one behind each. `Builder.Trail` describes this. A symbol
extends the last block, and the end of a loop turns the last block into the body of a loop behind
the block before. Reading ends with starts that still wait, which are the stubs of the whole
program (`Builder.Trail.exists_holds`).

`parse_holds` collects what is known of the program of a source shorter than `2 ^ 32` bytes.
-/

namespace TapeCode

namespace Block

/-- A block as it is read: without vacant slots, counted loops and stubs. -/
def Raw : Block → Prop
  | done => True
  | instr x rest => x.isLive = true ∧ rest.Raw
  | loop kind body rest => kind = .tested ∧ body.Raw ∧ rest.Raw
  | stub _ _ => False

/-- What is known of a program as it is read. -/
structure Fresh (block : Block) : Prop where
  safe : block.Safe
  tidy : block.Tidy
  solid : block.Solid

theorem raw_append (front tail : Block) : (front.append tail).Raw ↔ front.Raw ∧ tail.Raw := by
  induction front with
  | done => simp [append, Raw]
  | instr x rest ih => simp [append, Raw, ih, and_assoc]
  | loop kind body rest _ ih => simp [append, Raw, ih, and_assoc]
  | stub kind rest => simp [append, Raw]

theorem Raw.closed {block : Block} (h : block.Raw) : block.Closed := by
  induction block with
  | done => trivial
  | instr x rest ih => exact ih h.2
  | loop kind body rest ihBody ihRest => exact ⟨ihBody h.2.1, ihRest h.2.2⟩
  | stub kind rest => exact h.elim

theorem Raw.fresh {block : Block} (h : block.Raw) : block.Fresh := by
  refine ⟨?_, h.closed.tidy, ?_⟩
  · induction block with
    | done => trivial
    | instr x rest ih => exact ih h.2
    | loop kind body rest ihBody ihRest =>
      refine ⟨?_, ihBody h.2.1, ihRest h.2.2⟩
      rw [h.1]
      rintro ⟨⟩
    | stub kind rest => exact h.elim
  · induction block with
    | done => trivial
    | instr x rest ih => exact ⟨h.1, ih h.2⟩
    | loop kind body rest ihBody ihRest => exact ⟨ihBody h.2.1, ihRest h.2.2⟩
    | stub kind rest => exact h.elim

theorem Fresh.append {front tail : Block} (h : front.Fresh) (htail : tail.Fresh) :
    (front.append tail).Fresh := by
  obtain ⟨hsafe, htidy, hsolid⟩ := h
  refine ⟨(safe_append _ _).2 ⟨hsafe, htail.safe⟩, ?_, ?_⟩
  · induction front with
    | done => exact htail.tidy
    | instr x rest ih => exact ih hsafe htidy hsolid.2
    | loop kind body rest _ ih => exact ⟨htidy.1, ih hsafe.2.2 htidy.2 hsolid.2⟩
    | stub kind rest ih => exact ih hsafe htidy hsolid
  · induction front with
    | done => exact htail.solid
    | instr x rest ih => exact ⟨hsolid.1, ih hsafe htidy hsolid.2⟩
    | loop kind body rest _ ih => exact ⟨hsolid.1, ih hsafe.2.2 htidy.2 hsolid.2⟩
    | stub kind rest ih => exact ih hsafe htidy hsolid

theorem Fresh.stub {block : Block} (h : block.Fresh) (kind : LoopKind) :
    (Block.stub kind block).Fresh :=
  ⟨h.safe, h.tidy, h.solid⟩

end Block

namespace Builder

/-- The program up to `stop` is cut by the waiting starts, innermost first, into blocks as they
are read, whose counts add up to `total`. -/
inductive Trail (p : Program) : List Nat → Nat → Nat → Prop
  | base {stop : Nat} {block : Block} : p.Holds 0 block stop → block.Raw →
    Trail p [] (block.load true) stop
  | wait {start total stop : Nat} {waiting : List Nat} {block : Block} :
    Trail p waiting total start →
    p[start]? = some { op := .opens .tested, arg := Instruction.unresolved } →
    p.Holds (start + 1) block stop → block.Raw →
    Trail p (start :: waiting) (total + block.load true) stop

theorem getElem?_push_of_lt {p : Program} {x : Instruction} {j : Nat} (hj : j < p.size) :
    (p.push x)[j]? = p[j]? := by
  rw [Array.getElem?_push, if_neg (Nat.ne_of_lt hj)]

namespace Trail

variable {p q : Program} {waiting : List Nat} {total stop : Nat}

theorem congr (h : Trail p waiting total stop) (hslots : ∀ j, j < stop → q[j]? = p[j]?) :
    Trail q waiting total stop := by
  induction h with
  | base hholds hraw => exact .base (hholds.congr fun j _ hlt => hslots j hlt) hraw
  | @wait start total stop waiting block htrail hstart hholds hraw ih =>
    have hlt : start < stop := hholds.le
    exact .wait (ih fun j hj => hslots j (by omega)) ((hslots start hlt).trans hstart)
      (hholds.congr fun j _ hj => hslots j hj) hraw

/-- A block as it is read extends the last block. -/
theorem append {stop' : Nat} {tail : Block} (h : Trail p waiting total stop)
    (htail : p.Holds stop tail stop') (hraw : tail.Raw) :
    Trail p waiting (total + tail.load true) stop' := by
  cases h with
  | @base stop block hholds hblock =>
    rw [← Block.load_append]
    exact .base (hholds.append htail) ((Block.raw_append _ _).2 ⟨hblock, hraw⟩)
  | @wait start total stop waiting block htrail hstart hholds hblock =>
    rw [Nat.add_assoc, ← Block.load_append]
    exact .wait htrail hstart (hholds.append htail) ((Block.raw_append _ _).2 ⟨hblock, hraw⟩)

/-- An instruction other than a jump at the end of the last block comes off. -/
theorem pop {last : Nat} {x : Instruction} (h : Trail p waiting total (last + 1))
    (hx : p[last]? = some x) (hjump : x.op.isJump = false) :
    ∃ total', total = total' + x.load true ∧ Trail p waiting total' last := by
  generalize hstop : last + 1 = stop at h
  cases h with
  | @base stop block hholds hblock =>
    subst hstop
    obtain ⟨front, rfl, hfront⟩ := hholds.exists_append_instr (Nat.zero_le _) hx hjump
    exact ⟨_, by simp [Block.load_append, Block.load],
      .base hfront ((Block.raw_append _ _).1 hblock).1⟩
  | @wait start total stop waiting block htrail hstart hholds hblock =>
    subst hstop
    have hlast : start + 1 ≤ last := by
      have hle := hholds.le
      refine Nat.lt_of_le_of_ne (by omega) ?_
      rintro rfl
      obtain rfl := Option.some.inj (hstart.symm.trans hx)
      cases hjump
    obtain ⟨front, rfl, hfront⟩ := hholds.exists_append_instr hlast hx hjump
    exact ⟨total + front.load true, by simp [Block.load_append, Block.load, Nat.add_assoc],
      .wait htrail hstart hfront ((Block.raw_append _ _).1 hblock).1⟩

/-- An instruction other than a jump is put behind the last block. -/
theorem push {x : Instruction} (h : Trail p waiting total p.size) (hjump : x.op.isJump = false)
    (hlive : x.isLive = true) :
    Trail (p.push x) waiting (total + x.load true) (p.size + 1) := by
  have hnew : Program.Holds (p.push x) p.size (.instr x .done) (p.size + 1) :=
    .instr Array.getElem?_push_size hjump .done
  exact (h.congr fun _ hj => getElem?_push_of_lt hj).append hnew ⟨hlive, trivial⟩

/-- The whole program as a block, whose stubs are the starts that still wait. -/
theorem exists_holds (h : Trail p waiting total stop) :
    ∃ block : Block, p.Holds 0 block stop ∧ block.Fresh ∧ block.load true = total := by
  induction h with
  | base hholds hraw => exact ⟨_, hholds, hraw.fresh, rfl⟩
  | @wait start total stop waiting block _ hstart hholds hraw ih =>
    obtain ⟨front, hfront, hfresh, hload⟩ := ih
    refine ⟨front.append (.stub .tested block), hfront.append (.stub hstart rfl rfl hholds),
      hfresh.append (hraw.fresh.stub _), ?_⟩
    rw [Block.load_append, hload, Block.load]

end Trail

/-- After `count` bytes the program is cut into blocks, and neither it nor its counts have
outgrown the bytes. -/
structure Valid (builder : Builder) (count : Nat) : Prop where
  trail : ∃ total, Trail builder.program builder.waiting total builder.program.size ∧
    total ≤ count
  size_le : builder.program.size ≤ count

namespace Valid

variable {builder : Builder} {count : Nat}

theorem empty : Valid {} 0 :=
  ⟨⟨0, .base (.done : Program.Holds #[] 0 .done 0) trivial, Nat.le_refl _⟩, Nat.le_refl _⟩

theorem mono (h : builder.Valid count) {count' : Nat} (hle : count ≤ count') :
    builder.Valid count' := by
  obtain ⟨⟨total, htrail, htotal⟩, hsize⟩ := h
  exact ⟨⟨total, htrail, Nat.le_trans htotal hle⟩, Nat.le_trans hsize hle⟩

theorem push (h : builder.Valid count) {op : Opcode} (hjump : op.isJump = false)
    (hlive : op.isLive = true) : (builder.push op 1).Valid (count + 1) := by
  obtain ⟨⟨total, htrail, htotal⟩, hsize⟩ := h
  have hgrown := htrail.push (x := { op, arg := 1 }) hjump hlive
  have hone : ({ op, arg := 1 } : Instruction).load true ≤ 1 := by
    unfold Instruction.load
    split
    · exact Nat.le_refl 1
    · exact Nat.zero_le 1
  exact ⟨⟨_, by simpa [Builder.push] using hgrown, by omega⟩, by simpa [Builder.push] using hsize⟩

theorem extend (h : builder.Valid count) {last : Instruction}
    (hlast : builder.program.back? = some last) (hagg : last.op.isAggregatable = true) :
    (builder.extend last).Valid (count + 1) := by
  obtain ⟨⟨total, htrail, htotal⟩, hsize⟩ := h
  rw [Array.back?_eq_getElem?] at hlast
  have hlt := (Array.getElem?_eq_some_iff.1 hlast).1
  obtain ⟨slot, hslot⟩ : ∃ slot, builder.program.size = slot + 1 :=
    ⟨builder.program.size - 1, by omega⟩
  simp only [Builder.extend, hslot, Nat.add_sub_cancel] at hlast ⊢
  have hjump := Opcode.isJump_of_isAggregatable hagg
  have hlive := Opcode.isLive_of_isAggregatable hagg
  rw [hslot] at htrail
  obtain ⟨total', rfl, hbefore⟩ := htrail.pop hlast hjump
  have hput (j : Nat) (hj : j < slot) :
      (builder.program.put slot { last with arg := last.arg + 1 })[j]? = builder.program[j]? :=
    Program.getElem?_put_ne (by omega)
  have hslot' : (builder.program.put slot { last with arg := last.arg + 1 })[slot]? =
      some { last with arg := last.arg + 1 } := by
    rw [Program.getElem?_put, if_pos rfl, if_pos (by omega)]
  have hnew : (builder.program.put slot { last with arg := last.arg + 1 }).Holds slot
      (.instr { last with arg := last.arg + 1 } .done) (slot + 1) := .instr hslot' hjump .done
  have hgrown := (hbefore.congr hput).append hnew ⟨hlive, trivial⟩
  have hone : ({ last with arg := last.arg + 1 } : Instruction).load true ≤
    last.load true + 1 := by
    simp only [Instruction.load]
    split
    · rw [UInt32.toNat_add]
      exact Nat.mod_le _ _
    · omega
  refine ⟨⟨_, by simpa [hslot] using hgrown, ?_⟩, by simp; omega⟩
  simp only [Block.load]
  omega

theorem openLoop (h : builder.Valid count) : builder.openLoop.Valid (count + 1) := by
  obtain ⟨⟨total, htrail, htotal⟩, hsize⟩ := h
  have hgrown := htrail.congr fun j hj =>
    getElem?_push_of_lt (x := { op := .opens .tested, arg := Instruction.unresolved }) hj
  have hwait := hgrown.wait Array.getElem?_push_size .done (trivial : Block.done.Raw)
  exact ⟨⟨total, by simpa [Builder.openLoop, Block.load] using hwait, by omega⟩,
    by simpa [Builder.openLoop] using hsize⟩

theorem closeLoop (h : builder.Valid count) (hcount : count < 2 ^ 32 - 1) (offset : Nat) :
    (builder.closeLoop offset).Valid (count + 1) := by
  obtain ⟨⟨total, htrail, htotal⟩, hsize⟩ := h
  unfold Builder.closeLoop
  split
  · rename_i hwaiting
    exact ⟨⟨total, htrail, by omega⟩, Nat.le_succ_of_le hsize⟩
  · rename_i start waiting hwaiting
    rw [hwaiting] at htrail
    cases htrail with
    | @wait _ before _ _ block hbefore hstart hholds hraw =>
      have hlt : start < builder.program.size := hholds.le
      let opens : Instruction :=
        { op := .opens .tested, arg := UInt32.ofNat builder.program.size }
      let closes : Instruction := { op := .closes .tested, arg := UInt32.ofNat start }
      let linked : Program := (builder.program.put start opens).push closes
      have hclose : linked[builder.program.size]? = some closes := by
        have hpushed : linked[(builder.program.put start opens).size]? = some closes :=
          Array.getElem?_push_size
        rwa [Program.size_put] at hpushed
      have hopen : linked[start]? = some opens := by
        rw [getElem?_push_of_lt (by rwa [Program.size_put]), Program.getElem?_put, if_pos rfl,
          if_pos hlt]
      have hothers (j : Nat) (hj : j < builder.program.size) (hne : start ≠ j) :
          linked[j]? = builder.program[j]? := by
        rw [getElem?_push_of_lt (by rwa [Program.size_put]), Program.getElem?_put_ne hne]
      have hloop : linked.IsLoop start builder.program.size .tested :=
        ⟨⟨opens, hopen, rfl, Instruction.target?_of_arg_eq rfl (by omega)⟩,
          closes, hclose, rfl, Instruction.target?_of_arg_eq rfl (by omega)⟩
      have hbody := hholds.congr fun j hle hj => hothers j hj (by omega)
      have hnew : linked.Holds start (.loop .tested block .done) (builder.program.size + 1) :=
        .loop hloop hbody .done
      have hgrown := (hbefore.congr fun j hj => hothers j (by omega) (by omega)).append hnew
        ⟨rfl, hraw, trivial⟩
      refine ⟨⟨_, by simpa [linked, opens, closes] using hgrown, ?_⟩, by simp; omega⟩
      simp only [Block.load]
      omega

theorem addSymbol (h : builder.Valid count) (hcount : count < 2 ^ 32 - 1) (symbol : Symbol)
    (offset : Nat) : (builder.addSymbol symbol offset).Valid (count + 1) := by
  have hcountable {op : Opcode} (hagg : op.isAggregatable = true) :
      (builder.count op).Valid (count + 1) := by
    have hpush :=
      h.push (Opcode.isJump_of_isAggregatable hagg) (Opcode.isLive_of_isAggregatable hagg)
    unfold Builder.count
    split
    · rename_i last hlast
      split
      · rename_i hop
        exact h.extend hlast (hop ▸ hagg)
      · exact hpush
    · exact hpush
  cases symbol with
  | openBracket => exact h.openLoop
  | closeBracket => exact h.closeLoop hcount offset
  | dot => exact h.push rfl rfl
  | comma => exact h.push rfl rfl
  | _ => exact hcountable rfl

theorem addByte (h : builder.Valid count) (hcount : count < 2 ^ 32 - 1) (b : UInt8)
    (offset : Nat) : (builder.addByte b offset).Valid (count + 1) := by
  unfold Builder.addByte
  split
  · exact h.addSymbol hcount _ offset
  · exact h.mono (Nat.le_succ count)

theorem addBytes {bytes : List UInt8} (h : builder.Valid count)
    (hcount : count + bytes.length < 2 ^ 32) (offset : Nat) :
    (builder.addBytes offset bytes).Valid (count + bytes.length) := by
  induction bytes generalizing builder count offset with
  | nil => exact h
  | cons b bytes ih =>
    rw [List.length_cons] at hcount ⊢
    have hrest := ih (h.addByte (by omega) b offset) (by omega) (offset + 1)
    rwa [Nat.add_assoc, Nat.add_comm 1] at hrest

end Valid

end Builder

/-- The program of a source shorter than `2 ^ 32` bytes is laid out as a block in which no loop is
counted and whose counts fit into an operand. -/
theorem parse_holds {source : List UInt8} (hlength : source.length < 2 ^ 32) :
    ∃ block : Block, (parse source).program.Holds 0 block (parse source).program.size ∧
      block.Fresh ∧ block.load true < 2 ^ 32 := by
  have hvalid : (Builder.addBytes {} 0 source).Valid (0 + source.length) :=
    Builder.Valid.empty.addBytes (by omega) 0
  obtain ⟨total, htrail, htotal⟩ := hvalid.trail
  obtain ⟨block, hholds, hfresh, hload⟩ := htrail.exists_holds
  exact ⟨block, hholds, hfresh, by omega⟩

end TapeCode
