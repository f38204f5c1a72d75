import TapeCode.Link

/-!
# Blocks

A program is a flat array in which a loop is a pair of jumps. A `Block` is a stretch of such an
array seen as a tree: an instruction is followed by a rest, a loop has a body and a rest, and a
loop start whose end never came is a stub.

`Program.Holds p i block stop` says that the slots `i`, …, `stop - 1` of `p` are laid out as
`block`: the two ends of every loop designate each other, and only stubs are unresolved. The
relation looks at slots alone, so it carries over to every program that agrees on them
(`Holds.congr`), and blocks that stand one behind the other form one block (`Holds.append`).
-/

namespace TapeCode

/-- A stretch of a program as a tree. -/
inductive Block where
  | done
  | instr (x : Instruction) (rest : Block)
  | loop (kind : LoopKind) (body rest : Block)
  /-- A loop start without an end. -/
  | stub (kind : LoopKind) (rest : Block)
  deriving DecidableEq, Repr

namespace Block

/-- One block behind another. -/
def append : Block → Block → Block
  | done, tail => tail
  | instr x rest, tail => instr x (rest.append tail)
  | loop kind body rest, tail => loop kind body (rest.append tail)
  | stub kind rest, tail => stub kind (rest.append tail)

/-- Instructions in front of a block. -/
def instrs (xs : List Instruction) (rest : Block) : Block :=
  xs.foldr instr rest

/-- Vacant slots in front of a block. -/
def nops (n : Nat) (rest : Block) : Block :=
  instrs (List.replicate n .nop) rest

@[simp] theorem instrs_nil (rest : Block) : instrs [] rest = rest := rfl

@[simp] theorem instrs_cons (x : Instruction) (xs : List Instruction) (rest : Block) :
    instrs (x :: xs) rest = instr x (instrs xs rest) := rfl

@[simp] theorem nops_succ (n : Nat) (rest : Block) :
    nops (n + 1) rest = instr .nop (nops n rest) := rfl

@[simp] theorem append_done (block : Block) : block.append done = block := by
  induction block with
  | done => rfl
  | instr x rest ih => rw [append, ih]
  | loop kind body rest _ ih => rw [append, ih]
  | stub kind rest ih => rw [append, ih]

@[simp] theorem append_instrs (xs : List Instruction) (rest tail : Block) :
    (instrs xs rest).append tail = instrs xs (rest.append tail) := by
  induction xs with
  | nil => rfl
  | cons x xs ih => rw [instrs_cons, append, ih, instrs_cons]

@[simp] theorem append_nops (n : Nat) (rest tail : Block) :
    (nops n rest).append tail = nops n (rest.append tail) :=
  append_instrs _ rest tail

end Block

namespace Program

/-- The two jumps at `i` and `close` are the ends of a loop of the given kind. -/
structure IsLoop (p : Program) (i close : Nat) (kind : LoopKind) : Prop where
  opens : ∃ a, p[i]? = some a ∧ a.op = .opens kind ∧ a.target? = some close
  closes : ∃ b, p[close]? = some b ∧ b.op = .closes kind ∧ b.target? = some i

/-- The slots `i`, …, `stop - 1` are laid out as a block. -/
inductive Holds (p : Program) : Nat → Block → Nat → Prop
  | done {i : Nat} : Holds p i .done i
  | instr {i stop : Nat} {x : Instruction} {rest : Block} :
    p[i]? = some x → x.op.isJump = false → Holds p (i + 1) rest stop →
    Holds p i (.instr x rest) stop
  | loop {i close stop : Nat} {kind : LoopKind} {body rest : Block} :
    p.IsLoop i close kind → Holds p (i + 1) body close → Holds p (close + 1) rest stop →
    Holds p i (.loop kind body rest) stop
  | stub {i stop : Nat} {a : Instruction} {kind : LoopKind} {rest : Block} :
    p[i]? = some a → a.op = .opens kind → a.target? = none → Holds p (i + 1) rest stop →
    Holds p i (.stub kind rest) stop

/-! ## Links of a loop -/

section Links

variable {p : Program} {i close stop : Nat} {kind : LoopKind}

/-- A loop start is linked to the end of its loop. -/
theorem IsLoop.of_linked {x : Instruction} (h : p.linked i close = true) (hx : p[i]? = some x)
    (hop : x.op = .opens kind) : p.IsLoop i close kind := by
  obtain ⟨a, b, ha, hb, hpartner, hat, hbt⟩ := linked_iff.1 h
  obtain rfl := Option.some.inj (hx.symm.trans ha)
  rw [hop] at hpartner
  exact ⟨⟨x, hx, hop, hat⟩, b, hb, (Option.some.inj hpartner).symm, hbt⟩

/-- The end that is found for the start of a loop is the end of the loop. -/
theorem isLoop_of_closeOf? {x : Instruction} (h : p.closeOf? i stop = some close)
    (hx : p[i]? = some x) (hop : x.op = .opens kind) : p.IsLoop i close kind :=
  .of_linked (linked_of_closeOf? h) hx hop

/-- The ends of a loop are linked. -/
theorem IsLoop.close_lt_size (h : p.IsLoop i close kind) : close < p.size := by
  obtain ⟨b, hb, -⟩ := h.closes
  exact (Array.getElem?_eq_some_iff.1 hb).1

theorem IsLoop.linked (h : p.IsLoop i close kind) : p.linked i close = true := by
  obtain ⟨⟨a, ha, haop, hat⟩, b, hb, hbop, hbt⟩ := h
  simp [Program.linked, ha, hb, haop, hbop, hat, hbt, Opcode.partner?]

/-- A loop that ends inside a span is found there. -/
theorem IsLoop.closeOf? (h : p.IsLoop i close kind) (hlt : i < close) (hstop : close < stop) :
    p.closeOf? i stop = some close := by
  obtain ⟨a, ha, haop, hat⟩ := h.opens
  simp [Program.closeOf?, ha, hat, hlt, hstop, h.linked]

/-- The end that is found for the start of a loop is its own. -/
theorem IsLoop.eq_of_closeOf? {found : Nat} (h : p.IsLoop i close kind)
    (hf : p.closeOf? i stop = some found) : found = close := by
  obtain ⟨a, ha, haop, hat⟩ := h.opens
  simp only [Program.closeOf?, ha, hat, Option.bind_eq_bind, Option.bind_some] at hf
  split at hf
  · exact (Option.some.inj hf).symm
  · cases hf

/-- A loop is of the kind of its start. -/
theorem IsLoop.kind_eq {a : Instruction} {kind' : LoopKind} (h : p.IsLoop i close kind)
    (ha : p[i]? = some a) (haop : a.op = .opens kind') : kind = kind' := by
  obtain ⟨b, hb, hbop, -⟩ := h.opens
  obtain rfl := Option.some.inj (ha.symm.trans hb)
  cases haop.symm.trans hbop
  rfl

/-- No end is found for an unresolved start. -/
theorem closeOf?_eq_none {a : Instruction} (ha : p[i]? = some a) (hat : a.target? = none) :
    p.closeOf? i stop = none := by
  simp [Program.closeOf?, ha, hat]

/-- A loop depends on its two slots only. -/
theorem IsLoop.congr {q : Program} (h : p.IsLoop i close kind) (hi : q[i]? = p[i]?)
    (hclose : q[close]? = p[close]?) : q.IsLoop i close kind := by
  obtain ⟨⟨a, ha, haop, hat⟩, b, hb, hbop, hbt⟩ := h
  exact ⟨⟨a, hi.trans ha, haop, hat⟩, b, hclose.trans hb, hbop, hbt⟩

end Links

/-! ## The layout of a block -/

namespace Holds

variable {p q : Program} {i stop : Nat} {block : Block}

theorem le (h : p.Holds i block stop) : i ≤ stop := by
  induction h with
  | done => exact Nat.le_refl _
  | instr _ _ _ ih => omega
  | loop _ _ _ ihBody ihRest => omega
  | stub _ _ _ _ ih => omega

/-- A layout depends on its own slots only. -/
theorem congr (h : p.Holds i block stop) (hslots : ∀ j, i ≤ j → j < stop → q[j]? = p[j]?) :
    q.Holds i block stop := by
  induction h with
  | done => exact .done
  | @instr i stop x rest hx hjump hrest ih =>
    have := hrest.le
    exact .instr ((hslots i (by omega) (by omega)).trans hx) hjump
      (ih fun j hj hlt => hslots j (by omega) hlt)
  | @loop i close stop kind body rest hloop hbody hrest ihBody ihRest =>
    have := hbody.le
    have := hrest.le
    exact .loop
      (hloop.congr (hslots i (by omega) (by omega)) (hslots close (by omega) (by omega)))
      (ihBody fun j hj hlt => hslots j (by omega) (by omega))
      (ihRest fun j hj hlt => hslots j (by omega) hlt)
  | @stub i stop a kind rest ha haop hat hrest ih =>
    have := hrest.le
    exact .stub ((hslots i (by omega) (by omega)).trans ha) haop hat
      (ih fun j hj hlt => hslots j (by omega) hlt)

/-- Adjacent layouts form one. -/
theorem append {middle : Nat} {tail : Block} (h : p.Holds i block middle)
    (htail : p.Holds middle tail stop) : p.Holds i (block.append tail) stop := by
  induction h with
  | done => exact htail
  | instr hx hjump _ ih => exact .instr hx hjump (ih htail)
  | loop hloop hbody _ _ ihRest => exact .loop hloop hbody (ihRest htail)
  | stub ha haop hat _ ih => exact .stub ha haop hat (ih htail)

/-- Vacant slots are laid out in front of a block. -/
theorem nops {n : Nat} {rest : Block} (hrest : p.Holds (i + n) rest stop)
    (hslots : ∀ j, i ≤ j → j < i + n → p[j]? = some .nop) :
    p.Holds i (Block.nops n rest) stop := by
  induction n generalizing i with
  | zero => exact hrest
  | succ n ih =>
    refine .instr (hslots i (by omega) (by omega)) rfl (ih ?_ fun j hj hlt => ?_)
    · rwa [Nat.add_right_comm]
    · exact hslots j (by omega) (by omega)

/-- A layout that ends with an instruction other than a jump has that instruction as
its last node. -/
theorem exists_append_instr {last : Nat} {x : Instruction} (h : p.Holds i block (last + 1))
    (hle : i ≤ last) (hx : p[last]? = some x) (hjump : x.op.isJump = false) :
    ∃ front, block = front.append (.instr x .done) ∧ p.Holds i front last := by
  generalize hstop : last + 1 = stop at h
  induction h with
  | done => omega
  | @instr i stop y rest hy hyjump hrest ih =>
    rcases Nat.lt_or_eq_of_le hle with hlt | rfl
    · obtain ⟨front, rfl, hfront⟩ := ih (by omega) hstop
      exact ⟨.instr y front, rfl, .instr hy hyjump hfront⟩
    · obtain rfl := Option.some.inj (hx.symm.trans hy)
      cases hrest with
      | done => exact ⟨.done, rfl, .done⟩
      | instr _ _ hrest => have := hrest.le; omega
      | loop _ hbody hrest => have := hbody.le; have := hrest.le; omega
      | stub _ _ _ hrest => have := hrest.le; omega
  | @loop i close stop kind body rest hloop hbody hrest _ ihRest =>
    have := hbody.le
    have := hrest.le
    rcases Nat.lt_or_ge close last with hlt | hge
    · obtain ⟨front, rfl, hfront⟩ := ihRest (by omega) hstop
      exact ⟨.loop kind body front, rfl, .loop hloop hbody hfront⟩
    · obtain ⟨b, hb, hbop, _⟩ := hloop.closes
      obtain rfl : close = last := by omega
      obtain rfl := Option.some.inj (hx.symm.trans hb)
      rw [hbop] at hjump
      cases hjump
  | @stub i stop a kind rest ha haop hat hrest ih =>
    rcases Nat.lt_or_eq_of_le hle with hlt | rfl
    · obtain ⟨front, rfl, hfront⟩ := ih (by omega) hstop
      exact ⟨.stub kind front, rfl, .stub ha haop hat hfront⟩
    · obtain rfl := Option.some.inj (hx.symm.trans ha)
      rw [haop] at hjump
      cases hjump

end Holds

end Program

end TapeCode
