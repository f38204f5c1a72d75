import TapeCode.Proofs.Block.Fusion
import TapeCode.Window.Loop

/-!
# Rewriting a block

`Block.Step` lists the local changes that the optimizer makes to a block: it fuses a run of
instructions, replaces a loop that counts its cell to zero, drops a loop that cannot run, and
turns a loop that takes one off its cell every round into a counted one. `Block.Rewrite` is one
such change anywhere in a block.

The conditions that the analyses establish when a counted loop is made (`Block.Inert`) have to
hold for as long as the loop is there, although its body is rewritten later. `Block.Safe` says
that they do, and `Rewrite.safe` that rewriting keeps this. It rests on `Rewrite.motion` and
`Rewrite.effectFrom`: what the analyses know of a block, they still know after a change.
-/

namespace TapeCode

namespace Block

/-- The body of every counted loop is inert. -/
def Safe : Block → Prop
  | done => True
  | instr _ rest => rest.Safe
  | loop kind body rest => (kind = .counted → body.Inert) ∧ body.Safe ∧ rest.Safe
  | stub _ rest => rest.Safe

/-- Every loop start has its end. -/
def Closed : Block → Prop
  | done => True
  | instr _ rest => rest.Closed
  | loop _ body rest => body.Closed ∧ rest.Closed
  | stub _ _ => False

/-- A loop start without an end stands outside of all loops. -/
def Tidy : Block → Prop
  | done => True
  | instr _ rest => rest.Tidy
  | loop _ body rest => body.Closed ∧ rest.Tidy
  | stub _ rest => rest.Tidy

/-- A local change at the start of a block. -/
inductive Step : Block → Block → Prop
  | fuse {xs : List Instruction} {y : Instruction} (n : Nat) (rest : Block) : Fuses xs y →
    Step (instrs xs rest) (instr y (nops n rest))
  /-- A loop that counts its cell to zero becomes an assignment. -/
  | zero {x : Instruction} (n : Nat) (rest : Block) : Window.isPlainArithmetic x = true →
    x.arg = 1 →
    Step (loop .tested (instr x done) rest) (instr { op := .set .here } (nops n rest))
  /-- The assignment takes in the arithmetic behind it. -/
  | assign {x next : Instruction} (n : Nat) (rest : Block) : Window.isPlainArithmetic x = true →
    x.arg = 1 → Window.isPlainArithmetic next = true →
    Step (loop .tested (instr x done) (instr next rest))
      (instr { op := .set .here, arg := next.change.toUInt32 } (nops n rest))
  /-- A vacant slot goes away. -/
  | clear {x : Instruction} (rest : Block) : x.isLive = false → Step (instr x rest) rest
  /-- A loop right after its cell is set to zero never runs. -/
  | drop {x : Instruction} {kind : LoopKind} (n : Nat) (body rest : Block) : x.op = .set .here →
    x.arg = 0 → Step (instr x (loop kind body rest)) (instr x (nops n rest))
  /-- A loop takes over the decrement at the front of its body. -/
  | takeFront {x : Instruction} {body : Block} (rest : Block) : Window.isDecrement x = true →
    body.Inert → Step (loop .tested (instr x body) rest) (loop .counted (instr .nop body) rest)
  /-- A loop takes over the decrement at the back of its body, which never looks at the cell. -/
  | takeBack {x : Instruction} {body : Block} (rest : Block) : Window.isDecrement x = true →
    body.Inert → body.observes 0 = false →
    Step (loop .tested (body.append (instr x done)) rest)
      (loop .counted (body.append (instr .nop done)) rest)

/-- A local change anywhere in a block. -/
inductive Rewrite : Block → Block → Prop
  | here {b c : Block} : Step b c → Rewrite b c
  | instr {b c : Block} (x : Instruction) : Rewrite b c → Rewrite (instr x b) (instr x c)
  | body {b c : Block} (kind : LoopKind) (rest : Block) : Rewrite b c →
    Rewrite (loop kind b rest) (loop kind c rest)
  | behind {b c : Block} (kind : LoopKind) (body : Block) : Rewrite b c →
    Rewrite (loop kind body b) (loop kind body c)
  | stub {b c : Block} (kind : LoopKind) : Rewrite b c → Rewrite (stub kind b) (stub kind c)

/-! ## Blocks made of parts -/

@[simp] theorem safe_instrs (xs : List Instruction) (rest : Block) :
    (instrs xs rest).Safe ↔ rest.Safe := by
  induction xs with
  | nil => rfl
  | cons x xs ih => simpa [Safe] using ih

@[simp] theorem closed_instrs (xs : List Instruction) (rest : Block) :
    (instrs xs rest).Closed ↔ rest.Closed := by
  induction xs with
  | nil => rfl
  | cons x xs ih => simpa [Closed] using ih

@[simp] theorem tidy_instrs (xs : List Instruction) (rest : Block) :
    (instrs xs rest).Tidy ↔ rest.Tidy := by
  induction xs with
  | nil => rfl
  | cons x xs ih => simpa [Tidy] using ih

@[simp] theorem safe_nops (n : Nat) (rest : Block) : (nops n rest).Safe ↔ rest.Safe :=
  safe_instrs _ _

@[simp] theorem closed_nops (n : Nat) (rest : Block) : (nops n rest).Closed ↔ rest.Closed :=
  closed_instrs _ _

@[simp] theorem tidy_nops (n : Nat) (rest : Block) : (nops n rest).Tidy ↔ rest.Tidy :=
  tidy_instrs _ _

theorem load_instrs (arithmetic : Bool) (xs : List Instruction) (rest : Block) :
    (instrs xs rest).load arithmetic =
      (instrs xs done).load arithmetic + rest.load arithmetic := by
  induction xs with
  | nil => exact (Nat.zero_add _).symm
  | cons x xs ih => simp only [instrs_cons, load, ih, Nat.add_assoc]

theorem load_append (arithmetic : Bool) (front tail : Block) :
    (front.append tail).load arithmetic = front.load arithmetic + tail.load arithmetic := by
  induction front with
  | done => simp [append, load]
  | instr x rest ih => simp [append, load, ih, Nat.add_assoc]
  | loop kind body rest _ ih => simp [append, load, ih, Nat.add_assoc]
  | stub kind rest ih => simp [append, load, ih]

theorem safe_append (front tail : Block) : (front.append tail).Safe ↔ front.Safe ∧ tail.Safe := by
  induction front with
  | done => simp [append, Safe]
  | instr x rest ih => simpa [append, Safe] using ih
  | loop kind body rest _ ih => simp [append, Safe, ih, and_assoc]
  | stub kind rest ih => simpa [append, Safe] using ih

theorem closed_append (front tail : Block) :
    (front.append tail).Closed ↔ front.Closed ∧ tail.Closed := by
  induction front with
  | done => simp [append, Closed]
  | instr x rest ih => simpa [append, Closed] using ih
  | loop kind body rest _ ih => simp [append, Closed, ih, and_assoc]
  | stub kind rest => simp [append, Closed]

/-- A block without stubs is tidy. -/
theorem Closed.tidy {block : Block} (h : block.Closed) : block.Tidy := by
  induction block with
  | done => trivial
  | instr x rest ih => exact ih h
  | loop kind body rest _ ih => exact ⟨h.1, ih h.2⟩
  | stub kind rest => exact h.elim

/-- The effect of a block behind another, which tells what it does to the cell. -/
theorem effectFrom_append {front : Block} {moved : Int64} (hmoved : front.motion = some moved)
    (tail : Block) (target : Int64) (sofar : Effect) :
    (front.append tail).effectFrom target sofar =
      (front.effectFrom target sofar).bind (tail.effectFrom (target - moved)) := by
  induction front generalizing moved target sofar with
  | done =>
    obtain rfl : (0 : Int64) = moved := Option.some.inj hmoved
    simp [append, effectFrom]
  | instr x rest ih =>
    obtain ⟨m, hm, rfl⟩ := Option.map_eq_some_iff.1 hmoved
    have hsub : target - x.motion - m = target - (x.motion + m) := by grind
    simp only [append, effectFrom]
    cases x.effectOn target sofar with
    | none => rfl
    | some effect => simp only [Option.bind_some, ih hm, hsub]
  | loop kind body rest _ ih =>
    simp only [motion] at hmoved
    split at hmoved
    · rename_i hkind
      simp only [append, effectFrom, if_pos hkind, ih hmoved]
      split
      · rfl
      · split <;> rfl
    · cases hmoved
  | stub kind rest => cases hmoved

/-! ## Single instructions -/

section Instructions

variable {x : Instruction}

theorem op_of_isLive (h : x.isLive = false) : x.op = .nop := by
  cases hop : x.op <;> simp_all [Instruction.isLive, Opcode.isLive]

theorem op_of_isPlainArithmetic (h : Window.isPlainArithmetic x = true) :
    x.op = .add .here ∨ x.op = .sub .here := by
  simpa [Window.isPlainArithmetic] using h

theorem motion_of_isPlainArithmetic (h : Window.isPlainArithmetic x = true) : x.motion = 0 := by
  rcases op_of_isPlainArithmetic h with h | h <;> simp [Instruction.motion, h]

theorem isArithmetic_of_isPlainArithmetic (h : Window.isPlainArithmetic x = true) :
    x.op.isArithmetic = true := by
  rcases op_of_isPlainArithmetic h with h | h <;> rw [h] <;> rfl

theorem offset_of_isPlainArithmetic (h : Window.isPlainArithmetic x = true) : x.offset = 0 := by
  rcases op_of_isPlainArithmetic h with h | h <;>
    simp [Instruction.offset, h, Instruction.placeOffset]

/-- A decrement is plain arithmetic. -/
theorem isPlainArithmetic_of_isDecrement (h : Window.isDecrement x = true) :
    Window.isPlainArithmetic x = true := by
  simp only [Window.isDecrement, Bool.and_eq_true, decide_eq_true_eq] at h
  simp [Window.isPlainArithmetic, h.1]

theorem motion_of_op_set {place : Place} (h : x.op = .set place) : x.motion = 0 := by
  simp [Instruction.motion, h]

theorem offset_of_op_set (h : x.op = .set .here) : x.offset = 0 := by
  simp [Instruction.offset, h, Instruction.placeOffset]

/-- Plain arithmetic acts on the cell under the data pointer. -/
theorem effectFrom_plain (h : Window.isPlainArithmetic x = true) (rest : Block) (target : Int64)
    (sofar : Effect) :
    (instr x rest).effectFrom target sofar =
      rest.effectFrom target (if target = 0 then sofar.andThen (.adds x.amount) else sofar) := by
  have harith := isArithmetic_of_isPlainArithmetic h
  simp [effectFrom, Instruction.effectOn_of_isArithmetic harith, motion_of_isPlainArithmetic h,
    offset_of_isPlainArithmetic h, eq_comm]

/-- An assignment to the cell under the data pointer. -/
theorem effectFrom_set (h : x.op = .set .here) (rest : Block) (target : Int64) (sofar : Effect) :
    (instr x rest).effectFrom target sofar =
      rest.effectFrom target (if target = 0 then .assigns x.value else sofar) := by
  have hset : x.op.isSet = true := by rw [h]; rfl
  simp [effectFrom, Instruction.effectOn_of_isSet hset, motion_of_op_set h, offset_of_op_set h,
    eq_comm]

end Instructions

/-- What is known of a loop with a rest. -/
theorem effectFrom_loop_eq_some_iff {kind : LoopKind} {body rest : Block} {target : Int64}
    {sofar effect : Effect} :
    (loop kind body rest).effectFrom target sofar = some effect ↔
      (kind = .counted ∨ body.motion = some 0) ∧
        ((target = 0 ∧ rest.effectFrom target (.assigns 0) = some effect) ∨
          (target ≠ 0 ∧ body.effectFrom target .unchanged = some .unchanged ∧
            rest.effectFrom target sofar = some effect)) := by
  simp only [effectFrom]
  split
  · rename_i hkind
    split
    · rename_i htarget
      simp [hkind, htarget]
    · rename_i htarget
      split
      · rename_i hbody
        simp [hkind, htarget, hbody]
      · rename_i hbody
        simp [htarget, hbody]
  · rename_i hkind
    simp [hkind]

/-! ## What the analyses still know after a local change -/

namespace Step

variable {b c : Block}

/-- A local change does not look at what comes behind it. -/
theorem append (h : Step b c) (tail : Block) : Step (b.append tail) (c.append tail) := by
  cases h with
  | @fuse xs y n rest hfuse =>
    rw [append_instrs, Block.append, append_nops]
    exact .fuse n (rest.append tail) hfuse
  | zero n rest hx harg =>
    rw [Block.append, Block.append, append_nops]
    exact .zero n (rest.append tail) hx harg
  | assign n rest hx harg hnext =>
    rw [Block.append, Block.append, Block.append, append_nops]
    exact .assign n (rest.append tail) hx harg hnext
  | @clear x _ hx => exact .clear (c.append tail) hx
  | drop n body rest hx harg =>
    rw [Block.append, Block.append, Block.append, append_nops]
    exact .drop n body (rest.append tail) hx harg
  | takeFront rest hx hinert => exact .takeFront (rest.append tail) hx hinert
  | takeBack rest hx hinert hblind => exact .takeBack (rest.append tail) hx hinert hblind

/-- A local change keeps a known motion. -/
theorem motion (h : Step b c) (hload : b.load false < 2 ^ 32) {moved : Int64}
    (hm : b.motion = some moved) : c.motion = some moved := by
  cases h with
  | @fuse xs y n rest hfuse =>
    rw [load_instrs] at hload
    rw [← hm, ← hfuse.motion_eq (by omega) rest]
    simp [Block.motion]
  | @zero x n rest hx harg =>
    simpa [Block.motion, motion_of_isPlainArithmetic hx, motion_of_op_set] using hm
  | @assign x next n rest hx harg hnext =>
    simpa [Block.motion, motion_of_isPlainArithmetic hx, motion_of_isPlainArithmetic hnext,
      motion_of_op_set] using hm
  | @clear x _ hx => simpa [Block.motion, Instruction.motion, op_of_isLive hx] using hm
  | @drop x kind n body rest hx harg =>
    simp only [Block.motion, motion_of_op_set hx] at hm
    split at hm
    · simpa [Block.motion, motion_of_op_set hx] using hm
    · cases hm
  | @takeFront x body rest hx hinert =>
    simpa [Block.motion, motion_of_isPlainArithmetic (isPlainArithmetic_of_isDecrement hx),
      hinert.1] using hm
  | @takeBack x body rest hx hinert hblind =>
    simpa [Block.motion, motion_append, hinert.1,
      motion_of_isPlainArithmetic (isPlainArithmetic_of_isDecrement hx)] using hm

/-- A local change keeps a known effect. -/
theorem effectFrom (h : Step b c) (hload : b.load true < 2 ^ 32) {target : Int64}
    {sofar effect : Effect} (he : b.effectFrom target sofar = some effect) :
    c.effectFrom target sofar = some effect := by
  cases h with
  | @fuse xs y n rest hfuse =>
    rw [load_instrs] at hload
    rw [← he, ← hfuse.effectFrom_eq (by omega) rest]
    simp only [Block.effectFrom]
    congr 1
    funext sofar
    exact effectFrom_nops n rest _ sofar
  | @zero x n rest hx harg =>
    rw [effectFrom_set rfl, effectFrom_nops]
    rcases (effectFrom_loop_eq_some_iff.1 he).2 with ⟨htarget, he⟩ | ⟨htarget, -, he⟩
    · rw [if_pos htarget]
      exact he
    · rw [if_neg htarget]
      exact he
  | @assign x next n rest hx harg hnext =>
    have hvalue : ({ op := .set .here, arg := next.change.toUInt32 } : Instruction).value =
        next.change := UInt8.toUInt8_toUInt32 _
    rw [effectFrom_set rfl, effectFrom_nops, hvalue]
    rcases (effectFrom_loop_eq_some_iff.1 he).2 with ⟨htarget, he⟩ | ⟨htarget, -, he⟩
    · rw [effectFrom_plain hnext, if_pos htarget, Effect.andThen, UInt8.zero_add] at he
      rw [if_pos htarget]
      exact he
    · rw [effectFrom_plain hnext, if_neg htarget] at he
      rw [if_neg htarget]
      exact he
  | @clear x _ hx =>
    simpa [Block.effectFrom, Instruction.effectOn, Instruction.motion, op_of_isLive hx] using he
  | @drop x kind n body rest hx harg =>
    have hvalue : x.value = 0 := by rw [Instruction.value, harg]; rfl
    rw [effectFrom_set hx] at he
    rw [effectFrom_set hx, effectFrom_nops]
    rcases (effectFrom_loop_eq_some_iff.1 he).2 with ⟨htarget, he⟩ | ⟨-, -, he⟩
    · rw [if_pos htarget, hvalue]
      exact he
    · exact he
  | @takeFront x body rest hx hinert =>
    have hplain := isPlainArithmetic_of_isDecrement hx
    refine effectFrom_loop_eq_some_iff.2 ⟨.inl rfl, ?_⟩
    rcases (effectFrom_loop_eq_some_iff.1 he).2 with ⟨htarget, he⟩ | ⟨htarget, hbody, he⟩
    · exact .inl ⟨htarget, he⟩
    · refine .inr ⟨htarget, ?_, he⟩
      rw [effectFrom_plain hplain, if_neg htarget] at hbody
      simpa [Block.effectFrom] using hbody
  | @takeBack x body rest hx hinert hblind =>
    have hplain := isPlainArithmetic_of_isDecrement hx
    refine effectFrom_loop_eq_some_iff.2 ⟨.inl rfl, ?_⟩
    rcases (effectFrom_loop_eq_some_iff.1 he).2 with ⟨htarget, he⟩ | ⟨htarget, hbody, he⟩
    · exact .inl ⟨htarget, he⟩
    · refine .inr ⟨htarget, ?_, he⟩
      rw [effectFrom_append hinert.1, Int64.sub_zero] at hbody ⊢
      obtain ⟨inner, hinner, hlast⟩ := Option.bind_eq_some_iff.1 hbody
      rw [effectFrom_plain hplain, if_neg htarget] at hlast
      rw [hinner]
      exact hlast

/-- A local change does not make counts larger. -/
theorem load_le (h : Step b c) (arithmetic : Bool) : c.load arithmetic ≤ b.load arithmetic := by
  cases h with
  | @fuse xs y n rest hfuse =>
    have := hfuse.load_le arithmetic
    rw [load_instrs, load, load_nops]
    exact Nat.add_le_add_right this _
  | zero => simp [load, Instruction.load, Opcode.isMotion, Opcode.isArithmetic]
  | assign =>
    simp only [load, load_nops, Instruction.load, Opcode.isMotion, Opcode.isArithmetic]
    simp
    omega
  | clear => simp [load]
  | drop =>
    simp only [load, load_nops]
    omega
  | takeFront =>
    simp only [load, Instruction.load_nop]
    omega
  | takeBack =>
    simp only [load, load_append, Instruction.load_nop]
    omega

/-- The body of a loop that takes over a decrement is inert, and all others stay. -/
theorem safe (h : Step b c) (hsafe : b.Safe) : c.Safe := by
  cases h with
  | fuse n rest _ => simpa [Safe] using hsafe
  | zero n rest => simpa [Safe] using hsafe
  | assign n rest => simpa [Safe] using hsafe
  | clear => exact hsafe
  | drop n body rest => simpa [Safe] using hsafe.2.2
  | @takeFront x body rest hx hinert =>
    refine ⟨fun _ => ⟨?_, ?_⟩, hsafe.2.1, hsafe.2.2⟩
    · simp [Block.motion, hinert.1]
    · simpa [Block.effectFrom] using hinert.2
  | @takeBack x body rest hx hinert hblind =>
    have hbody : body.Safe := ((safe_append _ _).1 hsafe.2.1).1
    refine ⟨fun _ => ⟨?_, ?_⟩, (safe_append _ _).2 ⟨hbody, trivial⟩, hsafe.2.2⟩
    · simp [motion_append, hinert.1, Block.motion]
    · simp [effectFrom_append hinert.1, hinert.2, Block.effectFrom]

theorem closed (h : Step b c) (hclosed : b.Closed) : c.Closed := by
  cases h with
  | fuse n rest _ => simpa [Closed] using hclosed
  | zero n rest => simpa [Closed] using hclosed.2
  | assign n rest => simpa [Closed] using hclosed.2
  | clear => exact hclosed
  | drop n body rest => simpa [Closed] using hclosed.2
  | takeFront rest => exact hclosed
  | takeBack rest =>
    exact ⟨(closed_append _ _).2 ⟨((closed_append _ _).1 hclosed.1).1, trivial⟩, hclosed.2⟩

theorem tidy (h : Step b c) (htidy : b.Tidy) : c.Tidy := by
  cases h with
  | fuse n rest _ => simpa [Tidy] using htidy
  | zero n rest => simpa [Tidy] using htidy.2
  | assign n rest => simpa [Tidy] using htidy.2
  | clear => exact htidy
  | drop n body rest => simpa [Tidy] using htidy.2
  | takeFront rest => exact htidy
  | takeBack rest =>
    exact ⟨(closed_append _ _).2 ⟨((closed_append _ _).1 htidy.1).1, trivial⟩, htidy.2⟩

end Step

namespace Rewrite

variable {b c : Block}

theorem load_le (h : Rewrite b c) (arithmetic : Bool) :
    c.load arithmetic ≤ b.load arithmetic := by
  induction h with
  | here hstep => exact hstep.load_le arithmetic
  | instr x _ ih => exact Nat.add_le_add_left ih _
  | body kind rest _ ih => exact Nat.add_le_add_right ih _
  | behind kind body _ ih => exact Nat.add_le_add_left ih _
  | stub kind _ ih => exact ih

/-- Rewriting keeps a known motion. -/
theorem motion (h : Rewrite b c) (hload : b.load false < 2 ^ 32) {moved : Int64}
    (hm : b.motion = some moved) : c.motion = some moved := by
  induction h generalizing moved with
  | here hstep => exact hstep.motion hload hm
  | instr x _ ih =>
    rw [load] at hload
    obtain ⟨m, hrest, rfl⟩ := Option.map_eq_some_iff.1 hm
    exact Option.map_eq_some_iff.2 ⟨m, ih (by omega) hrest, rfl⟩
  | body kind rest _ ih =>
    rw [load] at hload
    simp only [Block.motion] at hm ⊢
    split at hm
    · rename_i hkind
      rw [if_pos (hkind.imp_right fun hbody => ih (by omega) hbody)]
      exact hm
    · cases hm
  | behind kind body _ ih =>
    rw [load] at hload
    simp only [Block.motion] at hm ⊢
    split at hm
    · rename_i hkind
      rw [if_pos hkind]
      exact ih (by omega) hm
    · cases hm
  | stub kind => cases hm

/-- Rewriting keeps a known effect. -/
theorem effectFrom (h : Rewrite b c) (hload : b.load true < 2 ^ 32) {target : Int64}
    {sofar effect : Effect} (he : b.effectFrom target sofar = some effect) :
    c.effectFrom target sofar = some effect := by
  induction h generalizing target sofar effect with
  | here hstep => exact hstep.effectFrom hload he
  | instr x _ ih =>
    rw [load] at hload
    obtain ⟨e, hx, hrest⟩ := Option.bind_eq_some_iff.1 he
    exact Option.bind_eq_some_iff.2 ⟨e, hx, ih (by omega) hrest⟩
  | @body b c kind rest hrewrite ih =>
    rw [load] at hload
    have hmotions := b.load_false_le true
    obtain ⟨hkind, heffect⟩ := effectFrom_loop_eq_some_iff.1 he
    refine effectFrom_loop_eq_some_iff.2
      ⟨hkind.imp_right fun hbody => hrewrite.motion (by omega) hbody, ?_⟩
    rcases heffect with ⟨htarget, hrest⟩ | ⟨htarget, hbody, hrest⟩
    · exact .inl ⟨htarget, hrest⟩
    · exact .inr ⟨htarget, ih (by omega) hbody, hrest⟩
  | behind kind body _ ih =>
    rw [load] at hload
    obtain ⟨hkind, heffect⟩ := effectFrom_loop_eq_some_iff.1 he
    refine effectFrom_loop_eq_some_iff.2 ⟨hkind, ?_⟩
    rcases heffect with ⟨htarget, hrest⟩ | ⟨htarget, hbody, hrest⟩
    · exact .inl ⟨htarget, ih (by omega) hrest⟩
    · exact .inr ⟨htarget, hbody, ih (by omega) hrest⟩
  | stub kind => cases he

theorem inert (h : Rewrite b c) (hload : b.load true < 2 ^ 32) (hinert : b.Inert) : c.Inert :=
  ⟨h.motion (Nat.lt_of_le_of_lt (b.load_false_le true) hload) hinert.1,
    h.effectFrom hload hinert.2⟩

/-- Rewriting keeps counted loops safe, also when it changes their bodies. -/
theorem safe (h : Rewrite b c) (hload : b.load true < 2 ^ 32) (hsafe : b.Safe) : c.Safe := by
  induction h with
  | here hstep => exact hstep.safe hsafe
  | instr x _ ih =>
    rw [load] at hload
    exact ih (by omega) hsafe
  | @body b c kind rest hrewrite ih =>
    rw [load] at hload
    obtain ⟨hinert, hbody, hrest⟩ := hsafe
    exact ⟨fun hkind => hrewrite.inert (by omega) (hinert hkind), ih (by omega) hbody, hrest⟩
  | behind kind body _ ih =>
    rw [load] at hload
    exact ⟨hsafe.1, hsafe.2.1, ih (by omega) hsafe.2.2⟩
  | stub kind _ ih => exact ih hload hsafe

theorem closed (h : Rewrite b c) (hclosed : b.Closed) : c.Closed := by
  induction h with
  | here hstep => exact hstep.closed hclosed
  | instr x _ ih => exact ih hclosed
  | body kind rest _ ih => exact ⟨ih hclosed.1, hclosed.2⟩
  | behind kind body _ ih => exact ⟨hclosed.1, ih hclosed.2⟩
  | stub kind => exact hclosed.elim

theorem tidy (h : Rewrite b c) (htidy : b.Tidy) : c.Tidy := by
  induction h with
  | here hstep => exact hstep.tidy htidy
  | instr x _ ih => exact ih htidy
  | body kind rest hrewrite _ => exact ⟨hrewrite.closed htidy.1, htidy.2⟩
  | behind kind body _ ih => exact ⟨htidy.1, ih htidy.2⟩
  | stub kind _ ih => exact ih htidy

end Rewrite

/-! ## Many changes -/

/-- Local changes one after the other. -/
inductive Rewrites : Block → Block → Prop
  | refl {b : Block} : Rewrites b b
  | head {a b c : Block} : Rewrite a b → Rewrites b c → Rewrites a c

namespace Rewrites

variable {a b c : Block}

theorem trans (h : Rewrites a b) (h' : Rewrites b c) : Rewrites a c := by
  induction h with
  | refl => exact h'
  | head hrewrite _ ih => exact .head hrewrite (ih h')

theorem instr (x : Instruction) (h : Rewrites b c) :
    Rewrites (Block.instr x b) (Block.instr x c) := by
  induction h with
  | refl => exact .refl
  | head hrewrite _ ih => exact .head (.instr x hrewrite) ih

theorem loop {b' c' : Block} (kind : LoopKind) (h : Rewrites b c) (h' : Rewrites b' c') :
    Rewrites (Block.loop kind b b') (Block.loop kind c c') := by
  induction h with
  | refl =>
    induction h' with
    | refl => exact .refl
    | head hrewrite _ ih => exact .head (.behind kind _ hrewrite) ih
  | head hrewrite _ ih => exact .head (.body kind _ hrewrite) ih

theorem stub (kind : LoopKind) (h : Rewrites b c) :
    Rewrites (Block.stub kind b) (Block.stub kind c) := by
  induction h with
  | refl => exact .refl
  | head hrewrite _ ih => exact .head (.stub kind hrewrite) ih

theorem load_le (h : Rewrites b c) (arithmetic : Bool) :
    c.load arithmetic ≤ b.load arithmetic := by
  induction h with
  | refl => exact Nat.le_refl _
  | head hrewrite _ ih => exact Nat.le_trans ih (hrewrite.load_le arithmetic)

theorem safe (h : Rewrites b c) (hload : b.load true < 2 ^ 32) (hsafe : b.Safe) : c.Safe := by
  induction h with
  | refl => exact hsafe
  | head hrewrite _ ih =>
    exact ih (Nat.lt_of_le_of_lt (hrewrite.load_le true) hload) (hrewrite.safe hload hsafe)

theorem tidy (h : Rewrites b c) (htidy : b.Tidy) : c.Tidy := by
  induction h with
  | refl => exact htidy
  | head hrewrite _ ih => exact ih (hrewrite.tidy htidy)

end Rewrites

end Block

end TapeCode
