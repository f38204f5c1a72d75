import TapeCode.Proofs.Block.Rewrite
import TapeCode.Proofs.Course.Trails

/-!
# The course of a block

`Block.course` runs a block against the clock. Every instruction takes a tick, and so does every
look at the cell of a loop; vacant slots take none, as they are gone before a program is run.
-/

namespace TapeCode

namespace Course

theorem seq_skip (F : Course) : F.seq skip = F := by
  refine ext fun n v => ?_
  simp only [seq]
  cases F.run n v <;> rfl

theorem leave_seq (F : Course) : leave.seq F = leave := ext fun _ _ => rfl

end Course

namespace Instruction

/-- The course of an instruction other than a jump. -/
def course (x : Instruction) : Course :=
  if x.isLive then .tick (.free x.act x.precedes_act) else .skip

/-- The course of instructions that stand one behind the other. -/
def line : List Instruction → Course
  | [] => .skip
  | x :: xs => x.course.seq (line xs)

theorem course_of_isLive {x : Instruction} (h : x.isLive = true) :
    x.course = .tick (.free x.act x.precedes_act) :=
  if_pos h

theorem course_of_vacant {x : Instruction} (h : x.isLive = false) : x.course = .skip :=
  if_neg (by rw [h]; exact Bool.false_ne_true)

@[simp] theorem course_nop : nop.course = .skip := rfl

end Instruction

namespace Block

/-- The course of a block. -/
def course : Block → Course
  | done => .skip
  | instr x rest => x.course.seq rest.course
  | loop kind body rest => (Course.loop kind body.course).seq rest.course
  | stub kind rest => .tick (.branch .leave ((Course.enter kind).seq rest.course))

theorem course_instrs (xs : List Instruction) (rest : Block) :
    (instrs xs rest).course = (Instruction.line xs).seq rest.course := by
  induction xs with
  | nil => exact (Course.skip_seq _).symm
  | cons x xs ih => rw [instrs_cons, course, ih, Instruction.line, Course.seq_assoc]

@[simp] theorem course_nops (n : Nat) (rest : Block) : (nops n rest).course = rest.course := by
  induction n with
  | zero => rfl
  | succ n ih => rw [nops_succ, course, Instruction.course_nop, Course.skip_seq, ih]

theorem course_append (front tail : Block) :
    (front.append tail).course = front.course.seq tail.course := by
  induction front with
  | done => exact (Course.skip_seq _).symm
  | instr x rest ih => rw [append, course, ih, course, Course.seq_assoc]
  | loop kind body rest _ ih => rw [append, course, ih, course, Course.seq_assoc]
  | stub kind rest ih =>
    rw [append, course, ih, course, Course.tick_seq, Course.branch_seq, Course.leave_seq,
      Course.seq_assoc]

/-- The body of every counted loop brings the data pointer back. -/
def Steady : Block → Prop
  | done => True
  | instr _ rest => rest.Steady
  | loop kind body rest => (kind = .counted → body.motion = some 0) ∧ body.Steady ∧ rest.Steady
  | stub _ rest => rest.Steady

theorem Safe.steady {block : Block} (h : block.Safe) : block.Steady := by
  induction block with
  | done => trivial
  | instr x rest ih => exact ih h
  | loop kind body rest ihBody ihRest =>
    exact ⟨fun hkind => (h.1 hkind).1, ihBody h.2.1, ihRest h.2.2⟩
  | stub kind rest ih => exact ih h

end Block

/-! ## What an instruction does to a view -/

namespace View

variable {v : View} {offset : Int64} {f g : Cell → Cell}

@[simp] theorem index?_store (v : View) (i : Nat) (value : Cell) (offset : Int64) :
    (v.store i value).index? offset = v.index? offset := rfl

theorem update_of_some {i : Nat} (h : v.index? offset = some i) (f : Cell → Cell) :
    v.update offset f = (none, v.store i (f (v.cells i))) := by
  simp only [update, h]

theorem update_of_none (h : v.index? offset = none) (f : Cell → Cell) :
    v.update offset f = (some .outOfBounds, v) := by
  simp only [update, h]

theorem exists_index_of_update {u : View} (h : v.update offset f = (none, u)) :
    ∃ i, v.index? offset = some i ∧ u = v.store i (f (v.cells i)) := by
  cases hindex : v.index? offset with
  | none =>
    rw [update_of_none hindex] at h
    cases h
  | some i =>
    rw [update_of_some hindex] at h
    exact ⟨i, rfl, (Prod.mk.inj h).2.symm⟩

@[simp] theorem cells_store (v : View) (i : Nat) (value : Cell) :
    (v.store i value).cells i = value :=
  if_pos rfl

@[simp] theorem store_store (v : View) (i : Nat) (a b : Cell) :
    (v.store i a).store i b = v.store i b := by
  refine View.ext rfl rfl (funext fun j => ?_) rfl rfl
  simp only [store]
  split <;> rfl

theorem store_self (v : View) (i : Nat) : v.store i (v.cells i) = v := by
  refine View.ext rfl rfl (funext fun j => ?_) rfl rfl
  simp only [store]
  split
  · rename_i h
    rw [h]
  · rfl

/-- Two changes of one cell are one change. -/
theorem update_update {u : View} (h : v.update offset f = (none, u)) (g : Cell → Cell) :
    u.update offset g = v.update offset fun c => g (f c) := by
  obtain ⟨i, hindex, rfl⟩ := exists_index_of_update h
  rw [update_of_some hindex, update_of_some ((index?_store ..).trans hindex), store_store,
    cells_store]

end View

namespace Instruction

variable {x : Instruction}

theorem act_of_isMotion (h : x.op.isMotion = true) (v : View) :
    x.act v = (none, { v with dp := v.dp + x.amount }) := by
  cases hop : x.op <;> simp_all [Opcode.isMotion, act]

theorem act_of_isArithmetic (h : x.op.isArithmetic = true) (v : View) :
    x.act v = v.update x.offset (· + x.change) := by
  cases hop : x.op <;> simp_all [Opcode.isArithmetic, act]

theorem act_of_isSet (h : x.op.isSet = true) (v : View) :
    x.act v = v.update x.offset fun _ => x.value := by
  cases hop : x.op <;> simp_all [Opcode.isSet, act]

theorem act_of_vacant (h : x.isLive = false) (v : View) : x.act v = (none, v) := by
  cases hop : x.op <;> simp_all [isLive, Opcode.isLive, act]

end Instruction

end TapeCode
