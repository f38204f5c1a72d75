import TapeCode.Compaction
import TapeCode.Proofs.Block.Rules

/-!
# Compacting a block

A slot that survives a compaction lands behind the survivors before it, and the jumps in it are
moved along (`Program.exists_compact`). A program that is laid out as a block is laid out as the
block without its vacant slots afterwards (`Program.Holds.compact`), and none of its links is
broken (`Program.Holds.broken_compact`).
-/

namespace TapeCode

namespace Block

/-- A block without its vacant slots. -/
def compact : Block → Block
  | done => done
  | instr x rest => if x.isLive then instr x rest.compact else rest.compact
  | loop kind body rest => loop kind body.compact rest.compact
  | stub kind rest => stub kind rest.compact

/-- A block without vacant slots. -/
def Solid : Block → Prop
  | done => True
  | instr x rest => x.isLive = true ∧ rest.Solid
  | loop _ body rest => body.Solid ∧ rest.Solid
  | stub _ rest => rest.Solid

theorem solid_compact (block : Block) : block.compact.Solid := by
  induction block with
  | done => trivial
  | instr x rest ih =>
    unfold compact
    split
    · rename_i hlive
      exact ⟨hlive, ih⟩
    · exact ih
  | loop kind body rest ihBody ihRest => exact ⟨ihBody, ihRest⟩
  | stub kind rest ih => exact ih

theorem rewrites_compact (block : Block) : block.Rewrites block.compact := by
  induction block with
  | done => exact .refl
  | instr x rest ih =>
    unfold compact
    split
    · exact ih.instr x
    · rename_i hlive
      exact .head (.here (.clear rest (Bool.not_eq_true _ ▸ hlive))) ih
  | loop kind body rest ihBody ihRest => exact ihBody.loop kind ihRest
  | stub kind rest ih => exact ih.stub kind

end Block

/-! ## Where a slot lands -/

namespace Program

variable {p : Program} {i stop : Nat} {block : Block}

/-- An element that passes a filter lands behind those before it that pass. -/
theorem getElem?_filter_countP {α : Type} (keep : α → Bool) {xs : List α} {i : Nat} {x : α}
    (hx : xs[i]? = some x) (hkeep : keep x = true) :
    (xs.filter keep)[(xs.take i).countP keep]? = some x := by
  induction xs generalizing i with
  | nil => cases hx
  | cons y ys ih =>
    cases i with
    | zero =>
      obtain rfl : y = x := Option.some.inj hx
      simp [hkeep]
    | succ i =>
      have hx : ys[i]? = some x := hx
      cases hy : keep y with
      | true => simpa [hy] using ih hx
      | false => simpa [hy] using ih hx

theorem liveBefore_succ_of_isLive {x : Instruction} (hx : p[i]? = some x)
    (hlive : x.isLive = true) : p.liveBefore (i + 1) = p.liveBefore i + 1 := by
  simp [liveBefore_succ, hx, hlive]

theorem liveBefore_succ_of_vacant {x : Instruction} (hx : p[i]? = some x)
    (hlive : x.isLive = false) : p.liveBefore (i + 1) = p.liveBefore i := by
  simp [liveBefore_succ, hx, hlive]

theorem liveBefore_le (p : Program) (n : Nat) : p.liveBefore n ≤ n := by
  induction n with
  | zero => exact Nat.le_of_eq p.liveBefore_zero
  | succ n ih =>
    rw [liveBefore_succ]
    split <;> omega

/-- Without vacant slots all slots count. -/
theorem liveBefore_eq_self (hall : p.all (·.isLive) = true) {n : Nat} (hn : n ≤ p.size) :
    p.liveBefore n = n := by
  induction n with
  | zero => exact p.liveBefore_zero
  | succ n ih =>
    have hlive := Array.all_eq_true.1 hall n hn
    rw [liveBefore_succ_of_isLive (Array.getElem?_eq_getElem hn) hlive, ih (by omega)]

theorem size_compact (p : Program) : p.compact.program.size = p.liveBefore p.size := by
  unfold compact
  split
  · rename_i hall
    exact (liveBefore_eq_self hall (Nat.le_refl _)).symm
  · simp only [Array.size_map, ← Array.countP_eq_size_filter]
    exact p.liveCount_eq_liveBefore_size

/-- Behind the end of the program no slot counts. -/
theorem liveBefore_min (p : Program) (n : Nat) :
    p.liveBefore (min n p.size) = p.liveBefore n := by
  rcases Nat.le_total n p.size with hle | hle
  · rw [Nat.min_eq_left hle]
  · rw [Nat.min_eq_right hle]
    simp [liveBefore, List.take_of_length_le, hle]

/-- A retargeted jump designates as many slots as were live before its old target. -/
theorem target?_retarget {x : Instruction} {target : Nat} (hjump : x.op.isJump = true)
    (htarget : x.target? = some target) :
    (retarget p.liveTable p.size x).target? = some (p.liveBefore target) := by
  have htable : p.liveTable.getD (min target p.size) 0 = p.liveBefore target := by
    rw [Array.getD_eq_getD_getElem?, getElem?_liveTable (Nat.min_le_right ..), liveBefore_min]
    rfl
  unfold retarget
  rw [htarget]
  simp only [hjump, if_true, htable]
  exact Instruction.target?_of_arg_eq rfl
    (Nat.lt_of_le_of_lt (p.liveBefore_le target) (Instruction.lt_of_target? htarget))

/-- Where a live instruction lands if there is a vacant slot. -/
theorem getElem?_compact {x : Instruction} (hvacant : p.all (·.isLive) = false)
    (hx : p[i]? = some x) (hlive : x.isLive = true) :
    p.compact.program[p.liveBefore i]? = some (retarget p.liveTable p.size x) := by
  rw [compact, if_neg (by rw [hvacant]; exact Bool.false_ne_true)]
  rw [Array.getElem?_map, ← Array.getElem?_toList, Array.toList_filter]
  exact congrArg _ (getElem?_filter_countP _ ((Array.getElem?_toList ..).trans hx) hlive)

/-- A live instruction as it is after a compaction: a jump is moved along with its target. -/
theorem exists_compact {x : Instruction} (hx : p[i]? = some x) (hlive : x.isLive = true) :
    ∃ y, p.compact.program[p.liveBefore i]? = some y ∧ y.op = x.op ∧
      (x.op.isJump = false → y = x) ∧ (x.target? = none → y.target? = none) ∧
      ∀ target, x.op.isJump = true → x.target? = some target → target < p.size →
        y.target? = some (p.liveBefore target) := by
  have hi := (Array.getElem?_eq_some_iff.1 hx).1
  cases hall : p.all (·.isLive) with
  | true =>
    refine ⟨x, ?_, rfl, fun _ => rfl, id, fun target _ htarget hlt => ?_⟩
    · rw [liveBefore_eq_self hall (Nat.le_of_lt hi), compact, if_pos hall]
      exact hx
    · rw [liveBefore_eq_self hall (Nat.le_of_lt hlt)]
      exact htarget
  | false =>
    refine ⟨_, getElem?_compact hall hx hlive, op_retarget _ _ _, fun hjump => ?_,
      fun hnone => ?_, fun target hjump htarget _ => target?_retarget hjump htarget⟩
    · unfold retarget
      split
      · rw [hjump]
        rfl
      · rfl
    · unfold retarget
      rw [hnone]
      exact hnone

/-- No link is broken exactly if every resolved jump is linked to the slot that it designates. -/
theorem brokenLinks_eq_nil_iff : p.brokenLinks = [] ↔
    ∀ (i : Nat) (x : Instruction) (target : Nat),
    p[i]? = some x → x.op.isJump = true → x.target? = some target → p.linked i target = true := by
  refine List.filterMap_eq_nil_iff.trans ⟨fun h i x target hx hjump htarget => ?_, fun h => ?_⟩
  · have hmem : (x, i) ∈ p.toList.zipIdx :=
      List.mem_zipIdx_iff_getElem?.2 ((Array.getElem?_toList ..).trans hx)
    have hgood := h _ hmem
    simpa [htarget, hjump] using hgood
  · rintro ⟨x, i⟩ hmem
    have hx : p[i]? = some x :=
      (Array.getElem?_toList ..).symm.trans (List.mem_zipIdx_iff_getElem?.1 hmem)
    dsimp only
    split
    · rfl
    · rename_i target htarget
      cases hjump : x.op.isJump with
      | false => rfl
      | true => rw [h i x target hx hjump htarget]; rfl

/-! ## Compacting a layout -/

theorem IsLoop.compact {close : Nat} {kind : LoopKind} (h : p.IsLoop i close kind) :
    p.compact.program.IsLoop (p.liveBefore i) (p.liveBefore close) kind := by
  obtain ⟨⟨a, ha, haop, hat⟩, b, hb, hbop, hbt⟩ := h
  have hi := (Array.getElem?_eq_some_iff.1 ha).1
  have hclose := (Array.getElem?_eq_some_iff.1 hb).1
  obtain ⟨a', ha', haop', -, -, hat'⟩ :=
    exists_compact ha (by rw [Instruction.isLive, haop]; rfl)
  obtain ⟨b', hb', hbop', -, -, hbt'⟩ :=
    exists_compact hb (by rw [Instruction.isLive, hbop]; rfl)
  exact ⟨⟨a', ha', haop'.trans haop, hat' close (by rw [haop]; rfl) hat hclose⟩,
    b', hb', hbop'.trans hbop, hbt' i (by rw [hbop]; rfl) hbt hi⟩

theorem IsLoop.liveBefore_succ {close : Nat} {kind : LoopKind} (h : p.IsLoop i close kind) :
    p.liveBefore (i + 1) = p.liveBefore i + 1 ∧
      p.liveBefore (close + 1) = p.liveBefore close + 1 := by
  obtain ⟨⟨a, ha, haop, -⟩, b, hb, hbop, -⟩ := h
  exact ⟨liveBefore_succ_of_isLive ha (by rw [Instruction.isLive, haop]; rfl),
    liveBefore_succ_of_isLive hb (by rw [Instruction.isLive, hbop]; rfl)⟩

namespace Holds

/-- A compacted program is laid out as the block without its vacant slots. -/
theorem compact (h : p.Holds i block stop) :
    p.compact.program.Holds (p.liveBefore i) block.compact (p.liveBefore stop) := by
  induction h with
  | done => exact .done
  | @instr i stop x rest hx hjump hrest ih =>
    unfold Block.compact
    split
    · rename_i hlive
      obtain ⟨y, hy, -, hsame, -, -⟩ := exists_compact hx hlive
      obtain rfl := hsame hjump
      rw [liveBefore_succ_of_isLive hx hlive] at ih
      exact .instr hy hjump ih
    · rename_i hlive
      rwa [liveBefore_succ_of_vacant hx (Bool.not_eq_true _ ▸ hlive)] at ih
  | @loop i close stop kind body rest hloop hbody hrest ihBody ihRest =>
    rw [hloop.liveBefore_succ.1] at ihBody
    rw [hloop.liveBefore_succ.2] at ihRest
    exact .loop hloop.compact ihBody ihRest
  | @stub i stop a kind rest ha haop hat hrest ih =>
    have hlive : a.isLive = true := by rw [Instruction.isLive, haop]; rfl
    obtain ⟨y, hy, hyop, -, hnone, -⟩ := exists_compact ha hlive
    rw [liveBefore_succ_of_isLive ha hlive] at ih
    exact .stub hy (hyop.trans haop) (hnone hat) ih

/-- In a layout every resolved jump is linked to the slot it designates. -/
theorem linked_of_target? (h : p.Holds i block stop) {j target : Nat} {x : Instruction}
    (hle : i ≤ j) (hlt : j < stop) (hx : p[j]? = some x) (hjump : x.op.isJump = true)
    (htarget : x.target? = some target) : p.linked j target = true := by
  induction h with
  | done => omega
  | @instr i stop y rest hy hyjump hrest ih =>
    rcases Nat.lt_or_eq_of_le hle with hlater | rfl
    · exact ih hlater hlt
    · obtain rfl := Option.some.inj (hx.symm.trans hy)
      rw [hjump] at hyjump
      cases hyjump
  | @loop i close stop kind body rest hloop hbody hrest ihBody ihRest =>
    rcases Nat.lt_or_eq_of_le hle with hlater | rfl
    · rcases Nat.lt_trichotomy j close with hin | rfl | hbehind
      · exact ihBody hlater hin
      · obtain ⟨b, hb, -, hbt⟩ := hloop.closes
        obtain rfl := Option.some.inj (hx.symm.trans hb)
        obtain rfl := Option.some.inj (htarget.symm.trans hbt)
        rw [linked_comm]
        exact hloop.linked
      · exact ihRest hbehind hlt
    · obtain ⟨a, ha, -, hat⟩ := hloop.opens
      obtain rfl := Option.some.inj (hx.symm.trans ha)
      obtain rfl := Option.some.inj (htarget.symm.trans hat)
      exact hloop.linked
  | @stub i stop a kind rest ha haop hat hrest ih =>
    rcases Nat.lt_or_eq_of_le hle with hlater | rfl
    · exact ih hlater hlt
    · obtain rfl := Option.some.inj (hx.symm.trans ha)
      rw [htarget] at hat
      cases hat

theorem brokenLinks_eq_nil (h : p.Holds 0 block p.size) : p.brokenLinks = [] :=
  brokenLinks_eq_nil_iff.2 fun i _ _ hx hjump htarget =>
    h.linked_of_target? (Nat.zero_le i) (Array.getElem?_eq_some_iff.1 hx).1 hx hjump htarget

/-- A whole program after its compaction. -/
theorem compact_program (h : p.Holds 0 block p.size) :
    p.compact.program.Holds 0 block.compact p.compact.program.size := by
  have hcompact := h.compact
  rwa [liveBefore_zero, ← size_compact] at hcompact

/-- Compacting a program that is laid out as a block breaks no link. -/
theorem broken_compact (h : p.Holds 0 block p.size) : p.compact.broken = [] := by
  have hcompact := h.compact_program.brokenLinks_eq_nil
  unfold Program.compact at hcompact ⊢
  split
  · rfl
  · rename_i hvacant
    rwa [if_neg hvacant] at hcompact

end Holds

end Program

end TapeCode
