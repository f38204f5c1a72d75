import TapeCode.Proofs.Compaction
import TapeCode.Proofs.NormalForm

/-!
# Links through a compaction

Compaction keeps the live instructions of a program in their order. If no link of the program is
broken, it keeps the links, too: two live instructions are linked if and only if the slots where
they land are (`Program.linked_compact`). It does not matter whether the pairs are nested.

The way back is to put vacant slots into a program and to move the targets of its jumps along
(`Program.Spread`). A compaction takes them out again, however they are distributed
(`Program.Spread.compact_eq`).
-/

namespace TapeCode

theorem Opcode.isJump_of_partner? {a b : Opcode} (h : a.partner? = some b) : a.isJump = true := by
  rw [← isSome_partner?, h]
  rfl

namespace Instruction

variable {x y : Instruction}

/-- An instruction without the index that it designates: the argument of a resolved jump
is left out. -/
def untargeted (x : Instruction) : Instruction :=
  if x.op.isJump = true ∧ x.target? ≠ none then { x with arg := 0 } else x

@[simp] theorem op_untargeted (x : Instruction) : x.untargeted.op = x.op := by
  unfold untargeted
  split <;> rfl

@[simp] theorem dist_untargeted (x : Instruction) : x.untargeted.dist = x.dist := by
  unfold untargeted
  split <;> rfl

theorem op_eq_of_untargeted (h : x.untargeted = y.untargeted) : x.op = y.op := by
  rw [← op_untargeted x, h, op_untargeted]

/-- Jumps that designate the same index, or none, have one argument. -/
theorem arg_eq_of_target? (h : x.target? = y.target?) : x.arg = y.arg := by
  unfold target? at h
  split at h
  · split at h
    · simp_all
    · cases h
  · split at h
    · cases h
    · exact UInt32.toNat_inj.1 (Option.some.inj h)

/-- An instruction is told by what it is without its target, and its target if it is a jump. -/
theorem eq_of_untargeted (h : x.untargeted = y.untargeted)
    (htarget : x.op.isJump = true → x.target? = y.target?) : x = y := by
  have hop := op_eq_of_untargeted h
  cases hjump : x.op.isJump with
  | true =>
    have hdist : x.dist = y.dist := by rw [← dist_untargeted x, h, dist_untargeted]
    have harg := arg_eq_of_target? (htarget hjump)
    cases x
    cases y
    simp_all
  | false =>
    have hjump' : y.op.isJump = false := hop ▸ hjump
    simpa [untargeted, hjump, hjump'] using h

end Instruction

namespace Program

variable {p q : Program} {i j k n target : Nat} {x y : Instruction} {place : Nat → Nat}

/-! ## Where live instructions land -/

/-- The slot at `i` holds a live instruction. -/
def IsLiveAt (p : Program) (i : Nat) : Prop :=
  p[i]?.any (·.isLive) = true

theorem isLiveAt_iff : p.IsLiveAt i ↔ ∃ x, p[i]? = some x ∧ x.isLive = true :=
  Option.any_eq_true _ _

theorem isLive_of_isJump (h : x.op.isJump = true) : x.isLive = true := by
  obtain ⟨op, hpartner⟩ := Option.isSome_iff_exists.1 (x.op.isSome_partner?.trans h)
  exact Opcode.isLive_of_partner? hpartner

theorem liveBefore_lt (hi : p.IsLiveAt i) (hlt : i < j) : p.liveBefore i < p.liveBefore j := by
  have hsucc : p.liveBefore (i + 1) = p.liveBefore i + 1 := by
    unfold IsLiveAt at hi
    rw [liveBefore_succ, if_pos hi]
  have hmono : p.liveBefore (i + 1) ≤ p.liveBefore j := liveBefore_mono hlt
  omega

/-- Live instructions land in different slots. -/
theorem eq_of_liveBefore_eq (hi : p.IsLiveAt i) (hj : p.IsLiveAt j)
    (h : p.liveBefore i = p.liveBefore j) : i = j := by
  rcases Nat.lt_trichotomy i j with hlt | heq | hgt
  · exact absurd h (Nat.ne_of_lt (liveBefore_lt hi hlt))
  · exact heq
  · exact absurd h.symm (Nat.ne_of_lt (liveBefore_lt hj hgt))

/-- Every number below a count is the count before a live instruction. -/
theorem exists_isLiveAt (h : k < p.liveBefore n) : ∃ i, p.IsLiveAt i ∧ p.liveBefore i = k := by
  induction n with
  | zero =>
    rw [liveBefore_zero] at h
    exact absurd h (Nat.not_lt_zero k)
  | succ n ih =>
    rcases Nat.lt_or_ge k (p.liveBefore n) with hlt | hge
    · exact ih hlt
    · rw [liveBefore_succ] at h
      split at h
      · rename_i hlive
        exact ⟨n, hlive, by omega⟩
      · omega

/-- Something lands in every slot of the compacted program. -/
theorem exists_landing (h : p.compact.program[k]? = some y) :
    ∃ i, p.IsLiveAt i ∧ p.liveBefore i = k := by
  have hlt := (Array.getElem?_eq_some_iff.1 h).1
  rw [size_compact] at hlt
  exact exists_isLiveAt hlt

theorem untargeted_retarget (p : Program) (x : Instruction) :
    (retarget p.liveTable p.size x).untargeted = x.untargeted := by
  cases hjump : x.op.isJump with
  | false =>
    unfold retarget
    split <;> simp [hjump]
  | true =>
    cases htarget : x.target? with
    | none => simp only [retarget, htarget]
    | some target =>
      have hmoved := target?_retarget (p := p) hjump htarget
      have hop := op_retarget p.liveTable p.size x
      have hdist : (retarget p.liveTable p.size x).dist = x.dist := by
        simp only [retarget, htarget, hjump, if_true]
      simp only [Instruction.untargeted, hop, hjump, hmoved, htarget, ne_eq, reduceCtorEq,
        not_false_eq_true, and_self, if_true]
      rw [← hop, ← hdist]

/-- A compaction only moves targets: otherwise the live instructions are left in their order. -/
theorem untargeted_compact (p : Program) :
    p.compact.program.map (·.untargeted) = (p.filter (·.isLive)).map (·.untargeted) := by
  unfold compact
  split
  · rename_i hall
    rw [Array.filter_eq_self.2 (Array.all_eq_true_iff_forall_mem.1 hall)]
  · rw [Array.map_map]
    exact Array.map_congr_left fun x _ => untargeted_retarget p x

/-- In a program without a broken link the target of a jump is a live slot. -/
theorem isLiveAt_of_target? (hlinks : p.brokenLinks = []) (hx : p[i]? = some x)
    (hjump : x.op.isJump = true) (htarget : x.target? = some target) : p.IsLiveAt target :=
  (Window.isLive_of_linked (brokenLinks_eq_nil_iff.1 hlinks i x target hx hjump htarget)).2

/-- Where a live instruction lands it designates where its target lands. -/
theorem exists_moved (hlinks : p.brokenLinks = []) (hx : p[i]? = some x)
    (hlive : x.isLive = true) :
    ∃ y, p.compact.program[p.liveBefore i]? = some y ∧ y.untargeted = x.untargeted ∧
      (x.op.isJump = true → y.target? = x.target?.map p.liveBefore) := by
  cases hall : p.all (·.isLive) with
  | true =>
    have hi := (Array.getElem?_eq_some_iff.1 hx).1
    refine ⟨x, ?_, rfl, fun hjump => ?_⟩
    · rw [liveBefore_eq_self hall (Nat.le_of_lt hi), compact_of_all hall]
      exact hx
    · cases htarget : x.target? with
      | none => rfl
      | some target =>
        obtain ⟨z, hz, -⟩ := isLiveAt_iff.1 (isLiveAt_of_target? hlinks hx hjump htarget)
        have hlt := (Array.getElem?_eq_some_iff.1 hz).1
        rw [Option.map_some, liveBefore_eq_self hall (Nat.le_of_lt hlt)]
  | false =>
    refine ⟨_, getElem?_compact hall hx hlive, untargeted_retarget p x, fun hjump => ?_⟩
    cases htarget : x.target? with
    | none => simp only [retarget, htarget, Option.map_none]
    | some target => exact target?_retarget hjump htarget

/-! ## Links -/

/-- Jumps of one opcode with targets that have moved alike are linked alike. -/
theorem linked_of_moved {f : Nat → Nat}
    (hmoved : ∀ k x, p[k]? = some x → x.op.isJump = true → ∃ y, q[f k]? = some y ∧
      y.untargeted = x.untargeted ∧ y.target? = x.target?.map f)
    (h : p.linked i j = true) : q.linked (f i) (f j) = true := by
  obtain ⟨a, b, ha, hb, hop, hat, hbt⟩ := linked_iff.1 h
  have hjump : a.op.isJump = true := Opcode.isJump_of_partner? hop
  have hjump' : b.op.isJump = true := Opcode.isJump_of_partner? (Opcode.partner?_symm hop)
  obtain ⟨a', ha', hsame, hat'⟩ := hmoved i a ha hjump
  obtain ⟨b', hb', hsame', hbt'⟩ := hmoved j b hb hjump'
  refine linked_iff.2 ⟨a', b', ha', hb', ?_, ?_, ?_⟩
  · rw [Instruction.op_eq_of_untargeted hsame, Instruction.op_eq_of_untargeted hsame', hop]
  · rw [hat', hat, Option.map_some]
  · rw [hbt', hbt, Option.map_some]

/-- Live instructions are linked if and only if they are linked where they land. -/
theorem linked_compact (hlinks : p.brokenLinks = []) (hi : p.IsLiveAt i) (hj : p.IsLiveAt j) :
    p.compact.program.linked (p.liveBefore i) (p.liveBefore j) = p.linked i j := by
  refine Bool.eq_iff_iff.2 ⟨fun h => ?_, fun h => ?_⟩
  · obtain ⟨x, hx, hlive⟩ := isLiveAt_iff.1 hi
    obtain ⟨y, hy, hsame, hmoved⟩ := exists_moved hlinks hx hlive
    obtain ⟨y', z, hy', -, hop, hyt, -⟩ := linked_iff.1 h
    obtain rfl := Option.some.inj (hy.symm.trans hy')
    have hjump : x.op.isJump = true :=
      Instruction.op_eq_of_untargeted hsame ▸ Opcode.isJump_of_partner? hop
    -- The jump designates some live slot that lands where `j` does, which can only be `j`.
    rw [hmoved hjump, Option.map_eq_some_iff] at hyt
    obtain ⟨target, htarget, hlands⟩ := hyt
    have hlive' := isLiveAt_of_target? hlinks hx hjump htarget
    rw [← eq_of_liveBefore_eq hlive' hj hlands]
    exact brokenLinks_eq_nil_iff.1 hlinks i x target hx hjump htarget
  · refine linked_of_moved (fun k x hx hjump => ?_) h
    obtain ⟨y, hy, hsame, hmoved⟩ := exists_moved hlinks hx (isLive_of_isJump hjump)
    exact ⟨y, hy, hsame, hmoved hjump⟩

/-- A compaction breaks no link of a program that has no broken one. -/
theorem brokenLinks_compact (hlinks : p.brokenLinks = []) :
    p.compact.program.brokenLinks = [] := by
  refine brokenLinks_eq_nil_iff.2 fun k y target hy hjump htarget => ?_
  obtain ⟨i, hi, rfl⟩ := exists_landing hy
  obtain ⟨x, hx, hlive⟩ := isLiveAt_iff.1 hi
  obtain ⟨y', hy', hsame, hmoved⟩ := exists_moved hlinks hx hlive
  obtain rfl := Option.some.inj (hy.symm.trans hy')
  have hjump' : x.op.isJump = true := Instruction.op_eq_of_untargeted hsame ▸ hjump
  rw [hmoved hjump', Option.map_eq_some_iff] at htarget
  obtain ⟨target, htarget, rfl⟩ := htarget
  rw [linked_compact hlinks hi (isLiveAt_of_target? hlinks hx hjump' htarget)]
  exact brokenLinks_eq_nil_iff.1 hlinks i x target hx hjump' htarget

/-- The links that a compaction tells of are broken in its program. -/
theorem broken_eq_nil (h : p.compact.program.brokenLinks = []) : p.compact.broken = [] := by
  unfold compact at h ⊢
  split
  · rfl
  · rename_i hvacant
    rwa [if_neg hvacant] at h

/-- The second program holds the live instructions of the first one in their order, linked
as they were. -/
structure Condenses (p q : Program) : Prop where
  /-- But for the targets of resolved jumps the live instructions are there, and nothing else. -/
  slots : q.map (·.untargeted) = (p.filter (·.isLive)).map (·.untargeted)
  /-- The instruction at `i` is where as many live ones are before it as were before `i`. -/
  lands : ∀ i x, p[i]? = some x → x.isLive = true →
    ∃ y, q[p.liveBefore i]? = some y ∧ y.untargeted = x.untargeted
  /-- Two instructions are linked if and only if they were. -/
  linked : ∀ i j, p.IsLiveAt i → p.IsLiveAt j →
    q.linked (p.liveBefore i) (p.liveBefore j) = p.linked i j
  /-- An unresolved jump is left as it was. -/
  unresolved : ∀ i x, p[i]? = some x → x.op.isJump = true → x.target? = none →
    q[p.liveBefore i]? = some x

theorem condenses (hlinks : p.brokenLinks = []) : p.Condenses p.compact.program where
  slots := p.untargeted_compact
  lands i x hx hlive := by
    obtain ⟨y, hy, hsame, -⟩ := exists_moved hlinks hx hlive
    exact ⟨y, hy, hsame⟩
  linked i j hi hj := linked_compact hlinks hi hj
  unresolved i x hx hjump hnone := by
    obtain ⟨y, hy, hsame, hmoved⟩ := exists_moved hlinks hx (isLive_of_isJump hjump)
    have htarget : y.target? = x.target? := by rw [hmoved hjump, hnone, Option.map_none]
    rw [hy, Instruction.eq_of_untargeted hsame fun _ => htarget]

/-! ## Vacant slots put in between -/

/-- The second program is the first one with vacant slots put in between: the slot `i` has moved
to `place i`, the jumps designate the slots to which their targets have moved, and all other slots
are vacant. -/
structure Spread (p : Program) (place : Nat → Nat) (q : Program) : Prop where
  ordered : ∀ i j, i < j → j < p.size → place i < place j
  moved : ∀ i x, p[i]? = some x → ∃ y, q[place i]? = some y ∧ y.untargeted = x.untargeted ∧
    (x.op.isJump = true → y.target? = x.target?.map place)
  vacant : ∀ k, q.IsLiveAt k → ∃ i, i < p.size ∧ k = place i

namespace Spread

theorem isLiveAt (h : p.Spread place q) (hall : p.all (·.isLive) = true) (hi : i < p.size) :
    q.IsLiveAt (place i) := by
  obtain ⟨y, hy, hsame, -⟩ := h.moved i p[i] (Array.getElem?_eq_getElem hi)
  have hlive : p[i].isLive = true := Array.all_eq_true.1 hall i hi
  refine isLiveAt_iff.2 ⟨y, hy, ?_⟩
  rwa [Instruction.isLive, Instruction.op_eq_of_untargeted hsame]

/-- If the instructions that have moved to before `place i` are the first `n` ones, they are those
before `i`. -/
theorem eq_of_count (h : p.Spread place q) (hn : n ≤ p.size)
    (hcount : ∀ j < p.size, place j < place i ↔ j < n) (hi : i < p.size) : n = i := by
  rcases Nat.lt_trichotomy n i with hlt | heq | hgt
  · have := (hcount n (by omega)).1 (h.ordered n i hlt hi)
    omega
  · exact heq
  · have := (hcount i hi).2 hgt
    omega

/-- The live slots before `k` are those of the first instructions. -/
theorem count (h : p.Spread place q) (hall : p.all (·.isLive) = true) (k : Nat) :
    q.liveBefore k ≤ p.size ∧ ∀ j < p.size, place j < k ↔ j < q.liveBefore k := by
  induction k with
  | zero =>
    rw [liveBefore_zero]
    exact ⟨Nat.zero_le _, fun j _ => by omega⟩
  | succ k ih =>
    obtain ⟨hle, hcount⟩ := ih
    rw [liveBefore_succ]
    split
    · -- A live slot can only be that of the next instruction.
      rename_i hlive
      obtain ⟨i, hi, rfl⟩ := h.vacant k hlive
      rw [h.eq_of_count hle hcount hi]
      refine ⟨hi, fun j hj => ?_⟩
      rcases Nat.lt_trichotomy j i with hlt | rfl | hgt
      · have := h.ordered j i hlt hi
        omega
      · omega
      · have := h.ordered i j hgt hj
        omega
    · rename_i hvacant
      refine ⟨hle, fun j hj => ?_⟩
      have hne : place j ≠ k := by
        rintro rfl
        exact hvacant (h.isLiveAt hall hj)
      have := hcount j hj
      omega

/-- The instruction that has moved to `place i` has `i` live ones before it. -/
theorem liveBefore_place (h : p.Spread place q) (hall : p.all (·.isLive) = true)
    (hi : i < p.size) : q.liveBefore (place i) = i :=
  h.eq_of_count (h.count hall _).1 (h.count hall _).2 hi

theorem size_compact (h : p.Spread place q) (hall : p.all (·.isLive) = true) :
    q.compact.program.size = p.size := by
  obtain ⟨hle, hcount⟩ := h.count hall q.size
  rw [Program.size_compact]
  refine Nat.le_antisymm hle (Nat.le_of_not_lt fun hlt => ?_)
  obtain ⟨y, hy, -⟩ := h.moved _ _ (Array.getElem?_eq_getElem hlt)
  have := (hcount _ hlt).1 (Array.getElem?_eq_some_iff.1 hy).1
  omega

/-- The links are moved along. -/
theorem brokenLinks_eq_nil (h : p.Spread place q) (hlinks : p.brokenLinks = []) :
    q.brokenLinks = [] := by
  refine brokenLinks_eq_nil_iff.2 fun k y target hy hjump htarget => ?_
  obtain ⟨i, hi, rfl⟩ := h.vacant k (isLiveAt_iff.2 ⟨y, hy, isLive_of_isJump hjump⟩)
  have hx : p[i]? = some p[i] := Array.getElem?_eq_getElem hi
  obtain ⟨y', hy', hsame, hmoved⟩ := h.moved i p[i] hx
  obtain rfl := Option.some.inj (hy.symm.trans hy')
  have hjump' : p[i].op.isJump = true := Instruction.op_eq_of_untargeted hsame ▸ hjump
  rw [hmoved hjump', Option.map_eq_some_iff] at htarget
  obtain ⟨target, htarget, rfl⟩ := htarget
  refine linked_of_moved (fun k x hx hjump => ?_)
    (brokenLinks_eq_nil_iff.1 hlinks i _ target hx hjump' htarget)
  obtain ⟨y, hy, hsame, hmoved⟩ := h.moved k x hx
  exact ⟨y, hy, hsame, hmoved hjump⟩

/-- A compaction takes the vacant slots out again. -/
theorem compact_eq (h : p.Spread place q) (hall : p.all (·.isLive) = true)
    (hlinks : p.brokenLinks = []) : q.compact = ⟨p, []⟩ := by
  have hlinks' := h.brokenLinks_eq_nil hlinks
  have hprogram : q.compact.program = p := by
    refine Array.ext (h.size_compact hall) fun i hi hi' => ?_
    have hx : p[i]? = some p[i] := Array.getElem?_eq_getElem hi'
    obtain ⟨y, hy, hsame, hmoved⟩ := h.moved i p[i] hx
    obtain ⟨y', hy', hlive⟩ := isLiveAt_iff.1 (h.isLiveAt hall hi')
    obtain rfl := Option.some.inj (hy.symm.trans hy')
    obtain ⟨z, hz, hsame', hmoved'⟩ := exists_moved hlinks' hy hlive
    rw [h.liveBefore_place hall hi'] at hz
    obtain rfl : q.compact.program[i] = z := (Array.getElem?_eq_some_iff.1 hz).2
    refine Instruction.eq_of_untargeted (hsame'.trans hsame) fun hjump => ?_
    have hop := Instruction.op_eq_of_untargeted hsame'
    have hop' := Instruction.op_eq_of_untargeted hsame
    rw [hmoved' (hop ▸ hjump), hmoved (hop' ▸ hop ▸ hjump)]
    cases htarget : p[i].target? with
    | none => rfl
    | some target =>
      obtain ⟨w, hw, -⟩ := isLiveAt_iff.1
        (isLiveAt_of_target? hlinks hx (hop' ▸ hop ▸ hjump) htarget)
      rw [Option.map_some, Option.map_some,
        h.liveBefore_place hall (Array.getElem?_eq_some_iff.1 hw).1]
  have hbroken : q.compact.broken = [] := broken_eq_nil (by rw [hprogram]; exact hlinks)
  rw [← hprogram, ← hbroken]

end Spread

end Program

/-- A compaction keeps every link of a program that has no broken one, whatever its pairs look
like: it gives no warning, leaves the live instructions in their order with all operands but the
targets of resolved jumps, links two of them if and only if they were linked, keeps unresolved
jumps, and breaks no link. Vacant slots that have been put into such a program, with the targets
moved along, are taken out again without a trace. -/
theorem condenses_compact :
    (∀ p : Program, p.brokenLinks = [] →
      p.compact.broken = [] ∧ p.Condenses p.compact.program ∧
        p.compact.program.brokenLinks = []) ∧
    ∀ (p q : Program) (place : Nat → Nat), (∀ x ∈ p, x.op ≠ .nop) → p.brokenLinks = [] →
      p.Spread place q → q.compact = ⟨p, []⟩ := by
  refine ⟨fun p hlinks => ?_, fun p q place hlive hlinks hspread => ?_⟩
  · have hkept := Program.brokenLinks_compact hlinks
    exact ⟨Program.broken_eq_nil hkept, Program.condenses hlinks, hkept⟩
  · exact hspread.compact_eq (Program.all_isLive_iff.2 hlive) hlinks

/-- A loop end before its start, and the same pair with vacant slots around both. -/
theorem condenses_compact_of_backward :
    (Program.compact #[.nop, ⟨.closes .tested, 3, 0⟩, .nop, ⟨.opens .tested, 1, 0⟩]).broken = [] ∧
      Program.compact #[.nop, ⟨.closes .tested, 3, 0⟩, ⟨.nop, 7, 2⟩,
        ⟨.opens .tested, 1, 0⟩, .nop] =
        ⟨#[⟨.closes .tested, 1, 0⟩, ⟨.opens .tested, 0, 0⟩], []⟩ := by
  refine ⟨(condenses_compact.1 _ (by decide)).1,
    condenses_compact.2 #[_, _] _ (fun i => 2 * i + 1)
    (by decide) (by decide) ⟨fun i j hij _ => by omega, fun i x hx => ?_, fun k hk => ?_⟩⟩
  · match i with
    | 0 =>
      obtain rfl := Option.some.inj hx
      exact ⟨_, rfl, by decide, by decide⟩
    | 1 =>
      obtain rfl := Option.some.inj hx
      exact ⟨_, rfl, by decide, by decide⟩
    | i + 2 => cases hx
  · match k with
    | 0 | 2 | 4 => cases hk
    | 1 => exact ⟨0, by decide, rfl⟩
    | 3 => exact ⟨1, by decide, rfl⟩
    | k + 5 => cases hk

end TapeCode
