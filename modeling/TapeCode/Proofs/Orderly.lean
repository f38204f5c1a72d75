import TapeCode.Proofs.WellFormed

/-!
# Orderly programs

An orderly program may have vacant slots anywhere, and loop starts without an end, too. It is laid
out as a block all the same, and so is every span of it that takes no pair of jumps apart
(`Program.Whole`, `Program.Orderly.exists_holds`). In fact the orderly programs are just those
that are laid out as blocks in which the bodies of counted loops bring the data pointer back
(`Program.orderly_iff`).
-/

namespace TapeCode

namespace Program

/-- The span from `i` to `stop` has both ends of every loop that it has one end of. -/
structure Whole (p : Program) (i stop : Nat) : Prop where
  closes : ∀ kind j close, p.IsPair kind j close → i ≤ j → j < stop → close < stop
  opens : ∀ kind j close, p.IsPair kind j close → i ≤ close → close < stop → i ≤ j

variable {p : Program} {i j close stop : Nat} {kind : LoopKind} {x : Instruction}

/-- Only the start of a loop begins a pair. -/
theorem not_isPair (hx : p[i]? = some x) (hopen : x.op.isOpen = false) (kind : LoopKind)
    (close : Nat) : ¬ p.IsPair kind i close := by
  rintro ⟨a, ha, haop, -⟩
  obtain rfl := Option.some.inj (hx.symm.trans ha)
  rw [haop] at hopen
  cases hopen

namespace Orderly

/-- A pair is a loop. -/
theorem isLoop (h : p.Orderly) (hpair : p.IsPair kind i close) : p.IsLoop i close kind := by
  obtain ⟨a, ha, haop, hat⟩ := hpair
  exact .of_linked (h.linked i a close ha (by rw [haop]; rfl) hat) ha haop

/-- Every loop end belongs to a pair. -/
theorem exists_isPair (h : p.Orderly) (hx : p[close]? = some x) (hop : x.op = .closes kind) :
    ∃ i, x.target? = some i ∧ p.IsPair kind i close := by
  obtain ⟨i, hi⟩ := Option.ne_none_iff_exists'.1 (h.resolved kind close x hx hop)
  obtain ⟨b, a, hb, ha, hpartner, -, hat⟩ :=
    linked_iff.1 (h.linked close x i hx (by rw [hop]; rfl) hi)
  obtain rfl := Option.some.inj (hx.symm.trans hb)
  rw [hop] at hpartner
  exact ⟨i, hi, a, ha, (Option.some.inj hpartner).symm, hat⟩

end Orderly

theorem IsLoop.isPair (h : p.IsLoop i close kind) : p.IsPair kind i close :=
  h.opens

/-- The end of a loop begins no pair. -/
theorem IsLoop.not_isPair_close {close' : Nat} {kind' : LoopKind} (h : p.IsLoop i close kind) :
    ¬ p.IsPair kind' close close' := by
  obtain ⟨b, hb, hbop, -⟩ := h.closes
  exact not_isPair hb (by rw [hbop]; rfl) kind' close'

/-- A loop end belongs to one pair. -/
theorem IsLoop.left_unique {i' : Nat} {kind' : LoopKind} (h : p.IsLoop i close kind)
    (h' : p.IsLoop i' close kind') : i = i' := by
  obtain ⟨b, hb, -, hbt⟩ := h.closes
  obtain ⟨b', hb', -, hbt'⟩ := h'.closes
  obtain rfl := Option.some.inj (hb.symm.trans hb')
  exact Option.some.inj (hbt.symm.trans hbt')

/-- A loop start belongs to one pair. -/
theorem IsPair.right_unique {close' : Nat} {kind' : LoopKind} (h : p.IsPair kind i close)
    (h' : p.IsPair kind' i close') : close = close' := by
  obtain ⟨a, ha, -, hat⟩ := h
  obtain ⟨a', ha', -, hat'⟩ := h'
  obtain rfl := Option.some.inj (ha.symm.trans ha')
  exact Option.some.inj (hat.symm.trans hat')

namespace Orderly

/-- The body of a pair is whole. -/
theorem whole_body (h : p.Orderly) (hpair : p.IsPair kind i close) : p.Whole (i + 1) close where
  closes kind' j close' hpair' hle hlt := h.nested _ _ _ _ _ _ hpair hpair' hle hlt
  opens kind' j close' hpair' hle hlt := by
    have hloop := h.isLoop hpair
    have hloop' := h.isLoop hpair'
    -- The pair of a loop end inside starts neither before `i`, as `i` would be inside that, nor
    -- at `i`.
    rcases Nat.lt_trichotomy j i with hbefore | rfl | hbehind
    · have := h.nested _ _ _ _ _ _ hpair' hpair hbefore (by omega)
      omega
    · have := hpair.right_unique hpair'
      omega
    · exact hbehind

/-- What remains of a whole span behind its first loop is whole. -/
theorem whole_behind (h : p.Orderly) (hwhole : p.Whole i stop) (hpair : p.IsPair kind i close) :
    p.Whole (close + 1) stop where
  closes kind' j close' hpair' hle hlt := by
    have := h.ordered _ _ _ hpair
    exact hwhole.closes _ _ _ hpair' (by omega) hlt
  opens kind' j close' hpair' hle hlt := by
    have hopen := h.ordered _ _ _ hpair
    have hinside := hwhole.opens _ _ _ hpair' (by omega) hlt
    rcases Nat.lt_trichotomy j close with hin | rfl | hbehind
    · rcases Nat.lt_or_eq_of_le hinside with hlater | rfl
      · have := h.nested _ _ _ _ _ _ hpair hpair' hlater hin
        omega
      · have := hpair.right_unique hpair'
        omega
    · exact absurd hpair' (h.isLoop hpair).not_isPair_close
    · exact hbehind

/-- A slot that is not the start of a pair can be left out of a whole span. -/
theorem whole_succ (hwhole : p.Whole i stop) (hnot : ∀ kind close, ¬ p.IsPair kind i close) :
    p.Whole (i + 1) stop where
  closes kind' j close' hpair' hle hlt := hwhole.closes _ _ _ hpair' (by omega) hlt
  opens kind' j close' hpair' hle hlt := by
    refine Nat.lt_of_le_of_ne (hwhole.opens _ _ _ hpair' (by omega) hlt) ?_
    rintro rfl
    exact hnot _ _ hpair'

/-- A whole span is laid out as a block. -/
theorem exists_holds {i stop : Nat} (h : p.Orderly) (hwhole : p.Whole i stop) (hle : i ≤ stop)
    (hstop : stop ≤ p.size) : ∃ block, p.Holds i block stop := by
  rcases Nat.lt_or_eq_of_le hle with hlt | rfl
  · have hx : p[i]? = some p[i] := Array.getElem?_eq_getElem (by omega)
    have alone (hnot : ∀ kind close, ¬ p.IsPair kind i close) :
        ∃ block, p.Holds (i + 1) block stop :=
      h.exists_holds (whole_succ hwhole hnot) hlt hstop
    cases hop : p[i].op with
    | opens kind =>
      cases htarget : p[i].target? with
      | none =>
        obtain ⟨rest, hrest⟩ := alone fun kind' close' hpair => by
          obtain ⟨a, ha, -, hat⟩ := hpair
          obtain rfl := Option.some.inj (hx.symm.trans ha)
          cases htarget.symm.trans hat
        exact ⟨_, .stub hx hop htarget hrest⟩
      | some close =>
        have hpair : p.IsPair kind i close := ⟨p[i], hx, hop, htarget⟩
        have hopen := h.ordered _ _ _ hpair
        have hclose := hwhole.closes _ _ _ hpair (Nat.le_refl i) hlt
        obtain ⟨body, hbody⟩ := h.exists_holds (h.whole_body hpair) hopen (by omega)
        obtain ⟨rest, hrest⟩ := h.exists_holds (h.whole_behind hwhole hpair) hclose hstop
        exact ⟨_, .loop (h.isLoop hpair) hbody hrest⟩
    | closes kind =>
      obtain ⟨j, -, hpair⟩ := h.exists_isPair hx hop
      have := h.ordered _ _ _ hpair
      have := hwhole.opens _ _ _ hpair (Nat.le_refl i) hlt
      omega
    | _ =>
      obtain ⟨rest, hrest⟩ := alone (not_isPair hx (by rw [hop]; rfl))
      exact ⟨_, .instr hx (by rw [hop]; rfl) hrest⟩
  · exact ⟨.done, .done⟩
termination_by stop - i

/-- A whole program is. -/
theorem whole_program (h : p.Orderly) : p.Whole 0 p.size where
  closes _ _ _ hpair _ _ := (h.isLoop hpair).close_lt_size
  opens _ j _ _ _ _ := Nat.zero_le j

end Orderly

/-! ## What is known of the block of a span -/

/-- The bodies of the counted loops in an orderly program are known to bring the
data pointer back. -/
theorem Holds.steady {block : Block} (hholds : p.Holds i block stop) (h : p.Orderly) :
    block.Steady := by
  induction hholds with
  | done => trivial
  | instr _ _ _ ih => exact ih
  | loop hloop hbody _ ihBody ihRest =>
    refine ⟨?_, ihBody, ihRest⟩
    rintro rfl
    rw [← displacement?_of_holds hbody]
    exact h.steady _ _ hloop.isPair
  | stub _ _ _ _ ih => exact ih

/-- The orderly programs are those that are laid out as steady blocks. -/
theorem orderly_iff : p.Orderly ↔ ∃ block : Block, p.Holds 0 block p.size ∧ block.Steady := by
  constructor
  · intro h
    obtain ⟨block, hholds⟩ := h.exists_holds h.whole_program (Nat.zero_le _) (Nat.le_refl _)
    exact ⟨block, hholds, hholds.steady h⟩
  · rintro ⟨block, hholds, hsteady⟩
    exact hholds.orderly hsteady

/-- The counts of all motions in a list added up. -/
def motionSum (xs : List Instruction) : Nat :=
  xs.foldr (fun x n => x.load false + n) 0

/-- The counts of all motions of a program added up. -/
def motionLoad (p : Program) : Nat :=
  motionSum p.toList

/-- The counts of all motions in a list added up, and those of arithmetic if they
are asked for. -/
def loadSum (arithmetic : Bool) (xs : List Instruction) : Nat :=
  xs.foldr (fun x n => x.load arithmetic + n) 0

/-- The counts of all motions of a program added up, and those of arithmetic if they
are asked for. -/
def load (p : Program) (arithmetic : Bool) : Nat :=
  loadSum arithmetic p.toList

theorem loadSum_drop (hx : p[i]? = some x) (arithmetic : Bool) :
    loadSum arithmetic (p.toList.drop i) =
      x.load arithmetic + loadSum arithmetic (p.toList.drop (i + 1)) := by
  rw [← Array.getElem?_toList] at hx
  obtain ⟨hlt, rfl⟩ := List.getElem?_eq_some_iff.1 hx
  rw [List.drop_eq_getElem_cons hlt]
  rfl

theorem loadSum_drop_le (arithmetic : Bool) (xs : List Instruction) (n : Nat) :
    loadSum arithmetic (xs.drop n) ≤ loadSum arithmetic xs := by
  induction xs generalizing n with
  | nil => exact Nat.le_of_eq (by rw [List.drop_nil])
  | cons x xs ih =>
    cases n with
    | zero => exact Nat.le_refl _
    | succ n => exact Nat.le_trans (ih n) (Nat.le_add_left _ _)

/-- The block of a span and what stands behind it count no more than all that stands from its
start on. -/
theorem Holds.load_add_le {block : Block} (h : p.Holds i block stop) (arithmetic : Bool) :
    block.load arithmetic + loadSum arithmetic (p.toList.drop stop) ≤
      loadSum arithmetic (p.toList.drop i) := by
  induction h with
  | done => exact Nat.le_of_eq (Nat.zero_add _)
  | instr hx _ _ ih =>
    rw [loadSum_drop hx, Block.load]
    omega
  | loop hloop _ _ ihBody ihRest =>
    obtain ⟨⟨a, ha, -⟩, b, hb, -⟩ := hloop
    rw [loadSum_drop ha, Block.load]
    rw [loadSum_drop hb] at ihBody
    omega
  | stub ha _ _ _ ih =>
    rw [loadSum_drop ha, Block.load]
    omega

/-- A block of a program counts no more than the program. -/
theorem Holds.load_le_load {block : Block} (h : p.Holds i block stop) (arithmetic : Bool) :
    block.load arithmetic ≤ p.load arithmetic :=
  Nat.le_trans (Nat.le_trans (Nat.le_add_right _ _) (h.load_add_le arithmetic))
    (loadSum_drop_le arithmetic p.toList i)

theorem Holds.load_le {block : Block} (h : p.Holds 0 block p.size) :
    block.load false ≤ p.motionLoad :=
  h.load_le_load false

end Program

end TapeCode
