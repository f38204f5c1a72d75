import TapeCode.Proofs.Block.Course

/-!
# Running a fused run

`Fuses.act_eq`: where a run of instructions goes through, the instruction that it is fused to does
the same to the view. `Fuses.trails` puts this on the clock. The run may fail where the fused
instruction does not, as the accesses of the run have become fewer.
-/

namespace TapeCode

/-- Arithmetic adds or subtracts. -/
theorem Opcode.eq_add_or_eq_sub_of_isArithmetic {op : Opcode} (h : op.isArithmetic = true) :
    (∃ place, op = .add place) ∨ ∃ place, op = .sub place := by
  cases op with
  | add place => exact .inl ⟨place, rfl⟩
  | sub place => exact .inr ⟨place, rfl⟩
  | _ => cases h

namespace Instruction

/-- What instructions that stand one behind the other do, up to the first fault. -/
def actAll : List Instruction → View → Option Fault.Kind × View
  | [], v => (none, v)
  | x :: xs, v =>
    match (x.act v).1 with
    | none => actAll xs (x.act v).2
    | some fault => (some fault, (x.act v).2)

/-- A live instruction that leaves the streams alone. -/
structure Silent (x : Instruction) : Prop where
  isLive : x.isLive = true
  output : ∀ v, (x.act v).2.output = v.output
  fault : ∀ v fault, (x.act v).1 = some fault → fault = .outOfBounds

theorem actAll_cons {x : Instruction} {xs : List Instruction} {v u : View}
    (h : actAll (x :: xs) v = (none, u)) :
    ∃ w, x.act v = (none, w) ∧ actAll xs w = (none, u) := by
  unfold actAll at h
  split at h
  · rename_i hact
    exact ⟨_, Prod.ext hact rfl, h⟩
  · cases h

/-- How far a run of silent instructions gets. -/
theorem run_line {xs : List Instruction} (hsilent : ∀ x ∈ xs, x.Silent) (n : Nat) (v : View) :
    (∃ u, (line xs).run n v = .paused u ∧ u.output = v.output) ∨
      (∃ left u, (line xs).run n v = .halted left (some .outOfBounds) u ∧ u.output = v.output) ∨
      ∃ left u, (line xs).run n v = .done left u ∧ n = left + xs.length ∧
        actAll xs v = (none, u) := by
  induction xs generalizing n v with
  | nil => exact .inr (.inr ⟨n, v, rfl, rfl, rfl⟩)
  | cons x xs ih =>
    have hx := hsilent x List.mem_cons_self
    have houtput := hx.output v
    rw [line, course_of_isLive hx.isLive, Course.tick_seq]
    cases n with
    | zero => exact .inl ⟨v, rfl, rfl⟩
    | succ n =>
      cases hact : (x.act v).1 with
      | some fault =>
        obtain rfl := hx.fault v fault hact
        refine .inr (.inl ⟨n, (x.act v).2, ?_, houtput⟩)
        exact Course.seq_of_halted (Course.free_of_some hact)
      | none =>
        have hrun :
            (Course.tick ((Course.free x.act x.precedes_act).seq (line xs))).run (n + 1) v =
            (line xs).run n (x.act v).2 :=
          Course.seq_of_done (Course.free_of_none hact)
        rw [hrun, actAll, hact]
        rcases ih (fun y hy => hsilent y (List.mem_cons_of_mem x hy)) n (x.act v).2 with
          ⟨u, hrest, hu⟩ | ⟨left, u, hrest, hu⟩ | ⟨left, u, hrest, hn, hall⟩
        · exact .inl ⟨u, hrest, hu.trans houtput⟩
        · exact .inr (.inl ⟨left, u, hrest, hu.trans houtput⟩)
        · exact .inr (.inr ⟨left, u, hrest, by rw [List.length_cons, hn]; rfl, hall⟩)

theorem isOver_run_line {xs : List Instruction} (hsilent : ∀ x ∈ xs, x.Silent) (v : View) :
    ((line xs).run xs.length v).IsOver := by
  induction xs generalizing v with
  | nil => trivial
  | cons x xs ih =>
    rw [line, course_of_isLive (hsilent x List.mem_cons_self).isLive, Course.tick_seq]
    have hrest := ih (fun y hy => hsilent y (List.mem_cons_of_mem x hy)) (x.act v).2
    change (Course.run (Course.seq _ _) xs.length v).IsOver
    cases hact : (x.act v).1 with
    | some fault =>
      rw [Course.seq_of_halted (Course.free_of_some hact)]
      trivial
    | none =>
      rw [Course.seq_of_done (Course.free_of_none hact)]
      exact hrest

/-- A run of silent instructions trails one instruction that does the same. -/
theorem trails_line {xs : List Instruction} {y : Instruction} (hne : xs ≠ [])
    (hsilent : ∀ x ∈ xs, x.Silent)
    (hact : ∀ v u, actAll xs v = (none, u) → y.act v = (none, u)) :
    Course.Trails 0 0 (line xs) y.course := by
  intro n v
  constructor
  · intro l l' _ hle
    rcases run_line hsilent l v with
      ⟨u, hrun, hu⟩ | ⟨left, u, hrun, hu⟩ | ⟨left, u, hrun, hl, hall⟩
    · rw [hrun]
      have hprecedes := y.course.precedes l' v
      exact .paused (by rwa [View.Precedes, hu])
    · rw [hrun]
      have hprecedes := y.course.precedes l' v
      exact .outOfBounds (by rwa [View.Precedes, hu])
    · rw [hrun]
      have hone := List.length_pos_iff.2 hne
      have hy := hact v u hall
      unfold course
      split
      · obtain ⟨k, rfl⟩ : ∃ k, l' = k + 1 := ⟨l' - 1, by omega⟩
        have hdone : (Course.tick (Course.free y.act y.precedes_act)).run (k + 1) v =
          .done k u := by
          simp only [Course.tick, Course.free, hy]
        rw [hdone]
        exact .done (by omega)
      · rename_i hlive
        obtain rfl : v = u := by
          rw [act_of_vacant (Bool.not_eq_true _ ▸ hlive)] at hy
          exact (Prod.mk.inj hy).2
        exact .done (by omega)
  · intro l _ _
    exact ⟨xs.length, isOver_run_line hsilent v⟩

/-! ## Each fusion -/

section Pairs

variable {a b : Instruction} {v w u : View}

/-- Two changes of one cell by arithmetic are one change by the sum. -/
theorem act_arithmetic {y : Instruction} (ha : a.op.isArithmetic = true)
    (hb : b.op.isArithmetic = true) (hy : y.op.isArithmetic = true) (hab : a.offset = b.offset)
    (hay : y.offset = a.offset) (hchange : y.change = a.change + b.change)
    (hfirst : a.act v = (none, w))
    (hsecond : b.act w = (none, u)) : y.act v = (none, u) := by
  rw [act_of_isArithmetic ha] at hfirst
  rw [act_of_isArithmetic hb, ← hab, View.update_update hfirst] at hsecond
  rw [act_of_isArithmetic hy, hay, hchange, ← hsecond]
  congr 1
  funext c
  exact (UInt8.add_assoc c a.change b.change).symm

/-- Two motions are one motion by the sum. -/
theorem act_motion {y : Instruction} (ha : a.op.isMotion = true) (hb : b.op.isMotion = true)
    (hy : y.op.isMotion = true) (hamount : y.amount = a.amount + b.amount)
    (hfirst : a.act v = (none, w)) (hsecond : b.act w = (none, u)) : y.act v = (none, u) := by
  rw [act_of_isMotion ha] at hfirst
  obtain rfl := (Prod.mk.inj hfirst).2
  rw [act_of_isMotion hb] at hsecond
  rw [act_of_isMotion hy, hamount, ← hsecond, Int64.add_assoc]

/-- Two inverse instructions that cancel leave the view alone. -/
theorem eq_of_cancel (hdist : a.dist = b.dist) (hinv : a.op.inverse? = some b.op)
    (hzero : a.amount + b.amount = 0) (hfirst : a.act v = (none, w))
    (hsecond : b.act w = (none, u)) : v = u := by
  rcases isMotion_or_isArithmetic_of_inverse? hinv with ⟨ha, hb⟩ | ⟨ha, hb⟩
  · rw [act_of_isMotion ha] at hfirst
    obtain rfl := (Prod.mk.inj hfirst).2
    rw [act_of_isMotion hb] at hsecond
    rw [← (Prod.mk.inj hsecond).2, Int64.add_assoc, hzero, Int64.add_zero]
  · have hchange : a.change + b.change = 0 := by
      rw [change, change, ← Cell.ofAmount_add, hzero, Cell.ofAmount_zero]
    rw [act_of_isArithmetic ha] at hfirst
    rw [act_of_isArithmetic hb, ← offset_eq_of_inverse? hdist hinv,
      View.update_update hfirst] at hsecond
    obtain ⟨i, -, rfl⟩ := View.exists_index_of_update hsecond
    rw [UInt8.add_assoc, hchange, UInt8.add_zero, View.store_self]

theorem act_difference (hdist : a.dist = b.dist) (hinv : a.op.inverse? = some b.op)
    (hfirst : a.act v = (none, w)) (hsecond : b.act w = (none, u)) :
    (Window.difference a b).act v = (none, u) := by
  have hoffset := offset_eq_of_inverse? hdist hinv
  rcases difference_cases hdist hinv with ⟨hnop, hzero⟩ | ⟨hop, hydist, hamount⟩
  · rw [hnop, act_of_vacant isLive_nop, eq_of_cancel hdist hinv hzero hfirst hsecond]
  · rcases isMotion_or_isArithmetic_of_inverse? hinv with ⟨ha, hb⟩ | ⟨ha, hb⟩
    · exact act_motion ha hb (by rcases hop with hop | hop <;> rwa [hop]) hamount hfirst hsecond
    · refine act_arithmetic ha hb (by rcases hop with hop | hop <;> rwa [hop]) hoffset
        ?_ ?_ hfirst hsecond
      · rcases hop with hop | hop
        · exact offset_congr hop hydist
        · exact (offset_congr hop (hydist.trans hdist)).trans hoffset.symm
      · rw [change, hamount, Cell.ofAmount_add, change, change]

theorem change_merge (hop : a.op = b.op) (harith : a.op.isArithmetic = true) :
    { a with arg := a.arg + b.arg }.change = a.change + b.change := by
  rcases Opcode.eq_add_or_eq_sub_of_isArithmetic harith with ⟨place, ha⟩ | ⟨place, ha⟩
  · have hb : b.op = .add place := hop ▸ ha
    simp only [change, amount, ha, hb, Cell.ofAmount_signed, UInt32.toUInt8_add]
  · have hb : b.op = .sub place := hop ▸ ha
    simp only [change, amount, ha, hb, Cell.ofAmount_neg, Cell.ofAmount_signed,
      UInt32.toUInt8_add, UInt8.neg_add, UInt8.sub_eq_add_neg]

theorem act_merge (hdist : a.dist = b.dist) (hop : a.op = b.op)
    (hagg : a.op.isAggregatable = true) (hload : a.load false + b.load false < 2 ^ 32)
    (hfirst : a.act v = (none, w))
    (hsecond : b.act w = (none, u)) : { a with arg := a.arg + b.arg }.act v = (none, u) := by
  rcases Opcode.isMotion_or_isArithmetic_of_isAggregatable hagg with ha | ha
  · have hsum : a.arg.toNat + b.arg.toNat < 2 ^ 32 := by simpa [load, ← hop, ha] using hload
    exact act_motion ha (hop ▸ ha) (y := { a with arg := _ }) ha (amount_merge hop hsum)
      hfirst hsecond
  · exact act_arithmetic ha (hop ▸ ha) (y := { a with arg := _ }) ha (offset_congr hop hdist)
      (offset_congr rfl rfl) (change_merge hop ha) hfirst hsecond

theorem act_absorb {place : Place} (ha : a.op = .set place)
    (hb : b.op = .add place ∨ b.op = .sub place) (hdist : a.dist = b.dist)
    (hfirst : a.act v = (none, w)) (hsecond : b.act w = (none, u)) :
    { a with arg := (a.value + b.change).toUInt32 }.act v = (none, u) := by
  have hset : a.op.isSet = true := by rw [ha]; rfl
  have harith : b.op.isArithmetic = true := by rcases hb with hb | hb <;> rw [hb] <;> rfl
  have hoffset : a.offset = b.offset := by
    rcases hb with hb | hb <;> simp only [offset, ha, hb, placeOffset, hdist]
  have hvalue : { a with arg := (a.value + b.change).toUInt32 }.value = a.value + b.change :=
    UInt8.toUInt8_toUInt32 _
  have hact := act_of_isSet (x := { a with arg := (a.value + b.change).toUInt32 }) hset v
  rw [act_of_isSet hset] at hfirst
  rw [act_of_isArithmetic harith, ← hoffset, View.update_update hfirst] at hsecond
  rw [hvalue] at hact
  exact hact.trans hsecond

end Pairs

theorem actAll_singleton {x : Instruction} {v u : View} (h : actAll [x] v = (none, u)) :
    x.act v = (none, u) := by
  obtain ⟨w, hact, hdone⟩ := actAll_cons h
  rwa [← (Prod.mk.inj hdone).2]

/-- A run of assignments to one cell does what its last one does. -/
theorem act_overwrite {op : Opcode} {dist : UInt32} (hset : op.isSet = true)
    {xs : List Instruction} {first last : Instruction}
    (hfirst : first.op = op ∧ first.dist = dist)
    (hall : ∀ x ∈ xs ++ [last], x.op = op ∧ x.dist = dist) {v u : View}
    (hact : actAll (first :: (xs ++ [last])) v = (none, u)) :
    { first with arg := last.arg }.act v = (none, u) := by
  -- An assignment between the first and the last overrides the first in turn.
  have override {a b : Instruction} {w u : View} (ha : a.op = op ∧ a.dist = dist)
      (hb : b.op = op ∧ b.dist = dist) (hfirst : a.act v = (none, w))
      (hsecond : b.act w = (none, u)) : { a with arg := b.arg }.act v = (none, u) := by
    have hoffset : a.offset = b.offset :=
      offset_congr (ha.1.trans hb.1.symm) (ha.2.trans hb.2.symm)
    rw [act_of_isSet (ha.1 ▸ hset)] at hfirst
    rw [act_of_isSet (hb.1 ▸ hset), ← hoffset, View.update_update hfirst] at hsecond
    rw [act_of_isSet (x := { a with arg := _ }) (ha.1 ▸ hset), ← hsecond]
    rfl
  induction xs generalizing first with
  | nil =>
    obtain ⟨w, hfirst', hrest⟩ := actAll_cons hact
    exact override hfirst (hall last List.mem_cons_self) hfirst' (actAll_singleton hrest)
  | cons x xs ih =>
    have hx := hall x List.mem_cons_self
    obtain ⟨w, hfirst', hrest⟩ := actAll_cons hact
    obtain ⟨w', hx', hrest⟩ := actAll_cons hrest
    have hover := override hfirst hx hfirst' hx'
    refine @ih { first with arg := x.arg } hfirst
      (fun y hy => hall y (List.mem_cons_of_mem x hy)) ?_
    rw [actAll, hover]
    exact hrest

/-- A change between a motion and its way back is that change made aside. -/
theorem act_aside {there middle back aside : Instruction} (h : Excursion there middle back aside)
    {v u : View} (hact : actAll [there, middle, back] v = (none, u)) :
    aside.act v = (none, u) := by
  obtain ⟨w, hthere, hrest⟩ := actAll_cons hact
  obtain ⟨w', hmiddle, hrest⟩ := actAll_cons hrest
  have hback := actAll_singleton hrest
  rw [act_of_isMotion h.leaves] at hthere
  obtain rfl := (Prod.mk.inj hthere).2
  rw [act_of_isMotion h.turns, h.returns] at hback
  -- The cell that the motion leads to is the one aside.
  have hsame (f : Cell → Cell)
      (hupdate : ({ v with dp := v.dp + there.amount } : View).update 0 f = (none, w')) :
      v.update there.amount f = (none, u) := by
    obtain ⟨i, hindex, rfl⟩ := View.exists_index_of_update hupdate
    have hindex : v.index? there.amount = some i := by
      simpa [View.index?] using hindex
    rw [View.update_of_some hindex, ← (Prod.mk.inj hback).2]
    refine congrArg (Prod.mk none) (View.ext ?_ rfl rfl rfl rfl)
    simp only [View.store]
    grind
  rcases h.same with ⟨hm, ha, hamount⟩ | ⟨hm, ha, hvalue⟩
  · rw [act_of_isArithmetic hm, h.here] at hmiddle
    rw [act_of_isArithmetic ha, h.offset, change, hamount]
    exact hsame _ hmiddle
  · rw [act_of_isSet hm, h.here] at hmiddle
    rw [act_of_isSet ha, h.offset, hvalue]
    exact hsame _ hmiddle

theorem silent_of_update {x : Instruction} {f : Cell → Cell} (hlive : x.isLive = true)
    (hact : ∀ v, x.act v = v.update x.offset f) : x.Silent := by
  have hcases (v : View) : (x.act v).2.output = v.output ∧
      ∀ fault, (x.act v).1 = some fault → fault = .outOfBounds := by
    rw [hact]
    unfold View.update
    split
    · exact ⟨rfl, by simp⟩
    · exact ⟨rfl, by simp [eq_comm]⟩
  exact ⟨hlive, fun v => (hcases v).1, fun v => (hcases v).2⟩

theorem silent_of_isMotion {x : Instruction} (h : x.op.isMotion = true) : x.Silent := by
  refine ⟨?_, fun v => ?_, fun v fault hfault => ?_⟩
  · cases hop : x.op <;> simp_all [isLive, Opcode.isLive, Opcode.isMotion]
  · rw [act_of_isMotion h]
  · rw [act_of_isMotion h] at hfault
    cases hfault

theorem silent_of_isArithmetic {x : Instruction} (h : x.op.isArithmetic = true) : x.Silent :=
  silent_of_update (by cases hop : x.op <;> simp_all [isLive, Opcode.isLive, Opcode.isArithmetic])
    (act_of_isArithmetic h)

theorem silent_of_isSet {x : Instruction} (h : x.op.isSet = true) : x.Silent :=
  silent_of_update (Opcode.isLive_of_isSet h) (act_of_isSet h)

end Instruction

namespace Fuses

open Instruction

variable {xs : List Instruction} {y : Instruction}

theorem ne_nil (h : Fuses xs y) : xs ≠ [] := by
  cases h <;> exact List.cons_ne_nil _ _

theorem silent (h : Fuses xs y) {x : Instruction} (hx : x ∈ xs) : x.Silent := by
  cases h with
  | @cancel a b hdist hinv =>
    simp only [List.mem_cons, List.not_mem_nil, or_false] at hx
    rcases isMotion_or_isArithmetic_of_inverse? hinv with ⟨ha, hb⟩ | ⟨ha, hb⟩
    · rcases hx with rfl | rfl
      · exact silent_of_isMotion ha
      · exact silent_of_isMotion hb
    · rcases hx with rfl | rfl
      · exact silent_of_isArithmetic ha
      · exact silent_of_isArithmetic hb
  | @merge a b hdist hop hagg =>
    simp only [List.mem_cons, List.not_mem_nil, or_false] at hx
    have hsame : x.op = a.op := by
      rcases hx with rfl | rfl
      · rfl
      · exact hop.symm
    rcases Opcode.isMotion_or_isArithmetic_of_isAggregatable hagg with ha | ha
    · exact silent_of_isMotion (hsame ▸ ha)
    · exact silent_of_isArithmetic (hsame ▸ ha)
  | @aside there middle back side change hchange hthere hmiddle hback harg =>
    have h := excursion hchange hthere hmiddle hback harg
    simp only [List.mem_cons, List.not_mem_nil, or_false] at hx
    rcases hx with rfl | rfl | rfl
    · exact silent_of_isMotion h.leaves
    · rcases h.same with ⟨hm, -, -⟩ | ⟨hm, -, -⟩
      · exact silent_of_isArithmetic hm
      · exact silent_of_isSet hm
    · exact silent_of_isMotion h.turns
  | @overwrite first last between hset hall =>
    have hop : x.op = first.op := by
      rcases List.mem_cons.1 hx with rfl | hx
      · rfl
      · exact (hall x hx).1
    exact silent_of_isSet (hop ▸ hset)
  | @absorb first second place hset harith hdist =>
    simp only [List.mem_cons, List.not_mem_nil, or_false] at hx
    rcases hx with rfl | rfl
    · exact silent_of_isSet (by rw [hset]; rfl)
    · exact silent_of_isArithmetic (by rcases harith with h | h <;> rw [h] <;> rfl)

/-- Where a run of instructions goes through, the fused instruction does what it did. -/
theorem act_eq (h : Fuses xs y) (hload : (Block.instrs xs .done).load false < 2 ^ 32) {v u : View}
    (hall : actAll xs v = (none, u)) : y.act v = (none, u) := by
  cases h with
  | cancel hdist hinv =>
    obtain ⟨w, hfirst, hrest⟩ := actAll_cons hall
    exact act_difference hdist hinv hfirst (actAll_singleton hrest)
  | merge hdist hop hagg =>
    obtain ⟨w, hfirst, hrest⟩ := actAll_cons hall
    exact act_merge hdist hop hagg hload hfirst (actAll_singleton hrest)
  | aside hchange hthere hmiddle hback harg =>
    exact act_aside (excursion hchange hthere hmiddle hback harg) hall
  | overwrite hset hsame => exact act_overwrite hset ⟨rfl, rfl⟩ hsame hall
  | absorb hset harith hdist =>
    obtain ⟨w, hfirst, hrest⟩ := actAll_cons hall
    exact act_absorb hset harith hdist hfirst (actAll_singleton hrest)

/-- A run of instructions trails the fused instruction. -/
theorem trails (h : Fuses xs y) (hload : (Block.instrs xs .done).load false < 2 ^ 32) :
    Course.Trails 0 0 (line xs) y.course :=
  trails_line h.ne_nil (fun _ hx => h.silent hx) fun _ _ hall => h.act_eq hload hall

end Fuses

end TapeCode
