import TapeCode.Proofs.Block.Blind
import TapeCode.Proofs.Block.Fused

/-!
# Rewriting is sound

`Block.Rewrite.trails`: the course of a block trails that of a rewritten one. Each local change
has its own reason: a fused run has become shorter; a counting loop is over after some rounds, an
assignment at once; a counted loop takes its decrement at the start of a round and not in the
body, and its end looks at the cell once more instead. If the decrement comes from the back of the
body, the cell is one less all through the body, which is blind to it.
-/

namespace TapeCode

namespace Course

/-- A tested loop looks at its cell before every round. -/
theorem loop_tested (body : Course) :
    loop .tested body = tick (branch skip (body.seq (loop .tested body))) :=
  loop_eq .tested body

theorem run_loop_tested (body : Course) (l : Nat) (v : View) :
    (loop .tested body).run (l + 1) v = (branch skip (body.seq (loop .tested body))).run l v :=
  congrArg (fun F : Course => F.run (l + 1) v) (loop_tested body)

theorem loop_counted (body : Course) :
    loop .counted body =
      tick (branch skip
        ((enter .counted).seq (body.seq (tick (branch skip (loop .counted body)))))) :=
  loop_eq .counted body

/-! ## A loop that counts its cell to zero -/

section Counting

variable {x : Instruction} {v : View} {i : Nat}

theorem act_plain (h : Window.isPlainArithmetic x = true) (v : View) :
    x.act v = v.update 0 (· + x.change) := by
  rw [Instruction.act_of_isArithmetic (Block.isArithmetic_of_isPlainArithmetic h),
    Block.offset_of_isPlainArithmetic h]

/-- The number of rounds that steps by one take to bring a cell to zero. -/
def roundsLeft (x : Instruction) (c : Cell) : Nat :=
  if x.op = .sub .here then c.toNat else (-c).toNat

theorem roundsLeft_step (h : Window.isPlainArithmetic x = true) (hone : x.arg = 1) {c : Cell}
    (hc : c ≠ 0) : roundsLeft x (c + x.change) + 1 = roundsLeft x c := by
  have hpositive : c.toNat ≠ 0 := fun h => hc (UInt8.toNat_inj.1 h)
  have hlt := c.toNat_lt
  rcases Block.op_of_isPlainArithmetic h with hop | hop
  · have hchange : x.change = 1 := by
      rw [Instruction.change, Instruction.amount, hop, Cell.ofAmount_signed, hone]
      rfl
    have hone : (1 : Cell).toNat = 1 := rfl
    have hsize : UInt8.size = 256 := rfl
    have hne : x.op ≠ .sub .here := by rw [hop]; simp
    rw [roundsLeft, roundsLeft, if_neg hne, if_neg hne, hchange, UInt8.toNat_neg, UInt8.toNat_neg,
      UInt8.toNat_add, hone, hsize]
    omega
  · have hchange : x.change = -1 := by
      rw [Instruction.change, Instruction.amount, hop, Cell.ofAmount_neg,
        Cell.ofAmount_signed, hone]
      rfl
    have hminus : (-1 : Cell).toNat = 255 := rfl
    rw [roundsLeft, roundsLeft, if_pos hop, if_pos hop, hchange, UInt8.toNat_add, hminus]
    omega

/-- The course of a step on a cell in reach. -/
theorem run_plain (h : Window.isPlainArithmetic x = true) (hindex : v.index? 0 = some i)
    (F : Course)
    (l : Nat) : (x.course.seq F).run (l + 1) v = F.run l (v.store i (v.cells i + x.change)) := by
  rw [Instruction.course_of_isLive (Window.isLive_of_isPlainArithmetic h), tick_seq]
  exact seq_of_done (by simp only [free, act_plain h, View.update_of_some hindex])

theorem act_zero {y : Instruction} (hop : y.op = .set .here) (harg : y.arg = 0) (v : View) :
    y.act v = v.update 0 fun _ => 0 := by
  have hvalue : y.value = 0 := by rw [Instruction.value, harg]; rfl
  rw [Instruction.act_of_isSet (by rw [hop]; rfl), Block.offset_of_op_set hop, hvalue]

theorem run_zero {y : Instruction} (hop : y.op = .set .here) (harg : y.arg = 0)
    (hindex : v.index? 0 = some i) (l : Nat) :
    y.course.run (l + 1) v = .done l (v.store i 0) := by
  rw [Instruction.course_of_isLive (by rw [Instruction.isLive, hop]; rfl)]
  simp only [tick, free, act_zero hop harg, View.update_of_some hindex]

theorem run_zero_of_none {y : Instruction} (hop : y.op = .set .here) (harg : y.arg = 0)
    (hindex : v.index? 0 = none) (l : Nat) :
    y.course.run (l + 1) v = .halted l (some .outOfBounds) v := by
  rw [Instruction.course_of_isLive (by rw [Instruction.isLive, hop]; rfl)]
  simp only [tick, free, act_zero hop harg, View.update_of_none hindex]

/-- A loop that steps a cell in reach by one ends with zero in it, and takes a tick at least. -/
theorem run_counting (h : Window.isPlainArithmetic x = true) (hone : x.arg = 1)
    (hindex : v.index? 0 = some i) :
    (∀ l, (∃ u, (loop .tested x.course).run l v = .paused u ∧ u.output = v.output) ∨
      ∃ left, (loop .tested x.course).run l v = .done left (v.store i 0) ∧ left + 1 ≤ l) ∧
    ∃ l, ((loop .tested x.course).run l v).IsOver := by
  generalize hk : roundsLeft x (v.cells i) = k
  induction k generalizing v with
  | zero =>
    have hcell : v.cells i = 0 := by
      refine Decidable.byContradiction fun hcell => ?_
      have := roundsLeft_step h hone hcell
      omega
    have hdone (l : Nat) : (loop .tested x.course).run (l + 1) v = .done l (v.store i 0) := by
      rw [run_loop_tested, branch_of_zero hindex hcell, ← hcell, View.store_self]
      rfl
    refine ⟨fun l => ?_, 1, by rw [hdone]; trivial⟩
    cases l with
    | zero => exact .inl ⟨v, by rw [loop_tested]; rfl, rfl⟩
    | succ l => exact .inr ⟨l, hdone l, Nat.le_refl _⟩
  | succ k ih =>
    have hcell : v.cells i ≠ 0 := by
      intro hcell
      rw [hcell] at hk
      unfold roundsLeft at hk
      split at hk <;> cases hk
    have hstep := roundsLeft_step h hone hcell
    obtain ⟨hruns, l, hover⟩ := ih (v := v.store i (v.cells i + x.change)) hindex
      (by rw [View.cells_store]; omega)
    rw [View.store_store] at hruns
    have hround (l : Nat) : (loop .tested x.course).run (l + 1) v =
        (x.course.seq (loop .tested x.course)).run l v := by
      rw [run_loop_tested, branch_of_nonzero hindex hcell]
    have htwo (l : Nat) : (loop .tested x.course).run (l + 2) v =
        (loop .tested x.course).run l (v.store i (v.cells i + x.change)) := by
      rw [hround, run_plain h hindex]
    refine ⟨fun l => ?_, l + 2, by rwa [htwo]⟩
    cases l with
    | zero => exact .inl ⟨v, by rw [loop_tested]; rfl, rfl⟩
    | succ l =>
      cases l with
      | zero =>
        refine .inl ⟨v, ?_, rfl⟩
        rw [hround, Instruction.course_of_isLive (Window.isLive_of_isPlainArithmetic h), tick_seq]
        rfl
      | succ l =>
        rw [htwo]
        rcases hruns l with ⟨u, hrun, hu⟩ | ⟨left, hrun, hleft⟩
        · exact .inl ⟨u, hrun, hu⟩
        · exact .inr ⟨left, hrun, by omega⟩

/-- A loop that steps its cell by one trails an assignment of zero. -/
theorem trails_counting (h : Window.isPlainArithmetic x = true) (hone : x.arg = 1)
    {y : Instruction} (hop : y.op = .set .here) (harg : y.arg = 0) :
    Trails 0 0 (loop .tested x.course) y.course := by
  intro n v
  cases hindex : v.index? 0 with
  | none =>
    constructor
    · intro l l' _ hle
      cases l with
      | zero => exact .paused (y.course.precedes l' v)
      | succ l =>
        obtain ⟨l', rfl⟩ : ∃ k, l' = k + 1 := ⟨l' - 1, by omega⟩
        rw [run_zero_of_none hop harg hindex, run_loop_tested, branch_of_none hindex]
        exact .halted _ (by omega)
    · intro l _ _
      exact ⟨1, by rw [run_loop_tested, branch_of_none hindex]; trivial⟩
  | some i =>
    obtain ⟨hruns, hover⟩ := run_counting h hone hindex
    constructor
    · intro l l' _ hle
      rcases hruns l with ⟨u, hrun, hu⟩ | ⟨left, hrun, hleft⟩
      · have hprecedes := y.course.precedes l' v
        rw [hrun]
        exact .paused (by rwa [View.Precedes, hu])
      · obtain ⟨l', rfl⟩ : ∃ k, l' = k + 1 := ⟨l' - 1, by omega⟩
        rw [hrun, run_zero hop harg hindex]
        exact .done (by omega)
    · exact fun _ _ _ => hover

end Counting

/-! ## A loop that cannot run -/

/-- Behind an assignment of zero a loop makes no difference. -/
theorem trails_drop {y : Instruction} (hop : y.op = .set .here) (harg : y.arg = 0)
    (kind : LoopKind)
    (body F : Course) : Trails 0 0 (y.course.seq ((loop kind body).seq F)) (y.course.seq F) := by
  refine fun n v => .seq (fun _ => .refl (Nat.le_refl 0) _) fun k left u hrun => ?_
  cases k with
  | zero =>
    rw [Instruction.course_of_isLive (by rw [Instruction.isLive, hop]; rfl)] at hrun
    cases hrun
  | succ k =>
    cases hindex : v.index? 0 with
    | none =>
      rw [run_zero_of_none hop harg hindex] at hrun
      cases hrun
    | some i =>
      rw [run_zero hop harg hindex] at hrun
      cases hrun
      rw [loop_eq, round, tick_seq, branch_seq]
      have hzero : (v.store i 0).cells i = 0 := View.cells_store v i 0
      refine TrailsAt.tick_left
        ((TrailsAt.refl (Nat.zero_le 1) F).congr (fun l => ?_) fun _ => rfl)
      exact branch_of_zero hindex hzero

/-! ## A loop that takes over a decrement -/

section Decrement

variable {x : Instruction}

/-- A decrement does what a counted loop does at the start of a round. -/
theorem course_of_isDecrement (h : Window.isDecrement x = true) :
    x.course = tick (enter .counted) := by
  have hplain := Block.isPlainArithmetic_of_isDecrement h
  simp only [Window.isDecrement, Bool.and_eq_true, decide_eq_true_eq] at h
  have hchange : x.change = -1 := by
    rw [Instruction.change, Instruction.amount, h.1, Cell.ofAmount_neg, Cell.ofAmount_signed, h.2]
    rfl
  rw [Instruction.course_of_isLive (Window.isLive_of_isPlainArithmetic hplain)]
  refine congrArg tick (ext fun n v => ?_)
  simp only [free, enter, act_plain hplain, hchange, UInt8.sub_eq_add_neg]

theorem trails_takeFront (h : Window.isDecrement x = true) (body : Course) :
    Trails 0 0 (loop .tested (x.course.seq body)) (loop .counted body) := by
  rw [course_of_isDecrement h]
  intro n
  induction n with
  | zero => exact fun _ => .zero
  | succ n ih =>
    have hagain (w : View) : TrailsAt n 1 0 w (loop .tested ((tick (enter .counted)).seq body))
        (tick (branch skip (loop .counted body))) := by
      have hw := ih w
      rw [loop_tested] at hw ⊢
      exact hw.retest.tick_right
    intro v
    rw [loop_tested, loop_counted]
    generalize loop .tested ((tick (enter .counted)).seq body) = T at hagain ⊢
    rw [tick_seq, tick_seq, seq_assoc]
    refine TrailsAt.tick (.branch (fun _ _ _ => .refl (Nat.le_refl 0) skip) fun _ _ _ => ?_)
    -- The decrement of the tested loop takes a tick more, the end of the counted loop too.
    exact TrailsAt.tick_left (.seq (fun _ => .refl (Nat.le_refl 1) _) fun _ _ _ _ =>
      .seq (fun _ => .refl (Nat.le_refl 1) body) fun _ _ w _ => hagain w)

/-- With one data pointer the current cell is the same, if it is in reach. -/
theorem index?_of_dp {u v : View} {i : Nat} (hdp : u.dp = v.dp) (hindex : v.index? 0 = some i) :
    u.index? 0 = none ∨ u.index? 0 = some i := by
  unfold View.index? at hindex ⊢
  rw [hdp]
  split
  · split at hindex
    · exact .inr hindex
    · cases hindex
  · exact .inl rfl

theorem run_enter {v : View} {i : Nat} (hindex : v.index? 0 = some i) (l : Nat) :
    (enter .counted).run l v = .done l (v.shift i (-1)) := by
  simp only [enter, free, View.update_of_some hindex, View.shift, UInt8.sub_eq_add_neg]

theorem run_enter_of_none {v : View} (hindex : v.index? 0 = none) (l : Nat) :
    (enter .counted).run l v = .halted l (some .outOfBounds) v := by
  simp only [enter, free, View.update_of_none hindex]

/-- The decrement at the end of a round, where the data pointer is back, and what
comes after it. -/
theorem run_enter_seq (T : Course) {u : View} {i : Nat}
    (hback : u.index? 0 = none ∨ u.index? 0 = some i) (l : Nat) :
    ((enter .counted).seq T).run l u = .halted l (some .outOfBounds) u ∨
      ((enter .counted).seq T).run l u = T.run l (u.shift i (-1)) := by
  rcases hback with hnone | hsome
  · exact .inl (seq_of_halted (run_enter_of_none hnone l))
  · exact .inr (seq_of_done (run_enter hsome l))

theorem precedes_shift {u : View} {p : Progress} (h : u.Precedes p.view) (i : Nat) (δ : Cell) :
    u.Precedes (p.shift i δ).view := by
  cases p <;> exact h

/-- Where the cell is in reach, a round of the tested loop that takes one off its cell at the end
trails one that does so at the start, if what is between is blind to the cell. -/
theorem trailsAt_takeBack {body T K : Course} {n i : Nat} {v : View}
    (hindex : v.index? 0 = some i) (hblind : ∀ n, BlindBelow n i v.dp v.dp body)
    (hagain : ∀ w, TrailsAt n 0 0 w T K) :
    TrailsAt n 0 0 v (body.seq (tick ((enter .counted).seq T)))
      ((enter .counted).seq (body.seq (tick K))) := by
  have hright (l : Nat) : ((enter .counted).seq (body.seq (tick K))).run l v =
      (tick K).after ((body.run l v).shift i (-1)) := by
    rw [seq_of_done (run_enter hindex l)]
    simp only [seq, (hblind (l + 1)).shift l v (-1) (Nat.lt_succ_self l) rfl]
  have hback {l left : Nat} {u : View} (hrun : body.run l v = .done left u) :
      u.index? 0 = none ∨ u.index? 0 = some i :=
    index?_of_dp ((hblind (l + 1)).dp l v left u (Nat.lt_succ_self l) rfl hrun) hindex
  constructor
  · intro l l' hl hle
    obtain ⟨k, rfl⟩ : ∃ k, l' = l + k := ⟨l' - l, by omega⟩
    have hbody := body.left_le l v
    have hresumes := body.resumes l k v
    rw [hright]
    cases hrun : body.run l v with
    | paused u =>
      rw [hrun] at hresumes
      rw [seq_of_paused hrun]
      exact .paused ((precedes_shift hresumes i (-1)).trans ((tick K).precedes_after _))
    | halted left fault u =>
      rw [seq_of_halted hrun, run_add_of_halted hrun]
      cases fault with
      | none => exact absurd hrun ((hblind (l + 1)).stays l v left u (Nat.lt_succ_self l) rfl)
      | some fault => exact .faulted (Nat.le_add_right left k) rfl
    | done left u =>
      rw [hrun] at hbody
      rw [seq_of_done hrun, run_add_of_done hrun]
      cases left with
      | zero => exact .paused ((tick K).precedes (0 + k) (u.shift i (-1)))
      | succ m =>
        have hbody : m + 1 ≤ l := hbody
        rw [Nat.add_right_comm]
        rcases run_enter_seq T (hback hrun) m with hhalted | hdone
        · exact hhalted ▸ .outOfBounds (K.precedes (m + k) (u.shift i (-1)))
        · exact hdone ▸ (hagain (u.shift i (-1))).ahead m (m + k) (by omega)
            (Nat.le_add_right m k)
  · intro l hl hover
    have hbody := body.left_le l v
    rw [hright] at hover
    cases hrun : body.run l v with
    | paused u =>
      rw [hrun] at hover
      exact hover.elim
    | halted left fault u => exact ⟨l, by rw [seq_of_halted hrun]; trivial⟩
    | done left u =>
      rw [hrun] at hover hbody
      cases left with
      | zero => exact hover.elim
      | succ m =>
        have hbody : m + 1 ≤ l := hbody
        obtain ⟨j, hover⟩ := (hagain (u.shift i (-1))).ends m (by omega) hover
        refine ⟨l + j, ?_⟩
        rw [seq_of_done (run_add_of_done hrun j), Nat.add_right_comm]
        rcases run_enter_seq T (hback hrun) (m + j) with hhalted | hdone
        · exact hhalted ▸ trivial
        · rw [Nat.add_comm m] at hdone ⊢
          exact hdone ▸ isOver_add hover m

theorem trails_takeBack (h : Window.isDecrement x = true) {body : Course}
    (hblind : ∀ v i, View.index? v 0 = some i → ∀ n, BlindBelow n i v.dp v.dp body) :
    Trails 0 0 (loop .tested (body.seq x.course)) (loop .counted body) := by
  rw [course_of_isDecrement h]
  intro n
  induction n with
  | zero => exact fun _ => .zero
  | succ n ih =>
    have hagain (w : View) : TrailsAt n 0 0 w (loop .tested (body.seq (tick (enter .counted))))
        (branch skip (loop .counted body)) := by
      have hw := ih w
      rw [loop_tested] at hw ⊢
      exact hw.retest
    intro v
    rw [loop_tested, loop_counted]
    generalize loop .tested (body.seq (tick (enter .counted))) = T at hagain ⊢
    rw [seq_assoc, tick_seq]
    exact TrailsAt.tick (.branch (fun _ _ _ => .refl (Nat.le_refl 0) skip) fun i hindex _ =>
      trailsAt_takeBack hindex (hblind v i hindex) hagain)

end Decrement

end Course

namespace Block

open Course (Trails)

/-! ## Local changes -/

/-- The body of a loop that takes over the decrement at its back is blind to the cell
of the loop. -/
theorem blindBelow_of_inert {body : Block} (hsteady : body.Steady) (hinert : body.Inert)
    (hblind : body.observes 0 = false) (v : View) (i : Nat) (hindex : v.index? 0 = some i)
    (n : Nat) : Course.BlindBelow n i v.dp v.dp body.course := by
  have hreach : 0 ≤ v.dp + 0 ∧ (v.dp + 0).toNatClampNeg = i := by
    unfold View.index? at hindex
    split at hindex
    · rename_i hreach
      exact ⟨hreach.1, Option.some.inj hindex⟩
    · cases hindex
  obtain ⟨moved, hmotion, hcourse⟩ := blind hsteady hblind hinert.2 hreach.1
  obtain rfl : moved = 0 := Option.some.inj (hmotion.symm.trans hinert.1)
  have hbody := hcourse n
  rwa [hreach.2, Int64.add_zero] at hbody

theorem course_append_instr (front : Block) (x : Instruction) :
    (front.append (instr x done)).course = front.course.seq x.course := by
  rw [course_append, course, course, Course.seq_skip]

theorem steady_append (front tail : Block) :
    (front.append tail).Steady ↔ front.Steady ∧ tail.Steady := by
  induction front with
  | done => simp [append, Steady]
  | instr x rest ih => simpa [append, Steady] using ih
  | loop kind body rest _ ih => simp [append, Steady, ih, and_assoc]
  | stub kind rest ih => simpa [append, Steady] using ih

/-- Arithmetic behind an assignment of zero goes into the assignment. -/
theorem trails_absorb {next : Instruction} (hnext : Window.isPlainArithmetic next = true) :
    Trails 0 0 (({ op := .set .here } : Instruction).course.seq next.course)
      ({ op := .set .here, arg := next.change.toUInt32 } : Instruction).course := by
  have hvalue : ({ op := .set .here, arg := next.change.toUInt32 } : Instruction).value =
    next.change :=
    UInt8.toUInt8_toUInt32 _
  have hsilent : ∀ x ∈ [{ op := .set .here }, next], x.Silent := by
    intro x hx
    simp only [List.mem_cons, List.not_mem_nil, or_false] at hx
    rcases hx with rfl | rfl
    · exact Instruction.silent_of_isSet rfl
    · exact Instruction.silent_of_isArithmetic (isArithmetic_of_isPlainArithmetic hnext)
  have hact (v u : View) (hall : Instruction.actAll [{ op := .set .here }, next] v = (none, u)) :
      ({ op := .set .here, arg := next.change.toUInt32 } : Instruction).act v = (none, u) := by
    obtain ⟨w, hfirst, hrest⟩ := Instruction.actAll_cons hall
    have hsecond := Instruction.actAll_singleton hrest
    rw [Course.act_zero rfl rfl] at hfirst
    rw [Course.act_plain hnext, View.update_update hfirst, UInt8.zero_add] at hsecond
    rw [Instruction.act_of_isSet rfl, hvalue]
    exact hsecond
  have htrails := Instruction.trails_line (List.cons_ne_nil _ _) hsilent hact
  rwa [Instruction.line, Instruction.line, Instruction.line, Course.seq_skip] at htrails

theorem Step.trails {b c : Block} (h : b.Step c) (hsteady : b.Steady)
    (hload : b.load false < 2 ^ 32) : Trails 0 0 b.course c.course := by
  cases h with
  | @fuse xs y n rest hfuse =>
    rw [load_instrs] at hload
    rw [course_instrs, course, course_nops]
    exact (hfuse.trails (by omega)).seq (.refl 0 _)
  | @zero x n rest hx hone =>
    rw [course, course, course, course, course_nops, Course.seq_skip]
    exact (Course.trails_counting hx hone rfl rfl).seq (.refl 0 _)
  | @assign x next n rest hx hone hnext =>
    rw [course, course, course, course, course, course_nops, Course.seq_skip]
    have hzero := (Course.trails_counting hx hone (y := { op := .set .here }) rfl rfl).seq
      (.refl 0 (next.course.seq rest.course))
    rw [← Course.seq_assoc ({ op := .set .here } : Instruction).course] at hzero
    exact hzero.trans ((trails_absorb hnext).seq (.refl 0 _))
  | clear rest hvacant =>
    rw [course, Instruction.course_of_vacant hvacant, Course.skip_seq]
    exact .refl 0 _
  | @drop x kind n body rest hop harg =>
    rw [course, course, course, course_nops]
    exact Course.trails_drop hop harg kind body.course rest.course
  | @takeFront x body rest hx hinert =>
    rw [course, course, course, course, Instruction.course_nop, Course.skip_seq]
    exact (Course.trails_takeFront hx body.course).seq (.refl 0 _)
  | @takeBack x body rest hx hinert hblind =>
    have hbody : body.Steady := ((steady_append _ _).1 hsteady.2.1).1
    rw [course, course, course_append_instr, course_append_instr, Instruction.course_nop,
      Course.seq_skip]
    exact (Course.trails_takeBack hx (blindBelow_of_inert hbody hinert hblind)).seq (.refl 0 _)

/-- A block trails what it is rewritten to. -/
theorem Rewrite.trails {b c : Block} (h : b.Rewrite c) (hsteady : b.Steady)
    (hload : b.load false < 2 ^ 32) : Trails 0 0 b.course c.course := by
  induction h with
  | here hstep => exact hstep.trails hsteady hload
  | instr x _ ih =>
    rw [load] at hload
    exact (Trails.refl 0 _).seq (ih hsteady (by omega))
  | body kind rest _ ih =>
    rw [load] at hload
    exact ((ih hsteady.2.1 (by omega)).loop kind).seq (.refl 0 _)
  | behind kind body _ ih =>
    rw [load] at hload
    exact (Trails.refl 0 _).seq (ih hsteady.2.2 (by omega))
  | stub kind _ ih =>
    exact ((Trails.refl 0 _).branch ((Trails.refl 0 _).seq (ih hsteady hload))).tick

/-- A safe block trails what any number of local changes make of it. -/
theorem Rewrites.trails {b c : Block} (h : b.Rewrites c) (hsafe : b.Safe)
    (hload : b.load true < 2 ^ 32) : Trails 0 0 b.course c.course := by
  induction h with
  | refl => exact .refl 0 _
  | @head a b c hrewrite _ ih =>
    have hle := a.load_false_le true
    exact (hrewrite.trails hsafe.steady (by omega)).trans
      (ih (hrewrite.safe hload hsafe) (Nat.lt_of_le_of_lt (hrewrite.load_le true) hload))

end Block

end TapeCode
