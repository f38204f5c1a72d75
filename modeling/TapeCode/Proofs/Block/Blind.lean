import TapeCode.Proofs.Block.Course

/-!
# Blocks that do not look at a cell

A course is blind to a cell if another value in that cell changes nothing but that value: the
course takes the same way, and the difference is there at the end as it was at the start
(`Course.BlindBelow`). `Block.blind` states that the course of a block is blind to every cell that
the block neither observes nor assigns. It also finds where the data pointer ends up, which is as
far off as `Block.motion` says.
-/

namespace TapeCode

namespace View

/-- Addresses that are not negative are told apart by their index. -/
theorem eq_of_toNatClampNeg_eq {a b : Int64} (ha : 0 ≤ a) (hb : 0 ≤ b)
    (h : a.toNatClampNeg = b.toNatClampNeg) : a = b := by
  have ha := Int64.le_iff_toInt_le.1 ha
  have hb := Int64.le_iff_toInt_le.1 hb
  have h : a.toInt.toNat = b.toInt.toNat := h
  apply Int64.toInt_inj.1
  simp only [Int64.toInt_zero] at ha hb
  omega

variable {v : View} {i : Nat} {δ : Cell} {offset target : Int64}

/-- The view with a value added to a cell. -/
def shift (v : View) (i : Nat) (δ : Cell) : View :=
  v.store i (v.cells i + δ)

theorem cells_shift_of_ne {j : Nat} (h : j ≠ i) : (v.shift i δ).cells j = v.cells j :=
  if_neg h

theorem store_comm {j : Nat} (h : j ≠ i) (a b : Cell) :
    (v.store i a).store j b = (v.store j b).store i a := by
  refine View.ext rfl rfl (funext fun k => ?_) rfl rfl
  simp only [store]
  grind

theorem store_shift {j : Nat} (h : j ≠ i) (a : Cell) :
    (v.shift i δ).store j a = (v.store j a).shift i δ := by
  have hcell : (v.store j a).cells i = v.cells i := if_neg (Ne.symm h)
  rw [shift, shift, store_comm h, hcell]

/-- A change that does not look at the value commutes with another one. -/
theorem update_shift {f : Cell → Cell}
    (hf : v.index? offset = some i → ∀ c, f (c + δ) = f c + δ) :
    (v.shift i δ).update offset f = ((v.update offset f).1, (v.update offset f).2.shift i δ) := by
  have hindex : (v.shift i δ).index? offset = v.index? offset := rfl
  cases h : v.index? offset with
  | none => rw [update_of_none (hindex.trans h), update_of_none h]
  | some j =>
    rw [update_of_some (hindex.trans h), update_of_some h]
    refine congrArg (Prod.mk none) ?_
    by_cases hj : j = i
    · subst hj
      rw [shift, shift, store_store, store_store, cells_store, cells_store, hf h]
    · rw [cells_shift_of_ne hj]
      exact store_shift hj _

/-- Two ways to address one cell are the same distance. -/
theorem eq_of_index? (h : v.index? offset = some i) (htarget : 0 ≤ v.dp + target)
    (hi : (v.dp + target).toNatClampNeg = i) : offset = target := by
  unfold index? at h
  split at h
  · rename_i hreach
    have hsame := eq_of_toNatClampNeg_eq hreach.1 htarget ((Option.some.inj h).trans hi.symm)
    grind
  · cases h

theorem dp_update (v : View) (offset : Int64) (f : Cell → Cell) :
    (v.update offset f).2.dp = v.dp := by
  unfold update
  split <;> rfl

theorem dp_receive (v : View) : v.receive.2.dp = v.dp := by
  unfold receive
  dsimp only
  split
  · exact dp_update ..
  · rfl
  · rfl

end View

namespace Instruction

variable {x : Instruction} {v : View} {target : Int64}

theorem dp_act (x : Instruction) (v : View) : (x.act v).2.dp = v.dp + x.motion := by
  unfold act motion
  cases hop : x.op with
  | move => rfl
  | add => exact (View.dp_update ..).trans (Int64.add_zero _).symm
  | sub => exact (View.dp_update ..).trans (Int64.add_zero _).symm
  | set => exact (View.dp_update ..).trans (Int64.add_zero _).symm
  | print =>
    refine Eq.trans ?_ (Int64.add_zero _).symm
    dsimp only
    split
    · unfold View.emit
      split <;> rfl
    · rfl
  | input => exact (View.dp_receive v).trans (Int64.add_zero _).symm
  | _ => exact (Int64.add_zero _).symm

/-- An instruction that neither observes nor assigns a cell commutes with another value in it. -/
theorem act_shift {a b : Int64} (hblind : x.observes target = false)
    (heffect : x.effectOn target (.adds a) = some (.adds b)) (htarget : 0 ≤ v.dp + target)
    (δ : Cell) :
    x.act (v.shift (v.dp + target).toNatClampNeg δ) =
      ((x.act v).1, (x.act v).2.shift (v.dp + target).toNatClampNeg δ) := by
  have harith (c : Cell) : c + δ + x.change = c + x.change + δ := by
    rw [UInt8.add_assoc, UInt8.add_comm δ, ← UInt8.add_assoc]
  unfold act
  cases hop : x.op with
  | add => exact View.update_shift fun _ => harith
  | sub => exact View.update_shift fun _ => harith
  | set =>
    refine View.update_shift fun hindex => ?_
    have hoffset := View.eq_of_index? hindex htarget rfl
    rw [effectOn_of_isSet (by rw [hop]; rfl), if_pos hoffset] at heffect
    cases heffect
  | print =>
    have hne : target ≠ 0 := by simpa [observes, hop] using hblind
    have hindex : (v.shift (v.dp + target).toNatClampNeg δ).index? 0 = v.index? 0 := rfl
    dsimp only
    rw [hindex]
    cases h : v.index? 0 with
    | none => rfl
    | some j =>
      have hj : j ≠ (v.dp + target).toNatClampNeg := by
        rintro rfl
        exact hne (View.eq_of_index? h htarget rfl).symm
      dsimp only
      rw [View.cells_shift_of_ne hj]
      unfold View.emit
      split
      · rename_i hfull
        rw [if_pos (show v.output.isFull = true from hfull)]
        rfl
      · rename_i hfull
        rw [if_neg (show ¬ v.output.isFull = true from hfull)]
        rfl
  | input =>
    have hne : target ≠ 0 := by simpa [observes, hop] using hblind
    dsimp only
    unfold View.receive
    have hinput : (v.shift (v.dp + target).toNatClampNeg δ).input = v.input := rfl
    rw [hinput]
    cases h : v.input.readByte.1 with
    | nothing => rfl
    | failed cause => rfl
    | byte value =>
      refine View.update_shift (v := { v with input := v.input.readByte.2 }) fun hindex => ?_
      exact absurd (View.eq_of_index? (v := v) hindex htarget rfl).symm hne
  | _ => rfl

end Instruction

/-- The progress with a value added to a cell. -/
def Progress.shift (i : Nat) (δ : Cell) : Progress → Progress
  | .paused v => .paused (v.shift i δ)
  | .done left v => .done left (v.shift i δ)
  | .halted left fault v => .halted left fault (v.shift i δ)

namespace Course

/-- On less than `n` ticks, and from where the data pointer is `d`, a course is blind to the cell
`i`. If it gets to its end the data pointer is `d'`, and it never leaves the program. -/
structure BlindBelow (n i : Nat) (d d' : Int64) (F : Course) : Prop where
  shift : ∀ l v δ, l < n → v.dp = d → F.run l (v.shift i δ) = (F.run l v).shift i δ
  dp : ∀ l v l' u, l < n → v.dp = d → F.run l v = .done l' u → u.dp = d'
  stays : ∀ l v l' u, l < n → v.dp = d → F.run l v ≠ .halted l' none u

namespace BlindBelow

variable {n i : Nat} {d d' d'' : Int64} {F G : Course}

theorem mono {m : Nat} (h : BlindBelow n i d d' F) (hle : m ≤ n) : BlindBelow m i d d' F :=
  ⟨fun l v δ hl => h.shift l v δ (by omega), fun l v l' u hl => h.dp l v l' u (by omega),
    fun l v l' u hl => h.stays l v l' u (by omega)⟩

theorem free {f : View → Option Fault.Kind × View} (hf : ∀ v : View, v.Precedes (f v).2)
    (hshift : ∀ v δ, v.dp = d → f (v.shift i δ) = ((f v).1, (f v).2.shift i δ))
    (hdp : ∀ v, v.dp = d → (f v).2.dp = d') : BlindBelow n i d d' (free f hf) := by
  constructor
  · intro l v δ _ hv
    simp only [Course.free, hshift v δ hv]
    cases (f v).1 <;> rfl
  · intro l v l' u _ hv hdone
    simp only [Course.free] at hdone
    split at hdone
    · cases hdone
      exact hdp v hv
    · cases hdone
  · intro l v l' u _ _ hleft
    simp only [Course.free] at hleft
    split at hleft <;> cases hleft

theorem skip : BlindBelow n i d d skip :=
  .free _ (fun _ _ _ => rfl) fun _ hv => hv

theorem tick (h : BlindBelow n i d d' F) : BlindBelow (n + 1) i d d' (tick F) := by
  constructor
  · intro l v δ hl hv
    cases l with
    | zero => rfl
    | succ l => exact h.shift l v δ (by omega) hv
  · intro l v l' u hl hv hdone
    cases l with
    | zero => cases hdone
    | succ l => exact h.dp l v l' u (by omega) hv hdone
  · intro l v l' u hl hv hleft
    cases l with
    | zero => cases hleft
    | succ l => exact h.stays l v l' u (by omega) hv hleft

/-- A look at another cell. -/
theorem branch (hne : ∀ v : View, v.dp = d → v.index? 0 ≠ some i) (hF : BlindBelow n i d d' F)
    (hG : BlindBelow n i d d' G) : BlindBelow n i d d' (branch F G) := by
  constructor
  · intro l v δ hl hv
    have hsame : (v.shift i δ).index? 0 = v.index? 0 := rfl
    cases hindex : v.index? 0 with
    | none => rw [branch_of_none hindex, branch_of_none (hsame.trans hindex)]; rfl
    | some j =>
      have hcell : (v.shift i δ).cells j = v.cells j := by
        refine View.cells_shift_of_ne ?_
        rintro rfl
        exact hne v hv hindex
      by_cases hzero : v.cells j = 0
      · rw [branch_of_zero hindex hzero, branch_of_zero (hsame.trans hindex) (hcell.trans hzero)]
        exact hF.shift l v δ hl hv
      · rw [branch_of_nonzero hindex hzero,
          branch_of_nonzero (hsame.trans hindex) (by rwa [hcell])]
        exact hG.shift l v δ hl hv
  · intro l v l' u hl hv hdone
    cases hindex : v.index? 0 with
    | none => rw [branch_of_none hindex] at hdone; cases hdone
    | some j =>
      by_cases hzero : v.cells j = 0
      · rw [branch_of_zero hindex hzero] at hdone
        exact hF.dp l v l' u hl hv hdone
      · rw [branch_of_nonzero hindex hzero] at hdone
        exact hG.dp l v l' u hl hv hdone
  · intro l v l' u hl hv hleft
    cases hindex : v.index? 0 with
    | none => rw [branch_of_none hindex] at hleft; cases hleft
    | some j =>
      by_cases hzero : v.cells j = 0
      · rw [branch_of_zero hindex hzero] at hleft
        exact hF.stays l v l' u hl hv hleft
      · rw [branch_of_nonzero hindex hzero] at hleft
        exact hG.stays l v l' u hl hv hleft

theorem seq (hF : BlindBelow n i d d' F) (hG : BlindBelow n i d' d'' G) :
    BlindBelow n i d d'' (F.seq G) := by
  constructor
  · intro l v δ hl hv
    have hle := F.left_le l v
    have hfirst := hF.shift l v δ hl hv
    simp only [Course.seq, hfirst]
    cases hrun : F.run l v with
    | paused u => rfl
    | halted left fault u => rfl
    | done left u =>
      rw [hrun] at hle
      exact hG.shift left u δ (Nat.lt_of_le_of_lt hle hl) (hF.dp l v left u hl hv hrun)
  · intro l v l' u hl hv hdone
    have hle := F.left_le l v
    cases hrun : F.run l v with
    | paused w => rw [seq_of_paused hrun] at hdone; cases hdone
    | halted left fault w => rw [seq_of_halted hrun] at hdone; cases hdone
    | done left w =>
      rw [hrun] at hle
      rw [seq_of_done hrun] at hdone
      exact hG.dp left w l' u (Nat.lt_of_le_of_lt hle hl) (hF.dp l v left w hl hv hrun) hdone
  · intro l v l' u hl hv hleft
    have hle := F.left_le l v
    cases hrun : F.run l v with
    | paused w => rw [seq_of_paused hrun] at hleft; cases hleft
    | halted left fault w =>
      rw [seq_of_halted hrun] at hleft
      exact hF.stays l v l' u hl hv (hrun.trans hleft)
    | done left w =>
      rw [hrun] at hle
      rw [seq_of_done hrun] at hleft
      exact hG.stays left w l' u (Nat.lt_of_le_of_lt hle hl) (hF.dp l v left w hl hv hrun) hleft

/-- A loop on another cell whose body brings the data pointer back. -/
theorem loop (hne : ∀ v : View, v.dp = d → v.index? 0 ≠ some i) (kind : LoopKind)
    (hF : ∀ n, BlindBelow n i d d F) : BlindBelow n i d d (loop kind F) := by
  induction n with
  | zero => exact ⟨fun _ _ _ hl => absurd hl (Nat.not_lt_zero _),
      fun _ _ _ _ hl => absurd hl (Nat.not_lt_zero _),
        fun _ _ _ _ hl => absurd hl (Nat.not_lt_zero _)⟩
  | succ n ih =>
    have henter : BlindBelow n i d d (enter kind) := by
      cases kind with
      | tested => exact .skip
      | counted =>
        refine .free (fun v => v.precedes_update 0 _) (fun v δ hv => ?_) fun v hv => ?_
        · exact View.update_shift fun hindex => absurd hindex (hne v hv)
        · rwa [View.dp_update]
    have hagain : BlindBelow n i d d (again kind (Course.loop kind F)) := by
      cases kind with
      | tested => exact ih
      | counted => exact (BlindBelow.skip.branch hne ih).tick.mono (Nat.le_succ n)
    rw [loop_eq]
    exact (BlindBelow.skip.branch hne (henter.seq ((hF n).seq hagain))).tick

end BlindBelow

end Course

namespace Block

/-- Once a cell is assigned, it stays so. -/
theorem effectFrom_assigns {block : Block} {target : Int64} {value : Cell} {effect : Effect}
    (h : block.effectFrom target (.assigns value) = some effect) :
    ∃ value', effect = .assigns value' := by
  induction block generalizing target value with
  | done => exact ⟨value, (Option.some.inj h).symm⟩
  | instr x rest ih =>
    obtain ⟨e, hx, hrest⟩ := Option.bind_eq_some_iff.1 h
    have hassigns : ∃ value', e = .assigns value' := by
      unfold Instruction.effectOn at hx
      split at hx <;> try split at hx
      all_goals first
        | exact ⟨_, (Option.some.inj hx).symm⟩
        | cases hx
    obtain ⟨value', rfl⟩ := hassigns
    exact ih hrest
  | loop kind body rest _ ih =>
    rcases (effectFrom_loop_eq_some_iff.1 h).2 with ⟨-, hrest⟩ | ⟨-, -, hrest⟩
    · exact ih hrest
    · exact ih hrest
  | stub kind rest => cases h

/-- A block is blind to a cell that it neither observes nor assigns, and moves the data pointer as
far as its motion says. -/
theorem blind {block : Block} (hsteady : block.Steady) {target a b d : Int64}
    (hblind : block.observes target = false)
    (heffect : block.effectFrom target (.adds a) = some (.adds b)) (htarget : 0 ≤ d + target) :
    ∃ moved, block.motion = some moved ∧
      ∀ n, Course.BlindBelow n (d + target).toNatClampNeg d (d + moved) block.course := by
  induction block generalizing target a b d with
  | done =>
    refine ⟨0, rfl, fun n => ?_⟩
    rw [Int64.add_zero]
    exact .skip
  | instr x rest ih =>
    obtain ⟨hx, hrest⟩ := Bool.or_eq_false_iff.1 hblind
    obtain ⟨e, he, heffect⟩ := Option.bind_eq_some_iff.1 heffect
    obtain ⟨a', rfl⟩ : ∃ a', e = .adds a' := by
      cases e with
      | adds a' => exact ⟨a', rfl⟩
      | assigns value => obtain ⟨value', h⟩ := effectFrom_assigns heffect; cases h
    have haddress : d + x.motion + (target - x.motion) = d + target := by grind
    obtain ⟨moved, hmotion, hblind⟩ := ih hsteady hrest heffect (d := d + x.motion)
      (by rwa [haddress])
    refine ⟨x.motion + moved, by rw [motion, hmotion]; rfl, fun n => ?_⟩
    have hrest := hblind n
    rw [haddress, Int64.add_assoc] at hrest
    refine .seq ?_ hrest
    unfold Instruction.course
    split
    · refine (Course.BlindBelow.free x.precedes_act (fun v δ hv => ?_) fun v hv => ?_).tick.mono
        (Nat.le_succ n)
      · subst hv
        exact Instruction.act_shift hx he htarget δ
      · rw [Instruction.dp_act, hv]
    · rename_i hlive
      rw [Instruction.motion, op_of_isLive (Bool.not_eq_true _ ▸ hlive), Int64.add_zero]
      exact .skip
  | loop kind body rest ihBody ihRest =>
    obtain ⟨hcounted, hbodySteady, hrestSteady⟩ := hsteady
    obtain ⟨hkind, heffect⟩ := effectFrom_loop_eq_some_iff.1 heffect
    simp only [observes, Bool.or_eq_false_iff, decide_eq_false_iff_not] at hblind
    obtain ⟨⟨⟨htargetNe, -⟩, hbodyBlind⟩, hrestBlind⟩ := hblind
    have hstill : body.motion = some 0 := hkind.elim hcounted id
    rcases heffect with ⟨hzero, -⟩ | ⟨-, hbodyEffect, hrestEffect⟩
    · exact absurd hzero htargetNe
    · obtain ⟨moved, hmoved, hbody⟩ := ihBody hbodySteady hbodyBlind hbodyEffect htarget
      obtain rfl : moved = 0 := Option.some.inj (hmoved.symm.trans hstill)
      obtain ⟨moved, hmoved, hrest⟩ := ihRest hrestSteady hrestBlind hrestEffect htarget
      refine ⟨moved, by rw [motion, if_pos hkind, hmoved], fun n => ?_⟩
      rw [Int64.add_zero] at hbody
      have hne (v : View) (hv : v.dp = d) : v.index? 0 ≠ some (d + target).toNatClampNeg := by
        subst hv
        exact fun hindex => htargetNe (View.eq_of_index? hindex htarget rfl).symm
      exact (Course.BlindBelow.loop hne kind hbody).seq (hrest n)
  | stub kind rest => cases heffect

end Block

end TapeCode
