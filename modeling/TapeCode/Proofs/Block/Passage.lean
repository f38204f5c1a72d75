import TapeCode.Proofs.Block.Blind
import TapeCode.Proofs.Execution

/-!
# Passing through a block

`Block.Goes block v w` says that a block takes the view `v` to the view `w`, without a fault and
all the way to its end. A loop is taken round by round, so that what a passage does can be shown
by induction on it.

The analyses are right about every passage: the data pointer moves as far as `Block.motion` says
(`Goes.dp_eq`), and a cell changes as `Block.effectFrom` says (`Goes.cells_eq`).
-/

namespace TapeCode

/-- What an effect makes of the value of a cell. -/
def Effect.apply : Effect → Cell → Cell
  | adds amount, c => c + Cell.ofAmount amount
  | assigns value, _ => value

namespace Effect

@[simp] theorem apply_unchanged (c : Cell) : unchanged.apply c = c := by
  simp [unchanged, apply]

theorem apply_andThen (e f : Effect) (c : Cell) :
    (e.andThen f).apply c = f.apply (e.apply c) := by
  cases e <;> cases f <;> simp [andThen, apply, Cell.ofAmount, UInt8.add_assoc]

end Effect

namespace Block

/-- A block takes a view to another one. -/
inductive Goes : Block → View → View → Prop
  | done {v : View} : Goes done v v
  | instr {x : Instruction} {rest : Block} {v u w : View} : x.act v = (none, u) → Goes rest u w →
    Goes (instr x rest) v w
  /-- The cell is zero, and the loop is over. -/
  | exit {kind : LoopKind} {body rest : Block} {v w : View} {i : Nat} : v.index? 0 = some i →
    v.cells i = 0 → Goes rest v w → Goes (loop kind body rest) v w
  /-- One more round. -/
  | round {kind : LoopKind} {body rest : Block} {v u t w : View} {i : Nat} : v.index? 0 = some i →
    v.cells i ≠ 0 → Machine.entry kind v = (none, u) → Goes body u t →
      Goes (loop kind body rest) t w →
    Goes (loop kind body rest) v w

variable {block body rest : Block} {kind : LoopKind} {v u w : View} {target moved : Int64}
  {sofar effect : Effect}

/-- The rest behind a loop. -/
theorem Goes.behind (h : Goes (loop kind body .done) v u) (hrest : Goes rest u w) :
    Goes (loop kind body rest) v w := by
  generalize hloop : loop kind body .done = block at h
  induction h with
  | done => cases hloop
  | instr => cases hloop
  | exit hindex hcell hdone =>
    cases hloop
    cases hdone
    exact .exit hindex hcell hrest
  | round hindex hcell hentry hbody _ _ ih =>
    cases hloop
    exact .round hindex hcell hentry hbody (ih hrest rfl)

/-- A block of which the motion is known has no stubs. -/
theorem closed_of_motion (hsteady : block.Steady) (hmoved : block.motion = some moved) :
    block.Closed := by
  induction block generalizing moved with
  | done => trivial
  | instr x rest ih =>
    obtain ⟨m, hrest, -⟩ := Option.map_eq_some_iff.1 hmoved
    exact ih hsteady hrest
  | loop kind body rest ihBody ihRest =>
    unfold motion at hmoved
    split at hmoved
    · rename_i hkind
      exact ⟨ihBody hsteady.2.1 (hkind.elim hsteady.1 id), ihRest hsteady.2.2 hmoved⟩
    · cases hmoved
  | stub => cases hmoved

/-! ## How far the data pointer moves -/

theorem dp_entry (kind : LoopKind) (v : View) : (Machine.entry kind v).2.dp = v.dp := by
  cases kind with
  | tested => rfl
  | counted => exact View.dp_update ..

/-- The body of a loop of which the motion is known brings the data pointer back. -/
theorem motion_body (hsteady : (loop kind body rest).Steady)
    (hmoved : (loop kind body rest).motion = some moved) : body.motion = some 0 := by
  unfold motion at hmoved
  split at hmoved
  · rename_i hkind
    exact hkind.elim hsteady.1 id
  · cases hmoved

theorem motion_behind (hmoved : (loop kind body rest).motion = some moved) :
    rest.motion = some moved := by
  unfold motion at hmoved
  split at hmoved
  · exact hmoved
  · cases hmoved

/-- A passage moves the data pointer as far as the analysis says. -/
theorem Goes.dp_eq (h : block.Goes v w) (hsteady : block.Steady)
    (hmoved : block.motion = some moved) : w.dp = v.dp + moved := by
  induction h generalizing moved with
  | done =>
    obtain rfl : 0 = moved := Option.some.inj hmoved
    exact (Int64.add_zero _).symm
  | @instr x rest v u w hact _ ih =>
    obtain ⟨m, hrest, rfl⟩ := Option.map_eq_some_iff.1 hmoved
    have hdp := x.dp_act v
    rw [hact] at hdp
    rw [ih hsteady hrest, hdp, Int64.add_assoc]
  | exit _ _ _ ih => exact ih hsteady.2.2 (motion_behind hmoved)
  | @round kind body rest v u t w i _ _ hentry _ _ ihBody ihLoop =>
    have hdp := dp_entry kind v
    rw [hentry] at hdp
    rw [ihLoop hsteady hmoved, ihBody hsteady.2.1 (motion_body hsteady hmoved), hdp,
      Int64.add_zero]

end Block

/-! ## What happens to a cell -/

namespace View

variable {v u : View} {i : Nat} {offset target : Int64} {f : Cell → Cell}

theorem nonneg_of_index? (h : v.index? offset = some i) : 0 ≤ v.dp + offset := by
  unfold index? at h
  split at h
  · rename_i hreach
    exact hreach.1
  · cases h

theorem toNatClampNeg_of_index? (h : v.index? offset = some i) :
    (v.dp + offset).toNatClampNeg = i := by
  unfold index? at h
  split at h
  · exact Option.some.inj h
  · cases h

/-- A change is seen at its distance and nowhere else. -/
theorem cells_update (h : v.update offset f = (none, u)) (htarget : 0 ≤ v.dp + target) :
    u.cells (v.dp + target).toNatClampNeg =
      if offset = target then f (v.cells (v.dp + target).toNatClampNeg)
      else v.cells (v.dp + target).toNatClampNeg := by
  obtain ⟨i, hindex, rfl⟩ := exists_index_of_update h
  split
  · rename_i hsame
    subst hsame
    rw [toNatClampNeg_of_index? hindex, cells_store]
  · rename_i hne
    exact if_neg fun hi => hne (eq_of_index? hindex htarget hi)

theorem cells_emit (v : View) (b : UInt8) : (v.emit b).2.cells = v.cells := by
  unfold emit
  split <;> rfl

/-- A byte that is read goes into the current cell. -/
theorem cells_receive (h : v.receive = (none, u)) (htarget : 0 ≤ v.dp + target)
    (hne : target ≠ 0) :
    u.cells (v.dp + target).toNatClampNeg = v.cells (v.dp + target).toNatClampNeg := by
  unfold receive at h
  dsimp only at h
  split at h
  · have hcells := cells_update h htarget
    rwa [if_neg (Ne.symm hne)] at hcells
  · obtain ⟨-, rfl⟩ := Prod.mk.inj h
    rfl
  · cases h

end View

namespace Instruction

variable {x : Instruction} {v u : View} {target : Int64} {sofar effect : Effect} {c : Cell}

/-- An instruction changes a cell as its effect says. -/
theorem cells_act (h : x.act v = (none, u)) (heffect : x.effectOn target sofar = some effect)
    (htarget : 0 ≤ v.dp + target) (hc : v.cells (v.dp + target).toNatClampNeg = sofar.apply c) :
    u.cells (v.dp + target).toNatClampNeg = effect.apply c := by
  have hupdate {offset : Int64} {f : Cell → Cell} {e : Effect} (h : v.update offset f = (none, u))
      (hf : ∀ c, e.apply c = f c)
      (heffect : some (if offset = target then sofar.andThen e else sofar) = some effect) :
      u.cells (v.dp + target).toNatClampNeg = effect.apply c := by
    rw [View.cells_update h htarget, hc, ← Option.some.inj heffect]
    split
    · rw [Effect.apply_andThen, hf]
    · rfl
  have hsame (hu : u.cells = v.cells) (heffect : some sofar = some effect) :
      u.cells (v.dp + target).toNatClampNeg = effect.apply c := by
    rw [hu, hc, Option.some.inj heffect]
  unfold act at h
  unfold effectOn at heffect
  cases hop : x.op with
  | add =>
    rw [hop] at h heffect
    exact hupdate h (fun _ => rfl) heffect
  | sub =>
    rw [hop] at h heffect
    exact hupdate h (fun _ => rfl) heffect
  | set =>
    rw [hop] at h heffect
    exact hupdate h (fun _ => rfl) heffect
  | print =>
    rw [hop] at h heffect
    dsimp only at h
    split at h
    · rename_i i _
      have hcells := v.cells_emit (v.cells i)
      rw [h] at hcells
      exact hsame hcells heffect
    · cases h
  | input =>
    rw [hop] at h heffect
    dsimp only at heffect
    split at heffect
    · cases heffect
    · rename_i hne
      rw [View.cells_receive h htarget hne, hc, Option.some.inj heffect]
  | _ =>
    rw [hop] at h heffect
    exact hsame (by rw [← (Prod.mk.inj h).2]) heffect

/-- No instruction has an effect at a negative address, as it would raise a fault there. -/
theorem effect_eq_of_act (h : x.act v = (none, u))
    (heffect : x.effectOn target sofar = some effect)
    (htarget : ¬ 0 ≤ v.dp + target) : effect = sofar := by
  have hupdate {offset : Int64} {f : Cell → Cell} {e : Effect} (h : v.update offset f = (none, u))
      (heffect : some (if offset = target then e else sofar) = some effect) : effect = sofar := by
    obtain ⟨i, hindex, -⟩ := View.exists_index_of_update h
    rw [if_neg] at heffect
    · exact (Option.some.inj heffect).symm
    · rintro rfl
      exact htarget (View.nonneg_of_index? hindex)
  unfold act at h
  unfold effectOn at heffect
  cases hop : x.op with
  | add =>
    rw [hop] at h heffect
    exact hupdate h heffect
  | sub =>
    rw [hop] at h heffect
    exact hupdate h heffect
  | set =>
    rw [hop] at h heffect
    exact hupdate h heffect
  | input =>
    rw [hop] at heffect
    dsimp only at heffect
    split at heffect
    · cases heffect
    · exact (Option.some.inj heffect).symm
  | _ =>
    rw [hop] at heffect
    exact (Option.some.inj heffect).symm

end Instruction

namespace Block

variable {block : Block} {kind : LoopKind} {v w : View} {target : Int64} {sofar effect : Effect}
  {c : Cell}

/-- The start of a loop changes no cell but its own. -/
theorem cells_entry {u : View} (h : Machine.entry kind v = (none, u))
    (htarget : 0 ≤ v.dp + target) (hne : target ≠ 0) :
    u.cells (v.dp + target).toNatClampNeg = v.cells (v.dp + target).toNatClampNeg := by
  cases kind with
  | tested =>
    obtain ⟨-, rfl⟩ := Prod.mk.inj h
    rfl
  | counted =>
    have hupdate : v.update 0 (· - 1) = (none, u) := h
    have hcells := View.cells_update hupdate htarget
    rwa [if_neg (Ne.symm hne)] at hcells

/-- A passage changes a cell as the analysis says. -/
theorem Goes.cells_eq (h : block.Goes v w) (hsteady : block.Steady)
    (heffect : block.effectFrom target sofar = some effect) (htarget : 0 ≤ v.dp + target)
    (hc : v.cells (v.dp + target).toNatClampNeg = sofar.apply c) :
    w.cells (v.dp + target).toNatClampNeg = effect.apply c := by
  induction h generalizing target sofar effect c with
  | done =>
    obtain rfl := Option.some.inj heffect
    exact hc
  | @instr x rest v u w hact _ ih =>
    obtain ⟨middle, hx, hrest⟩ := Option.bind_eq_some_iff.1 heffect
    have hdp := x.dp_act v
    rw [hact] at hdp
    have hsame : u.dp + (target - x.motion) = v.dp + target := by grind
    have hcell := Instruction.cells_act hact hx htarget hc
    rw [← hsame] at htarget hcell ⊢
    exact ih hsteady hrest htarget hcell
  | @exit kind body rest v w i hindex hcell _ ih =>
    rcases (effectFrom_loop_eq_some_iff.1 heffect).2 with ⟨rfl, hrest⟩ | ⟨-, -, hrest⟩
    · refine ih hsteady.2.2 hrest htarget ?_
      rw [View.toNatClampNeg_of_index? hindex, hcell]
      rfl
    · exact ih hsteady.2.2 hrest htarget hc
  | @round kind body rest v u t w i hindex hcell hentry hbody _ ihBody ihLoop =>
    obtain ⟨hkind, hcases⟩ := effectFrom_loop_eq_some_iff.1 heffect
    have hu := dp_entry kind v
    rw [hentry] at hu
    have ht : t.dp = v.dp := by
      rw [hbody.dp_eq hsteady.2.1 (hkind.elim hsteady.1 id), hu, Int64.add_zero]
    rcases hcases with ⟨rfl, hrest⟩ | ⟨hne, hinner, -⟩
    · -- Whatever the rounds leave in the cell of the loop, it is zero in the end.
      have hloop : (loop kind body rest).effectFrom 0
          (.assigns (t.cells (v.dp + 0).toNatClampNeg)) = some effect :=
        effectFrom_loop_eq_some_iff.2 ⟨hkind, .inl ⟨rfl, hrest⟩⟩
      rw [← ht] at htarget hloop ⊢
      exact ihLoop hsteady hloop htarget rfl
    · have hround := ihBody hsteady.2.1 hinner (hu ▸ htarget) (Effect.apply_unchanged _).symm
      rw [hu, Effect.apply_unchanged, cells_entry hentry htarget hne, hc] at hround
      rw [← ht] at htarget hround ⊢
      exact ihLoop hsteady heffect htarget hround

/-- Nor has a loop. -/
theorem Goes.effect_eq_of_loop {body : Block} (h : Goes (loop kind body .done) v w)
    (heffect : (loop kind body .done).effectFrom target sofar = some effect)
    (htarget : ¬ 0 ≤ v.dp + target) : effect = sofar := by
  rcases (effectFrom_loop_eq_some_iff.1 heffect).2 with ⟨rfl, -⟩ | ⟨-, -, hdone⟩
  · cases h with
    | exit hindex => exact absurd (View.nonneg_of_index? hindex) htarget
    | round hindex => exact absurd (View.nonneg_of_index? hindex) htarget
  · exact (Option.some.inj hdone).symm

end Block

end TapeCode
