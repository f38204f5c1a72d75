import TapeCode.Proofs.Crossing
import TapeCode.Proofs.Span.Walk

/-!
# What the analyses of a span promise

The displacement that is found for a span is how far the data pointer moves, and the effect is
what happens to the cell, whatever the machine does on the way, as long as it stays in the span
until it comes to the end (`Machine.displacement_sound`, `Machine.effect_sound`). The loops of the
span may be run any number of times, and the span may begin or end inside other loops. It must not
be the rest of a tested loop body together with the end of the loop, which would lead back to
where the span begins.
-/

namespace TapeCode

open Block

namespace Program

variable {p : Program} {start stop i : Nat} {v w : View} {target : Int64} {sofar effect : Effect}
  {c : Cell}

/-- A loop and what comes behind it. -/
theorem effectFrom_of_isLoop {close : Nat} {kind : LoopKind} {body : Block}
    (hloop : p.IsLoop i close kind) (hbody : p.Holds (i + 1) body close) (hclose : close < stop)
    (target : Int64) (sofar : Effect) :
    p.effectFrom stop i target sofar =
      ((loop kind body .done).effectFrom target sofar).bind
        (p.effectFrom stop (close + 1) target) := by
  obtain ⟨a, ha, haop, -⟩ := hloop.opens
  have hopen : i < close := hbody.le
  rw [effectFrom_of_opens (Nat.lt_trans hopen hclose) ha haop, hloop.closeOf? hopen hclose,
    Option.bind_some, Block.effectFrom]
  simp only [isStationary_of_holds hbody, decide_eq_true_eq, effectFrom_of_holds hbody,
    Block.effectFrom]
  split
  · split
    · rfl
    · split <;> rfl
  · rfl

/-- The displacement of a span is known if its effect on some cell is. -/
theorem exists_displacementFrom {i : Nat} {target : Int64} {sofar : Effect}
    (h : p.effectFrom stop i target sofar = some effect) (moved : Int64) :
    ∃ moved', p.displacementFrom stop i moved = some moved' := by
  by_cases hlt : i < stop
  · cases hx : p[i]? with
    | none =>
      rw [effectFrom_of_none hlt hx] at h
      cases h
    | some x =>
      cases hopen : x.op.isOpen with
      | true =>
        obtain ⟨kind, hop⟩ := Opcode.exists_opens hopen
        rw [effectFrom_of_opens hlt hx hop] at h
        obtain ⟨close, hfound, hrest⟩ := Option.bind_eq_some_iff.1 h
        have := closeOf?_bounds hfound
        rw [displacementFrom_of_opens hlt hx hop, hfound, Option.bind_some]
        split at hrest
        · rename_i hkind
          rw [if_pos hkind]
          split at hrest
          · exact exists_displacementFrom hrest moved
          · split at hrest
            · exact exists_displacementFrom hrest moved
            · cases hrest
        · cases hrest
      | false =>
        rw [effectFrom_of_not_isOpen hlt hx hopen] at h
        obtain ⟨_, -, hrest⟩ := Option.bind_eq_some_iff.1 h
        rw [displacementFrom_of_not_isOpen hlt hx hopen]
        exact exists_displacementFrom hrest _
  · exact ⟨moved, displacementFrom_of_le (Nat.le_of_not_lt hlt) moved⟩
termination_by stop - i

/-- On a trip the data pointer moves as far as the analysis says. -/
theorem Trip.dp_eq {moved moved' : Int64} (h : p.Trip stop i v w) (horderly : p.Orderly)
    (hmoved : p.displacementFrom stop i moved = some moved') :
    w.dp = v.dp + (moved' - moved) := by
  induction h generalizing moved with
  | arrived =>
    rw [displacementFrom_of_le (Nat.le_refl _)] at hmoved
    obtain rfl := Option.some.inj hmoved
    rw [Int64.sub_self, Int64.add_zero]
  | @instr i x v u w hlt hx hjump hact _ ih =>
    rw [displacementFrom_of_not_isOpen hlt hx (Opcode.isOpen_eq_false hjump)] at hmoved
    have hdp := x.dp_act v
    rw [hact] at hdp
    rw [ih hmoved, hdp]
    grind
  | @loop i close kind body v u w hclose hloop hbody hgoes _ ih =>
    obtain ⟨a, ha, haop, -⟩ := hloop.opens
    have hopen : i < close := hbody.le
    rw [displacementFrom_of_opens (Nat.lt_trans hopen hclose) ha haop,
      hloop.closeOf? hopen hclose, Option.bind_some, isStationary_of_holds hbody] at hmoved
    split at hmoved
    · rename_i hkind
      have hmotion : (Block.loop kind body .done).motion = some 0 := if_pos (by simpa using hkind)
      rw [ih hmoved, hgoes.dp_eq ((Holds.loop hloop hbody .done).steady horderly) hmotion,
        Int64.add_zero]
    · cases hmoved
  | @close i x kind v w hlt hx hop _ ih =>
    have hmotion : x.motion = 0 := by rw [Instruction.motion, hop]
    rw [displacementFrom_of_not_isOpen hlt hx (by rw [hop]; rfl), hmotion,
      Int64.add_zero] at hmoved
    exact ih hmoved

/-- The loops on a trip bring the data pointer back. -/
theorem Orderly.dp_eq_of_loop {close : Nat} {kind : LoopKind} {body : Block} (h : p.Orderly)
    (hloop : p.IsLoop i close kind) (hbody : p.Holds (i + 1) body close)
    (hgoes : Goes (loop kind body .done) v w)
    (heffect : (loop kind body .done).effectFrom target sofar = some effect) : w.dp = v.dp := by
  have hmotion : (loop kind body .done).motion = some 0 :=
    if_pos (effectFrom_loop_eq_some_iff.1 heffect).1
  rw [hgoes.dp_eq ((Holds.loop hloop hbody .done).steady h) hmotion, Int64.add_zero]

/-- On a trip a cell changes as the analysis says. -/
theorem Trip.cells_eq (h : p.Trip stop i v w) (horderly : p.Orderly)
    (heffect : p.effectFrom stop i target sofar = some effect) (htarget : 0 ≤ v.dp + target)
    (hc : v.cells (v.dp + target).toNatClampNeg = sofar.apply c) :
    w.cells (v.dp + target).toNatClampNeg = effect.apply c := by
  induction h generalizing target sofar with
  | arrived =>
    rw [effectFrom_of_le (Nat.le_refl _)] at heffect
    obtain rfl := Option.some.inj heffect
    exact hc
  | @instr i x v u w hlt hx hjump hact _ ih =>
    rw [effectFrom_of_not_isOpen hlt hx (Opcode.isOpen_eq_false hjump)] at heffect
    obtain ⟨middle, heffect, hrest⟩ := Option.bind_eq_some_iff.1 heffect
    have hdp := x.dp_act v
    rw [hact] at hdp
    have hsame : u.dp + (target - x.motion) = v.dp + target := by grind
    have hcell := Instruction.cells_act hact heffect htarget hc
    rw [← hsame] at htarget hcell ⊢
    exact ih hrest htarget hcell
  | @loop i close kind body v u w hclose hloop hbody hgoes _ ih =>
    rw [effectFrom_of_isLoop hloop hbody hclose] at heffect
    obtain ⟨middle, heffect, hrest⟩ := Option.bind_eq_some_iff.1 heffect
    have hcell :=
      hgoes.cells_eq ((Holds.loop hloop hbody .done).steady horderly) heffect htarget hc
    rw [← horderly.dp_eq_of_loop hloop hbody hgoes heffect] at htarget hcell ⊢
    exact ih hrest htarget hcell
  | close hlt hx hop _ ih =>
    rw [effectFrom_of_closes hlt hx hop] at heffect
    exact ih heffect htarget hc

/-- A trip that is made has no effect at a negative address. -/
theorem Trip.effect_eq (h : p.Trip stop i v w) (horderly : p.Orderly)
    (heffect : p.effectFrom stop i target sofar = some effect) (htarget : ¬ 0 ≤ v.dp + target) :
    effect = sofar := by
  induction h generalizing target sofar with
  | arrived =>
    rw [effectFrom_of_le (Nat.le_refl _)] at heffect
    exact (Option.some.inj heffect).symm
  | @instr i x v u w hlt hx hjump hact _ ih =>
    rw [effectFrom_of_not_isOpen hlt hx (Opcode.isOpen_eq_false hjump)] at heffect
    obtain ⟨middle, heffect, hrest⟩ := Option.bind_eq_some_iff.1 heffect
    obtain rfl := Instruction.effect_eq_of_act hact heffect htarget
    have hdp := x.dp_act v
    rw [hact] at hdp
    have hsame : u.dp + (target - x.motion) = v.dp + target := by grind
    rw [← hsame] at htarget
    exact ih hrest htarget
  | @loop i close kind body v u w hclose hloop hbody hgoes _ ih =>
    rw [effectFrom_of_isLoop hloop hbody hclose] at heffect
    obtain ⟨middle, heffect, hrest⟩ := Option.bind_eq_some_iff.1 heffect
    obtain rfl := hgoes.effect_eq_of_loop heffect htarget
    rw [← horderly.dp_eq_of_loop hloop hbody hgoes heffect] at htarget
    exact ih hrest htarget
  | close hlt hx hop _ ih =>
    rw [effectFrom_of_closes hlt hx hop] at heffect
    exact ih heffect htarget

end Program

/-- A loop in the body of another one, which moves to the next cell and back. -/
def Program.nested : Program :=
  #[{ op := .opens .tested, arg := 8 }, { op := .move .right, arg := 1 },
    { op := .add .here, arg := 3 }, { op := .opens .tested, arg := 5 },
    { op := .sub .here, arg := 1 }, { op := .closes .tested, arg := 3 },
    { op := .move .left, arg := 1 }, { op := .sub .here, arg := 1 },
    { op := .closes .tested, arg := 0 }, { op := .add .here, arg := 5 }]

/-- A counted loop in the body of another loop, which comes out one cell to the right of
where it began. -/
def Program.staggered : Program :=
  #[{ op := .opens .tested, arg := 7 }, { op := .move .right, arg := 2 },
    { op := .opens .counted, arg := 4 }, { op := .add (.aside .right), arg := 1, dist := 1 },
    { op := .closes .counted, arg := 2 }, { op := .move .left, arg := 1 },
    { op := .sub .here, arg := 1 }, { op := .closes .tested, arg := 0 },
    { op := .move .right, arg := 3 }]

theorem Program.orderly_staggered : Program.staggered.Orderly := by
  have hholds : Program.staggered.Holds 0 _ Program.staggered.size :=
    .loop ⟨⟨_, rfl, rfl, rfl⟩, _, rfl, rfl, rfl⟩
      (.instr rfl rfl (.loop ⟨⟨_, rfl, rfl, rfl⟩, _, rfl, rfl, rfl⟩ (.instr rfl rfl .done)
        (.instr rfl rfl (.instr rfl rfl .done))))
      (.instr rfl rfl .done)
  exact hholds.orderly ⟨nofun, ⟨fun _ => rfl, trivial, trivial⟩, trivial⟩

namespace Machine

namespace Crosses

variable {p : Program} {start stop k : Nat} {target : Int64} {m m' : Machine}

/-- A machine that crosses a span moves as far as the displacement of the span says. -/
theorem dp_eq {moved : Int64} (h : Crosses p start stop k m m') (horderly : p.Orderly)
    (hstop : stop ≤ p.size) (hexits : p.Exits start stop) (hip : m.ip = start)
    (hmoved : p.displacement? start stop = some moved) : m'.dp = m.dp + moved := by
  have htrip := h.trip horderly hstop hexits (.refl p start) hip (Nat.le_refl start) hmoved
  have hdp := htrip.dp_eq horderly hmoved
  rwa [Int64.sub_zero] at hdp

/-- The effect of a span that a machine crosses is what happens to the cell. -/
theorem cell_eq {effect : Effect} (h : Crosses p start stop k m m') (horderly : p.Orderly)
    (hstop : stop ≤ p.size) (hexits : p.Exits start stop) (hip : m.ip = start)
    (heffect : p.effect? start stop target = some effect) (htarget : 0 ≤ m.dp + target) :
    m'.tape.cell (m.dp + target).toNatClampNeg =
      effect.apply (m.tape.cell (m.dp + target).toNatClampNeg) := by
  obtain ⟨moved, hknown⟩ := Program.exists_displacementFrom heffect 0
  have htrip := h.trip horderly hstop hexits (.refl p start) hip (Nat.le_refl start) hknown
  exact htrip.cells_eq horderly heffect htarget (Effect.apply_unchanged _).symm

end Crosses

/-- The displacement of a span of an orderly program is how far the data pointer moves when a
machine crosses the span, in any number of steps. -/
theorem displacement_sound {p : Program} (horderly : p.Orderly) {start stop : Nat}
    (hstop : stop ≤ p.size) (hexits : p.Exits start stop) {moved : Int64}
    (hmoved : p.displacement? start stop = some moved) {m : Machine} (hip : m.ip = start)
    {k : Nat} (hinside : ∀ j < k, start ≤ (m.advance p j).ip ∧ (m.advance p j).ip < stop)
    (hend : (m.advance p k).ip = stop) (hfault : (m.advance p k).fault = none) :
    (m.advance p k).dp = m.dp + moved :=
  (Crosses.of_advance hstop hinside hend hfault).dp_eq horderly hstop hexits hip hmoved

/-- From a counted loop in the body of another one to what comes behind that one. -/
theorem displacement_sound_of_staggered :
    Program.staggered.displacement? 2 9 = some 2 ∧
      (Machine.advance Program.staggered 10
        { ip := 2, dp := 1, tape := ⟨#[1, 2, 0], false⟩ }).dp = 1 + 2 := by
  have hmoved : Program.staggered.displacement? 2 9 = some 2 := by decide +kernel
  exact ⟨hmoved,
    displacement_sound Program.orderly_staggered (by decide) (by decide +kernel) hmoved rfl
    (by decide +kernel) (by decide +kernel) (by decide +kernel)⟩

/-- The effect of a span of an orderly program is what happens to the cell when a machine crosses
the span, in any number of steps. If the address of the cell is negative there is no effect. -/
theorem effect_sound {p : Program} (horderly : p.Orderly) {start stop : Nat}
    (hstop : stop ≤ p.size) (hexits : p.Exits start stop) {target : Int64} {effect : Effect}
    (heffect : p.effect? start stop target = some effect) {m : Machine} (hip : m.ip = start)
    {k : Nat} (hinside : ∀ j < k, start ≤ (m.advance p j).ip ∧ (m.advance p j).ip < stop)
    (hend : (m.advance p k).ip = stop) (hfault : (m.advance p k).fault = none) :
    (0 ≤ m.dp + target → (m.advance p k).tape.cell (m.dp + target).toNatClampNeg =
      effect.apply (m.tape.cell (m.dp + target).toNatClampNeg)) ∧
    (m.dp + target < 0 → effect = .unchanged) := by
  have hcross := Crosses.of_advance hstop hinside hend hfault
  obtain ⟨moved, hknown⟩ := Program.exists_displacementFrom heffect 0
  have htrip := hcross.trip horderly hstop hexits (.refl p start) hip (Nat.le_refl start) hknown
  exact ⟨hcross.cell_eq horderly hstop hexits hip heffect,
    fun htarget => htrip.effect_eq horderly heffect (Int64.not_le.2 htarget)⟩

/-- From the middle of a loop body with another loop in it to what comes behind the loop: the
first cell, and a cell before the band. -/
theorem effect_sound_of_nested :
    (Machine.advance Program.nested 20
        { ip := 2, dp := 1, tape := ⟨#[1, 4], false⟩ }).tape.cell 0 = (Effect.adds 4).apply 1 ∧
      ∃ effect, Program.nested.effect? 2 10 (-2) = some effect ∧ effect = .unchanged := by
  have hholds : Program.nested.Holds 0 _ Program.nested.size :=
    .loop ⟨⟨_, rfl, rfl, rfl⟩, _, rfl, rfl, rfl⟩
      (.instr rfl rfl (.instr rfl rfl (.loop ⟨⟨_, rfl, rfl, rfl⟩, _, rfl, rfl, rfl⟩
        (.instr rfl rfl .done) (.instr rfl rfl (.instr rfl rfl .done)))))
      (.instr rfl rfl .done)
  have horderly : Program.nested.Orderly := hholds.orderly (by simp [Block.Steady])
  have heffect : Program.nested.effect? 2 10 (-1) = some (.adds 4) := by decide +kernel
  have hsound {target : Int64} {effect : Effect}
      (heffect : Program.nested.effect? 2 10 target = some effect) :=
    effect_sound horderly (m := { ip := 2, dp := 1, tape := ⟨#[1, 4], false⟩ })
      (k := 20) (by decide)
      (by decide +kernel) heffect rfl (by decide +kernel) (by decide +kernel) (by decide +kernel)
  obtain ⟨before, hbefore⟩ := Option.isSome_iff_exists.1
    (show (Program.nested.effect? 2 10 (-2)).isSome by decide +kernel)
  exact ⟨(hsound heffect).1 (by decide), before, hbefore, (hsound hbefore).2 (by decide)⟩

end Machine

end TapeCode
