import TapeCode.Proofs.Block.Execution
import TapeCode.Proofs.Block.Sound
import TapeCode.Proofs.Derivation

/-!
# Runs of optimized programs

An optimized program is laid out as a rewrite of the block of the program that was read, and
neither has vacant slots. Both run as the courses of their blocks tell, and the first course
trails the second one (`exists_tracks`, `exists_trails`).

From this follows what a user relies on: an optimized program ends where the program as read ends,
and with the same result; it is never behind it; and it goes wrong or runs on only where that one
does.
-/

namespace TapeCode

namespace Program

variable {p : Program} {block : Block}

/-- A program laid out as a block without vacant slots is optimized to one laid out as a rewrite
of the block without vacant slots. -/
theorem Holds.optimize (h : p.Holds 0 block p.size) (hsolid : block.Solid) (level : Level) :
    ∃ block', block.Rewrites block' ∧ block'.Solid ∧
      (p.optimize level).program.Holds 0 block' (p.optimize level).program.size := by
  have hpasses : ∃ block', block.Rewrites block' ∧ block'.Solid ∧
      (p.optimizeFrom #[]).program.Holds 0 block' (p.optimizeFrom #[]).program.size := by
    obtain ⟨q, hderives, heq⟩ := p.exists_compact_optimizeFrom #[]
    obtain ⟨middle, hrewrites, hholds⟩ := hderives.exists_rewrites h
    rw [heq]
    exact ⟨middle.compact, hrewrites.trans middle.rewrites_compact, middle.solid_compact,
      hholds.compact_program⟩
  cases level with
  | asRead => exact ⟨block, .refl, hsolid, h⟩
  | minimal => exact hpasses
  | maximal => exact hpasses

end Program

/-! ## What trailing says about outcomes -/

namespace Progress

variable {n k steps : Nat} {outcome : Outcome} {q r : Progress}

@[simp] theorem view_spare (k : Nat) (q : Progress) : (q.spare k).view = q.view := by
  cases q <;> rfl

theorem Ends.not_isOver (h : q.Ends n (.outOfSteps steps)) : ¬ q.IsOver := by
  cases h with
  | paused => exact id

theorem Ends.isOver (h : q.Ends n outcome) (hsteps : ∀ steps, outcome ≠ .outOfSteps steps) :
    q.IsOver := by
  cases h with
  | paused => exact absurd rfl (hsteps n)
  | done => trivial
  | left => trivial
  | faulted => trivial

/-- Where the progress behind is complete, the one in front is so, too. -/
theorem Trails.completed (h : q.Trails 0 r) (hq : q.Ends n (.completed steps))
    (hr : r.Ends n outcome) :
    q.view = r.view ∧ ∃ steps', outcome = .completed steps' ∧ steps' ≤ steps := by
  cases hq with
  | done =>
    cases h with
    | done hle =>
      cases hr with
      | done => exact ⟨rfl, _, rfl, by omega⟩
  | left =>
    cases h with
    | left hle =>
      cases hr with
      | left => exact ⟨rfl, _, rfl, by omega⟩

/-- Where the progress in front is complete, the one behind is so, too, or has gone
out of bounds. -/
theorem Trails.of_completed {m : Nat} (h : q.Trails 0 (r.spare k)) (hover : q.IsOver)
    (hq : q.Ends m outcome) (hr : r.Ends n (.completed steps)) :
    (∃ steps', outcome = .completed steps' ∧ q.view = r.view) ∨
      ∃ steps' fault, outcome = .faulted steps' fault ∧ fault.kind = .outOfBounds := by
  cases hq with
  | paused => exact hover.elim
  | done =>
    cases hr with
    | done =>
      cases h with
      | done => exact .inl ⟨_, rfl, rfl⟩
    | left => cases h
  | left =>
    cases hr with
    | done => cases h
    | left =>
      cases h with
      | left => exact .inl ⟨_, rfl, rfl⟩
  | @faulted left fault v =>
    refine .inr ⟨_, fault, rfl, ?_⟩
    generalize fault.kind = kind at h
    cases hr with
    | done =>
      cases h with
      | outOfBounds => rfl
    | left =>
      cases h with
      | outOfBounds => rfl

/-- Where the progress in front has gone out of bounds, the one behind has done so, too. -/
theorem Trails.of_outOfBounds {m : Nat} {fault : Fault} (h : q.Trails 0 (r.spare k))
    (hover : q.IsOver) (hq : q.Ends m outcome) (hr : r.Ends n (.faulted steps fault))
    (hkind : fault.kind = .outOfBounds) :
    ∃ steps' fault', outcome = .faulted steps' fault' ∧ fault'.kind = .outOfBounds := by
  cases hr with
  | @faulted left' fault v' =>
    rw [hkind] at h
    cases hq with
    | paused => exact hover.elim
    | done => cases h
    | left => cases h
    | @faulted left fault' v =>
      refine ⟨_, fault', rfl, ?_⟩
      generalize fault'.kind = kind at h
      cases h with
      | faulted => rfl
      | outOfBounds => rfl

end Progress

theorem Course.Trails.run {F G : Course} (h : Trails 0 0 F G) (n : Nat) (v : View) :
    (F.run n v).Trails 0 (G.run n v) :=
  (h (n + 1) v).ahead n n (Nat.lt_succ_self n) (Nat.le_refl n)

/-- Where the course in front is over, the one behind is over with some more ticks. -/
theorem Course.Trails.exists_isOver {F G : Course} (h : Trails 0 0 F G) {n : Nat} {v : View}
    (hover : (G.run n v).IsOver) :
    ∃ m k, (F.run m v).IsOver ∧ (F.run m v).Trails 0 ((G.run n v).spare k) := by
  obtain ⟨m, hm⟩ := (h (n + 1) v).ends n (Nat.lt_succ_self n) hover
  refine ⟨m + n, m, isOver_add hm n, ?_⟩
  have hahead := h.run (m + n) v
  rw [Nat.add_comm m n] at hahead ⊢
  cases hrun : G.run n v with
  | paused u => rw [hrun] at hover; exact hover.elim
  | done left u => rwa [run_add_of_done hrun] at hahead
  | halted left fault u => rwa [run_add_of_halted hrun] at hahead

/-! ## The optimized program -/

variable {source : List UInt8}

/-- The program of a source and its optimization track two courses of which the
first one trails. -/
theorem exists_tracks (hlength : source.length < 2 ^ 32) (level : Level) :
    ∃ F G : Course, (parse source).program.Tracks F ∧
      ((parse source).program.optimize level).program.Tracks G ∧ Course.Trails 0 0 F G := by
  obtain ⟨block, hholds, hfresh, hload⟩ := parse_holds hlength
  obtain ⟨block', hrewrites, hsolid', hholds'⟩ := hholds.optimize hfresh.solid level
  exact ⟨block.course, block'.course, hholds.tracks hfresh.solid, hholds'.tracks hsolid',
    hrewrites.trails hfresh.safe hload⟩

/-- The program of a source and its optimization run as two courses of which the
first one trails. -/
theorem exists_trails (hlength : source.length < 2 ^ 32) (level : Level) :
    ∃ F G : Course, (parse source).program.RunsAs F ∧
      ((parse source).program.optimize level).program.RunsAs G ∧ Course.Trails 0 0 F G := by
  obtain ⟨F, G, hF, hG, htrails⟩ := exists_tracks hlength level
  exact ⟨F, G, hF.runsAs, hG.runsAs, htrails⟩

/-- What a run starts from: a data pointer, the length of a blank band, whether the band grows,
and an input stream. -/
structure Start where
  dp : Int64
  size : Nat
  growable : Bool
  input : Input
  deriving DecidableEq, Repr

/-- The machine at the start of a run. Its output stream accepts every byte and every flush. -/
def Start.machine (start : Start) : Machine where
  dp := start.dp
  tape := .blank start.size start.growable
  input := start.input

/-- A run of a program within a budget. -/
def Start.run (start : Start) (program : Program) (budget : Nat) : Machine × Outcome :=
  start.machine.run program budget

/-- The machine shows the same to its user as another one: output, data pointer, unread input, and
the value of every cell. -/
structure Machine.Agrees (m m' : Machine) : Prop where
  output : m.output.bytes = m'.output.bytes
  dp : m.dp = m'.dp
  input : m.input = m'.input
  cells : ∀ i, m.tape.cell i = m'.tape.cell i

theorem Machine.agrees_of_view {m m' : Machine} (h : m.view = m'.view) : m.Agrees m' where
  output := congrArg (·.output.bytes) h
  dp := congrArg (·.dp) h
  input := congrArg (·.input) h
  cells := congrFun (congrArg (·.cells) h)

/-- The run of a program from a start is told by its course. -/
theorem Program.RunsAs.start {p : Program} {F : Course} (h : p.RunsAs F) (start : Start)
    (budget : Nat) :
    (start.run p budget).1.view = (F.run budget start.machine.view).view.flush ∧
      (F.run budget start.machine.view).Ends budget (start.run p budget).2 :=
  h budget start.machine rfl rfl rfl rfl

/-- Where the program of a source completes its run, the optimized program does so, too, with the
same result. -/
theorem completed_optimize (hlength : source.length < 2 ^ 32) (level : Level) (start : Start)
    {budget steps : Nat} (h : (start.run (parse source).program budget).2 = .completed steps) :
    ∃ steps', (start.run ((parse source).program.optimize level).program budget).2 =
        .completed steps' ∧
      (start.run (parse source).program budget).1.Agrees
        (start.run ((parse source).program.optimize level).program budget).1 := by
  obtain ⟨F, G, hF, hG, htrails⟩ := exists_trails hlength level
  obtain ⟨hview, hends⟩ := hF.start start budget
  obtain ⟨hview', hends'⟩ := hG.start start budget
  rw [h] at hends
  obtain ⟨hsame, steps', hcompleted, -⟩ := (htrails.run budget _).completed hends hends'
  have hflushed := congrArg View.flush hsame
  exact ⟨steps', hcompleted, Machine.agrees_of_view (hview.trans (hflushed.trans hview'.symm))⟩

/-- A counting loop (`++[-].`), on a band of one cell. -/
theorem completed_optimize_of_counting :
    ∃ steps, (Start.run ⟨0, 1, false, []⟩
        ((parse [43, 43, 91, 45, 93, 46]).program.optimize .minimal).program 7).2 =
        .completed steps ∧
      (Start.run ⟨0, 1, false, []⟩ (parse [43, 43, 91, 45, 93, 46]).program 7).1.Agrees
        (Start.run ⟨0, 1, false, []⟩
          ((parse [43, 43, 91, 45, 93, 46]).program.optimize .minimal).program 7).1 := by
  have h : (Start.run ⟨0, 1, false, []⟩ (parse [43, 43, 91, 45, 93, 46]).program 7).2 =
      .completed 7 := by
    decide
  exact completed_optimize (by decide) .minimal ⟨0, 1, false, []⟩ h

/-- The optimized program is never behind the program of the source: with the same budget
it has written at least as much, and where the program of the source is done it is done in
no more steps. -/
theorem ahead_optimize (hlength : source.length < 2 ^ 32) (level : Level) (start : Start)
    (budget : Nat) :
    (start.run (parse source).program budget).1.output.bytes.toList <+:
      (start.run ((parse source).program.optimize level).program budget).1.output.bytes.toList ∧
    ∀ steps, (start.run (parse source).program budget).2 = .completed steps →
      ∃ steps', (start.run ((parse source).program.optimize level).program budget).2 =
        .completed steps' ∧ steps' ≤ steps := by
  obtain ⟨F, G, hF, hG, htrails⟩ := exists_trails hlength level
  obtain ⟨hview, hends⟩ := hF.start start budget
  obtain ⟨hview', hends'⟩ := hG.start start budget
  have hahead := htrails.run budget start.machine.view
  constructor
  · have hprecedes := hahead.precedes.flush
    rw [← hview, ← hview'] at hprecedes
    exact hprecedes
  · intro steps h
    rw [h] at hends
    exact (hahead.completed hends hends').2

/-- A loop that prints (`+++[->+.<]`) and becomes a counted one: after eleven steps the optimized
program has printed one byte more, and it is done one step earlier. -/
theorem ahead_optimize_of_counting :
    (Start.run ⟨0, 2, false, []⟩ (parse [43, 43, 43, 91, 45, 62, 43, 46, 60, 93]).program
        11).1.output.bytes.toList = [1] ∧
      [1] <+: (Start.run ⟨0, 2, false, []⟩
        ((parse [43, 43, 43, 91, 45, 62, 43, 46, 60, 93]).program.optimize .minimal).program
        11).1.output.bytes.toList ∧
      (Start.run ⟨0, 2, false, []⟩
        ((parse [43, 43, 43, 91, 45, 62, 43, 46, 60, 93]).program.optimize .minimal).program
        11).1.output.bytes.toList = [1, 2] ∧
      ∃ steps, (Start.run ⟨0, 2, false, []⟩
          ((parse [43, 43, 43, 91, 45, 62, 43, 46, 60, 93]).program.optimize .minimal).program
          20).2 = .completed steps ∧ steps ≤ 20 := by
  have hprinted : (Start.run ⟨0, 2, false, []⟩
      (parse [43, 43, 43, 91, 45, 62, 43, 46, 60, 93]).program 11).1.output.bytes.toList =
        [1] := by
    decide +kernel
  have hcompleted : (Start.run ⟨0, 2, false, []⟩
      (parse [43, 43, 43, 91, 45, 62, 43, 46, 60, 93]).program 20).2 = .completed 20 := by
    decide +kernel
  have hlength : [43, 43, 43, 91, 45, 62, 43, 46, 60, (93 : UInt8)].length < 2 ^ 32 := by decide
  refine ⟨hprinted, ?_, by decide +kernel, ?_⟩
  · rw [← hprinted]
    exact (ahead_optimize hlength .minimal ⟨0, 2, false, []⟩ 11).1
  · exact (ahead_optimize hlength .minimal ⟨0, 2, false, []⟩ 20).2 20 hcompleted

/-- The optimized program goes wrong or runs on only where the program of the source does: where
it completes its run that program completes it with the same result or goes out of bounds, where
it goes out of bounds that program goes out of bounds with no more output, and where that program
never stops it never stops. -/
theorem reflects_optimize (hlength : source.length < 2 ^ 32) (level : Level) (start : Start) :
    (∀ budget steps, (start.run ((parse source).program.optimize level).program budget).2 =
        .completed steps →
      ∃ budget',
        (∃ steps', (start.run (parse source).program budget').2 = .completed steps' ∧
          (start.run (parse source).program budget').1.Agrees
            (start.run ((parse source).program.optimize level).program budget).1) ∨
        ∃ steps' fault, (start.run (parse source).program budget').2 = .faulted steps' fault ∧
          fault.kind = .outOfBounds) ∧
    (∀ budget steps fault,
      (start.run ((parse source).program.optimize level).program budget).2 =
        .faulted steps fault → fault.kind = .outOfBounds →
      ∃ budget' steps' fault',
        (start.run (parse source).program budget').2 = .faulted steps' fault' ∧
        fault'.kind = .outOfBounds ∧
        (start.run (parse source).program budget').1.output.bytes.toList <+:
          (start.run ((parse source).program.optimize level).program
            budget).1.output.bytes.toList) ∧
    ((∀ budget, ∃ steps, (start.run (parse source).program budget).2 = .outOfSteps steps) →
      ∀ budget, ∃ steps, (start.run ((parse source).program.optimize level).program budget).2 =
        .outOfSteps steps) := by
  obtain ⟨F, G, hF, hG, htrails⟩ := exists_trails hlength level
  refine ⟨fun budget steps h => ?_, fun budget steps fault h hkind => ?_, fun h budget => ?_⟩
  · obtain ⟨hview', hends'⟩ := hG.start start budget
    have hover := hends'.isOver (by rw [h]; exact fun _ => nofun)
    rw [h] at hends'
    obtain ⟨budget', k, hover, hahead⟩ := htrails.exists_isOver hover
    obtain ⟨hview, hends⟩ := hF.start start budget'
    refine ⟨budget', (hahead.of_completed hover hends hends').imp_left ?_⟩
    rintro ⟨steps', hcompleted, hsame⟩
    have hflushed := congrArg View.flush hsame
    exact ⟨steps', hcompleted, Machine.agrees_of_view (hview.trans (hflushed.trans hview'.symm))⟩
  · obtain ⟨hview', hends'⟩ := hG.start start budget
    have hover := hends'.isOver (by rw [h]; exact fun _ => nofun)
    rw [h] at hends'
    obtain ⟨budget', k, hover, hahead⟩ := htrails.exists_isOver hover
    obtain ⟨hview, hends⟩ := hF.start start budget'
    obtain ⟨steps', fault', hfaulted, hkind'⟩ := hahead.of_outOfBounds hover hends hends' hkind
    have hprecedes := hahead.precedes
    rw [Progress.view_spare] at hprecedes
    replace hprecedes := hprecedes.flush
    rw [← hview, ← hview'] at hprecedes
    exact ⟨budget', steps', fault', hfaulted, hkind', hprecedes⟩
  · refine Classical.byContradiction fun hstops => ?_
    have hover := (hG.start start budget).2.isOver fun steps heq => hstops ⟨steps, heq⟩
    obtain ⟨budget', k, hover, -⟩ := htrails.exists_isOver hover
    obtain ⟨steps, hsteps⟩ := h budget'
    have hends := (hF.start start budget').2
    rw [hsteps] at hends
    exact hends.not_isOver hover

/-- A change that is taken back may be out of bounds (`>+-` on a band of one cell). The optimized
program makes no such change. -/
theorem reflects_optimize_of_cancelled : ∃ budget,
    (∃ steps, (Start.run ⟨0, 1, false, []⟩ (parse [62, 43, 45]).program budget).2 =
        .completed steps ∧
      (Start.run ⟨0, 1, false, []⟩ (parse [62, 43, 45]).program budget).1.Agrees
        (Start.run ⟨0, 1, false, []⟩
          ((parse [62, 43, 45]).program.optimize .minimal).program 9).1) ∨
    ∃ steps fault, (Start.run ⟨0, 1, false, []⟩ (parse [62, 43, 45]).program budget).2 =
      .faulted steps fault ∧ fault.kind = .outOfBounds :=
  (reflects_optimize (by decide) .minimal ⟨0, 1, false, []⟩).1 9 1 (by decide +kernel)

end TapeCode
