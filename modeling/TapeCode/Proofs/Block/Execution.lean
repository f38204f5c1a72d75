import TapeCode.Proofs.Block.Compact
import TapeCode.Proofs.Block.Course
import TapeCode.Proofs.Execution

/-!
# Executing a block

Where the slots of a program are laid out as a block without vacant slots, the machine follows the
course of the block step by step (`Program.Holds.follows`). The instruction pointer goes back and
forth between the ends of a loop while the course unrolls it, so the two ends are followed
together (`Machine.follows_loop`).

`Program.Holds.tracks` puts this together for a whole program, and `Program.Tracks.runsAs` reads
the outcome of a run off the progress of the course.
-/

namespace TapeCode

namespace Machine

variable {p : Program} {m m' : Machine} {i j stop n : Nat} {x : Instruction} {F G : Course}

/-! ## Progress of the machine -/

/-- With `n` steps the machine gets as far as a progress tells, if the stretch ends at `stop`. -/
inductive Attains (p : Program) (stop n : Nat) (m : Machine) : Progress → Prop
  | paused {m' : Machine} {v : View} : Takes p n m m' → m'.report = (none, v) →
    m'.ip < p.size → Attains p stop n m (.paused v)
  | done {k left : Nat} {m' : Machine} {v : View} : n = k + left → Takes p k m m' →
    m'.report = (none, v) → m'.ip = stop → Attains p stop n m (.done left v)
  | left {k left : Nat} {m' : Machine} {v : View} : n = k + left → Takes p k m m' →
    m'.report = (none, v) → p.size ≤ m'.ip → Attains p stop n m (.halted left none v)
  | faulted {k left : Nat} {m' : Machine} {fault : Fault.Kind} {v : View} : n = k + left →
    Takes p k m m' → m'.report = (some fault, v) →
      Attains p stop n m (.halted left (some fault) v)

namespace Attains

variable {q : Progress}

/-- Steps taken before. -/
theorem after_takes {k : Nat} (htakes : Takes p k m m') (h : Attains p stop n m' q) :
    Attains p stop (k + n) m q := by
  cases h with
  | paused h hreport hip => exact .paused (htakes.trans h) hreport hip
  | done hn h hreport hip => exact .done (by omega) (htakes.trans h) hreport hip
  | left hn h hreport hip => exact .left (by omega) (htakes.trans h) hreport hip
  | faulted hn h hreport => exact .faulted (by omega) (htakes.trans h) hreport

/-- A course that goes on where the machine is. -/
theorem after (h : Attains p j n m q)
    (hG : ∀ left m' v, q = .done left v → left ≤ n → m'.ip = j → m'.report = (none, v) →
      Attains p stop left m' (G.run left v)) :
    Attains p stop n m (G.after q) := by
  cases h with
  | paused h hreport hip => exact .paused h hreport hip
  | left hn h hreport hip => exact .left hn h hreport hip
  | faulted hn h hreport => exact .faulted hn h hreport
  | done hn h hreport hip =>
    subst hn
    exact (hG _ _ _ rfl (Nat.le_add_left ..) hip hreport).after_takes h

end Attains

/-! ## Following a course -/

/-- From the slot `i` on the machine follows a course to the slot `stop`, with less
than `n` steps. -/
def Follows (p : Program) (n i stop : Nat) (F : Course) : Prop :=
  ∀ l, l < n → ∀ m v, m.ip = i → m.report = (none, v) → Attains p stop l m (F.run l v)

namespace Follows

theorem zero : Follows p 0 i stop F :=
  fun _ hl => absurd hl (Nat.not_lt_zero _)

theorem mono {n' : Nat} (h : Follows p n i stop F) (hle : n' ≤ n) : Follows p n' i stop F :=
  fun l hl => h l (Nat.lt_of_lt_of_le hl hle)

theorem skip : Follows p n i i .skip :=
  fun l _ m _ hip hreport => .done (Nat.zero_add l).symm (.refl p m) hreport hip

theorem leave (hle : p.size ≤ i) : Follows p n i stop .leave :=
  fun l _ m _ hip hreport => .left (Nat.zero_add l).symm (.refl p m) hreport (hip ▸ hle)

theorem seq (h : Follows p n i j F) (h' : Follows p n j stop G) :
    Follows p n i stop (F.seq G) := by
  intro l hl m v hip hreport
  refine (h l hl m v hip hreport).after fun left m' u _ hle hip' hreport' => ?_
  exact h' left (Nat.lt_of_le_of_lt hle hl) m' u hip' hreport'

/-- A change of the view that the machine has just made, and what comes after it. -/
theorem of_free {l : Nat} {f : View → Option Fault.Kind × View}
    {hf : ∀ v : View, v.Precedes (f v).2} {v : View} (h : Follows p n j stop G) (hl : l < n)
    (hip : m.ip = j) (hreport : m.report = f v) :
    Attains p stop l m (((Course.free f hf).seq G).run l v) := by
  cases hfault : (f v).1 with
  | none =>
    rw [Course.seq_of_done (Course.free_of_none hfault)]
    exact h l hl m _ hip (hreport.trans (Prod.ext hfault rfl))
  | some fault =>
    rw [Course.seq_of_halted (Course.free_of_some hfault)]
    exact .faulted (Nat.zero_add l).symm (.refl p m) (hreport.trans (Prod.ext hfault rfl))

/-- A course that begins with a tick, while the machine takes one step. -/
theorem tick (hx : p[i]? = some x)
    (h : ∀ l, l < n → ∀ (m : Machine) (v : View), m.ip = i → m.report = (none, v) →
      Attains p stop l (m.perform p.size x) (F.run l v)) :
    Follows p (n + 1) i stop (.tick F) := by
  intro l hl m v hip hreport
  subst hip
  cases l with
  | zero => exact .paused (.refl p m) hreport (Array.getElem?_eq_some_iff.1 hx).1
  | succ l =>
    have hfault := (fault_eq_none_of_report hreport).1
    have hrest := (h l (by omega) m.counted v rfl hreport).after_takes (takes_step hfault hx)
    rw [Nat.add_comm] at hrest
    exact hrest

theorem instr (hx : p[i]? = some x) (hjump : x.op.isJump = false) (hlive : x.isLive = true)
    (h : Follows p n (i + 1) stop G) : Follows p n i stop (x.course.seq G) := by
  rw [Instruction.course_of_isLive hlive, Course.tick_seq]
  refine (tick hx fun l hl m v hip hreport => h.of_free hl ?_ ?_).mono (Nat.le_succ n)
  · rw [← hip]
    exact (Prod.mk.inj (control_perform m p.size hjump)).1
  · obtain ⟨hfault, rfl⟩ := fault_eq_none_of_report hreport
    exact report_perform hfault p.size hjump

/-- A look at the current cell. -/
theorem look {skipped taken : Nat} {f : View → Option Fault.Kind × View}
    {hf : ∀ v : View, v.Precedes (f v).2} (hx : p[i]? = some x)
    (hlooks : ∀ m : Machine, m.ip = i → m.fault = none →
      m.Looks (m.perform p.size x) skipped taken f)
    (hzero : Follows p n skipped stop F) (hnonzero : Follows p n taken stop G) :
    Follows p (n + 1) i stop (.tick (.branch F ((Course.free f hf).seq G))) := by
  refine tick hx fun l hl m v hip hreport => ?_
  obtain ⟨hfault, rfl⟩ := fault_eq_none_of_report hreport
  have hlook := hlooks m hip hfault
  cases hindex : m.view.index? 0 with
  | none =>
    rw [Course.branch_of_none hindex]
    exact .faulted (Nat.zero_add l).symm (.refl p _) (hlook.outOfBounds hindex)
  | some k =>
    by_cases hcell : m.view.cells k = 0
    · obtain ⟨hreport', hip'⟩ := hlook.zero k hindex hcell
      rw [Course.branch_of_zero hindex hcell]
      exact hzero l hl _ _ hip' hreport'
    · obtain ⟨hreport', hip'⟩ := hlook.nonzero k hindex hcell
      rw [Course.branch_of_nonzero hindex hcell]
      exact hnonzero.of_free hl hip' hreport'

variable {kind : LoopKind}

/-- The start of a loop. -/
theorem opens (hx : p[i]? = some x) (hop : x.op = .opens kind)
    (hzero : Follows p n (landing p.size x) stop F) (hnonzero : Follows p n (i + 1) stop G) :
    Follows p (n + 1) i stop (.tick (.branch F ((Course.enter kind).seq G))) := by
  rw [enter_eq]
  refine look hx (fun m hip hfault => ?_) hzero hnonzero
  rw [← hip]
  exact looks_opens hfault p.size hop

/-- The end of a loop. -/
theorem closes (hx : p[i]? = some x) (hop : x.op = .closes kind)
    (h : Follows p n (restart kind p.size x) (i + 1) G) :
    Follows p (n + 1) i (i + 1) (.tick (.branch .skip G)) := by
  rw [← Course.skip_seq G]
  refine look hx (fun m hip hfault => ?_) .skip h
  rw [← hip]
  exact looks_closes hfault p.size hop

/-- A loop is followed from its start, and its rounds are followed from its end. -/
theorem loop_and_again {close : Nat} {body : Course} (hloop : p.IsLoop i close kind)
    (hbody : ∀ n, Follows p n (i + 1) close body) (n : Nat) :
    Follows p n i (close + 1) (.loop kind body) ∧
      Follows p n close (close + 1) (.again kind (.loop kind body)) := by
  obtain ⟨⟨a, ha, haop, hat⟩, b, hb, hbop, hbt⟩ := hloop
  induction n with
  | zero => exact ⟨.zero, .zero⟩
  | succ n ih =>
    obtain ⟨hstart, hend⟩ := ih
    have hround := (hbody n).seq hend
    have hlanding : landing p.size a = close + 1 := by rw [landing, hat]
    constructor
    · rw [Course.loop_eq]
      exact .opens ha haop (hlanding ▸ .skip) hround
    · cases kind with
      | tested =>
        have hrestart : restart .tested p.size b = i + 1 := by rw [restart, landing, hbt]
        rw [Course.again, Course.loop_eq]
        exact .closes hb hbop (hrestart ▸ hround)
      | counted =>
        have hrestart : restart .counted p.size b = i := by rw [restart, hbt]; rfl
        exact .closes hb hbop (hrestart ▸ hstart)

end Follows

end Machine

open Machine in
/-- The machine follows the course of a block without vacant slots. -/
theorem Program.Holds.follows {p : Program} {i stop : Nat} {block : Block}
    (h : p.Holds i block stop) (hsolid : block.Solid)
    (n : Nat) : Follows p n i stop block.course := by
  induction h generalizing n with
  | done => exact .skip
  | instr hx hjump _ ih => exact .instr hx hjump hsolid.1 (ih hsolid.2 n)
  | loop hloop _ _ ihBody ihRest =>
    exact (Follows.loop_and_again hloop (ihBody hsolid.1) n).1.seq (ihRest hsolid.2 n)
  | @stub i stop a kind rest ha haop hat _ ih =>
    have hlanding : landing p.size a = p.size := by rw [landing, hat]
    have hleave : Follows p n (landing p.size a) stop .leave :=
      .leave (Nat.le_of_eq hlanding.symm)
    exact (Follows.opens ha haop hleave (ih hsolid n)).mono (Nat.le_succ n)

/-! ## Runs of whole programs -/

/-- A run with `n` steps ends as a progress tells. -/
inductive Progress.Ends (n : Nat) : Progress → Outcome → Prop
  | paused {v : View} : Ends n (.paused v) (.outOfSteps n)
  | done {left : Nat} {v : View} : Ends n (.done left v) (.completed (n - left))
  | left {left : Nat} {v : View} : Ends n (.halted left none v) (.completed (n - left))
  | faulted {left : Nat} {fault : Fault} {v : View} :
    Ends n (.halted left (some fault.kind) v) (.faulted (n - left) fault)

namespace Machine

theorem Takes.run_completed {k left : Nat} {v : View} (h : Takes p k m m') (hn : n = k + left)
    (hsteps : m.steps = 0) (hflush : m.output.flushFailure = none)
    (hreport : m'.report = (none, v)) (hend : m'.canStep p = false) :
    (m.run p n).1.view = v.flush ∧ (m.run p n).2 = .completed (n - left) := by
  obtain ⟨hfault, hview⟩ := fault_eq_none_of_report hreport
  have hk : m'.steps = n - left := by rw [h.steps]; omega
  rw [run_of_completed hsteps hflush (hn ▸ h.advance_add hend) hend hfault, hk, view_flush, hview]
  exact ⟨rfl, rfl⟩

/-- The outcome of a run is that of the progress that the machine attains. -/
theorem Attains.run {q : Progress} (h : Attains p p.size n m q) (hsteps : m.steps = 0)
    (hflush : m.output.flushFailure = none) :
    (m.run p n).1.view = q.view.flush ∧ q.Ends n (m.run p n).2 := by
  cases h with
  | @paused m' v htakes hreport hip =>
    obtain ⟨hfault, hview⟩ := fault_eq_none_of_report hreport
    have hcan : m'.canStep p = true := by simp [canStep, hfault, hip]
    rw [run_of_canStep hsteps htakes.advance hcan, htakes.steps, hsteps, Nat.zero_add, view_flush,
      hview]
    exact ⟨rfl, .paused⟩
  | done hn htakes hreport hip =>
    obtain ⟨hview, houtcome⟩ :=
      htakes.run_completed hn hsteps hflush hreport (by simp [canStep, hip])
    exact ⟨hview, houtcome ▸ .done⟩
  | left hn htakes hreport hip =>
    obtain ⟨hview, houtcome⟩ :=
      htakes.run_completed hn hsteps hflush hreport (by simp [canStep, hip])
    exact ⟨hview, houtcome ▸ .left⟩
  | @faulted k left m' kind v hn htakes hreport =>
    obtain ⟨hkind, hview⟩ := Prod.mk.inj hreport
    obtain ⟨fault, hfault, rfl⟩ := Option.map_eq_some_iff.1 hkind
    have hend : m'.canStep p = false := by simp [canStep, hfault]
    have hk : m'.steps = n - left := by rw [htakes.steps]; omega
    rw [run_of_faulted hsteps (hn ▸ htakes.advance_add hend) hfault, hk, view_flush, hview]
    exact ⟨rfl, .faulted⟩

end Machine

/-- From its start a program gets as far as a course tells, with any number of steps. -/
def Program.Tracks (p : Program) (F : Course) : Prop :=
  ∀ (n : Nat) (m : Machine), m.ip = 0 → m.fault = none →
    Machine.Attains p p.size n m (F.run n m.view)

/-- The runs of a program are told by a course. When a run is over its output is flushed. -/
def Program.RunsAs (p : Program) (F : Course) : Prop :=
  ∀ (n : Nat) (m : Machine), m.ip = 0 → m.steps = 0 → m.fault = none →
    m.output.flushFailure = none →
      (m.run p n).1.view = (F.run n m.view).view.flush ∧
        (F.run n m.view).Ends n (m.run p n).2

theorem Program.Tracks.runsAs {p : Program} {F : Course} (h : p.Tracks F) : p.RunsAs F :=
  fun n m hip hsteps hfault hflush => (h n m hip hfault).run hsteps hflush

/-- A program that is laid out as a block without vacant slots tracks the course of the block. -/
theorem Program.Holds.tracks {p : Program} {block : Block} (h : p.Holds 0 block p.size)
    (hsolid : block.Solid) : p.Tracks block.course :=
  fun n m hip hfault => h.follows hsolid (n + 1) n (Nat.lt_succ_self n) m m.view hip
    (Machine.report_eq hfault rfl)

end TapeCode
