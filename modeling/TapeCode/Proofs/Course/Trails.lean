import TapeCode.Proofs.Course

/-!
# One course behind another

A course trails another if, with no more ticks, it never gets further, and if it comes to an end
wherever the other one does (`Course.Trails`). There are two exceptions: where it goes out of
bounds the other may go on, and where it stops by a fault of a stream the cells may differ. The
two numbers are leads in ticks: if the other course starts with the first lead at least, it ends
with the second one at least.

The relation is an order (`Trails.refl`, `Trails.trans`) and goes through everything that courses
are made of, up to loops (`Trails.loop`). The arguments about loops are inductions over the number
of ticks, for which `Course.TrailsAt` is the relation from one view on and on less than `n` ticks.
-/

namespace TapeCode

/-- A view without its cells. -/
def View.sansCells (v : View) : View :=
  { v with cells := fun _ => 0 }

namespace Progress

/-- The second progress is as far as the first, and has `lead` more ticks left at the end. -/
inductive Trails (lead : Nat) : Progress → Progress → Prop
  | paused {u : View} {q : Progress} : u.Precedes q.view → Trails lead (.paused u) q
  | done {left left' : Nat} {u : View} : left + lead ≤ left' →
    Trails lead (.done left u) (.done left' u)
  | left {left left' : Nat} {u : View} : left ≤ left' →
    Trails lead (.halted left none u) (.halted left' none u)
  | faulted {left left' : Nat} {fault : Fault.Kind} {u u' : View} : left ≤ left' →
    u.sansCells = u'.sansCells →
    Trails lead (.halted left (some fault) u) (.halted left' (some fault) u')
  | outOfBounds {left : Nat} {u : View} {q : Progress} : u.Precedes q.view →
    Trails lead (.halted left (some .outOfBounds) u) q

theorem precedes_of_sansCells {u u' : View} (h : u.sansCells = u'.sansCells) : u.Precedes u' := by
  have hbytes : u.sansCells.output.bytes.toList = u'.sansCells.output.bytes.toList := by rw [h]
  exact ⟨[], (List.append_nil _).trans hbytes⟩

variable {lead k : Nat} {p q r : Progress}

theorem Trails.precedes (h : p.Trails lead q) : p.view.Precedes q.view := by
  cases h with
  | paused h => exact h
  | done => exact .refl _
  | left => exact .refl _
  | faulted _ hsame => exact precedes_of_sansCells hsame
  | outOfBounds h => exact h

theorem Trails.halted {left left' : Nat} (fault : Option Fault.Kind) {u : View}
    (h : left ≤ left') : (Progress.halted left fault u).Trails lead (.halted left' fault u) := by
  cases fault with
  | none => exact .left h
  | some fault => exact .faulted h rfl

theorem Resumes.trails (h : p.Resumes k q) (hle : lead ≤ k) : p.Trails lead q := by
  cases p with
  | paused u => exact .paused h
  | done left u =>
    obtain rfl : q = .done (left + k) u := h
    exact .done (Nat.add_le_add_left hle left)
  | halted left fault u =>
    obtain rfl : q = .halted (left + k) fault u := h
    exact .halted fault (Nat.le_add_right left k)

theorem Trails.trans {lead' : Nat} (h : p.Trails lead q) (h' : q.Trails lead' r) :
    p.Trails (lead + lead') r := by
  cases h with
  | paused h => exact .paused (h.trans h'.precedes)
  | outOfBounds h => exact .outOfBounds (h.trans h'.precedes)
  | done hle =>
    cases h' with
    | done hle' => exact .done (by omega)
  | left hle =>
    cases h' with
    | left hle' => exact .left (Nat.le_trans hle hle')
  | faulted hle hsame =>
    cases h' with
    | faulted hle' hsame' => exact .faulted (Nat.le_trans hle hle') (hsame.trans hsame')
    | outOfBounds h' => exact .outOfBounds ((precedes_of_sansCells hsame).trans h')

/-- Courses that go on where two stretches have ended. -/
theorem Trails.after {lead' : Nat} {G G' : Course} (h : p.Trails lead q)
    (hG : ∀ l l' u, p = .done l u → l + lead ≤ l' → (G.run l u).Trails lead' (G'.run l' u)) :
    (G.after p).Trails lead' (G'.after q) := by
  cases h with
  | paused h => exact .paused (h.trans (G'.precedes_after q))
  | done hle => exact hG _ _ _ rfl hle
  | left hle => exact .left hle
  | faulted hle hsame => exact .faulted hle hsame
  | outOfBounds h => exact .outOfBounds (h.trans (G'.precedes_after q))

end Progress

namespace Course

/-- From a view on, and on less than `n` ticks, one course trails another. -/
structure TrailsAt (n lead lead' : Nat) (v : View) (F G : Course) : Prop where
  ahead : ∀ l l', l < n → l + lead ≤ l' → (F.run l v).Trails lead' (G.run l' v)
  ends : ∀ l, l < n → (G.run l v).IsOver → ∃ l', (F.run l' v).IsOver

/-- One course trails another. -/
def Trails (lead lead' : Nat) (F G : Course) : Prop :=
  ∀ n v, TrailsAt n lead lead' v F G

theorem isOver_add {F : Course} {n : Nat} {v : View} (h : (F.run n v).IsOver) (k : Nat) :
    (F.run (n + k) v).IsOver := by
  cases hrun : F.run n v with
  | paused u => rw [hrun] at h; exact h.elim
  | done left u => rw [run_add_of_done hrun]; trivial
  | halted left fault u => rw [run_add_of_halted hrun]; trivial

namespace TrailsAt

variable {n lead lead' : Nat} {v : View} {F F' G G' : Course}

theorem zero : TrailsAt 0 lead lead' v F G :=
  ⟨fun _ _ hl => absurd hl (Nat.not_lt_zero _), fun _ hl => absurd hl (Nat.not_lt_zero _)⟩

theorem mono {m : Nat} (h : TrailsAt n lead lead' v F G) (hle : m ≤ n) :
    TrailsAt m lead lead' v F G :=
  ⟨fun l l' hl => h.ahead l l' (by omega), fun l hl => h.ends l (by omega)⟩

/-- The relation depends on what the courses do from their views on. -/
theorem congr {v' : View} (h : TrailsAt n lead lead' v F G) (hF : ∀ l, F'.run l v' = F.run l v)
    (hG : ∀ l, G'.run l v' = G.run l v) : TrailsAt n lead lead' v' F' G' := by
  constructor
  · intro l l' hl hlead
    rw [hF, hG]
    exact h.ahead l l' hl hlead
  · intro l hl hover
    rw [hG] at hover
    obtain ⟨k, hover⟩ := h.ends l hl hover
    exact ⟨k, by rwa [hF]⟩

theorem refl (hlead : lead' ≤ lead) (F : Course) : TrailsAt n lead lead' v F F := by
  refine ⟨fun l l' _ hl' => ?_, fun l _ hover => ⟨l, hover⟩⟩
  obtain ⟨k, rfl⟩ : ∃ k, l' = l + k := ⟨l' - l, by omega⟩
  exact (F.resumes l k v).trails (by omega)

theorem tick (h : TrailsAt n lead lead' v F G) :
    TrailsAt (n + 1) lead lead' v (tick F) (tick G) := by
  constructor
  · intro l l' hl hlead
    cases l with
    | zero => exact .paused ((Course.tick G).precedes l' v)
    | succ l =>
      obtain ⟨k, rfl⟩ : ∃ k, l' = k + 1 := ⟨l' - 1, by omega⟩
      exact h.ahead l k (by omega) (by omega)
  · intro l hl hover
    cases l with
    | zero => exact hover.elim
    | succ l =>
      obtain ⟨k, hover⟩ := h.ends l (by omega) hover
      exact ⟨k + 1, hover⟩

/-- A tick of the course behind makes the lead larger. -/
theorem tick_left (h : TrailsAt n (lead + 1) lead' v F G) :
    TrailsAt n lead lead' v (Course.tick F) G := by
  constructor
  · intro l l' hl hlead
    cases l with
    | zero => exact .paused (G.precedes l' v)
    | succ l => exact h.ahead l l' (by omega) (by omega)
  · intro l hl hover
    obtain ⟨k, hover⟩ := h.ends l hl hover
    exact ⟨k + 1, hover⟩

/-- A tick of the course in front takes from the lead. -/
theorem tick_right (h : TrailsAt n lead lead' v F G) :
    TrailsAt n (lead + 1) lead' v F (Course.tick G) := by
  constructor
  · intro l l' hl hlead
    obtain ⟨k, rfl⟩ : ∃ k, l' = k + 1 := ⟨l' - 1, by omega⟩
    exact h.ahead l k hl (by omega)
  · intro l hl hover
    cases l with
    | zero => exact hover.elim
    | succ l => exact h.ends l (by omega) hover

theorem branch
    (hzero : ∀ i, v.index? 0 = some i → v.cells i = 0 → TrailsAt n lead lead' v F G)
    (hnonzero : ∀ i, v.index? 0 = some i → v.cells i ≠ 0 → TrailsAt n lead lead' v F' G') :
    TrailsAt n lead lead' v (branch F F') (branch G G') := by
  cases hindex : v.index? 0 with
  | none =>
    constructor
    · intro l l' hl hlead
      rw [branch_of_none hindex, branch_of_none hindex]
      exact .halted _ (by omega)
    · intro l hl hover
      exact ⟨0, by rw [branch_of_none hindex]; trivial⟩
  | some i =>
    by_cases hcell : v.cells i = 0
    · exact (hzero i hindex hcell).congr (fun l => branch_of_zero hindex hcell)
        fun l => branch_of_zero hindex hcell
    · exact (hnonzero i hindex hcell).congr (fun l => branch_of_nonzero hindex hcell)
        fun l => branch_of_nonzero hindex hcell

/-- A course that begins with a look at its cell may as well be trailed by one
that looks twice. -/
theorem retest (h : TrailsAt n 0 0 v (Course.tick (Course.branch skip F)) G) :
    TrailsAt n 0 0 v (Course.tick (Course.branch skip F)) (Course.branch skip G) := by
  by_cases hnonzero : ∃ i, v.index? 0 = some i ∧ v.cells i ≠ 0
  · obtain ⟨i, hindex, hcell⟩ := hnonzero
    exact h.congr (fun _ => rfl) fun l => branch_of_nonzero hindex hcell
  · refine (TrailsAt.branch (fun _ _ _ => .refl (Nat.zero_le 1) skip) ?_).tick_left
    intro i hindex hcell
    exact absurd ⟨i, hindex, hcell⟩ hnonzero

theorem seq {lead'' : Nat} (hfirst : ∀ n, TrailsAt n lead lead' v F F')
    (h : ∀ k left u, F.run k v = .done left u → TrailsAt n lead' lead'' u G G') :
    TrailsAt n lead lead'' v (F.seq G) (F'.seq G') := by
  constructor
  · intro l l' hl hlead
    have hle := F.left_le l v
    refine ((hfirst n).ahead l l' hl hlead).after fun left left' u hrun hleft => ?_
    rw [hrun] at hle
    exact (h l left u hrun).ahead left left' (Nat.lt_of_le_of_lt hle hl) hleft
  · intro l hl hover
    have hle := F'.left_le l v
    have hFover : ∃ k, (F.run k v).IsOver := by
      refine (hfirst n).ends l hl ?_
      cases hrun' : F'.run l v with
      | paused u => rw [seq_of_paused hrun'] at hover; exact hover.elim
      | done left u => trivial
      | halted left fault u => trivial
    obtain ⟨k, hFover⟩ := hFover
    cases hrun : F.run k v with
    | paused u => rw [hrun] at hFover; exact hFover.elim
    | halted left fault u => exact ⟨k, by rw [seq_of_halted hrun]; trivial⟩
    | done left u =>
      -- With enough ticks the course in front is done there, too, so that it was done before.
      have hahead := (hfirst (k + 1)).ahead k (k + lead + l) (by omega) (by omega)
      rw [hrun] at hahead
      cases hrun' : F'.run l v with
      | paused u' => rw [seq_of_paused hrun'] at hover; exact hover.elim
      | halted left' fault u' =>
        rw [Nat.add_comm (k + lead), run_add_of_halted hrun'] at hahead
        cases hahead
      | done left' u' =>
        rw [Nat.add_comm (k + lead), run_add_of_done hrun'] at hahead
        cases hahead with
        | done hleft =>
          rw [hrun'] at hle
          rw [seq_of_done hrun'] at hover
          obtain ⟨j, hover⟩ := (h k left u hrun).ends left' (Nat.lt_of_le_of_lt hle hl) hover
          refine ⟨k + j, ?_⟩
          rw [seq_of_done (run_add_of_done hrun j), Nat.add_comm]
          exact isOver_add hover left

end TrailsAt

namespace Trails

variable {lead lead' : Nat} {F F' G G' H : Course}

theorem refl (lead : Nat) (F : Course) : Trails lead lead F F :=
  fun _ _ => .refl (Nat.le_refl lead) F

theorem trans (h : Trails 0 0 F G) (h' : Trails 0 0 G H) : Trails 0 0 F H := by
  intro n v
  constructor
  · intro l l' hl hlead
    exact ((h n v).ahead l l hl (Nat.le_refl l)).trans ((h' n v).ahead l l' hl hlead)
  · intro l hl hover
    obtain ⟨k, hover⟩ := (h' n v).ends l hl hover
    exact (h (k + 1) v).ends k (Nat.lt_succ_self k) hover

theorem tick (h : Trails lead lead' F G) : Trails lead lead' (tick F) (tick G) :=
  fun n v => (h n v).tick.mono (Nat.le_succ n)

theorem branch (h : Trails lead lead' F G) (h' : Trails lead lead' F' G') :
    Trails lead lead' (branch F F') (branch G G') :=
  fun n v => .branch (fun _ _ _ => h n v) fun _ _ _ => h' n v

theorem seq {lead'' : Nat} (h : Trails lead lead' F F') (h' : Trails lead' lead'' G G') :
    Trails lead lead'' (F.seq G) (F'.seq G') :=
  fun n v => .seq (fun n => h n v) fun _ _ u _ => h' n u

/-- A loop trails another if its body does. -/
theorem loop (kind : LoopKind) (h : Trails 0 0 F G) : Trails 0 0 (loop kind F) (loop kind G) := by
  intro n
  induction n with
  | zero => exact fun _ => .zero
  | succ n ih =>
    have hskip (v : View) : TrailsAt n 0 0 v skip skip := .refl (Nat.le_refl 0) skip
    have hagain (v : View) :
        TrailsAt n 0 0 v (again kind (Course.loop kind F)) (again kind (Course.loop kind G)) := by
      cases kind with
      | tested => exact ih v
      | counted =>
        exact (TrailsAt.branch (fun _ _ _ => hskip v) fun _ _ _ => ih v).tick.mono (Nat.le_succ n)
    have hbody (v : View) : TrailsAt n 0 0 v (F.seq (again kind (Course.loop kind F)))
        (G.seq (again kind (Course.loop kind G))) :=
      .seq (fun n => h n v) fun _ _ u _ => hagain u
    intro v
    rw [loop_eq kind F, loop_eq kind G]
    exact (TrailsAt.branch (fun _ _ _ => hskip v) fun _ _ _ =>
      .seq (fun _ => .refl (Nat.le_refl 0) _) fun _ _ u _ => hbody u).tick

end Trails

end Course

end TapeCode
