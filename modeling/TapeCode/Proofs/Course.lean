import TapeCode.Proofs.View

/-!
# Courses

A course is a stretch of a run against the clock: given a number of ticks and a view, it tells how
far the run gets. Either the ticks are used up on the way, or the end of the stretch is reached
with some ticks to spare, or the run halts before that. More ticks never undo what fewer have
brought about (`Course.resumes`).

Courses are put together from changes of the view that take no time (`Course.free`), ticks
(`Course.tick`), looks at the current cell (`Course.branch`) and sequences (`Course.seq`).
`Course.loop` is the course of a loop; `Course.loop_eq` unrolls it by one round.
-/

namespace TapeCode

namespace View

/-- The output of one view is a beginning of the output of another. -/
def Precedes (u v : View) : Prop :=
  u.output.bytes.toList <+: v.output.bytes.toList

@[simp] theorem Precedes.refl (v : View) : v.Precedes v :=
  List.prefix_refl _

theorem Precedes.trans {u v w : View} (h : u.Precedes v) (h' : v.Precedes w) : u.Precedes w :=
  List.IsPrefix.trans h h'

/-- Flushes print nothing. -/
theorem Precedes.flush {u v : View} (h : u.Precedes v) : u.flush.Precedes v.flush := by
  simpa [Precedes, View.flush] using h

theorem precedes_update (v : View) (offset : Int64) (f : Cell → Cell) :
    v.Precedes (v.update offset f).2 := by
  unfold update
  split <;> exact .refl _

theorem precedes_emit (v : View) (b : UInt8) : v.Precedes (v.emit b).2 := by
  unfold emit
  split
  · exact .refl _
  · exact ⟨[b], by simp [Output.push]⟩

theorem precedes_receive (v : View) : v.Precedes v.receive.2 := by
  unfold receive
  dsimp only
  split
  · exact precedes_update { v with input := v.input.readByte.2 } 0 _
  · exact .refl _
  · exact .refl _

end View

theorem Instruction.precedes_act (x : Instruction) (v : View) : v.Precedes (x.act v).2 := by
  unfold act
  split
  · exact .refl _
  · exact View.precedes_update ..
  · exact View.precedes_update ..
  · exact View.precedes_update ..
  · split
    · exact View.precedes_emit ..
    · exact .refl _
  · exact View.precedes_receive v
  · exact .refl _

/-- How far a run gets. -/
inductive Progress where
  /-- The ticks are used up. -/
  | paused (view : View)
  /-- The end of the stretch is reached. -/
  | done (left : Nat) (view : View)
  /-- The run halts before the end of the stretch, by a fault or without one. -/
  | halted (left : Nat) (fault : Option Fault.Kind) (view : View)

namespace Progress

/-- The view when the run stops. -/
def view : Progress → View
  | paused v | done _ v | halted _ _ v => v

/-- The ticks to spare. -/
def left : Progress → Nat
  | paused _ => 0
  | done left _ | halted left _ _ => left

/-- The run did not stop for want of ticks. -/
def IsOver : Progress → Prop
  | paused _ => False
  | _ => True

/-- The progress with `k` more ticks to spare. -/
def spare (k : Nat) : Progress → Progress
  | paused v => paused v
  | done left v => done (left + k) v
  | halted left fault v => halted (left + k) fault v

/-- What `k` more ticks make of a progress: a run that paused goes on, all else stays. -/
def Resumes (k : Nat) : Progress → Progress → Prop
  | paused v, q => v.Precedes q.view
  | p, q => q = p.spare k

theorem Resumes.precedes {k : Nat} {p q : Progress} (h : p.Resumes k q) :
    p.view.Precedes q.view := by
  cases p with
  | paused v => exact h
  | done left v => rw [show q = _ from h]; exact .refl _
  | halted left fault v => rw [show q = _ from h]; exact .refl _

end Progress

/-- A stretch of a run against the clock. -/
structure Course where
  run : Nat → View → Progress
  left_le : ∀ (n : Nat) (v : View), (run n v).left ≤ n
  precedes : ∀ (n : Nat) (v : View), v.Precedes (run n v).view
  resumes : ∀ (n k : Nat) (v : View), (run n v).Resumes k (run (n + k) v)

namespace Course

theorem ext {F G : Course} (h : ∀ n v, F.run n v = G.run n v) : F = G := by
  obtain ⟨f, _, _, _⟩ := F
  obtain ⟨g, _, _, _⟩ := G
  obtain rfl : f = g := funext fun n => funext (h n)
  rfl

/-- More ticks leave more of them. -/
theorem run_add_of_done {F : Course} {n left : Nat} {v u : View} (h : F.run n v = .done left u)
    (k : Nat) : F.run (n + k) v = .done (left + k) u := by
  have hresumes := F.resumes n k v
  rw [h] at hresumes
  exact hresumes

theorem run_add_of_halted {F : Course} {n left : Nat} {fault : Option Fault.Kind} {v u : View}
    (h : F.run n v = .halted left fault u) (k : Nat) :
    F.run (n + k) v = .halted (left + k) fault u := by
  have hresumes := F.resumes n k v
  rw [h] at hresumes
  exact hresumes

/-! ## Parts -/

/-- A change of the view that takes no time. -/
def free (f : View → Option Fault.Kind × View) (hf : ∀ v : View, v.Precedes (f v).2) :
    Course where
  run n v := match (f v).1 with
    | none => .done n (f v).2
    | some fault => .halted n (some fault) (f v).2
  left_le n v := by split <;> exact Nat.le_refl n
  precedes n v := by split <;> exact hf v
  resumes n k v := by split <;> rfl

/-- Nothing. -/
def skip : Course :=
  free (fun v => (none, v)) fun v => .refl v

/-- The end of the whole run. -/
def leave : Course where
  run n v := .halted n none v
  left_le n _ := Nat.le_refl n
  precedes _ v := .refl v
  resumes _ _ _ := rfl

/-- A run that never gets anywhere. -/
def stall : Course where
  run _ v := .paused v
  left_le n _ := Nat.zero_le n
  precedes _ v := .refl v
  resumes _ _ v := .refl v

/-- A course that begins with a tick. -/
def tick (F : Course) : Course where
  run
    | 0, v => .paused v
    | n + 1, v => F.run n v
  left_le
    | 0, _ => Nat.le_refl 0
    | n + 1, v => Nat.le_succ_of_le (F.left_le n v)
  precedes
    | 0, v => .refl v
    | n + 1, v => F.precedes n v
  resumes
    | 0, 0, v => .refl v
    | 0, k + 1, v => by rw [Nat.zero_add]; exact F.precedes k v
    | n + 1, k, v => by rw [Nat.add_right_comm]; exact F.resumes n k v

/-- One of two courses, as the current cell is zero or not. -/
def branch (zero nonzero : Course) : Course where
  run n v := match v.index? 0 with
    | none => .halted n (some .outOfBounds) v
    | some i => if v.cells i = 0 then zero.run n v else nonzero.run n v
  left_le n v := by
    split
    · exact Nat.le_refl n
    · split
      · exact zero.left_le n v
      · exact nonzero.left_le n v
  precedes n v := by
    split
    · exact .refl v
    · split
      · exact zero.precedes n v
      · exact nonzero.precedes n v
  resumes n k v := by
    split
    · rfl
    · split
      · exact zero.resumes n k v
      · exact nonzero.resumes n k v

/-- A course that goes on where a stretch has ended. -/
def after (G : Course) : Progress → Progress
  | .done left u => G.run left u
  | p => p

theorem left_after_le (G : Course) (p : Progress) : (G.after p).left ≤ p.left := by
  cases p with
  | paused u => exact Nat.le_refl _
  | done left u => exact G.left_le left u
  | halted left fault u => exact Nat.le_refl _

theorem precedes_after (G : Course) (p : Progress) : p.view.Precedes (G.after p).view := by
  cases p with
  | paused u => exact .refl u
  | done left u => exact G.precedes left u
  | halted left fault u => exact .refl u

theorem resumes_after (G : Course) {k : Nat} {p q : Progress} (h : p.Resumes k q) :
    (G.after p).Resumes k (G.after q) := by
  cases p with
  | paused u => exact View.Precedes.trans h (G.precedes_after q)
  | done left u =>
    obtain rfl : q = .done (left + k) u := h
    exact G.resumes left k u
  | halted left fault u =>
    obtain rfl : q = .halted (left + k) fault u := h
    rfl

/-- One course behind another. -/
def seq (F G : Course) : Course where
  run n v := G.after (F.run n v)
  left_le n v := Nat.le_trans (G.left_after_le _) (F.left_le n v)
  precedes n v := (F.precedes n v).trans (G.precedes_after _)
  resumes n k v := G.resumes_after (F.resumes n k v)

section Runs

variable {F G zero nonzero : Course} {n left i : Nat} {v u : View}

theorem seq_of_done (h : F.run n v = .done left u) : (F.seq G).run n v = G.run left u := by
  simp only [seq, h, after]

theorem seq_of_paused (h : F.run n v = .paused u) : (F.seq G).run n v = .paused u := by
  simp only [seq, h, after]

theorem seq_of_halted {fault : Option Fault.Kind} (h : F.run n v = .halted left fault u) :
    (F.seq G).run n v = .halted left fault u := by
  simp only [seq, h, after]

theorem free_of_none {f : View → Option Fault.Kind × View} {hf : ∀ v : View, v.Precedes (f v).2}
    (h : (f v).1 = none) : (free f hf).run n v = .done n (f v).2 := by
  simp only [free, h]

theorem free_of_some {f : View → Option Fault.Kind × View} {hf : ∀ v : View, v.Precedes (f v).2}
    {fault : Fault.Kind} (h : (f v).1 = some fault) :
    (free f hf).run n v = .halted n (some fault) (f v).2 := by
  simp only [free, h]

theorem branch_of_none (h : v.index? 0 = none) :
    (branch zero nonzero).run n v = .halted n (some .outOfBounds) v := by
  simp only [branch, h]

theorem branch_of_zero (h : v.index? 0 = some i) (hzero : v.cells i = 0) :
    (branch zero nonzero).run n v = zero.run n v := by
  simp only [branch, h, if_pos hzero]

theorem branch_of_nonzero (h : v.index? 0 = some i) (hzero : v.cells i ≠ 0) :
    (branch zero nonzero).run n v = nonzero.run n v := by
  simp only [branch, h, if_neg hzero]

end Runs

theorem skip_seq (F : Course) : skip.seq F = F := ext fun _ _ => rfl

theorem tick_seq (F G : Course) : (tick F).seq G = tick (F.seq G) := by
  refine ext fun n v => ?_
  cases n <;> rfl

theorem branch_seq (F G H : Course) : (branch F G).seq H = branch (F.seq H) (G.seq H) := by
  refine ext fun n v => ?_
  cases hindex : v.index? 0 with
  | none =>
    rw [branch_of_none hindex]
    exact seq_of_halted (branch_of_none hindex)
  | some i =>
    by_cases hcell : v.cells i = 0
    · simp only [seq, branch_of_zero hindex hcell]
    · simp only [seq, branch_of_nonzero hindex hcell]

theorem seq_assoc (F G H : Course) : (F.seq G).seq H = F.seq (G.seq H) := by
  refine ext fun n v => ?_
  simp only [seq]
  cases F.run n v <;> rfl

/-! ## Loops -/

/-- What a loop does to its cell when it starts a round. -/
def enter : LoopKind → Course
  | .tested => skip
  | .counted => free (fun v => v.update 0 (· - 1)) fun v => v.precedes_update 0 _

/-- The end of a round. The end of a counted loop looks at the cell and goes back to the start,
which looks again; the end of a tested loop is as good as the start. -/
def again : LoopKind → Course → Course
  | .tested, F => F
  | .counted, F => tick (branch skip F)

/-- A round of a loop, and what comes after it. -/
def round (kind : LoopKind) (body F : Course) : Course :=
  tick (branch skip ((enter kind).seq (body.seq (again kind F))))

/-- Up to `k` rounds of a loop. -/
def rounds (kind : LoopKind) (body : Course) : Nat → Course
  | 0 => stall
  | k + 1 => round kind body (rounds kind body k)

/-- Two courses agree on less than `n` ticks. -/
def Agree (n : Nat) (F G : Course) : Prop :=
  ∀ l, l < n → ∀ v, F.run l v = G.run l v

namespace Agree

variable {n : Nat} {F G : Course}

theorem mono {m : Nat} (h : Agree n F G) (hle : m ≤ n) : Agree m F G := by
  intro l hl v
  exact h l (by omega) v

theorem tick (h : Agree n F G) : Agree (n + 1) (tick F) (tick G) := by
  intro l hl v
  cases l with
  | zero => rfl
  | succ l => exact h l (by omega) v

theorem branch (h : Agree n F G) (zero : Course) : Agree n (branch zero F) (branch zero G) := by
  intro l hl v
  simp only [Course.branch, h l hl v]

theorem seq (h : Agree n F G) (first : Course) : Agree n (first.seq F) (first.seq G) := by
  intro l hl v
  have hle := first.left_le l v
  simp only [Course.seq]
  cases hrun : first.run l v with
  | paused u => rfl
  | done left u =>
    rw [hrun] at hle
    exact h left (Nat.lt_of_le_of_lt hle hl) u
  | halted left fault u => rfl

theorem round (h : Agree n F G) (kind : LoopKind) (body : Course) :
    Agree (n + 1) (round kind body F) (round kind body G) := by
  have hagain : Agree n (again kind F) (again kind G) := by
    cases kind with
    | tested => exact h
    | counted => exact (h.branch skip).tick.mono (Nat.le_succ n)
  exact (((hagain.seq body).seq (enter kind)).branch skip).tick

end Agree

/-- Rounds that cannot be reached make no difference. -/
theorem agree_rounds (kind : LoopKind) (body : Course) {n j k : Nat} (hj : n ≤ j) (hk : n ≤ k) :
    Agree n (rounds kind body j) (rounds kind body k) := by
  induction n generalizing j k with
  | zero =>
    intro l hl
    omega
  | succ n ih =>
    obtain ⟨j, rfl⟩ : ∃ j', j = j' + 1 := ⟨j - 1, by omega⟩
    obtain ⟨k, rfl⟩ : ∃ k', k = k' + 1 := ⟨k - 1, by omega⟩
    exact (ih (by omega) (by omega)).round kind body

/-- The course of a loop. Every round takes a tick, so that `n` ticks are used up in
`n + 1` rounds. -/
def loop (kind : LoopKind) (body : Course) : Course where
  run n v := (rounds kind body (n + 1)).run n v
  left_le n v := (rounds kind body (n + 1)).left_le n v
  precedes n v := (rounds kind body (n + 1)).precedes n v
  resumes n k v := by
    have hsame := agree_rounds kind body (n := n + 1) (j := n + 1) (k := n + k + 1) (by omega)
      (by omega) n (by omega) v
    rw [hsame]
    exact (rounds kind body (n + k + 1)).resumes n k v

/-- A loop is its first round with the loop behind it. -/
theorem loop_eq (kind : LoopKind) (body : Course) :
    loop kind body = round kind body (loop kind body) := by
  refine ext fun n v => ?_
  have hrest : Agree n (rounds kind body n) (loop kind body) := by
    intro l hl u
    exact agree_rounds kind body (n := l + 1) (by omega) (Nat.le_refl _) l (by omega) u
  exact hrest.round kind body n (by omega) v

end Course

end TapeCode
