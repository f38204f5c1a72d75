import TapeCode.Proofs.Block.Passage
import TapeCode.Proofs.Orderly

/-!
# Crossing a span

A machine crosses a span if it stays inside of it, without a fault, until it comes to its end
(`Machine.Crosses`). Where a closed block stands on the way the machine passes through it
(`Program.Holds.traverses`): jumps lead from one end of a loop to the other, so it cannot leave in
the middle.

A span may begin or end inside loops. `Program.Trip` is the way through a span as the analyses
take it, slot by slot and over whole loops at a time; a loop end whose start is out of the span is
passed by. A machine that crosses a span of which the displacement is known makes such a trip
(`Machine.Crosses.trip`), since at a loop end it would otherwise go back to the loop start and
thus leave the span.
-/

namespace TapeCode

open Block

namespace Machine

variable {p : Program} {start stop : Nat} {m m' : Machine} {x : Instruction} {k n : Nat}

/-- The machine takes `k` steps inside the span from `start` to `stop`, without a fault, and they
bring it to `stop`. -/
inductive Crosses (p : Program) (start stop : Nat) : Nat → Machine → Machine → Prop
  | arrived {m : Machine} : m.ip = stop → m.fault = none → Crosses p start stop 0 m m
  | step {k : Nat} {m m' : Machine} {x : Instruction} : start ≤ m.ip → m.ip < stop →
    m.fault = none → p[m.ip]? = some x → Crosses p start stop k (m.counted.perform p.size x) m' →
    Crosses p start stop (k + 1) m m'

namespace Crosses

theorem fault_eq_none (h : Crosses p start stop k m m') : m.fault = none := by
  cases h with
  | arrived _ hfault => exact hfault
  | step _ _ hfault => exact hfault

/-- The machine is in the span or at its end. -/
theorem inside (h : Crosses p start stop k m m') : start ≤ m.ip ∧ m.ip < stop ∨ m.ip = stop := by
  cases h with
  | arrived hip => exact .inr hip
  | step hle hlt => exact .inl ⟨hle, hlt⟩

/-- Steps that stay in a span and come to its end without a fault cross it. -/
theorem of_advance (hstop : stop ≤ p.size)
    (hinside : ∀ j < k, start ≤ (m.advance p j).ip ∧ (m.advance p j).ip < stop)
    (hip : (m.advance p k).ip = stop) (hfault : (m.advance p k).fault = none) :
    Crosses p start stop k m (m.advance p k) := by
  induction k generalizing m with
  | zero => exact .arrived hip hfault
  | succ k ih =>
    obtain ⟨hle, hlt⟩ : start ≤ m.ip ∧ m.ip < stop := hinside 0 (Nat.succ_pos k)
    have hnone := fault_eq_none_of_advance hfault
    have hx : p[m.ip]? = some p[m.ip] := Array.getElem?_eq_getElem (by omega)
    have hadvance (j : Nat) :
        m.advance p (j + 1) = (m.counted.perform p.size p[m.ip]).advance p j := by
      rw [advance, if_pos (canStep_of_getElem? hnone hx), step_of_getElem? hx]
    rw [hadvance] at hip hfault ⊢
    refine .step hle hlt hnone hx (ih (fun j hj => ?_) hip hfault)
    rw [← hadvance]
    exact hinside (j + 1) (Nat.succ_lt_succ hj)

/-! ## One step -/

theorem exists_step (h : Crosses p start stop k m m') (hlt : m.ip < stop)
    (hx : p[m.ip]? = some x) :
    ∃ l, k = l + 1 ∧ Crosses p start stop l (m.counted.perform p.size x) m' := by
  cases h with
  | arrived hip => omega
  | @step l _ _ y _ _ _ hy hrest =>
    obtain rfl := Option.some.inj (hx.symm.trans hy)
    exact ⟨l, rfl, hrest⟩

/-- An instruction acts on the view. -/
theorem exists_instr (h : Crosses p start stop k m m') (hlt : m.ip < stop)
    (hx : p[m.ip]? = some x) (hjump : x.op.isJump = false) :
    ∃ l m₁, k = l + 1 ∧ m₁.ip = m.ip + 1 ∧ x.act m.view = (none, m₁.view) ∧
      Crosses p start stop l m₁ m' := by
  obtain ⟨l, hk, hrest⟩ := h.exists_step hlt hx
  refine ⟨l, _, hk, (Prod.mk.inj (control_perform m.counted p.size hjump)).1, ?_, hrest⟩
  exact (report_perform (m := m.counted) h.fault_eq_none p.size hjump).symm.trans
    (report_eq hrest.fault_eq_none rfl)

/-- A look finds the cell zero, or not. -/
theorem exists_look {skipped taken : Nat} {f : View → Option Fault.Kind × View}
    (h : Crosses p start stop k m m') (hlt : m.ip < stop) (hx : p[m.ip]? = some x)
    (hlooks : m.counted.Looks (m.counted.perform p.size x) skipped taken f) :
    ∃ l m₁ i, k = l + 1 ∧ Crosses p start stop l m₁ m' ∧ m.view.index? 0 = some i ∧
      (m.view.cells i = 0 ∧ m₁.ip = skipped ∧ m₁.view = m.view ∨
        m.view.cells i ≠ 0 ∧ m₁.ip = taken ∧ f m.view = (none, m₁.view)) := by
  obtain ⟨l, hk, hrest⟩ := h.exists_step hlt hx
  obtain ⟨i, hindex, hcases⟩ := hlooks.exists_index hrest.fault_eq_none
  exact ⟨l, _, i, hk, hrest, hindex, hcases⟩

/-- The start of a loop. -/
theorem exists_opens {kind : LoopKind} (h : Crosses p start stop k m m') (hlt : m.ip < stop)
    (hx : p[m.ip]? = some x) (hop : x.op = .opens kind) :
    ∃ l m₁ i, k = l + 1 ∧ Crosses p start stop l m₁ m' ∧ m.view.index? 0 = some i ∧
      (m.view.cells i = 0 ∧ m₁.ip = landing p.size x ∧ m₁.view = m.view ∨
        m.view.cells i ≠ 0 ∧ m₁.ip = m.ip + 1 ∧ entry kind m.view = (none, m₁.view)) :=
  h.exists_look hlt hx (looks_opens (m := m.counted) h.fault_eq_none p.size hop)

/-- The end of a loop. -/
theorem exists_closes {kind : LoopKind} (h : Crosses p start stop k m m') (hlt : m.ip < stop)
    (hx : p[m.ip]? = some x) (hop : x.op = .closes kind) :
    ∃ l m₁ i, k = l + 1 ∧ Crosses p start stop l m₁ m' ∧ m.view.index? 0 = some i ∧
      m₁.view = m.view ∧ (m.view.cells i = 0 ∧ m₁.ip = m.ip + 1 ∨
        m.view.cells i ≠ 0 ∧ m₁.ip = restart kind p.size x) := by
  obtain ⟨l, m₁, i, hk, hrest, hindex, hcases⟩ :=
    h.exists_look hlt hx (looks_closes (m := m.counted) h.fault_eq_none p.size hop)
  refine ⟨l, m₁, i, hk, hrest, hindex, ?_⟩
  rcases hcases with ⟨hcell, hip, hview⟩ | ⟨hcell, hip, hview⟩
  · exact ⟨hview, .inl ⟨hcell, hip⟩⟩
  · exact ⟨(Prod.mk.inj hview).2.symm, .inr ⟨hcell, hip⟩⟩

end Crosses

/-! ## Passing through a block -/

/-- From the slot `i` every crossing with less than `n` steps comes to the slot `j`, and has then
changed the view in a certain way. -/
def Traverses (p : Program) (start stop n i j : Nat) (R : View → View → Prop) : Prop :=
  ∀ k < n, ∀ m m', m.ip = i → Crosses p start stop k m m' →
    ∃ l m₁, l ≤ k ∧ m₁.ip = j ∧ R m.view m₁.view ∧ Crosses p start stop l m₁ m'

/-- A loop is passed through from its start, and its last rounds from its end. -/
theorem traverses_loop {i close : Nat} {kind : LoopKind} {body : Block}
    (hloop : p.IsLoop i close kind) (hopen : i < close) (hclose : close < stop)
    (hbody : ∀ n, Traverses p start stop n (i + 1) close body.Goes) (n : Nat) :
    Traverses p start stop n i (close + 1) (Goes (loop kind body .done)) ∧
      Traverses p start stop n close (close + 1) (Goes (loop kind body .done)) := by
  obtain ⟨⟨a, ha, haop, hat⟩, b, hb, hbop, hbt⟩ := hloop
  induction n with
  | zero =>
    exact ⟨fun _ hk => absurd hk (Nat.not_lt_zero _), fun _ hk => absurd hk (Nat.not_lt_zero _)⟩
  | succ n ih =>
    obtain ⟨hfirst, hlast⟩ := ih
    -- A round from behind the start of the loop, and all rounds after it.
    have hround {l : Nat} {m m₁ m' : Machine} {k : Nat} (hl : l < n) (hip : m₁.ip = i + 1)
        (hindex : m.view.index? 0 = some k) (hcell : m.view.cells k ≠ 0)
        (hentry : entry kind m.view = (none, m₁.view)) (hcross : Crosses p start stop l m₁ m') :
        ∃ l' m₂, l' ≤ l ∧ m₂.ip = close + 1 ∧ Goes (loop kind body .done) m.view m₂.view ∧
          Crosses p start stop l' m₂ m' := by
      obtain ⟨l₁, m₂, hle, hip, hgoes, hcross⟩ := hbody n l hl m₁ m' hip hcross
      obtain ⟨l₂, m₃, hle', hip, hagain, hcross⟩ := hlast l₁ (by omega) m₂ m' hip hcross
      exact ⟨l₂, m₃, by omega, hip, .round hindex hcell hentry hgoes hagain, hcross⟩
    constructor
    · rintro k hk m m' rfl hcross
      obtain ⟨l, m₁, i, rfl, hrest, hindex, hcases⟩ := hcross.exists_opens (by omega) ha haop
      rcases hcases with ⟨hcell, hip, hview⟩ | ⟨hcell, hip, hentry⟩
      · rw [landing, hat] at hip
        exact ⟨l, m₁, by omega, hip, hview.symm ▸ .exit hindex hcell .done, hrest⟩
      · obtain ⟨l', m₂, hle, h⟩ := hround (by omega) hip hindex hcell hentry hrest
        exact ⟨l', m₂, by omega, h⟩
    · rintro k hk m m' rfl hcross
      obtain ⟨l, m₁, i, rfl, hrest, hindex, hview, hcases⟩ := hcross.exists_closes hclose hb hbop
      rcases hcases with ⟨hcell, hip⟩ | ⟨hcell, hip⟩
      · exact ⟨l, m₁, by omega, hip, hview.symm ▸ .exit hindex hcell .done, hrest⟩
      · cases kind with
        | tested =>
          rw [restart, landing, hbt] at hip
          have hentry : entry .tested m.view = (none, m₁.view) :=
            congrArg (Prod.mk none) hview.symm
          obtain ⟨l', m₂, hle, h⟩ := hround (by omega) hip hindex hcell hentry hrest
          exact ⟨l', m₂, by omega, h⟩
        | counted =>
          rw [restart, hbt] at hip
          obtain ⟨l', m₂, hle, hip', hgoes, h⟩ := hfirst l (by omega) m₁ m' hip hrest
          rw [hview] at hgoes
          exact ⟨l', m₂, by omega, hip', hgoes, h⟩

end Machine

open Machine in
/-- A crossing that comes to a closed block passes through it. -/
theorem Program.Holds.traverses {p : Program} {start stop i j : Nat} {block : Block}
    (h : p.Holds i block j) (hclosed : block.Closed) (hle : j ≤ stop) (n : Nat) :
    Traverses p start stop n i j block.Goes := by
  induction h generalizing n with
  | done => exact fun k _ m m' hip hcross => ⟨k, m, Nat.le_refl k, hip, .done, hcross⟩
  | @instr i j x rest hx hjump hrest ih =>
    have := hrest.le
    rintro k hk m m' rfl hcross
    obtain ⟨l, m₁, rfl, hip, hact, hcross⟩ := hcross.exists_instr (by omega) hx hjump
    obtain ⟨l', m₂, hle', hip, hgoes, hcross⟩ := ih hclosed hle n l (by omega) m₁ m' hip hcross
    exact ⟨l', m₂, by omega, hip, .instr hact hgoes, hcross⟩
  | @loop i close j kind body rest hloop hbody hrest ihBody ihRest =>
    have := hrest.le
    rintro k hk m m' hip hcross
    have hwhole := traverses_loop hloop hbody.le (by omega) (ihBody hclosed.1 (by omega)) n
    obtain ⟨l, m₁, hle', hip, hgoes, hcross⟩ := hwhole.1 k hk m m' hip hcross
    obtain ⟨l', m₂, hle'', hip, hgoes', hcross⟩ :=
      ihRest hclosed.2 hle n l (by omega) m₁ m' hip hcross
    exact ⟨l', m₂, by omega, hip, hgoes.behind hgoes', hcross⟩
  | stub => exact hclosed.elim

/-! ## Trips -/

namespace Program

variable {p : Program} {start stop i : Nat}

/-- The way from a slot of a span to its end, on which the views change from the first
to the second. -/
inductive Trip (p : Program) (stop : Nat) : Nat → View → View → Prop
  | arrived {v : View} : Trip p stop stop v v
  | instr {i : Nat} {x : Instruction} {v u w : View} : i < stop → p[i]? = some x →
    x.op.isJump = false → x.act v = (none, u) → Trip p stop (i + 1) u w → Trip p stop i v w
  /-- A loop that ends in the span. -/
  | loop {i close : Nat} {kind : LoopKind} {body : Block} {v u w : View} : close < stop →
    p.IsLoop i close kind → p.Holds (i + 1) body close → Goes (loop kind body .done) v u →
    Trip p stop (close + 1) u w → Trip p stop i v w
  /-- The end of a loop that starts before the span. -/
  | close {i : Nat} {x : Instruction} {kind : LoopKind} {v w : View} : i < stop → p[i]? = some x →
    x.op = .closes kind → Trip p stop (i + 1) v w → Trip p stop i v w

/-- No end of a tested loop in the span leads back to where the span starts. -/
def Exits (p : Program) (start stop : Nat) : Prop :=
  ∀ close < stop, start ≤ close → ∀ x ∈ p[close]?, x.op = .closes .tested →
    ∀ target ∈ x.target?, target + 1 ≠ start

instance (p : Program) (start stop : Nat) : Decidable (p.Exits start stop) := by
  unfold Exits
  infer_instance

/-- The loops that start between two slots end there, too. -/
def Passed (p : Program) (start i : Nat) : Prop :=
  ∀ kind j close, p.IsPair kind j close → start ≤ j → j < i → close < i

theorem Passed.refl (p : Program) (start : Nat) : p.Passed start start :=
  fun _ _ _ _ hle hlt => absurd hlt (Nat.not_lt_of_le hle)

theorem Passed.succ (h : p.Passed start i) (hnot : ∀ kind close, ¬ p.IsPair kind i close) :
    p.Passed start (i + 1) := by
  intro kind j close hpair hle hlt
  rcases Nat.lt_or_eq_of_le (Nat.le_of_lt_succ hlt) with hbefore | rfl
  · exact Nat.lt_succ_of_lt (h kind j close hpair hle hbefore)
  · exact absurd hpair (hnot kind close)

/-- A loop is behind where its end is. -/
theorem Passed.behind {close : Nat} {kind : LoopKind} (h : p.Passed start i)
    (horderly : p.Orderly) (hpair : p.IsPair kind i close) : p.Passed start (close + 1) := by
  have := horderly.ordered _ _ _ hpair
  intro kind' j close' hpair' hle hlt
  rcases Nat.lt_trichotomy j i with hbefore | rfl | hbehind
  · have := h kind' j close' hpair' hle hbefore
    omega
  · rw [hpair'.right_unique hpair]
    exact Nat.lt_succ_self close
  · rcases Nat.lt_or_eq_of_le (Nat.le_of_lt_succ hlt) with hin | rfl
    · have := horderly.nested _ _ _ _ _ _ hpair hpair' hbehind hin
      omega
    · exact absurd hpair' (horderly.isLoop hpair).not_isPair_close

end Program

/-- The body of a loop that the analyses can tell is laid out as a block that brings the data
pointer back. -/
theorem Program.Orderly.exists_body {p : Program} {i close : Nat} {kind : LoopKind}
    (h : p.Orderly) (hpair : p.IsPair kind i close)
    (hkind : kind = .counted ∨ p.isStationary (i + 1) close) :
    ∃ body, p.Holds (i + 1) body close ∧ body.Steady ∧ body.motion = some 0 := by
  have hclose := (h.isLoop hpair).close_lt_size
  obtain ⟨body, hbody⟩ :=
    h.exists_holds (h.whole_body hpair) (h.ordered _ _ _ hpair) (Nat.le_of_lt hclose)
  refine ⟨body, hbody, hbody.steady h, ?_⟩
  rcases hkind with rfl | hstationary
  · rw [← displacement?_of_holds hbody]
    exact h.steady _ _ hpair
  · simpa [isStationary_of_holds hbody] using hstationary

namespace Machine.Crosses

variable {p : Program} {start stop k : Nat} {m m' : Machine} {x : Instruction} {kind : LoopKind}

/-- A crossing takes a loop that ends in the span all at once. -/
theorem exists_loop {close : Nat} (h : Crosses p start stop k m m') (horderly : p.Orderly)
    (hloop : p.IsLoop m.ip close kind) (hclose : close < stop)
    (hkind : kind = .counted ∨ p.isStationary (m.ip + 1) close) :
    ∃ body l m₁, p.Holds (m.ip + 1) body close ∧ m₁.ip = close + 1 ∧
      Goes (loop kind body .done) m.view m₁.view ∧ Crosses p start stop l m₁ m' := by
  obtain ⟨body, hbody, hsteady, hmotion⟩ := horderly.exists_body hloop.isPair hkind
  have hclosed := closed_of_motion hsteady hmotion
  have htraverses (n : Nat) : Traverses p start stop n (m.ip + 1) close body.Goes :=
    hbody.traverses hclosed (Nat.le_of_lt hclose) n
  obtain ⟨hfirst, -⟩ := traverses_loop hloop hbody.le hclose htraverses (k + 1)
  obtain ⟨l, m₁, -, hip, hgoes, hcross⟩ := hfirst k (Nat.lt_succ_self k) m m' rfl h
  exact ⟨body, l, m₁, hbody, hip, hgoes, hcross⟩

/-- A crossing passes by the end of a loop that starts before the span, as another round would
begin there. -/
theorem exists_close {target : Nat} (h : Crosses p start stop k m m')
    (hexits : p.Exits start stop) (hle : start ≤ m.ip) (hlt : m.ip < stop)
    (hx : p[m.ip]? = some x) (hop : x.op = .closes kind) (htarget : x.target? = some target)
    (hbefore : target < start) :
    ∃ l m₁, m₁.ip = m.ip + 1 ∧ m₁.view = m.view ∧ Crosses p start stop l m₁ m' := by
  obtain ⟨l, m₁, i, -, hrest, -, hview, ⟨-, hip⟩ | ⟨-, hip⟩⟩ := h.exists_closes hlt hx hop
  · exact ⟨l, m₁, hip, hview, hrest⟩
  · have hin := hrest.inside
    rw [hip] at hin
    cases kind with
    | tested =>
      have hne := hexits m.ip hlt hle x hx hop target htarget
      rw [restart, landing, htarget] at hin
      dsimp only at hin
      omega
    | counted =>
      rw [restart, htarget, Option.getD_some] at hin
      omega

/-- A machine that crosses a span of which the displacement is known makes a trip through it. -/
theorem trip {i k : Nat} {m m' : Machine} {moved moved' : Int64} (h : Crosses p start stop k m m')
    (horderly : p.Orderly) (hstop : stop ≤ p.size) (hexits : p.Exits start stop)
    (hpassed : p.Passed start i) (hip : m.ip = i) (hle : start ≤ i)
    (hknown : p.displacementFrom stop i moved = some moved') :
    p.Trip stop i m.view m'.view := by
  subst hip
  rcases h.inside with ⟨-, hlt⟩ | hend
  · have hx : p[m.ip]? = some p[m.ip] := Array.getElem?_eq_getElem (by omega)
    cases hopen : p[m.ip].op.isOpen with
    | true =>
      obtain ⟨kind, hop⟩ := Opcode.exists_opens hopen
      rw [Program.displacementFrom_of_opens hlt hx hop] at hknown
      obtain ⟨close, hfound, hrest⟩ := Option.bind_eq_some_iff.1 hknown
      obtain ⟨hopen, hclose⟩ := Program.closeOf?_bounds hfound
      have hloop := Program.isLoop_of_closeOf? hfound hx hop
      split at hrest
      · rename_i hkind
        obtain ⟨body, l, m₁, hbody, hip, hgoes, hcross⟩ :=
          h.exists_loop horderly hloop hclose hkind
        exact .loop hclose hloop hbody hgoes (hcross.trip horderly hstop hexits
          (hpassed.behind horderly hloop.isPair) hip (by omega) hrest)
      · cases hrest
    | false =>
      rw [Program.displacementFrom_of_not_isOpen hlt hx hopen] at hknown
      have hpassed' := hpassed.succ (Program.not_isPair hx hopen)
      cases hjump : p[m.ip].op.isJump with
      | true =>
        obtain ⟨kind, hop⟩ := Opcode.exists_closes hjump hopen
        obtain ⟨j, htarget, hpair⟩ := horderly.exists_isPair hx hop
        have hbefore : j < start := by
          refine Nat.lt_of_not_le fun hin => ?_
          exact Nat.lt_irrefl _ (hpassed _ _ _ hpair hin (horderly.ordered _ _ _ hpair))
        obtain ⟨l, m₁, hip, hview, hrest⟩ := h.exists_close hexits hle hlt hx hop htarget hbefore
        refine .close hlt hx hop ?_
        rw [← hview]
        exact hrest.trip horderly hstop hexits hpassed' hip (by omega) hknown
      | false =>
        obtain ⟨l, m₁, -, hip, hact, hrest⟩ := h.exists_instr hlt hx hjump
        exact .instr hlt hx hjump hact
          (hrest.trip horderly hstop hexits hpassed' hip (by omega) hknown)
  · cases h with
    | arrived => exact hend ▸ .arrived
    | step _ hlt => omega
termination_by stop - i

end Machine.Crosses

end TapeCode
