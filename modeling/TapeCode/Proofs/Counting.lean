import TapeCode.Proofs.Span

/-!
# Rounds of a counted loop

A counted loop takes one off its cell before each round. In a well-formed program the body leaves
the data pointer and this cell as they were, so the number in the cell at the start of the loop is
the number of rounds (`Machine.countsDown_of_derives`).

`Machine.Round` is one round: the body is entered with one less in the cell, no step leads out of
the body before its end (`Program.WellFormed.nextIp_body`), and the end of the loop leads back to
its start unless the cell is zero by then. `Machine.CountsDown` tells how often the body is
entered and gone through, and how the rounds follow each other; a loop counts down if its first
round is followed by one that does (`Machine.Round.countsDown`).
-/

namespace TapeCode

namespace Program

variable {p : Program} {i close : Nat} {kind : LoopKind} {x : Instruction}

/-- A step inside the body of a loop leads to another slot of the body or to the end
of the loop. -/
theorem WellFormed.nextIp_body {m : Machine} (h : p.WellFormed) (hpair : p.IsPair kind i close)
    (hlt : i < m.ip) (hlt' : m.ip < close) (hx : p[m.ip]? = some x) :
    i < m.nextIp p.size x ∧ m.nextIp p.size x ≤ close := by
  have hnext : i < m.ip + 1 ∧ m.ip + 1 ≤ close := ⟨Nat.lt_succ_of_lt hlt, hlt'⟩
  cases hop : x.op with
  | opens kind' =>
    have hresolved := h.enclosed _ _ _ _ x hpair hlt hlt' hx (by rw [hop]; rfl)
    obtain ⟨close', htarget⟩ := Option.ne_none_iff_exists'.1 hresolved
    have hpair' : p.IsPair kind' m.ip close' := ⟨x, hx, hop, htarget⟩
    have hopen := h.ordered _ _ _ hpair'
    have hclose := h.nested _ _ _ _ _ _ hpair hpair' hlt hlt'
    simp only [Machine.nextIp, hop, Machine.landing, htarget]
    split
    · omega
    · exact hnext
  | closes kind' =>
    obtain ⟨j, htarget, hpair'⟩ := h.orderly.exists_isPair hx hop
    have hopen := h.ordered _ _ _ hpair'
    have hin := (h.orderly.whole_body hpair).opens _ _ _ hpair' hlt hlt'
    simp only [Machine.nextIp, hop]
    split
    · exact hnext
    · cases kind' with
      | tested => simp only [Machine.restart, Machine.landing, htarget]; omega
      | counted => simp only [Machine.restart, htarget, Option.getD_some]; omega
  | _ =>
    rw [Machine.nextIp_of_not_isJump (by rw [hop]; rfl)]
    exact hnext

/-- No loop end in the body of a counted loop leads back to where the body begins. -/
theorem WellFormed.exits_body (h : p.WellFormed) (hpair : p.IsPair .counted i close) :
    p.Exits (i + 1) close := by
  intro j _ _ x hx hop target htarget hstart
  obtain ⟨i', htarget', hpair'⟩ := h.orderly.exists_isPair hx hop
  obtain rfl := Option.some.inj (htarget'.symm.trans htarget)
  obtain rfl : i' = i := Nat.succ.inj hstart
  obtain ⟨a, ha, haop, -⟩ := hpair
  obtain ⟨b, hb, hbop, -⟩ := hpair'
  obtain rfl := Option.some.inj (ha.symm.trans hb)
  cases haop.symm.trans hbop

end Program

theorem Cell.toNat_sub_one_add_one {c : Cell} (h : c ≠ 0) : (c - 1).toNat + 1 = c.toNat := by
  have hpos : c.toNat ≠ 0 := fun hzero => h (UInt8.toNat_inj.1 hzero)
  have hle : 1 ≤ c := UInt8.le_iff_toNat_le.2 (Nat.one_le_iff_ne_zero.2 hpos)
  rw [UInt8.toNat_sub_of_le _ _ hle]
  exact Nat.sub_add_cancel (Nat.one_le_iff_ne_zero.2 hpos)

namespace Machine

variable {p : Program} {i close a b k n : Nat} {m : Machine} {x : Instruction}

/-! ## Moments of a run -/

/-- The numbers of steps below `k` after which the machine is as described. -/
def moments (p : Program) (seen : Machine → Bool) (k : Nat) (m : Machine) : List Nat :=
  (List.range k).filter fun j => seen (m.advance p j)

/-- The machine is about to go from the start of a loop into the body. -/
def enters (p : Program) (i : Nat) (m : Machine) : Bool :=
  m.ip = i && (m.advance p 1).ip = i + 1

/-- The machine stands at a slot. -/
def arrives (slot : Nat) (m : Machine) : Bool :=
  m.ip = slot

variable {seen : Machine → Bool}

theorem moments_add (p : Program) (seen : Machine → Bool) (m : Machine) (a k : Nat) :
    m.moments p seen (a + k) =
      m.moments p seen a ++ ((m.advance p a).moments p seen k).map (a + ·) := by
  simp only [moments, List.range_add, List.filter_append, List.filter_map, Function.comp_def,
    advance_add]

theorem moments_eq_singleton (ha : a < k)
    (h : ∀ j < k, seen (m.advance p j) = true ↔ j = a) : m.moments p seen k = [a] := by
  refine List.perm_singleton.1
    ((List.perm_ext_iff_of_nodup ?_ (List.pairwise_singleton _ a)).2 fun j => ?_)
  · exact List.nodup_range.filter _
  · rw [moments, List.mem_filter, List.mem_range, List.mem_singleton]
    exact ⟨fun hj => (h j hj.1).1 hj.2, fun hj => hj ▸ ⟨ha, (h a ha).2 rfl⟩⟩

theorem moments_eq_nil (h : ∀ j < k, seen (m.advance p j) = false) : m.moments p seen k = [] := by
  refine List.filter_eq_nil_iff.2 fun j hj => ?_
  rw [h j (List.mem_range.1 hj)]
  exact Bool.false_ne_true

/-- A machine that comes to another slot takes a step. -/
theorem exists_eq_one_add (hne : (m.advance p n).ip ≠ m.ip) : ∃ l, n = 1 + l := by
  refine Nat.exists_eq_add_of_le (Nat.one_le_iff_ne_zero.2 ?_)
  rintro rfl
  exact hne rfl

theorem advance_one (hfault : m.fault = none) (hx : p[m.ip]? = some x) :
    m.advance p 1 = m.counted.perform p.size x :=
  (takes_step hfault hx).advance

/-! ## One round -/

/-- One round of a counted loop: after `b` steps the machine stands at the end of the loop. -/
structure Round (p : Program) (i close b : Nat) (m : Machine) : Prop where
  started : m.ip = i
  entered : (m.advance p 1).ip = i + 1
  /-- On entry one is taken off the cell. -/
  dp_entered : (m.advance p 1).dp = m.dp
  current_entered : (m.advance p 1).current.toNat + 1 = m.current.toNat
  inside : ∀ j, 0 < j → j < b → i < (m.advance p j).ip ∧ (m.advance p j).ip < close
  pos : 0 < b
  arrived : (m.advance p b).ip = close
  /-- The end of the loop leads back to its start unless the cell is zero. -/
  left : (m.advance p (b + 1)).ip = if (m.advance p 1).current = 0 then close + 1 else i
  dp_left : (m.advance p (b + 1)).dp = m.dp
  current_left : (m.advance p (b + 1)).current = (m.advance p 1).current

/-- At the start of a counted loop. -/
theorem step_counted (hpair : p.IsPair .counted i close) (hip : m.ip = i)
    (hfault : (m.advance p 1).fault = none) :
    m.current = 0 ∧ (m.advance p 1).ip = close + 1 ∧ (m.advance p 1).view = m.view ∨
      m.current ≠ 0 ∧ (m.advance p 1).ip = i + 1 ∧ (m.advance p 1).dp = m.dp ∧
        (m.advance p 1).current.toNat + 1 = m.current.toNat := by
  subst hip
  obtain ⟨x, hx, hop, htarget⟩ := hpair
  have hnone := fault_eq_none_of_advance hfault
  rw [advance_one hnone hx] at hfault ⊢
  obtain ⟨n, hindex, hcases⟩ :=
    (looks_opens (m := m.counted) hnone p.size hop).exists_index hfault
  have hcurrent : m.current = m.view.cells n := current_of_some hindex
  rw [hcurrent]
  refine hcases.imp (fun ⟨hcell, hip, hview⟩ => ⟨hcell, ?_, hview⟩)
    fun ⟨hcell, hip, hentry⟩ => ⟨hcell, hip, ?_⟩
  · rw [hip, landing, htarget]
  · have hstore : entry .counted m.view = (none, m.view.store n (m.view.cells n - 1)) :=
      View.update_of_some hindex (· - 1)
    have hview := (Prod.mk.inj (hstore.symm.trans hentry)).2
    have hindex' : (m.counted.perform p.size x).view.index? 0 = some n := by
      rw [← hview, View.index?_store]
      exact hindex
    refine ⟨(congrArg View.dp hview).symm, ?_⟩
    rw [current_of_some hindex', ← hview, View.cells_store]
    exact Cell.toNat_sub_one_add_one hcell

/-- From the body of a loop to its end, if the machine comes past it. -/
theorem exists_arrival {kind : LoopKind} (h : p.WellFormed) (hpair : p.IsPair kind i close)
    (hlt : i < m.ip) (hle : m.ip ≤ close) (hpast : close < (m.advance p n).ip)
    (hfault : (m.advance p n).fault = none) :
    ∃ b < n, (m.advance p b).ip = close ∧
      ∀ j < b, i < (m.advance p j).ip ∧ (m.advance p j).ip < close := by
  induction n generalizing m with
  | zero => exact absurd hpast (Nat.not_lt_of_le hle)
  | succ n ih =>
    rcases Nat.lt_or_eq_of_le hle with hlt' | hip
    · have hclose := (h.orderly.isLoop hpair).close_lt_size
      have hx : p[m.ip]? = some p[m.ip] := Array.getElem?_eq_getElem (by omega)
      have hone := advance_one (fault_eq_none_of_advance hfault) hx
      obtain ⟨hnext, hnext'⟩ := h.nextIp_body (m := m.counted) hpair hlt hlt' hx
      rw [← ip_perform, ← hone] at hnext hnext'
      rw [Nat.add_comm, advance_add] at hpast hfault
      obtain ⟨b, hb, harrived, hinside⟩ := ih hnext hnext' hpast hfault
      refine ⟨1 + b, by omega, by rw [advance_add, harrived], fun j hj => ?_⟩
      cases j with
      | zero => exact ⟨hlt, hlt'⟩
      | succ j =>
        rw [Nat.add_comm, advance_add]
        exact hinside j (by omega)
    · exact ⟨0, Nat.succ_pos n, hip, fun j hj => absurd hj (Nat.not_lt_zero j)⟩

/-- At the end of a counted loop. -/
theorem leave_counted (hloop : p.IsLoop i close .counted) (hip : m.ip = close)
    (hfault : (m.advance p 1).fault = none) :
    (m.advance p 1).ip = (if m.current = 0 then close + 1 else i) ∧
    (m.advance p 1).view = m.view := by
  subst hip
  obtain ⟨-, x, hx, hop, htarget⟩ := hloop
  have hnone := fault_eq_none_of_advance hfault
  rw [advance_one hnone hx] at hfault ⊢
  obtain ⟨n, hindex, hcases⟩ :=
    (looks_closes (m := m.counted) hnone p.size hop).exists_index hfault
  have hcurrent : m.current = m.view.cells n := current_of_some hindex
  rw [hcurrent]
  rcases hcases with ⟨hcell, hip, hview⟩ | ⟨hcell, hip, hview⟩
  · exact ⟨hip.trans (if_pos hcell).symm, hview⟩
  · rw [restart, htarget] at hip
    exact ⟨hip.trans (if_neg hcell).symm, (Prod.mk.inj hview).2.symm⟩

/-- A cell behind the end of the band looks like a cell of it. -/
theorem current_eq_cell (h : 0 ≤ m.dp) : m.current = m.tape.cell m.dp.toNatClampNeg := by
  unfold current
  split
  · rfl
  · rename_i hreach
    have hout : m.tape.size ≤ m.dp.toNatClampNeg :=
      Nat.le_of_not_lt fun hlt => hreach ⟨h, .inl hlt⟩
    rw [Tape.cell, Array.getElem?_eq_none hout]
    rfl

theorem nonneg_of_current_ne_zero (h : m.current ≠ 0) : 0 ≤ m.dp := by
  unfold current at h
  split at h
  · rename_i hreach
    exact hreach.1
  · exact absurd rfl h

/-- A crossing of the body of a counted loop leaves the data pointer and the cell under it
as they were. -/
theorem Crosses.body {m' : Machine} (h : Crosses p (i + 1) close k m m') (hwell : p.WellFormed)
    (hpair : p.IsPair .counted i close) (hip : m.ip = i + 1) (hnonneg : 0 ≤ m.dp) :
    m'.dp = m.dp ∧ m'.current = m.current := by
  have hclose := (hwell.orderly.isLoop hpair).close_lt_size
  obtain ⟨hmoved, heffect⟩ := hwell.counted i close hpair
  have hexits := hwell.exits_body hpair
  have hdp := h.dp_eq hwell.orderly (Nat.le_of_lt hclose) hexits hip hmoved
  rw [Int64.add_zero] at hdp
  have hcell := h.cell_eq hwell.orderly (Nat.le_of_lt hclose) hexits hip heffect
    (by rwa [Int64.add_zero])
  rw [Effect.apply_unchanged, Int64.add_zero] at hcell
  exact ⟨hdp, by rw [current_eq_cell hnonneg, current_eq_cell (hdp ▸ hnonneg), hdp, hcell]⟩

/-- A counted loop with a cell that is not zero goes through a round. -/
theorem exists_round (h : p.WellFormed) (hpair : p.IsPair .counted i close) (hip : m.ip = i)
    (hcell : m.current ≠ 0) (hpast : close < (m.advance p n).ip)
    (hfault : (m.advance p n).fault = none) : ∃ b < n, m.Round p i close b := by
  have hopen := h.ordered _ _ _ hpair
  have hloop := h.orderly.isLoop hpair
  have hclose := hloop.close_lt_size
  obtain ⟨n, rfl⟩ := exists_eq_one_add (p := p) (m := m) (n := n) (by omega)
  rw [advance_add] at hpast hfault
  obtain ⟨-, hentered, hdp, hcurrent⟩ :=
    (step_counted hpair hip (fault_eq_none_of_advance hfault)).resolve_left fun h => hcell h.1
  obtain ⟨b, hb, harrived, hinside⟩ :=
    exists_arrival h hpair (by omega) (by omega) (by omega) hfault
  have hcross := Crosses.of_advance (Nat.le_of_lt hclose) hinside harrived
    (fault_eq_none_of_le (Nat.le_of_lt hb) hfault)
  obtain ⟨hdp', hcurrent'⟩ := hcross.body h hpair hentered (hdp ▸ nonneg_of_current_ne_zero hcell)
  have hlast := fault_eq_none_of_le (a := b + 1) hb hfault
  rw [advance_add] at hlast
  obtain ⟨hleft, hview⟩ := leave_counted hloop harrived hlast
  have hbehind : m.advance p (1 + b + 1) = ((m.advance p 1).advance p b).advance p 1 := by
    rw [advance_add, advance_add]
  refine ⟨1 + b, by omega, hip, hentered, hdp, hcurrent, fun j hpos hj => ?_, by omega,
    ?_, ?_, ?_, ?_⟩
  · obtain ⟨l, rfl⟩ : ∃ l, j = 1 + l := Nat.exists_eq_add_of_le hpos
    rw [advance_add]
    exact hinside l (by omega)
  · rw [advance_add, harrived]
  · rw [hbehind, hleft, hcurrent']
  · rw [hbehind]
    exact ((congrArg View.dp hview).trans hdp').trans hdp
  · rw [hbehind, current_eq, hview, ← current_eq, hcurrent']

/-! ## All rounds -/

/-- In `k` steps the machine goes through a loop from `i` to `close` in as many rounds as the
number in its cell says, and each of them begins with one less in the cell. -/
structure CountsDown (p : Program) (i close k : Nat) (m : Machine) : Prop where
  /-- The body is entered as often as the number in the cell says, -/
  entries : (m.moments p (enters p i) k).length = m.current.toNat
  /-- and as often the machine comes to the end of the loop. -/
  arrivals : (m.moments p (arrives close) k).length = m.current.toNat
  /-- Behind each entry the machine is in the body until it comes to the end of the loop. -/
  round : ∀ r a : Nat, (m.moments p (enters p i) k)[r]? = some a →
    ∃ b, (m.moments p (arrives close) k)[r]? = some b ∧ a < b ∧
      ∀ j, a < j → j < b → i < (m.advance p j).ip ∧ (m.advance p j).ip < close
  /-- The data pointer is where it was at the start before each entry, and behind it, when one
  more has been taken off the cell. -/
  entry : ∀ r a : Nat, (m.moments p (enters p i) k)[r]? = some a →
    (m.advance p a).dp = m.dp ∧ (m.advance p (a + 1)).dp = m.dp ∧
      (m.advance p (a + 1)).current.toNat + (r + 1) = m.current.toNat
  /-- Right behind the loop the data pointer is there again, and the cell is zero. -/
  exit : (m.advance p k).ip = close + 1 ∧ (m.advance p k).dp = m.dp ∧ (m.advance p k).current = 0

namespace CountsDown

/-- No round at all. -/
theorem of_current_eq_zero (hcell : m.current = 0) (hentries : m.moments p (enters p i) k = [])
    (harrivals : m.moments p (arrives close) k = []) (hip : (m.advance p k).ip = close + 1)
    (hdp : (m.advance p k).dp = m.dp) (hcurrent : (m.advance p k).current = 0) :
    m.CountsDown p i close k where
  entries := by rw [hentries, hcell]; rfl
  arrivals := by rw [harrivals, hcell]; rfl
  round r a ha := by rw [hentries] at ha; cases ha
  entry r a ha := by rw [hentries] at ha; cases ha
  exit := ⟨hip, hdp, hcurrent⟩

/-- A loop that is skipped. -/
theorem of_skipped (hlt : i < close) (hip : m.ip = i) (hcell : m.current = 0)
    (hskip : (m.advance p 1).ip = close + 1) (hview : (m.advance p 1).view = m.view) :
    m.CountsDown p i close 1 := by
  refine .of_current_eq_zero hcell (moments_eq_nil fun j hj => ?_)
    (moments_eq_nil fun j hj => ?_) hskip
    (congrArg View.dp hview) (by rw [current_eq, hview, ← current_eq, hcell])
  · obtain rfl := Nat.lt_one_iff.1 hj
    have hne : (m.advance p 1).ip ≠ i + 1 := by omega
    exact Bool.and_eq_false_iff.2 (.inr (decide_eq_false hne))
  · obtain rfl := Nat.lt_one_iff.1 hj
    have hne : m.ip ≠ close := by omega
    exact decide_eq_false hne

end CountsDown

namespace Round

/-- The slots at which the machine stands in the round. -/
theorem ip_eq_iff (h : m.Round p i close b) (hlt : i < close) {j : Nat} (hj : j < b + 1) :
    ((m.advance p j).ip = i ↔ j = 0) ∧ ((m.advance p j).ip = close ↔ j = b) := by
  have hpos := h.pos
  rcases Nat.eq_zero_or_pos j with rfl | hpos'
  · have hip : (m.advance p 0).ip = i := h.started
    omega
  · rcases Nat.lt_or_eq_of_le (Nat.le_of_lt_succ hj) with hj | rfl
    · have := h.inside j hpos' hj
      omega
    · have := h.arrived
      omega

theorem moments_enters (h : m.Round p i close b) (hlt : i < close) :
    m.moments p (enters p i) (b + 1) = [0] := by
  refine moments_eq_singleton (Nat.succ_pos b) fun j hj => ?_
  rw [enters, Bool.and_eq_true, decide_eq_true_eq, decide_eq_true_eq, (h.ip_eq_iff hlt hj).1]
  refine ⟨And.left, ?_⟩
  rintro rfl
  exact ⟨rfl, h.entered⟩

theorem moments_arrives (h : m.Round p i close b) (hlt : i < close) :
    m.moments p (arrives close) (b + 1) = [b] := by
  refine moments_eq_singleton (Nat.lt_succ_self b) fun j hj => ?_
  rw [arrives, decide_eq_true_eq]
  exact (h.ip_eq_iff hlt hj).2

/-- A round before a run through the loop makes it one more. -/
theorem countsDown (h : m.Round p i close b) (hlt : i < close)
    (hrest : (m.advance p (b + 1)).CountsDown p i close k) :
    m.CountsDown p i close (b + 1 + k) := by
  have hcurrent : (m.advance p (b + 1)).current.toNat + 1 = m.current.toNat := by
    rw [h.current_left, h.current_entered]
  have hentries : m.moments p (enters p i) (b + 1 + k) =
      0 :: ((m.advance p (b + 1)).moments p (enters p i) k).map (b + 1 + ·) := by
    rw [moments_add, h.moments_enters hlt, List.singleton_append]
  have harrivals : m.moments p (arrives close) (b + 1 + k) =
      b :: ((m.advance p (b + 1)).moments p (arrives close) k).map (b + 1 + ·) := by
    rw [moments_add, h.moments_arrives hlt, List.singleton_append]
  refine ⟨?_, ?_, fun r a ha => ?_, fun r a ha => ?_, ?_⟩
  · rw [hentries, List.length_cons, List.length_map, hrest.entries, hcurrent]
  · rw [harrivals, List.length_cons, List.length_map, hrest.arrivals, hcurrent]
  · rw [hentries] at ha
    rw [harrivals]
    cases r with
    | zero =>
      obtain rfl := Option.some.inj ha
      exact ⟨b, rfl, h.pos, h.inside⟩
    | succ r =>
      rw [List.getElem?_cons_succ, List.getElem?_map] at ha ⊢
      obtain ⟨a', ha', rfl⟩ := Option.map_eq_some_iff.1 ha
      obtain ⟨b', hb', hlt', hinside⟩ := hrest.round r a' ha'
      refine ⟨b + 1 + b', by rw [hb']; rfl, Nat.add_lt_add_left hlt' _, fun j hj hj' => ?_⟩
      obtain ⟨l, rfl⟩ : ∃ l, j = b + 1 + l := Nat.exists_eq_add_of_le (by omega)
      rw [advance_add]
      exact hinside l (by omega) (by omega)
  · rw [hentries] at ha
    cases r with
    | zero =>
      obtain rfl := Option.some.inj ha
      exact ⟨rfl, h.dp_entered, h.current_entered⟩
    | succ r =>
      rw [List.getElem?_cons_succ, List.getElem?_map] at ha
      obtain ⟨a', ha', rfl⟩ := Option.map_eq_some_iff.1 ha
      obtain ⟨hdp, hdp', hcell⟩ := hrest.entry r a' ha'
      rw [Nat.add_assoc (b + 1), advance_add p m (b + 1) a',
        advance_add p m (b + 1) (a' + 1), hdp, hdp', h.dp_left]
      exact ⟨rfl, rfl, by omega⟩
  · obtain ⟨hip, hdp, hcell⟩ := hrest.exit
    rw [advance_add, hdp, h.dp_left]
    exact ⟨hip, rfl, hcell⟩

end Round

/-- A counted loop of a well-formed program counts its cell down, if the machine comes past it. -/
theorem countsDown_of_past (h : p.WellFormed) (hpair : p.IsPair .counted i close) (hip : m.ip = i)
    (hpast : close < (m.advance p k).ip) (hfirst : ∀ j < k, (m.advance p j).ip ≤ close)
    (hfault : (m.advance p k).fault = none) : m.CountsDown p i close k := by
  have hopen := h.ordered _ _ _ hpair
  induction k using Nat.strongRecOn generalizing m with
  | ind k ih =>
  by_cases hcell : m.current = 0
  · obtain ⟨k, rfl⟩ := exists_eq_one_add (p := p) (m := m) (n := k) (by omega)
    have hone := fault_eq_none_of_le (Nat.le_add_right 1 k) hfault
    obtain ⟨-, hskip, hview⟩ := (step_counted hpair hip hone).resolve_right fun h => h.1 hcell
    obtain rfl : k = 0 := by
      have hstays := hfirst 1
      omega
    exact .of_skipped hopen hip hcell hskip hview
  · obtain ⟨b, hb, hround⟩ := exists_round h hpair hip hcell hpast hfault
    obtain ⟨k, rfl⟩ : ∃ l, k = b + 1 + l := Nat.exists_eq_add_of_le hb
    refine hround.countsDown hopen ?_
    have hleft := hround.left
    split at hleft
    · rename_i hzero
      obtain rfl : k = 0 := by
        have hstays := hfirst (b + 1)
        omega
      have hcurrent := hround.current_left.trans hzero
      exact .of_current_eq_zero hcurrent rfl rfl hleft rfl hcurrent
    · rw [advance_add] at hpast hfault
      refine ih k (by omega) hleft hpast (fun j hj => ?_) hfault
      rw [← advance_add]
      exact hfirst _ (by omega)

/-- Whatever rules, sweeps and compactions have made of a source shorter than `2 ^ 32` bytes, its
counted loops count their cells down. The number in the cell is the number of rounds that it takes
to come past the loop. -/
theorem countsDown_of_derives {source : List UInt8} (hlength : source.length < 2 ^ 32)
    {p : Program} (h : (parse source).program.Derives p) {i close : Nat}
    (hpair : p.IsPair .counted i close) {m : Machine} (hip : m.ip = i) {k : Nat}
    (hpast : close < (m.advance p k).ip) (hfirst : ∀ j < k, (m.advance p j).ip ≤ close)
    (hfault : (m.advance p k).fault = none) :
    m.CountsDown p i close k := by
  obtain ⟨block, hholds, hsafe, htidy⟩ := h.exists_holds hlength
  exact countsDown_of_past (hholds.wellFormed hsafe htidy) hpair hip hpast hfirst hfault

/-- A counted loop in another one, with vacant slots that a sweep has left (`[>[>+<-]<-]`). -/
theorem countsDown_of_derives_of_nested :
    ({ tape := ⟨#[2, 3, 0], false⟩ } : Machine).CountsDown
      (parse [91, 62, 91, 62, 43, 60, 45, 93, 60, 45, 93]).program.sweep.program 0 10 29 := by
  have hpair : (parse [91, 62, 91, 62, 43, 60, 45, 93, 60, 45, 93]).program.sweep.program.IsPair
      .counted 0 10 :=
    ⟨{ op := .opens .counted, arg := 10 }, by decide +kernel, rfl, by decide⟩
  exact countsDown_of_derives (by decide) (.sweep .refl) hpair rfl (by decide +kernel)
    (by decide +kernel)
    (by decide +kernel)

end Machine

end TapeCode
