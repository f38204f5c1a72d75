import TapeCode.Proofs.Block.Compact
import TapeCode.Proofs.Relocation

/-!
# Runs of compacted programs

Compaction is tried on any program, whatever its jumps designate, and answers with the links that
are broken afterwards. If there are none, the compacted program behaves as the program did
(`matches_compact`).

A slot lands at the number of live slots before it (`Program.Lands`), and the two machines stand
at the same survivor or are out of their programs (`Machine.Compacted`). The machine of the longer
program first goes over the vacant slots to its survivor (`Machine.takes_idle`). A jump to a
vacant slot is the one place where the two part: the compacted program goes on behind the survivor
there, and the program itself carries that survivor out. But since the link is good the survivor
is the other end of the loop, and with the cell that made the machine jump it is passed without a
change (`Machine.takes_through`).
-/

namespace TapeCode

namespace Program

variable {p : Program} {i n u target : Nat} {x w : Instruction}

/-! ## Survivors -/

/-- The slots from `i` to `n` are vacant. -/
def Vacant (p : Program) (i n : Nat) : Prop :=
  ∀ j, i ≤ j → j < n → p[j]?.any (·.isLive) = false

theorem Vacant.liveBefore (h : p.Vacant i n) (hle : i ≤ n) : p.liveBefore n = p.liveBefore i := by
  induction hle with
  | refl => rfl
  | @step n hle ih =>
    rw [liveBefore_succ, h n hle (Nat.lt_succ_self n)]
    exact ih fun j hj hlt => h j hj (Nat.lt_succ_of_lt hlt)

theorem liveBefore_mono (hle : i ≤ n) : p.liveBefore i ≤ p.liveBefore n := by
  induction hle with
  | refl => exact Nat.le_refl _
  | step _ ih => exact Nat.le_trans ih (by rw [liveBefore_succ]; exact Nat.le_add_right ..)

/-- Slots over which the count does not rise are vacant. -/
theorem vacant_of_liveBefore (h : p.liveBefore n ≤ p.liveBefore i) : p.Vacant i n :=
  fun j hj hlt => by
  cases hany : p[j]?.any (·.isLive) with
  | false => rfl
  | true =>
    have hsucc : p.liveBefore (j + 1) = p.liveBefore j + 1 := by rw [liveBefore_succ, if_pos hany]
    have hbefore : p.liveBefore i ≤ p.liveBefore j := liveBefore_mono hj
    have hbehind : p.liveBefore (j + 1) ≤ p.liveBefore n := liveBefore_mono hlt
    omega

/-- The first live slot from `i` on is `u`. -/
structure Survivor (p : Program) (i u : Nat) (x : Instruction) : Prop where
  le : i ≤ u
  slot : p[u]? = some x
  isLive : x.isLive = true
  vacant : p.Vacant i u

namespace Survivor

theorem lt_size (h : p.Survivor i u x) : u < p.size :=
  (Array.getElem?_eq_some_iff.1 h.slot).1

theorem liveBefore (h : p.Survivor i u x) : p.liveBefore u = p.liveBefore i :=
  h.vacant.liveBefore h.le

theorem liveBefore_succ (h : p.Survivor i u x) : p.liveBefore (u + 1) = p.liveBefore i + 1 := by
  rw [liveBefore_succ_of_isLive h.slot h.isLive, h.liveBefore]

end Survivor

theorem lt_size_of_liveBefore (h : p.liveBefore i < p.liveBefore p.size) : i < p.size :=
  Nat.lt_of_not_le fun hle => by
    rw [← p.liveBefore_min i, Nat.min_eq_right hle] at h
    exact Nat.lt_irrefl _ h

/-- Between slots of different counts there is a survivor. -/
theorem exists_survivor {i n : Nat} (hle : i ≤ n) (h : p.liveBefore i < p.liveBefore n) :
    ∃ u x, p.Survivor i u x := by
  have hlt : i < n := Nat.lt_of_le_of_ne hle fun heq => Nat.lt_irrefl _ (heq ▸ h)
  cases hany : p[i]?.any (·.isLive) with
  | true =>
    obtain ⟨x, hx, hlive⟩ := (Option.any_eq_true _ _).1 hany
    exact ⟨i, x, Nat.le_refl i, hx, hlive, fun j hj hji => by omega⟩
  | false =>
    have hsucc : p.liveBefore (i + 1) = p.liveBefore i := by rw [liveBefore_succ, hany]; rfl
    obtain ⟨u, x, hle', hslot, hlive, hvacant⟩ :=
      exists_survivor (i := i + 1) hlt (by rwa [hsucc])
    refine ⟨u, x, by omega, hslot, hlive, fun j hj hju => ?_⟩
    rcases Nat.lt_or_eq_of_le hj with hlater | rfl
    · exact hvacant j hlater hju
    · exact hany
termination_by n - i

/-- If no link is broken by a compaction, a resolved jump designates, perhaps over vacant slots,
the other end of its loop. -/
theorem exists_partner (hclean : p.compact.broken = []) (hvacant : p.all (·.isLive) = false)
    (hx : p[i]? = some x) (hjump : x.op.isJump = true) (htarget : x.target? = some target) :
    ∃ u w, p.Survivor target u w ∧ x.op.partner? = some w.op := by
  have hlive : x.isLive = true := by
    cases hop : x.op <;> simp_all [Instruction.isLive, Opcode.isLive, Opcode.isJump]
  have hlinked : p.compact.program.linked (p.liveBefore i) (p.liveBefore target) = true := by
    refine brokenLinks_eq_nil_iff.1 ?_ _ _ _ (getElem?_compact hvacant hx hlive)
      ((congrArg _ (op_retarget _ _ x)).trans hjump) (target?_retarget hjump htarget)
    rw [← hclean, compact, if_neg (by rw [hvacant]; exact Bool.false_ne_true)]
  obtain ⟨a, z, ha, hz, hop, -, -⟩ := linked_iff.1 hlinked
  obtain rfl := Option.some.inj ((getElem?_compact hvacant hx hlive).symm.trans ha)
  rw [op_retarget] at hop
  have hlt : p.liveBefore target < p.liveBefore p.size := by
    rw [← size_compact]
    exact (Array.getElem?_eq_some_iff.1 hz).1
  obtain ⟨u, w, hsurvivor⟩ := exists_survivor (Nat.le_of_lt (lt_size_of_liveBefore hlt)) hlt
  have hw := getElem?_compact hvacant hsurvivor.slot hsurvivor.isLive
  rw [hsurvivor.liveBefore, hz] at hw
  exact ⟨u, w, hsurvivor, by rw [hop, Option.some.inj hw, op_retarget]⟩

/-! ## Where a slot lands -/

/-- The slot `j` of the compacted program is where the slot `i` lands, or both are out
of their programs. -/
def Lands (p : Program) (i j : Nat) : Prop :=
  j = p.liveBefore i ∨ p.size ≤ i ∧ p.compact.program.size ≤ j

theorem lands_size : p.Lands p.size p.compact.program.size :=
  .inr ⟨Nat.le_refl _, Nat.le_refl _⟩

/-- Without vacant slots every slot stays where it is. -/
theorem lands_self (hall : p.all (·.isLive) = true) (i : Nat) : p.Lands i i := by
  rcases Nat.le_total i p.size with hle | hle
  · exact .inl (liveBefore_eq_self hall hle).symm
  · refine .inr ⟨hle, ?_⟩
    rwa [compact, if_pos hall]

theorem Survivor.lands_succ (h : p.Survivor i u x) : p.Lands (u + 1) (p.liveBefore i + 1) :=
  .inl h.liveBefore_succ.symm

/-- The slots behind a target land alike, or the target is vacant, and the survivor there is the
other end of the loop. -/
def LandsBehind (p : Program) (x : Instruction) (i j : Nat) : Prop :=
  p.Lands i j ∨ ∃ target u w, p.Survivor target u w ∧ x.op.partner? = some w.op ∧ i = target + 1 ∧
    j = p.liveBefore target + 1

/-- A live instruction in a program that is compacted without a broken link: if it is a jump, it
goes where it went. -/
theorem exists_lands (hclean : p.compact.broken = []) (hx : p[i]? = some x)
    (hlive : x.isLive = true) :
    ∃ y, p.compact.program[p.liveBefore i]? = some y ∧ y.op = x.op ∧
      (x.op.isJump = false → y = x) ∧
      (x.op.isJump = true →
        p.Lands (x.target?.getD p.size) (y.target?.getD p.compact.program.size) ∧
        p.LandsBehind x (Machine.landing p.size x)
          (Machine.landing p.compact.program.size y)) := by
  obtain ⟨y, hy, hop, hsame, hnone, -⟩ := exists_compact hx hlive
  refine ⟨y, hy, hop, hsame, fun hjump => ?_⟩
  unfold Machine.landing
  cases htarget : x.target? with
  | none =>
    rw [hnone htarget]
    exact ⟨lands_size, .inl lands_size⟩
  | some target =>
    -- A program without vacant slots is left alone, also if its links are broken.
    cases hall : p.all (·.isLive) with
    | true =>
      have hyx : y = x := by
        rw [compact, if_pos hall, liveBefore_eq_self hall] at hy
        · exact Option.some.inj (hy.symm.trans hx)
        · exact Nat.le_of_lt (Array.getElem?_eq_some_iff.1 hx).1
      rw [hyx, htarget]
      exact ⟨lands_self hall target, .inl (lands_self hall (target + 1))⟩
    | false =>
      have hyt : y.target? = some (p.liveBefore target) := by
        rw [← Option.some.inj ((getElem?_compact hall hx hlive).symm.trans hy)]
        exact target?_retarget hjump htarget
      obtain ⟨u, w, hsurvivor, hpartner⟩ := exists_partner hclean hall hx hjump htarget
      rw [hyt]
      exact ⟨.inl rfl, .inr ⟨target, u, w, hsurvivor, hpartner, rfl, rfl⟩⟩

end Program

namespace Machine

variable {p : Program} {m m' : Machine} {n u target k : Nat} {x w y : Instruction}

/-! ## Steps that change nothing -/

/-- The machine after steps that have led it to another slot and changed nothing else. -/
def idled (m : Machine) (ip steps : Nat) : Machine :=
  { m with ip, steps := m.steps + steps }

theorem step_of_vacant (hvacant : p[m.ip]?.any (·.isLive) = false) (hip : m.ip < p.size) :
    m.step p = m.idled (m.ip + 1) 1 := by
  rw [step_of_getElem? (Array.getElem?_eq_getElem hip)]
  rw [Array.getElem?_eq_getElem hip, Option.any_some] at hvacant
  have hop : p[m.ip].op = .nop := by
    cases hop : p[m.ip].op <;> simp_all [Instruction.isLive, Opcode.isLive]
  rw [perform, hop]
  rfl

/-- Over vacant slots the machine goes on without a change. -/
theorem takes_idle (hfault : m.fault = none) (hvacant : p.Vacant m.ip n) (hle : m.ip ≤ n)
    (hn : n ≤ p.size) : ∃ k, (stepper p).Takes k m (m.idled n k) := by
  induction hle with
  | refl => exact ⟨0, .refl⟩
  | @step n hle ih =>
    obtain ⟨k, htakes⟩ :=
      ih (fun j hj hlt => hvacant j hj (Nat.lt_succ_of_lt hlt)) (Nat.le_of_lt hn)
    have hcan : (m.idled n k).canStep p = true := by
      simp [canStep, idled, hfault, Nat.lt_of_succ_le hn]
    have hstep : (m.idled n k).step p = m.idled (n + 1) (k + 1) :=
      step_of_vacant (hvacant n hle (Nat.lt_succ_self n)) hn
    exact ⟨k + 1, htakes.trans (hstep ▸ .single hcan)⟩

/-- The machine has looked at its cell, and the tape has grown to it. -/
def Seen (m : Machine) : Prop :=
  m.tape.Reaches m.dp ∧ m.tape.extendTo m.dp.toNatClampNeg = m.tape

theorem probe_of_seen (h : m.Seen) : m.probe = m := by
  rw [probe, if_pos h.1, h.2]

theorem reaches_of_probe (h : m.probe.fault = none) : m.tape.Reaches m.dp := by
  unfold probe at h
  split at h
  · assumption
  · simp [fail] at h

theorem seen_probe (h : m.probe.fault = none) : m.probe.Seen := by
  have hreach := reaches_of_probe h
  rw [probe, if_pos hreach]
  exact ⟨⟨hreach.1, .inl (Tape.lt_size_extendTo ..)⟩, if_pos (Tape.lt_size_extendTo ..)⟩

theorem current_probe (h : m.probe.fault = none) : m.probe.current = m.current := by
  have hreach := reaches_of_probe h
  rw [current, if_pos (seen_probe h).1, current, if_pos hreach, probe, if_pos hreach]
  exact Tape.cell_extendTo ..

/-- The machine goes on with the slot behind this jump, and the jump changes nothing. -/
def Passes (m : Machine) (w : Instruction) : Prop :=
  (∃ kind, w.op = .closes kind) ∧ m.current = 0 ∨ w.op = .opens .tested ∧ m.current ≠ 0

theorem perform_of_passes (hseen : m.Seen) (h : m.Passes w) (size : Nat) :
    m.perform size w = m.next := by
  rcases h with ⟨⟨kind, hop⟩, hcell⟩ | ⟨hop, hcell⟩
  · rw [perform, hop]
    dsimp only
    rw [if_pos hcell, probe_of_seen hseen]
  · rw [perform, hop]
    dsimp only
    rw [if_neg hcell, probe_of_seen hseen]

/-- The machine goes on behind the slot that this jump designates. -/
def Leaves (m : Machine) (x : Instruction) : Prop :=
  (∃ kind, x.op = .opens kind) ∧ m.current = 0 ∨ x.op = .closes .tested ∧ m.current ≠ 0

theorem perform_of_leaves (h : m.Leaves x) (size : Nat) :
    m.perform size x = m.probe.goto (landing size x) := by
  rcases h with ⟨⟨kind, hop⟩, hcell⟩ | ⟨hop, hcell⟩
  · rw [perform, hop]
    dsimp only
    rw [if_pos hcell]
  · rw [perform, hop]
    dsimp only
    rw [if_neg hcell]

theorem Leaves.isJump (h : m.Leaves x) : x.op.isJump = true := by
  rcases h with ⟨⟨kind, hop⟩, -⟩ | ⟨hop, -⟩ <;> rw [hop] <;> rfl

/-- The cell that makes the machine leave at one end of a loop lets it pass the other end. -/
theorem Leaves.passes (h : m.Leaves x) (hpartner : x.op.partner? = some w.op) : m.Passes w := by
  rcases h with ⟨⟨kind, hop⟩, hcell⟩ | ⟨hop, hcell⟩
  · rw [hop] at hpartner
    exact .inl ⟨⟨kind, (Option.some.inj hpartner).symm⟩, hcell⟩
  · rw [hop] at hpartner
    exact .inr ⟨(Option.some.inj hpartner).symm, hcell⟩

/-- Behind a jump to a vacant slot the machine comes to the survivor there, and passes it. -/
theorem takes_through (hfault : m.fault = none) (hseen : m.Seen) (hip : m.ip = target + 1)
    (hsurvivor : p.Survivor target u w) (hpass : m.Passes w) :
    ∃ k, (stepper p).Takes k m (m.idled (u + 1) k) := by
  rcases Nat.lt_or_eq_of_le hsurvivor.le with hlt | rfl
  · have hvacant : p.Vacant m.ip u := fun j hj hju => hsurvivor.vacant j (by omega) hju
    obtain ⟨k, htakes⟩ := takes_idle hfault hvacant (by omega) (Nat.le_of_lt hsurvivor.lt_size)
    have hcan : (m.idled u k).canStep p = true := canStep_of_getElem? hfault hsurvivor.slot
    have hstep : (m.idled u k).step p = m.idled (u + 1) (k + 1) :=
      (step_of_getElem? hsurvivor.slot).trans
        (perform_of_passes (m := (m.idled u k).counted) hseen hpass p.size)
    exact ⟨k + 1, htakes.trans (hstep ▸ .single hcan)⟩
  · exact ⟨0, by rw [← hip]; exact .refl⟩

/-! ## The simulation -/

/-- The second machine runs the compacted program and stands where the first one stands, or both
are out of their programs. Once a fault is recorded it does not matter where they stand. -/
structure Compacted (p : Program) (m m' : Machine) : Prop where
  relocated : m.Relocated p.liveBefore m'
  lands : m.fault = none → p.Lands m.ip m'.ip

/-- Both machines jump. The one of the longer program may have to pass the other end
of the loop. -/
theorem exists_compacted_of_leaves (hleaves : m.Leaves x)
    (hfault : (m.perform p.size x).fault = none)
    (hrel : (m.perform p.size x).Relocated p.liveBefore m')
    (hlands : p.LandsBehind x (landing p.size x) m'.ip) :
    ∃ k a, (stepper p).Takes k (m.perform p.size x) a ∧ Compacted p a m' := by
  rw [perform_of_leaves hleaves] at hfault hrel ⊢
  rcases hlands with hlands | ⟨target, u, w, hsurvivor, hpartner, hip, hip'⟩
  · exact ⟨0, _, .refl, hrel, fun _ => hlands⟩
  · -- The compaction is behind the survivor `u` at once, the program only behind its target.
    have hpass : (m.probe.goto (landing p.size x)).Passes w := by
      have hcurrent : (m.probe.goto (landing p.size x)).current = m.current :=
        current_probe hfault
      rw [Passes, hcurrent]
      exact hleaves.passes hpartner
    obtain ⟨k, htakes⟩ := takes_through hfault (seen_probe hfault) hip hsurvivor hpass
    refine ⟨k, _, htakes, hrel.congr ⟨_, _, rfl⟩ ⟨_, _, rfl⟩, fun _ => ?_⟩
    rw [hip']
    exact hsurvivor.lands_succ

/-- Unless they jump behind a slot, both machines go on where the other one does. -/
theorem lands_nextIp (hleaves : ¬ m.Leaves x) (hcurrent : m'.current = m.current)
    (hop : y.op = x.op) (hsucc : p.Lands (m.ip + 1) (m'.ip + 1))
    (hrestart : x.op.isJump = true →
      p.Lands (x.target?.getD p.size) (y.target?.getD p.compact.program.size)) :
    p.Lands (m.nextIp p.size x) (m'.nextIp p.compact.program.size y) := by
  unfold nextIp
  rw [hop, hcurrent]
  cases hxop : x.op with
  | opens kind =>
    have hcell : m.current ≠ 0 := fun hcell => hleaves (.inl ⟨⟨kind, hxop⟩, hcell⟩)
    simpa [hcell] using hsucc
  | closes kind =>
    by_cases hcell : m.current = 0
    · simpa [hcell] using hsucc
    · cases kind with
      | tested => exact absurd (.inr ⟨hxop, hcell⟩) hleaves
      | counted => simpa [hcell, restart] using hrestart (by rw [hxop]; rfl)
  | _ => exact hsucc

/-- Both machines carry out the same instruction. -/
theorem Compacted.perform (hclean : p.compact.broken = []) (hrel : m.Relocated p.liveBefore m')
    (hip : m'.ip = p.liveBefore m.ip) (hx : p[m.ip]? = some x) (hlive : x.isLive = true) :
    ∃ y, p.compact.program[m'.ip]? = some y ∧ ∃ k a, (stepper p).Takes k (m.perform p.size x) a ∧
      Compacted p a (m'.perform p.compact.program.size y) := by
  obtain ⟨y, hy, hop, hsame, hjumps⟩ := Program.exists_lands hclean hx hlive
  have hrel' := hrel.perform hip hop hsame p.size p.compact.program.size
  refine ⟨y, hip ▸ hy, ?_⟩
  by_cases hleaves : m.Leaves x
  · have hleaves' : m'.Leaves y := by rwa [Leaves, hop, hrel.current]
    cases hfault : (m.perform p.size x).fault with
    | some fault => exact ⟨0, _, .refl, hrel', fun h => by rw [hfault] at h; cases h⟩
    | none =>
      refine exists_compacted_of_leaves hleaves hfault hrel' ?_
      rw [perform_of_leaves hleaves']
      exact (hjumps hleaves.isJump).2
  · refine ⟨0, _, .refl, hrel', fun _ => ?_⟩
    rw [ip_perform, ip_perform]
    refine lands_nextIp hleaves hrel.current hop ?_ fun hjump => (hjumps hjump).1
    rw [hip]
    exact .inl (Program.liveBefore_succ_of_isLive hx hlive).symm

/-- A step of the compacted program is matched by the program. -/
theorem Compacted.step (hclean : p.compact.broken = []) (h : Compacted p m m')
    (hcan : m'.canStep p.compact.program = true) :
    ∃ k a, (stepper p).Takes (k + 1) m a ∧ Compacted p a (m'.step p.compact.program) := by
  simp only [canStep, Bool.and_eq_true, Option.isNone_iff_eq_none, decide_eq_true_eq] at hcan
  obtain ⟨hfault', hlt⟩ := hcan
  have hfault : m.fault = none := h.relocated.fault_eq_none_iff.1 hfault'
  rcases h.lands hfault with hip | ⟨-, hle⟩
  · have hbefore : p.liveBefore m.ip < p.liveBefore p.size := by
      rwa [← hip, ← Program.size_compact]
    have hinside := Nat.le_of_lt (Program.lt_size_of_liveBefore hbefore)
    obtain ⟨u, x, hsurvivor⟩ := Program.exists_survivor hinside hbefore
    obtain ⟨k, hidle⟩ :=
      takes_idle hfault hsurvivor.vacant hsurvivor.le (Nat.le_of_lt hsurvivor.lt_size)
    have hstep : (stepper p).Takes 1 (m.idled u k) ((m.idled u k).counted.perform p.size x) := by
      rw [← step_of_getElem? (m := m.idled u k) hsurvivor.slot]
      exact .single (canStep_of_getElem? (m := m.idled u k) hfault hsurvivor.slot)
    have hrel : (m.idled u k).counted.Relocated p.liveBefore m'.counted :=
      h.relocated.congr ⟨_, _, rfl⟩ ⟨_, _, rfl⟩
    obtain ⟨y, hy, l, a, hrest, hcompacted⟩ := Compacted.perform hclean hrel
      (hip.trans hsurvivor.liveBefore.symm) hsurvivor.slot hsurvivor.isLive
    have hstep' : m'.step p.compact.program = m'.counted.perform p.compact.program.size y :=
      step_of_getElem? hy
    rw [hstep']
    exact ⟨k + l, a,
      by simpa [Nat.add_right_comm] using (hidle.trans hstep).trans hrest, hcompacted⟩
  · omega

/-- Where the compacted program stops, the program soon does. -/
theorem Compacted.stop (h : Compacted p m m') (hcan : m'.canStep p.compact.program = false) :
    ∃ k a, (stepper p).Stops k m a ∧ a.Relocated p.liveBefore m' := by
  cases hfault : m.fault with
  | some fault => exact ⟨0, m, ⟨.refl, by simp [stepper, canStep, hfault]⟩, h.relocated⟩
  | none =>
    have hfault' := h.relocated.fault_eq_none_iff.2 hfault
    have hend : p.compact.program.size ≤ m'.ip := by simpa [canStep, hfault'] using hcan
    rcases Nat.lt_or_ge m.ip p.size with hlt | hge
    · have hcount : p.liveBefore p.size ≤ p.liveBefore m.ip := by
        rcases h.lands hfault with hip | ⟨hout, -⟩
        · rwa [← hip, ← Program.size_compact]
        · omega
      obtain ⟨k, hidle⟩ := takes_idle hfault (Program.vacant_of_liveBefore hcount)
        (Nat.le_of_lt hlt) (Nat.le_refl _)
      exact ⟨k, _, ⟨hidle, by simp [stepper, canStep, idled]⟩,
        h.relocated.congr ⟨_, _, rfl⟩ ⟨_, _, rfl⟩⟩
    · exact ⟨0, m, ⟨.refl, by simp [stepper, canStep, hge]⟩, h.relocated⟩

/-- A program that is compacted without a broken link refines its compaction. -/
theorem refines_compact (hclean : p.compact.broken = []) :
    Stepper.Refines (stepper p) (stepper p.compact.program) (Compacted p)
      (Relocated p.liveBefore) :=
  ⟨fun _ _ h hcan => h.step hclean hcan, fun _ _ h hcan => h.stop hcan⟩

theorem AtStart.compacted (h : m.AtStart) (p : Program) : Compacted p m m where
  relocated := ⟨rfl, rfl, rfl, rfl, by rw [h.fault]; rfl⟩
  lands _ := .inl (by rw [h.ip, Program.liveBefore_zero])

/-- Where a machine stops it is flushed without a fault if its output can be flushed. -/
theorem run_of_stops_of_flush (hsteps : m.steps = 0) (hflush : m.output.flushFailure = none)
    (h : (stepper p).Stops k m m') (hle : k ≤ n) : m.run p n = (m'.flush, .ofEnd k m'.fault) := by
  have hflush' := (flushFailure_of_takes h.takes).trans hflush
  rw [run_of_stops hsteps h hle, flush_of_flushFailure hflush']

end Machine

/-- Both runs came to their end, the second one after no more steps, and with the same fault but
for the place of its instruction. -/
inductive Outcome.Matches (f : Nat → Nat) : Outcome → Outcome → Prop
  | completed {steps steps' : Nat} : steps' ≤ steps →
      Matches f (.completed steps) (.completed steps')
  | faulted {steps steps' : Nat} {fault : Fault} : steps' ≤ steps →
      Matches f (.faulted steps fault) (.faulted steps' (fault.relocate f))

theorem Outcome.matches_ofEnd {steps steps' : Nat} (hle : steps' ≤ steps) (f : Nat → Nat)
    (fault : Option Fault) :
    (Outcome.ofEnd steps fault).Matches f (.ofEnd steps' (fault.map (·.relocate f))) := by
  cases fault with
  | none => exact .completed hle
  | some fault => exact .faulted hle

/-- A program that is compacted without a broken link runs to its end if its compaction does, and
both then show the same data pointer, tape, input and output, and the same fault but for the place
of its instruction. The compaction takes no more steps. -/
theorem matches_compact {p : Program} (hclean : p.compact.broken = []) {m : Machine}
    (hstart : m.AtStart) (hflush : m.output.flushFailure = none) :
    ((∃ n, (m.run p.compact.program n).2.IsFinal) ↔ ∃ n, (m.run p n).2.IsFinal) ∧
      ∀ n, (m.run p n).2.IsFinal →
        (m.run p n).2.Matches p.liveBefore (m.run p.compact.program n).2 ∧
          (m.run p n).1.Relocated p.liveBefore (m.run p.compact.program n).1 := by
  have hrefines := Machine.refines_compact hclean
  have hcompacted := hstart.compacted p
  refine ⟨⟨fun ⟨n, hfinal⟩ => ?_, fun ⟨n, hfinal⟩ => ?_⟩, fun n hfinal => ?_⟩
  · obtain ⟨_, _, -, hstops⟩ := Machine.exists_stops_of_run hstart.steps hfinal
    obtain ⟨k, _, -, hstops', -⟩ := hrefines.of_stops hcompacted hstops
    exact ⟨k, Machine.isFinal_of_stops hstart.steps hstops' (Nat.le_refl k)⟩
  · obtain ⟨_, _, -, hstops⟩ := Machine.exists_stops_of_run hstart.steps hfinal
    obtain ⟨k, _, -, hstops', -⟩ := hrefines.stops hcompacted hstops
    exact ⟨k, Machine.isFinal_of_stops hstart.steps hstops' (Nat.le_refl k)⟩
  · obtain ⟨k, a, hle, hstops⟩ := Machine.exists_stops_of_run hstart.steps hfinal
    obtain ⟨k', b, hle', hstops', hrel⟩ := hrefines.stops hcompacted hstops
    rw [Machine.run_of_stops_of_flush hstart.steps hflush hstops hle,
      Machine.run_of_stops_of_flush hstart.steps hflush hstops' (Nat.le_trans hle' hle)]
    have hflush' := (Machine.flushFailure_of_takes hstops.takes).trans hflush
    exact ⟨by rw [hrel.fault]; exact Outcome.matches_ofEnd hle' _ _, hrel.flush hflush'⟩

/-- A loop whose end designates the vacant slot before its start, and then a step out of a band of
three cells. -/
def Program.detour : Program :=
  #[.nop, { op := .opens .tested, arg := 4 }, { op := .sub .here, arg := 1 }, .nop, .nop,
    { op := .closes .tested, arg := 0 }, { op := .move .right, arg := 3 },
    { op := .print, arg := 1 }]

/-- The program looks at its cell once more than its compaction in every round but the first. -/
theorem matches_compact_of_detour :
    ((Machine.run Program.detour 40 { tape := ⟨#[2, 0, 0], false⟩ }).2 =
        .faulted 13 (.outOfBounds 7 3 3 3) ∧
      (Machine.run Program.detour.compact.program 40 { tape := ⟨#[2, 0, 0], false⟩ }).2 =
        .faulted 7 (.outOfBounds 4 3 3 3)) ∧
      (Machine.run Program.detour 40 { tape := ⟨#[2, 0, 0], false⟩ }).2.Matches
        Program.detour.liveBefore
        (Machine.run Program.detour.compact.program 40 { tape := ⟨#[2, 0, 0], false⟩ }).2 := by
  have hrun : (Machine.run Program.detour 40 { tape := ⟨#[2, 0, 0], false⟩ }).2 =
      .faulted 13 (.outOfBounds 7 3 3 3) := by
    decide +kernel
  exact ⟨⟨hrun, by decide +kernel⟩,
    ((matches_compact (by decide +kernel) ⟨rfl, rfl, rfl⟩ rfl).2 40 (by rw [hrun]; trivial)).1⟩

end TapeCode
