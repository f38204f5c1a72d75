import TapeCode.Proofs.Span.Append

/-!
# What is still known of a span after a rule

`Program.Keeps p q start stop` says that what the analyses know of a span in `p` they know of it
in `q`, too. This is put together along the span, as the analyses are: from two spans one behind
the other (`Keeps.append`), from slots that stay (`Keeps.slot`, `Keeps.loop`) and from a window
whose block has undergone a local change (`Block.Step.keeps`).

A rule changes the slots of one window, which lies inside of every loop that starts before it and
ends behind its start (`Rule.Replaces.le_close`). So a span that has the whole window or none of
it comes apart into parts that do (`Rule.Replaces.keeps`), and all that was known of the span is
known after the rule (`analyses_of_rule`). This is why the body of a counted loop, once found to
be inert, may be rewritten.
-/

namespace TapeCode

namespace Program

/-- What is known of the displacement of the span and of its effects is known in the second
program, too. -/
structure Keeps (p q : Program) (start stop : Nat) : Prop where
  displacement : ∀ moved, p.displacement? start stop = some moved →
    q.displacement? start stop = some moved
  effect : ∀ target effect, p.effect? start stop target = some effect →
    q.effect? start stop target = some effect

/-- The last slot in which two programs differ. -/
structure LastChange (p q : Program) (last : Nat) : Prop where
  changed : q[last]? ≠ p[last]?
  kept : ∀ j, last < j → q[j]? = p[j]?

variable {p q : Program} {i start middle stop close after : Nat} {x : Instruction}
  {kind : LoopKind} {moved : Int64}

/-! ## Spans made of parts -/

namespace Keeps

/-- Of a span with unknown displacement nothing is known. -/
theorem of_unknown (h : p.displacement? start stop = none) : p.Keeps q start stop where
  displacement moved hmoved := by
    rw [h] at hmoved
    cases hmoved
  effect target effect heffect := by
    obtain ⟨moved, hmoved⟩ := exists_displacementFrom heffect 0
    cases h.symm.trans hmoved

theorem of_le (h : stop ≤ start) : p.Keeps q start stop where
  displacement moved hmoved := by
    rw [displacement?, displacementFrom_of_le h] at hmoved ⊢
    exact hmoved
  effect target effect heffect := by
    rw [effect?, effectFrom_of_le h] at heffect ⊢
    exact heffect

/-- Two spans one behind the other, the first of which has a known displacement whenever both
together have. -/
theorem append (hfront : p.Keeps q start middle) (hrest : p.Keeps q middle stop)
    (hstart : start ≤ middle) (hstop : middle ≤ stop)
    (hknown : ∀ moved, p.displacement? start stop = some moved →
      ∃ front, p.displacement? start middle = some front) : p.Keeps q start stop := by
  have strides (moved : Int64) (hmoved : p.displacement? start stop = some moved) :
      ∃ front, p.Strides middle start front ∧ q.Strides middle start front := by
    obtain ⟨front, hmoves⟩ := hknown moved hmoved
    exact ⟨front, strides_of_displacement? hmoves hstart,
      strides_of_displacement? (hfront.displacement front hmoves) hstart⟩
  constructor
  · intro moved hmoved
    obtain ⟨front, hp, hq⟩ := strides moved hmoved
    rw [hp.displacement?_append hstop] at hmoved
    obtain ⟨rest, hmoves, rfl⟩ := Option.map_eq_some_iff.1 hmoved
    rw [hq.displacement?_append hstop, hrest.displacement rest hmoves, Option.map_some]
  · intro target effect heffect
    obtain ⟨moved, hmoved⟩ := exists_displacementFrom heffect 0
    obtain ⟨front, hp, hq⟩ := strides moved hmoved
    rw [hp.effect?_append hstop] at heffect
    obtain ⟨first, hfirst, hboth⟩ := Option.bind_eq_some_iff.1 heffect
    obtain ⟨second, hsecond, rfl⟩ := Option.map_eq_some_iff.1 hboth
    rw [hq.effect?_append hstop, hfront.effect target first hfirst, Option.bind_some,
      hrest.effect _ second hsecond, Option.map_some]

/-- A slot that stays, in front of a span. -/
theorem slot (hlt : i < stop) (hx : p[i]? = some x) (hopen : x.op.isOpen = false)
    (hkept : q[i]? = p[i]?) (hrest : p.Keeps q (i + 1) stop) : p.Keeps q i stop := by
  have hself := Nat.lt_succ_self i
  have hfront : p.Keeps q i (i + 1) := by
    constructor
    · intro moved hmoved
      rw [displacement?_of_not_isOpen hself hx hopen, displacement?_self] at hmoved
      rw [displacement?_of_not_isOpen hself (hkept.trans hx) hopen, displacement?_self, hmoved]
    · intro target effect heffect
      simp only [effect?_of_not_isOpen hself hx hopen, effect?_self] at heffect
      simp only [effect?_of_not_isOpen hself (hkept.trans hx) hopen, effect?_self, heffect]
  refine hfront.append hrest (Nat.le_succ i) hlt fun _ _ => ⟨x.motion + 0, ?_⟩
  rw [displacement?_of_not_isOpen hself hx hopen, displacement?_self, Option.map_some]

/-- A body that is known to bring the data pointer back still does. -/
theorem isStationary (h : p.Keeps q start stop) (hsteady : p.isStationary start stop = true) :
    q.isStationary start stop = true :=
  decide_eq_true (h.displacement 0 (of_decide_eq_true hsteady))

theorem loopEffect? (hbody : p.Keeps q (i + 1) close) {target : Int64} {e : Effect}
    (he : p.loopEffect? kind i close target = some e) :
    q.loopEffect? kind i close target = some e := by
  obtain ⟨hkind, he⟩ := Option.ite_none_right_eq_some.1 he
  rw [Program.loopEffect?, if_pos (hkind.imp_right hbody.isStationary)]
  split at he
  · rename_i htarget
    rw [if_pos htarget, he]
  · rename_i htarget
    obtain ⟨hinside, he⟩ := Option.ite_none_right_eq_some.1 he
    rw [if_neg htarget, if_pos (hbody.effect target .unchanged hinside), he]

/-- A loop whose ends stay, in front of a span. -/
theorem loop (hlt : i < stop) (hx : p[i]? = some x) (hop : x.op = .opens kind)
    (hfound : p.closeOf? i stop = some close) (hi : q[i]? = p[i]?)
    (hclose : q[close]? = p[close]?) (hbody : p.Keeps q (i + 1) close)
    (hrest : p.Keeps q (close + 1) stop) :
    p.Keeps q i stop := by
  obtain ⟨hopen, hends⟩ := closeOf?_bounds hfound
  have hself : i < close + 1 := Nat.lt_succ_of_lt hopen
  have hloop := isLoop_of_closeOf? hfound hx hop
  have hp := hloop.closeOf? hopen (Nat.lt_succ_self close)
  have hq := (hloop.congr hi hclose).closeOf? hopen (Nat.lt_succ_self close)
  have hfront : p.Keeps q i (close + 1) := by
    constructor
    · intro moved hmoved
      rw [displacement?_of_opens hself hx hop, hp, Option.bind_some, displacement?_self] at hmoved
      obtain ⟨hkind, hmoved⟩ := Option.ite_none_right_eq_some.1 hmoved
      rw [displacement?_of_opens hself (hi.trans hx) hop, hq, Option.bind_some,
        displacement?_self, if_pos (hkind.imp_right hbody.isStationary), hmoved]
    · intro target effect heffect
      rw [effect?_of_opens_eq_bind hself hx hop, hp, Option.bind_some] at heffect
      obtain ⟨e, he, hbehind⟩ := Option.bind_eq_some_iff.1 heffect
      rw [effect?_self] at hbehind
      rw [effect?_of_opens_eq_bind hself (hi.trans hx) hop, hq, Option.bind_some,
        hbody.loopEffect? he, Option.bind_some, effect?_self, hbehind]
  refine hfront.append hrest (Nat.le_of_lt hself) hends fun moved hmoved => ⟨0, ?_⟩
  rw [displacement?_of_opens hlt hx hop, hfound, Option.bind_some] at hmoved
  rw [displacement?_of_opens hself hx hop, hp, Option.bind_some, displacement?_self,
    if_pos (Option.ite_none_right_eq_some.1 hmoved).1]

end Keeps

/-! ## Layouts around a slot -/

namespace Holds

variable {block : Block}

/-- From a slot of a block that is not the end of a loop on, some span that ends in the block is
laid out as a block, too. -/
theorem exists_at (h : p.Holds start block stop) (hend : p.EndsAt stop) (hle : start ≤ i)
    (hlt : i < stop) (hi : ¬ p.EndsAt i) :
    ∃ inner stop', p.Holds i inner stop' ∧ p.EndsAt stop' ∧ stop' ≤ stop := by
  induction h with
  | done => omega
  | @instr start stop x rest hx hjump hrest ih =>
    rcases Nat.lt_or_eq_of_le hle with hlater | rfl
    · exact ih hend hlater hlt
    · exact ⟨_, stop, .instr hx hjump hrest, hend, Nat.le_refl stop⟩
  | @loop start close stop kind body rest hloop hbody hrest ihBody ihRest =>
    rcases Nat.lt_or_eq_of_le hle with hlater | rfl
    · rcases Nat.lt_trichotomy i close with hin | rfl | hbehind
      · obtain ⟨inner, stop', hinner, hends, hinside⟩ := ihBody hloop.endsAt hlater hin
        exact ⟨inner, stop', hinner, hends, Nat.le_trans hinside (Nat.le_of_lt hrest.le)⟩
      · exact absurd hloop.endsAt hi
      · exact ihRest hend hbehind hlt
    · exact ⟨_, stop, .loop hloop hbody hrest, hend, Nat.le_refl stop⟩
  | @stub start stop a kind rest ha haop hat hrest ih =>
    rcases Nat.lt_or_eq_of_le hle with hlater | rfl
    · exact ih hend hlater hlt
    · exact ⟨_, stop, .stub ha haop hat hrest, hend, Nat.le_refl stop⟩

/-- The displacement of a block is known if that of a longer span is. -/
theorem exists_displacement (h : p.Holds i block middle) (hle : middle ≤ stop)
    (hmoved : p.displacement? i stop = some moved) :
    ∃ front, p.displacement? i middle = some front := by
  induction h generalizing moved with
  | done => exact ⟨0, displacement?_self p _⟩
  | @instr i middle x rest hx hjump hrest ih =>
    have hopen := Opcode.isOpen_eq_false hjump
    rw [displacement?_of_not_isOpen (Nat.lt_of_lt_of_le hrest.le hle) hx hopen] at hmoved
    obtain ⟨moved, hmoved, -⟩ := Option.map_eq_some_iff.1 hmoved
    obtain ⟨front, hfront⟩ := ih hle hmoved
    exact ⟨x.motion + front,
      by rw [displacement?_of_not_isOpen hrest.le hx hopen, hfront, Option.map_some]⟩
  | @loop i close middle kind body rest hloop hbody hrest _ ih =>
    obtain ⟨a, ha, haop, -⟩ := hloop.opens
    have hopen : i < close := hbody.le
    have hclose : close < middle := hrest.le
    have hlt := Nat.lt_trans hopen hclose
    rw [displacement?_of_opens (Nat.lt_of_lt_of_le hlt hle) ha haop,
      hloop.closeOf? hopen (Nat.lt_of_lt_of_le hclose hle), Option.bind_some] at hmoved
    obtain ⟨hkind, hmoved⟩ := Option.ite_none_right_eq_some.1 hmoved
    obtain ⟨front, hfront⟩ := ih hle hmoved
    refine ⟨front, ?_⟩
    rw [displacement?_of_opens hlt ha haop, hloop.closeOf? hopen hclose, Option.bind_some,
      if_pos hkind, hfront]
  | @stub i middle a kind rest ha haop hat hrest _ =>
    rw [displacement?_of_opens (Nat.lt_of_lt_of_le hrest.le hle) ha haop,
      closeOf?_eq_none ha hat] at hmoved
    cases hmoved

end Holds

end Program

open Program

variable {p q : Program} {rule : Rule} {edit : Edit} {i start stop close after : Nat}
  {kind : LoopKind}

/-! ## The window of a rule -/

/-- What is known of a block is known after a local change. -/
theorem Block.Step.keeps {window window' : Block} (hstep : window.Step window')
    (hload : window.load true < 2 ^ 32) (hp : p.Holds i window after)
    (hq : q.Holds i window' after) : p.Keeps q i after where
  displacement moved hmoved := by
    rw [displacement?_of_holds hp] at hmoved
    rw [displacement?_of_holds hq]
    exact hstep.motion (Nat.lt_of_le_of_lt (window.load_false_le true) hload) hmoved
  effect target effect heffect := by
    rw [effect?_of_holds hp] at heffect
    rw [effect?_of_holds hq]
    exact hstep.effectFrom hload heffect

namespace Rule

namespace Replaces

/-- A window is not empty. -/
theorem lt (h : Replaces p edit i after) : i < after := by
  refine Nat.lt_of_not_le fun hle => h.last (h.frame _ ?_)
  omega

theorem lastChange (h : Replaces p edit i after) : p.LastChange (edit.apply p) (after - 1) where
  changed := h.last
  kept j hj := h.frame j (.inr (by omega))

/-- A window that starts inside of a loop lies there. -/
theorem le_close (h : Replaces p edit i after) (horderly : p.Orderly) (hi : ¬ p.EndsAt i)
    (hloop : p.IsLoop start close kind) (hstart : start < i) (hclose : i ≤ close) :
    after ≤ close := by
  have hopen := horderly.ordered _ _ _ hloop.isPair
  obtain ⟨body, hbody⟩ := horderly.exists_holds (horderly.whole_body hloop.isPair) hopen
    (Nat.le_of_lt hloop.close_lt_size)
  have hlt : i < close := by
    refine Nat.lt_of_le_of_ne hclose ?_
    rintro rfl
    exact hi hloop.endsAt
  obtain ⟨inner, stop, hinner, hends, hinside⟩ := hbody.exists_at hloop.endsAt hstart hlt hi
  exact Nat.le_trans (h.exists_step hinner hends).1 hinside

/-- What is known of a span is known after the edit, if the span has the whole window or
none of it. -/
theorem keeps (h : Replaces p edit i after) (horderly : p.Orderly) (hload : p.load true < 2 ^ 32)
    (hi : ¬ p.EndsAt i) {start stop : Nat} (hspan : start ≤ i ∧ after ≤ stop ∨
      ∀ j, start ≤ j → j < stop → j < i ∨ after ≤ j) : p.Keeps (edit.apply p) start stop := by
  have hwindow := h.lt
  cases hmoved : p.displacement? start stop with
  | none => exact .of_unknown hmoved
  | some moved =>
    rcases Nat.lt_or_ge start stop with hlt | hge
    · rcases Decidable.em (start = i) with hfirst | hne
      · -- The window comes first, and the rest of the span has none of it.
        have hafter : after ≤ stop := by
          rcases hspan with hwhole | hnone
          · exact hwhole.2
          · have := hnone start (Nat.le_refl start) hlt
            omega
        rw [hfirst]
        obtain ⟨window, window', hp, hstep, hq⟩ := h.step
        have hcounts := Nat.lt_of_le_of_lt (hp.load_le_load true) hload
        exact (hstep.keeps hcounts hp hq).append
          (keeps h horderly hload hi (.inr fun j hj _ => .inr hj))
          (Nat.le_of_lt hwindow) hafter fun _ => hp.exists_displacement hafter
      · have hkept : (edit.apply p)[start]? = p[start]? := by
          refine h.frame start ?_
          rcases hspan with hwhole | hnone
          · omega
          · exact hnone start (Nat.le_refl start) hlt
        cases strides_of_displacement? hmoved (Nat.le_of_lt hlt) with
        | arrived => omega
        | slot _ hx hopen _ =>
          refine .slot hlt hx hopen hkept (keeps h horderly hload hi ?_)
          exact hspan.imp (fun hwhole => ⟨by omega, hwhole.2⟩) fun hnone j hj =>
            hnone j (by omega)
        | @loop _ close x kind _ _ hx hop hfound _ _ =>
          obtain ⟨hopen, hclose⟩ := closeOf?_bounds hfound
          have hloop := isLoop_of_closeOf? hfound hx hop
          -- The window stands behind the loop, or all of it in the body, so that both ends of the
          -- loop stay.
          rcases hspan with hwhole | hnone
          · rcases Nat.lt_or_ge close i with hbehind | hinside
            · exact .loop hlt hx hop hfound hkept (h.frame close (.inl hbehind))
                (keeps h horderly hload hi (.inr fun j _ hj => .inl (by omega)))
                (keeps h horderly hload hi (.inl ⟨hbehind, hwhole.2⟩))
            · have hafter := h.le_close horderly hi hloop (by omega) hinside
              exact .loop hlt hx hop hfound hkept (h.frame close (.inr hafter))
                (keeps h horderly hload hi (.inl ⟨by omega, hafter⟩))
                (keeps h horderly hload hi (.inr fun j hj _ => .inr (by omega)))
          · exact .loop hlt hx hop hfound hkept
              (h.frame close (hnone close (Nat.le_of_lt hopen) hclose))
              (keeps h horderly hload hi (.inr fun j hj hj' => hnone j (by omega) (by omega)))
              (keeps h horderly hload hi (.inr fun j hj hj' => hnone j (by omega) hj'))
    · exact .of_le hge
termination_by stop - start

end Replaces

/-- Where a rule applies to an orderly program, it changes a window. -/
theorem exists_replaces (horderly : p.Orderly) (he : rule.edit? p i = some edit) :
    ∃ after, Replaces p edit i after := by
  have hi := not_endsAt_of_edit? he
  obtain ⟨block, hholds, -⟩ := orderly_iff.1 horderly
  obtain ⟨inner, stop, hinner, hends, -⟩ :=
    hholds.exists_at p.endsAt_size (Nat.zero_le i) (lt_size_of_not_endsAt hi) hi
  exact replaces_of_edit? hinner hends he

end Rule

/-- What is known of a span is known after a rule has been applied, if the span has all slots from
the first one of the window to the last one that the rule has changed, or none of them. The jumps
of the program have to be in order, the bodies of its counted loops have to bring the data pointer
back, and the counts of its motions and its arithmetic must add up to less than `2 ^ 32`. -/
theorem analyses_of_rule (horderly : p.Orderly) (hload : p.load true < 2 ^ 32)
    (hrule : rule.applyAt? p i = some q) :
    ∃ last, i ≤ last ∧ p.LastChange q last ∧ ∀ start stop,
      (∀ j, i ≤ j → j ≤ last → start ≤ j ∧ j < stop) ∨
        (∀ j, i ≤ j → j ≤ last → ¬ (start ≤ j ∧ j < stop)) → p.Keeps q start stop := by
  obtain ⟨edit, he, rfl⟩ := Option.map_eq_some_iff.1 hrule
  obtain ⟨after, hedit⟩ := Rule.exists_replaces horderly he
  have hwindow := hedit.lt
  refine ⟨after - 1, by omega, hedit.lastChange, fun start stop hspan => ?_⟩
  refine hedit.keeps horderly hload (Rule.not_endsAt_of_edit? he)
    (hspan.imp (fun hwhole => ?_) ?_)
  · have hfirst := hwhole i (Nat.le_refl i) (by omega)
    have hlast := hwhole (after - 1) (by omega) (Nat.le_refl _)
    omega
  · intro hnone j hj hlt
    have := hnone j
    omega

/-- A counted loop that carries to its neighbour, and arithmetic behind it. -/
def Program.carrying : Program :=
  #[⟨.opens .counted, 4, 0⟩, ⟨.move .right, 1, 0⟩, ⟨.add .here, 3, 0⟩, ⟨.move .left, 1, 0⟩,
    ⟨.closes .counted, 0, 0⟩, ⟨.add .here, 5, 0⟩]

/-- The body of the loop of `Program.carrying` is rewritten: the body still brings the data
pointer back, and the whole still leaves a known value in the first cell. -/
theorem analyses_of_rule_of_carrying :
    ∃ q, Rule.offsetArithmetic.applyAt? Program.carrying 1 = some q ∧
      q.displacement? 1 4 = some 0 ∧
      q.effect? 1 4 1 = some (.adds 3) ∧ q.effect? 0 6 0 = some (.assigns 5) := by
  have hholds : Program.carrying.Holds 0 _ Program.carrying.size :=
    .loop ⟨⟨_, rfl, rfl, rfl⟩, _, rfl, rfl, rfl⟩
      (.instr rfl rfl (.instr rfl rfl (.instr rfl rfl .done))) (.instr rfl rfl .done)
  have horderly : Program.carrying.Orderly :=
    hholds.orderly ⟨fun _ => by decide, trivial, trivial⟩
  have hrule : Rule.offsetArithmetic.applyAt? Program.carrying 1 =
      some #[⟨.opens .counted, 4, 0⟩, ⟨.add (.aside .right), 3, 1⟩, .nop, .nop,
        ⟨.closes .counted, 0, 0⟩, ⟨.add .here, 5, 0⟩] := by decide +kernel
  obtain ⟨last, hfirst, hlast, hkeeps⟩ := analyses_of_rule horderly (by decide) hrule
  have hinside : last < 4 := by
    refine Nat.lt_of_not_le fun hle => hlast.changed ?_
    rcases Nat.lt_or_ge last 6 with hlt | hge
    · obtain rfl | rfl : last = 4 ∨ last = 5 := by omega
      · rfl
      · rfl
    · rw [Array.getElem?_eq_none hge, Array.getElem?_eq_none hge]
  have hbody := hkeeps 1 4 (.inl fun j hj hj' => by omega)
  have hwhole := hkeeps 0 6 (.inl fun j hj hj' => by omega)
  exact ⟨_, hrule, hbody.displacement 0 (by decide +kernel), hbody.effect 1 _ (by decide +kernel),
    hwhole.effect 0 _ (by decide +kernel)⟩

end TapeCode
