import TapeCode.Proofs.Block.Rewrite
import TapeCode.Sweep

/-!
# The rules as rewrites of a block

Every edit that a rule proposes makes one local change to the block of its window and no change
behind it (`Rule.Replaces`, `Rule.replaces_of_edit?`). `Rule.exists_rewrite`: where a rule applies
inside a span that is laid out as a block, its edit leaves the span laid out as a rewritten block
and every slot outside of the span as it was.

A window that starts at the last slots of a span could reach past it. It never does, as the slot
behind a span is the end of a loop (`Program.EndsAt`), and no window contains one except as the
end of a loop that starts inside (`Program.Holds.exists_append`).
-/

namespace TapeCode

/-! ## Opcodes that are no jumps -/

namespace Opcode

variable {op : Opcode}

theorem isJump_of_isSet (h : op.isSet = true) : op.isJump = false := by
  cases op <;> simp_all [isSet, isJump]

theorem isJump_of_isAggregatable (h : op.isAggregatable = true) : op.isJump = false := by
  cases op <;> simp_all [isAggregatable, isJump]

theorem isJump_of_inverse? {other : Opcode} (h : op.inverse? = some other) :
    op.isJump = false := by
  cases op <;> simp_all [inverse?, isJump]

end Opcode

namespace Instruction

/-- An index that fits into an operand can be written down as a target. -/
theorem target?_of_arg_eq {x : Instruction} {n : Nat} (hx : x.arg = UInt32.ofNat n)
    (hn : n < 2 ^ 32 - 1) : x.target? = some n := by
  have hmax : unresolved.toNat = 2 ^ 32 - 1 := rfl
  have hvalue : x.arg.toNat = n := by
    rw [hx]
    exact UInt32.toNat_ofNat_of_lt' (Nat.lt_of_lt_of_le hn (Nat.sub_le _ _))
  rw [target?, if_neg, hvalue]
  intro heq
  rw [heq] at hvalue
  omega

theorem lt_of_target? {a : Instruction} {n : Nat} (h : a.target? = some n) : n < 2 ^ 32 - 1 := by
  have hmax : unresolved.toNat = 2 ^ 32 - 1 := rfl
  have hlt := a.arg.toNat_lt
  unfold target? at h
  split at h
  · cases h
  · rename_i hresolved
    cases h
    have hne : a.arg.toNat ≠ unresolved.toNat := fun heq => hresolved (UInt32.toNat_inj.1 heq)
    omega

end Instruction

namespace Program

variable {p : Program} {i stop : Nat} {block : Block}

/-- The span before `stop` ends there: behind it comes the end of a loop, or nothing. -/
def EndsAt (p : Program) (stop : Nat) : Prop :=
  ∀ x, p[stop]? = some x → ∃ kind, x.op = .closes kind

theorem IsLoop.endsAt {close : Nat} {kind : LoopKind} (h : p.IsLoop i close kind) :
    p.EndsAt close := by
  obtain ⟨b, hb, hbop, -⟩ := h.closes
  intro x hx
  obtain rfl := Option.some.inj (hb.symm.trans hx)
  exact ⟨kind, hbop⟩

theorem endsAt_size (p : Program) : p.EndsAt p.size := by
  intro x hx
  simp at hx

theorem lt_size_of_not_endsAt (h : ¬ p.EndsAt i) : i < p.size := by
  refine Nat.lt_of_not_le fun hle => h fun x hx => ?_
  rw [Array.getElem?_eq_none hle] at hx
  cases hx

/-- A loop start that is not past the span lies inside of it. -/
theorem EndsAt.lt_of_isOpen {a : Instruction} (h : p.EndsAt stop) (hle : i ≤ stop)
    (ha : p[i]? = some a) (hopen : a.op.isOpen = true) : i < stop := by
  refine Nat.lt_of_le_of_ne hle ?_
  rintro rfl
  obtain ⟨kind, hkind⟩ := h a ha
  rw [hkind] at hopen
  cases hopen

/-! ## Reading a layout -/

namespace Holds

/-- A layout whose first slot is no jump starts with that instruction. -/
theorem exists_instr {x : Instruction} (h : p.Holds i block stop) (hend : p.EndsAt stop)
    (hx : p[i]? = some x) (hjump : x.op.isJump = false) :
    ∃ rest, block = .instr x rest ∧ p.Holds (i + 1) rest stop := by
  cases h with
  | done =>
    obtain ⟨kind, hkind⟩ := hend x hx
    rw [hkind] at hjump
    cases hjump
  | @instr _ _ y rest hy _ hrest =>
    obtain rfl := Option.some.inj (hx.symm.trans hy)
    exact ⟨rest, rfl, hrest⟩
  | loop hloop _ _ =>
    obtain ⟨a, ha, haop, -⟩ := hloop.opens
    obtain rfl := Option.some.inj (hx.symm.trans ha)
    rw [haop] at hjump
    cases hjump
  | stub ha haop _ _ =>
    obtain rfl := Option.some.inj (hx.symm.trans ha)
    rw [haop] at hjump
    cases hjump

/-- A layout whose first slot is the start of a loop with a known end starts with that loop. -/
theorem exists_loop {bound close : Nat} (h : p.Holds i block stop) (hlt : i < stop)
    (hfound : p.closeOf? i bound = some close) :
    ∃ kind body rest, block = .loop kind body rest ∧ p.IsLoop i close kind ∧
      p.Holds (i + 1) body close ∧ p.Holds (close + 1) rest stop := by
  cases h with
  | done => omega
  | @instr _ _ y rest hy hjump _ =>
    obtain ⟨a, b, ha, -, hop, -, -⟩ := linked_iff.1 (linked_of_closeOf? hfound)
    obtain rfl := Option.some.inj (ha.symm.trans hy)
    rw [← Opcode.isSome_partner?, hop] at hjump
    cases hjump
  | loop hloop hbody hrest =>
    obtain rfl := hloop.eq_of_closeOf? hfound
    exact ⟨_, _, _, rfl, hloop, hbody, hrest⟩
  | stub ha _ hat _ =>
    rw [closeOf?_eq_none ha hat] at hfound
    cases hfound

/-- The layout of an empty span. -/
theorem eq_done (h : p.Holds i block i) : block = .done := by
  cases h with
  | done => rfl
  | instr _ _ hrest => have := hrest.le; omega
  | loop _ hbody hrest => have := hbody.le; have := hrest.le; omega
  | stub _ _ _ hrest => have := hrest.le; omega

/-- A layout whose first slot is an unresolved start starts with a stub. -/
theorem exists_stub {a : Instruction} {kind : LoopKind} (h : p.Holds i block stop)
    (hlt : i < stop) (ha : p[i]? = some a) (haop : a.op = .opens kind) (hat : a.target? = none) :
    ∃ rest, block = .stub kind rest ∧ p.Holds (i + 1) rest stop := by
  cases h with
  | done => omega
  | instr hx hjump _ =>
    obtain rfl := Option.some.inj (ha.symm.trans hx)
    rw [haop] at hjump
    cases hjump
  | loop hloop _ _ =>
    obtain ⟨b, hb, -, hbt⟩ := hloop.opens
    obtain rfl := Option.some.inj (ha.symm.trans hb)
    cases hat.symm.trans hbt
  | @stub _ _ b kind' rest hb hbop _ hrest =>
    obtain rfl := Option.some.inj (ha.symm.trans hb)
    cases haop.symm.trans hbop
    exact ⟨rest, rfl, hrest⟩

/-- Of two layouts that start at one slot, one that ends where a loop ends goes on where the other
is done. -/
theorem exists_append {after : Nat} {window : Block} (hwindow : p.Holds i window after)
    (h : p.Holds i block stop) (hend : p.EndsAt stop) :
    ∃ rest, block = window.append rest ∧ p.Holds after rest stop := by
  induction hwindow generalizing block stop with
  | done => exact ⟨block, rfl, h⟩
  | instr hx hjump _ ih =>
    obtain ⟨tail, rfl, htail⟩ := h.exists_instr hend hx hjump
    obtain ⟨rest, rfl, hrest⟩ := ih htail hend
    exact ⟨rest, rfl, hrest⟩
  | @loop i close after kind body tail hloop hbody _ ihBody ihTail =>
    obtain ⟨a, ha, haop, -⟩ := hloop.opens
    have hlt := hend.lt_of_isOpen h.le ha (by rw [haop]; rfl)
    obtain ⟨kind', body', tail', rfl, hloop', hbody', htail'⟩ :=
      h.exists_loop hlt (hloop.closeOf? hbody.le (Nat.lt_succ_self close))
    obtain rfl := hloop'.kind_eq ha haop
    -- Both bodies end where the loop ends, so that nothing of one is left behind the other.
    obtain ⟨last, rfl, hlast⟩ := ihBody hbody' hloop.endsAt
    obtain rfl := hlast.eq_done
    obtain ⟨rest, rfl, hrest⟩ := ihTail htail' hend
    exact ⟨rest, by rw [Block.append_done, Block.append], hrest⟩
  | stub ha haop hat _ ih =>
    have hlt := hend.lt_of_isOpen h.le ha (by rw [haop]; rfl)
    obtain ⟨tail, rfl, htail⟩ := h.exists_stub hlt ha haop hat
    obtain ⟨rest, rfl, hrest⟩ := ih htail hend
    exact ⟨rest, rfl, hrest⟩

end Holds

/-- A run of assignments to one cell is laid out as instructions. -/
theorem exists_run {op : Opcode} (hset : op.isSet = true) (dist : UInt32) (i : Nat) :
    ∃ xs, p.Holds i (.instrs xs .done) (Window.runEnd p op dist i) ∧
      (∀ x ∈ xs, x.op = op ∧ x.dist = dist) ∧
      (xs = [] ∧ Window.runEnd p op dist i = i ∨
        ∃ between last, xs = between ++ [last] ∧
          p[Window.runEnd p op dist i - 1]? = some last) := by
  fun_induction Window.runEnd p op dist i with
  | case1 i x hx hmatch ih =>
    obtain ⟨xs, hholds, hall, hlast⟩ := ih
    refine ⟨x :: xs, .instr hx (hmatch.1 ▸ Opcode.isJump_of_isSet hset) hholds,
      by simpa [hmatch] using hall, .inr ?_⟩
    rcases hlast with ⟨rfl, hstop⟩ | ⟨between, last, rfl, hlast⟩
    · exact ⟨[], x, rfl, by rw [hstop]; exact hx⟩
    · exact ⟨x :: between, last, rfl, hlast⟩
  | case2 i x hx hmatch => exact ⟨[], .done, by simp, .inl ⟨rfl, rfl⟩⟩
  | case3 i hx => exact ⟨[], .done, by simp, .inl ⟨rfl, rfl⟩⟩

/-! ## Writing a layout -/

/-- The slots after an edit that shrinks a window to its first slot. -/
theorem getElem?_shrunk {y : Instruction} {after : Nat} (hi : i < after) (hsize : after ≤ p.size)
    (j : Nat) :
    (Edit.apply { start := i + 1, stop := after, writes := [(i, y)] } p)[j]? =
      if j = i then some y else if i < j ∧ j < after then some .nop else p[j]? := by
  simp only [Edit.apply, Edit.writeAll, getElem?_put, getElem?_vacate, size_vacate]
  grind

/-- The slots after the edit that makes a loop counted and vacates a slot of its body. -/
theorem getElem?_counted {x y : Instruction} {close slot : Nat} (hi : i < slot)
    (hslot : slot < close) (hsize : close < p.size) (j : Nat) :
    (Edit.apply { start := slot, stop := slot + 1, writes := [(i, x), (close, y)] } p)[j]? =
      if j = i then some x else if j = close then some y
      else if j = slot then some .nop else p[j]? := by
  simp only [Edit.apply, Edit.writeAll, getElem?_put, getElem?_vacate, size_vacate, size_put]
  grind

/-- A loop whose two ends are written anew as those of a counted loop. -/
theorem IsLoop.counted {q : Program} {close : Nat} {kind : LoopKind} (h : p.IsLoop i close kind)
    (hi : q[i]? = some { op := .opens .counted, arg := UInt32.ofNat close })
    (hclose : q[close]? = some { op := .closes .counted, arg := UInt32.ofNat i }) :
    q.IsLoop i close .counted := by
  obtain ⟨⟨a, -, -, hat⟩, b, -, -, hbt⟩ := h
  exact ⟨⟨_, hi, rfl, Instruction.target?_of_arg_eq rfl (Instruction.lt_of_target? hat)⟩,
    _, hclose, rfl, Instruction.target?_of_arg_eq rfl (Instruction.lt_of_target? hbt)⟩

end Program

namespace Rule

variable {p : Program} {i stop : Nat} {block : Block} {edit : Edit}

theorem isJump_of_isPlainArithmetic {x : Instruction} (h : Window.isPlainArithmetic x = true) :
    x.op.isJump = false := by
  rcases Block.op_of_isPlainArithmetic h with h | h <;> rw [h] <;> rfl

/-- An edit makes one local change to the block of the window from `i` to `after`. It changes the
last slot of the window, and none outside of it. -/
structure Replaces (p : Program) (edit : Edit) (i after : Nat) : Prop where
  step : ∃ window window' : Block, p.Holds i window after ∧ window.Step window' ∧
    (edit.apply p).Holds i window' after
  frame : ∀ j, j < i ∨ after ≤ j → (edit.apply p)[j]? = p[j]?
  last : (edit.apply p)[after - 1]? ≠ p[after - 1]?

/-- An edit that shrinks a window to its first slot makes the local change that replaces the
window by that slot and vacant ones. -/
theorem replaces_shrunk {x y : Instruction} {after : Nat} {window : Block} (hi : i + 1 < after)
    (hwindow : p.Holds i window after) (hx : p[after - 1]? = some x) (hlive : x.isLive = true)
    (hy : y.op.isJump = false) (hstep : window.Step (.instr y (.nops (after - (i + 1)) .done))) :
    Replaces p { start := i + 1, stop := after, writes := [(i, y)] } i after := by
  have hsize : after - 1 < p.size := (Array.getElem?_eq_some_iff.1 hx).1
  have hslots := Program.getElem?_shrunk (y := y) (Nat.lt_of_succ_lt hi) (Nat.le_of_pred_lt hsize)
  refine ⟨⟨window, _, hwindow, hstep, .instr ?_ hy (.nops ?_ fun j hj hlt => ?_)⟩,
    fun j hj => ?_, ?_⟩
  · rw [hslots, if_pos rfl]
  · rw [show i + 1 + (after - (i + 1)) = after by omega]
    exact .done
  · rw [hslots, if_neg (by omega), if_pos (by omega)]
  · rw [hslots, if_neg (by omega), if_neg (by omega)]
  · rw [hslots, if_neg (by omega), if_pos (by omega), hx]
    intro hvacant
    cases hvacant
    cases hlive

theorem replaces_inverseFold (he : Window.inverseFold? p i = some edit) :
    ∃ after, Replaces p edit i after := by
  unfold Window.inverseFold? at he
  split at he
  · rename_i first second hfirst hsecond
    have hwindow (hjump : first.op.isJump = false) (hjump' : second.op.isJump = false) :
        p.Holds i (.instrs [first, second] .done) (i + 2) :=
      .instr hfirst hjump (.instr hsecond hjump' .done)
    split at he
    · cases he
    · rename_i hdist
      have hdist := Decidable.of_not_not hdist
      split at he
      · rename_i hinv
        cases he
        have hinv' := Opcode.inverse?_symm hinv
        have hjump := Opcode.isJump_of_inverse? hinv
        have hjump' := Opcode.isJump_of_inverse? hinv'
        refine ⟨i + 2, replaces_shrunk (by omega) (hwindow hjump hjump') hsecond
          (Opcode.isLive_of_inverse? hinv') ?_ (.fuse _ .done (.cancel hdist hinv))⟩
        unfold Window.difference
        split
        · rfl
        · split
          · exact hjump'
          · exact hjump
      · split at he
        · rename_i hagg
          cases he
          have hjump := Opcode.isJump_of_isAggregatable hagg.2
          exact ⟨i + 2, replaces_shrunk (by omega) (hwindow hjump (hagg.1 ▸ hjump)) hsecond
            (Opcode.isLive_of_isAggregatable (hagg.1 ▸ hagg.2)) hjump
            (.fuse _ .done (.merge hdist hagg.1 hagg.2))⟩
        · cases he
  · cases he

theorem replaces_foldIntoSet (he : Window.foldIntoSet? p i = some edit) :
    ∃ after, Replaces p edit i after := by
  unfold Window.foldIntoSet? at he
  split at he
  · rename_i first second hfirst hsecond
    split at he
    · rename_i place hset
      split at he
      · rename_i harith
        cases he
        have hjump : first.op.isJump = false := by rw [hset]; rfl
        have hjump' : second.op.isJump = false := by
          rcases harith.1 with hop | hop <;> rw [hop] <;> rfl
        have hlive : second.isLive = true := by
          rcases harith.1 with hop | hop <;> rw [Instruction.isLive, hop] <;> rfl
        exact ⟨i + 2,
          replaces_shrunk (by omega) (.instr hfirst hjump (.instr hsecond hjump' .done)) hsecond
          hlive hjump (.fuse _ .done (.absorb hset harith.1 harith.2))⟩
      · cases he
    · cases he
  · cases he

theorem replaces_mergeSets (he : Window.mergeSets? p i = some edit) :
    ∃ after, Replaces p edit i after := by
  unfold Window.mergeSets? at he
  split at he
  · cases he
  · rename_i first hfirst
    split at he
    · rename_i hset
      dsimp only at he
      split at he
      · rename_i last hlast
        split at he
        · rename_i hrun
          cases he
          have hjump := Opcode.isJump_of_isSet hset
          obtain ⟨xs, hholds, hall, hxs⟩ := Program.exists_run (p := p) hset first.dist (i + 1)
          rcases hxs with ⟨-, hstop⟩ | ⟨between, last', rfl, hlast'⟩
          · omega
          · obtain rfl := Option.some.inj (hlast.symm.trans hlast')
            have hlive : last.isLive = true :=
              Opcode.isLive_of_isSet ((hall last (by simp)).1 ▸ hset)
            exact ⟨_, replaces_shrunk hrun (.instr hfirst hjump hholds) hlast hlive hjump
              (.fuse _ .done (.overwrite hset hall))⟩
        · cases he
      · cases he
    · cases he

/-- An excursion is laid out as its three instructions. -/
theorem exists_excursion {side : Direction} {dist : UInt32} {middle : Instruction}
    (he : Window.excursion? p i = some (side, dist, middle))
    (hmiddle : middle.op.isJump = false) :
    ∃ there back, p.Holds i (.instrs [there, middle, back] .done) (i + 3) ∧
      p[i + 2]? = some back ∧
      there.op = .move side ∧ back.op = .move side.opposite ∧ there.arg = dist ∧
      there.arg = back.arg := by
  unfold Window.excursion? at he
  split at he
  · rename_i there middle' back hthere hmid hback
    split at he
    · rename_i side' hside
      split at he
      · rename_i hreturn
        cases he
        exact ⟨there, back, .instr hthere (by rw [hside]; rfl) (.instr hmid hmiddle
          (.instr hback (by rw [hreturn.1]; rfl) .done)), hback, hside, hreturn.1, rfl,
            hreturn.2.2⟩
      · cases he
    · cases he
  · cases he

/-- An excursion that makes one change becomes that change made aside. -/
theorem replaces_aside {side : Direction} {dist arg unused : UInt32} {change : Place → Opcode}
    (hchange : change = .add ∨ change = .sub ∨ change = .set)
    (he : Window.excursion? p i = some (side, dist, ⟨change .here, arg, unused⟩)) :
    Replaces p
      { start := i + 1, stop := i + 3, writes := [(i, ⟨change (.aside side), arg, dist⟩)] }
      i (i + 3) := by
  have hjump (place : Place) : (change place).isJump = false := by
    rcases hchange with rfl | rfl | rfl <;> rfl
  obtain ⟨there, back, hwindow, hlast, hthere, hback, rfl, harg⟩ :=
    exists_excursion he (hjump .here)
  have hlive : back.isLive = true := by rw [Instruction.isLive, hback]; rfl
  exact replaces_shrunk (by omega) hwindow hlast hlive (hjump _)
    (.fuse _ .done (.aside hchange hthere rfl hback harg))

theorem replaces_offsetArithmetic (he : Window.offsetArithmetic? p i = some edit) :
    ∃ after, Replaces p edit i after := by
  unfold Window.offsetArithmetic? at he
  split at he
  · rename_i hexc
    split at he
    · cases he
    · cases he
      exact ⟨_, replaces_aside (.inl rfl) hexc⟩
  · rename_i hexc
    split at he
    · cases he
    · cases he
      exact ⟨_, replaces_aside (.inr (.inl rfl)) hexc⟩
  · cases he

theorem replaces_offsetSet (he : Window.offsetSet? p i = some edit) :
    ∃ after, Replaces p edit i after := by
  unfold Window.offsetSet? at he
  split at he
  · rename_i hexc
    cases he
    exact ⟨_, replaces_aside (.inr (.inr rfl)) hexc⟩
  · cases he

theorem replaces_constantSet (he : Window.constantSet? p i = some edit) :
    ∃ after, Replaces p edit i after := by
  unfold Window.constantSet? at he
  split at he
  · rename_i start step hstart hstep
    split at he
    · rename_i hloop
      obtain ⟨hopen, hfound, hplain, hone⟩ := hloop
      have hends := Program.isLoop_of_closeOf? hfound hstart hopen
      have hwindow {after : Nat} {rest : Block} (hrest : p.Holds (i + 3) rest after) :
          p.Holds i (.loop .tested (.instr step .done) rest) after :=
        .loop hends (.instr hstep (isJump_of_isPlainArithmetic hplain) .done) hrest
      obtain ⟨b, hb, hbop, -⟩ := hends.closes
      have hlive : b.isLive = true := by rw [Instruction.isLive, hbop]; rfl
      cases he
      split
      · rename_i next hnext
        split
        · rename_i hnextPlain
          exact ⟨i + 4, replaces_shrunk (by omega)
            (hwindow (.instr hnext (isJump_of_isPlainArithmetic hnextPlain) .done)) hnext
            (Window.isLive_of_isPlainArithmetic hnextPlain)
              rfl (.assign _ .done hplain hone hnextPlain)⟩
        · exact ⟨i + 3,
            replaces_shrunk (by omega) (hwindow .done) hb hlive rfl (.zero _ .done hplain hone)⟩
      · exact ⟨i + 3,
          replaces_shrunk (by omega) (hwindow .done) hb hlive rfl (.zero _ .done hplain hone)⟩
    · cases he
  · cases he

theorem replaces_unreachableLoop (h : p.Holds i block stop) (hend : p.EndsAt stop)
    (he : Window.unreachableLoop? p i = some edit) : ∃ after, Replaces p edit i after := by
  unfold Window.unreachableLoop? at he
  split at he
  · rename_i first start hfirst hstart
    split at he
    · rename_i hloop
      obtain ⟨hset, hzero, hopen⟩ := hloop
      obtain ⟨close, hfound, rfl⟩ := Option.map_eq_some_iff.1 he
      have hbounds := Program.closeOf?_bounds hfound
      have hjump : first.op.isJump = false := by rw [hset]; rfl
      obtain ⟨tail, rfl, htail⟩ := h.exists_instr hend hfirst hjump
      have hlt := hend.lt_of_isOpen htail.le hstart hopen
      obtain ⟨kind, body, rest, rfl, hends, hbody, -⟩ := htail.exists_loop hlt hfound
      have hsize := hends.close_lt_size
      obtain ⟨b, hb, hbop, -⟩ := hends.closes
      have hslots (j : Nat) :
          (Edit.apply { start := i + 1, stop := close + 1 } p)[j]? =
            if i < j ∧ j ≤ close then some .nop else p[j]? := by
        simp only [Edit.apply, Edit.writeAll, Program.getElem?_vacate]
        grind
      refine ⟨close + 1, ⟨_, _, .instr hfirst hjump (.loop hends hbody .done),
        .drop (close - i) body .done hset hzero, .instr ?_ hjump (.nops ?_ fun j hj hlt => ?_)⟩,
        fun j hj => ?_, ?_⟩
      · rw [hslots, if_neg (by omega)]
        exact hfirst
      · rw [show i + 1 + (close - i) = close + 1 by omega]
        exact .done
      · rw [hslots, if_pos (by omega)]
      · rw [hslots, if_neg (by omega)]
      · rw [Nat.add_sub_cancel, hslots, if_pos (by omega), hb]
        intro hvacant
        cases hvacant
        cases hbop
    · cases he
  · cases he

theorem replaces_safeWhile (h : p.Holds i block stop) (hend : p.EndsAt stop)
    (he : Window.safeWhile? p i = some edit) : ∃ after, Replaces p edit i after := by
  unfold Window.safeWhile? at he
  split at he
  · rename_i start close hstart hfound
    split at he
    · rename_i hloop
      obtain ⟨hopen, hlong⟩ := hloop
      obtain ⟨slot, hslot, rfl⟩ := Option.map_eq_some_iff.1 he
      have hlt := hend.lt_of_isOpen h.le hstart (by rw [hopen]; rfl)
      obtain ⟨kind, body, rest, rfl, hends, hbody, -⟩ := h.exists_loop hlt hfound
      have hsize := hends.close_lt_size
      obtain rfl := hends.kind_eq hstart hopen
      obtain ⟨b, hb, hbop, -⟩ := hends.closes
      obtain ⟨hfirst, hlast, -⟩ := Window.of_takenDecrement? hlong hslot
      have hslots := Program.getElem?_counted (p := p)
        (x := { op := .opens .counted, arg := UInt32.ofNat close })
        (y := { op := .closes .counted, arg := UInt32.ofNat i }) hfirst hlast hsize
      have hclose := (hslots close).trans (by rw [if_neg (by omega), if_pos rfl])
      have hcounted := hends.counted ((hslots i).trans (if_pos rfl)) hclose
      have hvacant := (hslots slot).trans
        (by rw [if_neg (by omega), if_neg (by omega), if_pos rfl])
      have hkept (j : Nat) (hi : j ≠ i) (hclose : j ≠ close) (hslot : j ≠ slot) :=
        (hslots j).trans
        (by rw [if_neg hi, if_neg hclose, if_neg hslot])
      refine ⟨close + 1, ?_, fun j hj => hkept j (by omega) (by omega) (by omega), ?_⟩
      · unfold Window.takenDecrement? at hslot
        split at hslot
        · rename_i hfront
          cases hslot
          obtain ⟨hdecrement, hinert⟩ := Bool.and_eq_true_iff.1 hfront
          obtain ⟨x, hx, hdecrement⟩ := (Option.any_eq_true _ _).1 hdecrement
          obtain ⟨tail, rfl, htail⟩ := hbody.exists_instr hends.endsAt hx
            (isJump_of_isPlainArithmetic (Block.isPlainArithmetic_of_isDecrement hdecrement))
          exact ⟨_, _, .loop hends hbody .done,
            .takeFront .done hdecrement ((Program.isInert_of_holds htail).1 hinert),
            .loop hcounted (.instr hvacant rfl (htail.congr fun j hj hlt =>
              hkept j (by omega) (by omega) (by omega))) .done⟩
        · split at hslot
          · rename_i hback
            cases hslot
            obtain ⟨last, rfl⟩ : ∃ last, close = last + 1 := ⟨close - 1, by omega⟩
            simp only [Nat.add_sub_cancel, Bool.and_eq_true, Bool.not_eq_true'] at hback
            obtain ⟨⟨hdecrement, hinert⟩, hblind⟩ := hback
            obtain ⟨x, hx, hdecrement⟩ := (Option.any_eq_true _ _).1 hdecrement
            obtain ⟨front, rfl, hfront⟩ := hbody.exists_append_instr (by omega) hx
              (isJump_of_isPlainArithmetic (Block.isPlainArithmetic_of_isDecrement hdecrement))
            rw [Program.observes_of_holds hfront] at hblind
            exact ⟨_, _, .loop hends hbody .done,
              .takeBack .done hdecrement ((Program.isInert_of_holds hfront).1 hinert) hblind,
              .loop hcounted (.append (hfront.congr fun j hj hlt =>
                hkept j (by omega) (by omega) (by omega)) (.instr hvacant rfl .done)) .done⟩
          · cases hslot
      · rw [Nat.add_sub_cancel, hclose, hb]
        intro hsame
        cases hsame
        cases hbop
    · cases he
  · cases he

theorem replaces_of_edit? {rule : Rule} (h : p.Holds i block stop) (hend : p.EndsAt stop)
    (he : rule.edit? p i = some edit) : ∃ after, Replaces p edit i after := by
  cases rule with
  | inverseFold => exact replaces_inverseFold he
  | constantSet => exact replaces_constantSet he
  | offsetArithmetic => exact replaces_offsetArithmetic he
  | offsetSet => exact replaces_offsetSet he
  | mergeSets => exact replaces_mergeSets he
  | unreachableLoop => exact replaces_unreachableLoop h hend he
  | foldIntoSet => exact replaces_foldIntoSet he
  | safeWhile => exact replaces_safeWhile h hend he

/-- The window of an edit lies inside of every block that starts with it. What stands behind the
window in the block is not touched. -/
theorem Replaces.exists_step {after : Nat} (hedit : Replaces p edit i after)
    (h : p.Holds i block stop) (hend : p.EndsAt stop) :
    after ≤ stop ∧ ∃ block', block.Step block' ∧ (edit.apply p).Holds i block' stop := by
  obtain ⟨window, window', hwindow, hstep, hedited⟩ := hedit.step
  obtain ⟨rest, rfl, hrest⟩ := hwindow.exists_append h hend
  exact ⟨hrest.le, _, hstep.append rest,
    hedited.append (hrest.congr fun j hj _ => hedit.frame j (.inr hj))⟩

/-! ## A rule anywhere in a block -/

/-- A window that starts with the end of a loop, or behind the program, is left alone. -/
theorem edit?_eq_none {rule : Rule} (h : p.EndsAt i) : rule.edit? p i = none := by
  have hexcursion : Window.excursion? p i = none := by
    unfold Window.excursion?
    split
    · rename_i there middle back hthere hmiddle hback
      obtain ⟨kind, hkind⟩ := h there hthere
      rw [hkind]
    · rfl
  cases hi : p[i]? with
  | none => cases rule <;> simp [edit?, hi, hexcursion, Window.inverseFold?, Window.constantSet?,
      Window.offsetArithmetic?, Window.offsetSet?, Window.mergeSets?, Window.unreachableLoop?,
      Window.foldIntoSet?, Window.safeWhile?]
  | some b =>
    obtain ⟨kind, hkind⟩ := h b hi
    cases rule with
    | offsetArithmetic => simp [edit?, Window.offsetArithmetic?, hexcursion]
    | offsetSet => simp [edit?, Window.offsetSet?, hexcursion]
    | mergeSets => simp [edit?, Window.mergeSets?, hi, hkind, Opcode.isSet]
    | inverseFold =>
      cases hnext : p[i + 1]? <;>
        simp [edit?, Window.inverseFold?, hi, hnext, hkind, Opcode.inverse?,
          Opcode.isAggregatable]
    | constantSet =>
      cases hnext : p[i + 1]? <;> simp [edit?, Window.constantSet?, hi, hnext, hkind]
    | unreachableLoop =>
      cases hnext : p[i + 1]? <;> simp [edit?, Window.unreachableLoop?, hi, hnext, hkind]
    | foldIntoSet =>
      cases hnext : p[i + 1]? <;> simp [edit?, Window.foldIntoSet?, hi, hnext, hkind]
    | safeWhile =>
      cases hclose : p.closeOf? i p.size <;> simp [edit?, Window.safeWhile?, hi, hclose, hkind]

theorem not_endsAt_of_edit? {rule : Rule} (he : rule.edit? p i = some edit) : ¬ p.EndsAt i := by
  intro hend
  rw [edit?_eq_none hend] at he
  cases he

/-- Where a rule applies inside a block, its edit rewrites the block and leaves the slots outside
of it alone. -/
theorem exists_rewrite {rule : Rule} {start : Nat} (h : p.Holds start block stop)
    (hend : p.EndsAt stop) (hle : start ≤ i) (hlt : i < stop) (he : rule.edit? p i = some edit) :
    ∃ block', block.Rewrite block' ∧ (edit.apply p).Holds start block' stop ∧
      ∀ j, j < start ∨ stop ≤ j → (edit.apply p)[j]? = p[j]? := by
  have atStart {block : Block} {stop : Nat} (h : p.Holds i block stop) (hend : p.EndsAt stop) :
      ∃ block', block.Rewrite block' ∧ (edit.apply p).Holds i block' stop ∧
        ∀ j, j < i ∨ stop ≤ j → (edit.apply p)[j]? = p[j]? := by
    obtain ⟨after, hedit⟩ := replaces_of_edit? h hend he
    obtain ⟨hafter, block', hstep, hholds⟩ := hedit.exists_step h hend
    exact ⟨block', .here hstep, hholds, fun j hj => hedit.frame j (by omega)⟩
  induction h with
  | done => omega
  | @instr start stop x rest hx hjump hrest ih =>
    rcases Nat.lt_or_eq_of_le hle with hlater | rfl
    · obtain ⟨rest', hrewrite, hholds, hframe⟩ := ih hend hlater hlt
      refine ⟨_, .instr x hrewrite, .instr ?_ hjump hholds, fun j hj => hframe j (by omega)⟩
      exact (hframe start (by omega)).trans hx
    · exact atStart (.instr hx hjump hrest) hend
  | @loop start close stop kind body rest hloop hbody hrest ihBody ihRest =>
    have hopen := hbody.le
    have hclose := hrest.le
    rcases Nat.lt_or_eq_of_le hle with hlater | rfl
    · rcases Nat.lt_trichotomy i close with hin | rfl | hbehind
      · obtain ⟨body', hrewrite, hholds, hframe⟩ := ihBody hloop.endsAt hlater hin
        refine ⟨_, .body kind rest hrewrite,
          .loop (hloop.congr ?_ ?_) hholds (hrest.congr ?_), ?_⟩
        · exact hframe start (by omega)
        · exact hframe close (by omega)
        · exact fun j hj _ => hframe j (by omega)
        · exact fun j hj => hframe j (by omega)
      · exact absurd hloop.endsAt (not_endsAt_of_edit? he)
      · obtain ⟨rest', hrewrite, hholds, hframe⟩ := ihRest hend hbehind hlt
        refine ⟨_, .behind kind body hrewrite,
          .loop (hloop.congr ?_ ?_) (hbody.congr ?_) hholds, ?_⟩
        · exact hframe start (by omega)
        · exact hframe close (by omega)
        · exact fun j _ hj => hframe j (by omega)
        · exact fun j hj => hframe j (by omega)
    · exact atStart (.loop hloop hbody hrest) hend
  | @stub start stop a kind rest ha haop hat hrest ih =>
    rcases Nat.lt_or_eq_of_le hle with hlater | rfl
    · obtain ⟨rest', hrewrite, hholds, hframe⟩ := ih hend hlater hlt
      refine ⟨_, .stub kind hrewrite, .stub ?_ haop hat hholds, fun j hj => hframe j (by omega)⟩
      exact (hframe start (by omega)).trans ha
    · exact atStart (.stub ha haop hat hrest) hend

/-- A rule that applies to a program that is laid out as a block rewrites the block. -/
theorem exists_rewrite_of_applyAt? {rule : Rule} {q : Program} (h : p.Holds 0 block p.size)
    (hq : rule.applyAt? p i = some q) :
    ∃ block', block.Rewrite block' ∧ q.Holds 0 block' q.size := by
  obtain ⟨edit, he, rfl⟩ := Option.map_eq_some_iff.1 hq
  have hlt := Program.lt_size_of_not_endsAt (not_endsAt_of_edit? he)
  obtain ⟨block', hrewrite, hholds, -⟩ := exists_rewrite h p.endsAt_size (Nat.zero_le _) hlt he
  exact ⟨block', hrewrite, by rwa [Edit.size_apply]⟩

end Rule

end TapeCode
