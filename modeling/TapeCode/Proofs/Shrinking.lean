import TapeCode.Optimization
import TapeCode.Proofs.Block.Compact

/-!
# Optimization only shrinks

A rule looks at slots in two ways: it asks for a slot that may be missing, or it takes one that
must be there, since something it has seen before says so. `Rule.attempt?` is the rule tried in
place, with a failure in store for every slot that is taken although the program does not have it,
and for every edit that reaches out of the program. No rule ever fails in this way, whatever the
jumps of the program designate (`Rule.attempt?_eq`).

A rule that fires lowers the live count. Every pass but the last one has a firing, and compaction
keeps the live count, so the number of passes, the firings and the size of the outcome are all
bounded by the live count of the program (`shrinks_optimize`).
-/

namespace TapeCode

/-! ## Edits inside a program -/

/-- All slots that an edit vacates or writes belong to the program. -/
structure Edit.Inside (edit : Edit) (p : Program) : Prop where
  start_le : edit.start ≤ edit.stop
  stop_le : edit.stop ≤ p.size
  writes_lt : ∀ w ∈ edit.writes, w.1 < p.size

namespace Program

/-- Another instruction in a slot that must be there. -/
def put? (p : Program) (i : Nat) (instr : Instruction) : Option Program :=
  if i < p.size then some (p.put i instr) else none

/-- A range of slots vacated that must be there. -/
def vacate? (p : Program) (start stop : Nat) : Option Program :=
  if start ≤ stop ∧ stop ≤ p.size then some (p.vacate start stop) else none

end Program

namespace Edit

variable {p : Program} {edit : Edit} {i stop : Nat} {x : Instruction}

/-- Writes single slots that must be there. -/
def writeAll? (p : Program) : List (Nat × Instruction) → Option Program
  | [] => some p
  | (i, instr) :: rest => (p.put? i instr).bind (writeAll? · rest)

/-- The program after an edit whose slots must all be there. -/
def applyInside? (edit : Edit) (p : Program) : Option Program :=
  (p.vacate? edit.start edit.stop).bind (writeAll? · edit.writes)

theorem writeAll?_eq {writes : List (Nat × Instruction)} (h : ∀ w ∈ writes, w.1 < p.size) :
    writeAll? p writes = some (writeAll p writes) := by
  induction writes generalizing p with
  | nil => rfl
  | cons w rest ih =>
    have hw : w.1 < p.size := h w List.mem_cons_self
    rw [writeAll?, Program.put?, if_pos hw, Option.bind_some, writeAll]
    refine ih fun w' hw' => ?_
    rw [Program.size_put]
    exact h w' (List.mem_cons_of_mem _ hw')

/-- An edit inside the program can be carried out. -/
theorem Inside.applyInside?_eq (h : edit.Inside p) :
    edit.applyInside? p = some (edit.apply p) := by
  rw [applyInside?, Program.vacate?, if_pos ⟨h.start_le, h.stop_le⟩, Option.bind_some]
  refine writeAll?_eq fun w hw => ?_
  rw [Program.size_vacate]
  exact h.writes_lt w hw

/-- The edit that shrinks a window of the program to its first slot. -/
theorem inside_shrunk (hi : i < stop) (hstop : stop ≤ p.size) :
    Inside { start := i + 1, stop, writes := [(i, x)] } p where
  start_le := hi
  stop_le := hstop
  writes_lt w hw := by
    obtain rfl := List.mem_singleton.1 hw
    exact Nat.lt_of_lt_of_le hi hstop

end Edit

namespace Window

variable {p : Program} {i : Nat} {edit : Edit} {op : Opcode} {dist : UInt32}

theorem lt_size {x : Instruction} (hx : p[i]? = some x) : i < p.size :=
  (Array.getElem?_eq_some_iff.1 hx).1

theorem le_runEnd (p : Program) (op : Opcode) (dist : UInt32) (i : Nat) :
    i ≤ runEnd p op dist i := by
  fun_induction runEnd p op dist i with
  | case1 i x hx hmatch ih => omega
  | case2 => exact Nat.le_refl _
  | case3 => exact Nat.le_refl _

/-- A run ends inside the program or with it. -/
theorem runEnd_le_size (hi : i ≤ p.size) : runEnd p op dist i ≤ p.size := by
  fun_induction runEnd p op dist i with
  | case1 i x hx hmatch ih => exact ih (lt_size hx)
  | case2 => exact hi
  | case3 => exact hi

theorem inside_of_inverseFold? (h : inverseFold? p i = some edit) : edit.Inside p := by
  unfold inverseFold? at h
  split at h
  · rename_i first second hfirst hsecond
    split at h
    · cases h
    · split at h
      · cases h
        exact Edit.inside_shrunk (by omega) (lt_size hsecond)
      · split at h
        · cases h
          exact Edit.inside_shrunk (by omega) (lt_size hsecond)
        · cases h
  · cases h

theorem inside_of_foldIntoSet? (h : foldIntoSet? p i = some edit) : edit.Inside p := by
  unfold foldIntoSet? at h
  split at h
  · rename_i first second hfirst hsecond
    split at h
    · split at h
      · cases h
        exact Edit.inside_shrunk (by omega) (lt_size hsecond)
      · cases h
    · cases h
  · cases h

theorem inside_of_mergeSets? (h : mergeSets? p i = some edit) : edit.Inside p := by
  unfold mergeSets? at h
  split at h
  · cases h
  · rename_i first hfirst
    split at h
    · dsimp only at h
      split at h
      · split at h
        · rename_i hrun
          cases h
          exact Edit.inside_shrunk (by omega) (runEnd_le_size (lt_size hfirst))
        · cases h
      · cases h
    · cases h

/-- An excursion takes three slots. -/
theorem lt_size_of_excursion? {side : Direction} {middle : Instruction}
    (h : excursion? p i = some (side, dist, middle)) : i + 2 < p.size := by
  unfold excursion? at h
  split at h
  · rename_i hback
    exact lt_size hback
  · cases h

theorem inside_of_offsetArithmetic? (h : offsetArithmetic? p i = some edit) : edit.Inside p := by
  unfold offsetArithmetic? at h
  split at h
  · rename_i hexc
    split at h
    · cases h
    · cases h
      exact Edit.inside_shrunk (by omega) (lt_size_of_excursion? hexc)
  · rename_i hexc
    split at h
    · cases h
    · cases h
      exact Edit.inside_shrunk (by omega) (lt_size_of_excursion? hexc)
  · cases h

theorem inside_of_offsetSet? (h : offsetSet? p i = some edit) : edit.Inside p := by
  unfold offsetSet? at h
  split at h
  · rename_i hexc
    cases h
    exact Edit.inside_shrunk (by omega) (lt_size_of_excursion? hexc)
  · cases h

theorem inside_of_constantSet? (h : constantSet? p i = some edit) : edit.Inside p := by
  unfold constantSet? at h
  split at h
  · split at h
    · rename_i hc
      have hclose := Program.closeOf?_bounds hc.2.1
      cases h
      -- The slot behind the loop is swallowed only if it is there.
      split
      · rename_i next hnext
        have := lt_size hnext
        split
        · exact Edit.inside_shrunk (by omega) (by omega)
        · exact Edit.inside_shrunk (by omega) (by omega)
      · exact Edit.inside_shrunk (by omega) (by omega)
    · cases h
  · cases h

theorem inside_of_unreachableLoop? (h : unreachableLoop? p i = some edit) : edit.Inside p := by
  unfold unreachableLoop? at h
  split at h
  · split at h
    · obtain ⟨close, hfound, rfl⟩ := Option.map_eq_some_iff.1 h
      have hclose := Program.closeOf?_bounds hfound
      exact ⟨by simp only; omega, hclose.2, by simp⟩
    · cases h
  · cases h

theorem inside_of_safeWhile? (h : safeWhile? p i = some edit) : edit.Inside p := by
  unfold safeWhile? at h
  split at h
  · rename_i start close hstart hfound
    split at h
    · rename_i hc
      obtain ⟨slot, hslot, rfl⟩ := Option.map_eq_some_iff.1 h
      have hclose := Program.closeOf?_bounds hfound
      obtain ⟨-, hlt, -⟩ := of_takenDecrement? hc.2 hslot
      refine ⟨Nat.le_succ slot, by simp only; omega, fun w hw => ?_⟩
      obtain rfl | rfl : w = _ ∨ w = _ := by simpa using hw
      · exact lt_size hstart
      · exact hclose.2
    · cases h
  · cases h

end Window

/-- Whatever the jumps of the program designate, an edit that a rule proposes stays
inside of it. -/
theorem Rule.inside_of_edit? {rule : Rule} {p : Program} {i : Nat} {edit : Edit}
    (h : rule.edit? p i = some edit) : edit.Inside p := by
  cases rule with
  | inverseFold => exact Window.inside_of_inverseFold? h
  | constantSet => exact Window.inside_of_constantSet? h
  | offsetArithmetic => exact Window.inside_of_offsetArithmetic? h
  | offsetSet => exact Window.inside_of_offsetSet? h
  | mergeSets => exact Window.inside_of_mergeSets? h
  | unreachableLoop => exact Window.inside_of_unreachableLoop? h
  | foldIntoSet => exact Window.inside_of_foldIntoSet? h
  | safeWhile => exact Window.inside_of_safeWhile? h

/-! ## Slots that must be there -/

namespace Window

variable {p : Program} {i start stop : Nat}

/-- As `mergeSets?`, with the last assignment of the run taken from a slot that must be there. The
outer option is `none` if it is not. -/
def takeMergeSets (p : Program) (i : Nat) : Option (Option Edit) :=
  match p[i]? with
  | none => some none
  | some first =>
    let stop := runEnd p first.op first.dist (i + 1)
    if first.op.isSet = true ∧ i + 1 < stop then
      p[stop - 1]?.bind fun last =>
        some (some { start := i + 1, stop, writes := [(i, { first with arg := last.arg })] })
    else some none

/-- As `takenDecrement?`, with the first and the last slot of the body taken as slots that
must be there. -/
def takeDecrement (p : Program) (start stop : Nat) : Option (Option Nat) :=
  p[start]?.bind fun first =>
    if isDecrement first && p.isInert (start + 1) stop then some (some start)
    else p[stop - 1]?.bind fun last =>
      if isDecrement last && p.isInert start (stop - 1) && !p.observes start (stop - 1) 0 then
        some (some (stop - 1))
      else some none

/-- As `safeWhile?`, with both ends of the loop and of its body taken from slots that must be
there. All that is known before that of the slot that the loop start designates is that the
program reaches so far. -/
def takeSafeWhile (p : Program) (i : Nat) : Option (Option Edit) :=
  match p[i]? with
  | none => some none
  | some start =>
    match start.target? with
    | none => some none
    | some close =>
      if start.op = .opens .tested ∧ i + 1 < close ∧ close < p.size then
        p[close]?.bind fun back =>
          if back.op = .closes .tested ∧ back.target? = some i then
            (takeDecrement p (i + 1) close).bind fun slot? =>
              some (slot?.map fun slot => {
                start := slot
                stop := slot + 1
                writes := [
                  (i, { op := .opens .counted, arg := UInt32.ofNat close }),
                  (close, { op := .closes .counted, arg := UInt32.ofNat i })] })
          else some none
      else some none

/-- The last slot of a run is there. -/
theorem takeMergeSets_eq (p : Program) (i : Nat) : takeMergeSets p i = some (mergeSets? p i) := by
  unfold takeMergeSets mergeSets?
  cases hi : p[i]? with
  | none => rfl
  | some first =>
    have hle := le_runEnd p first.op first.dist (i + 1)
    have hsize : runEnd p first.op first.dist (i + 1) ≤ p.size := runEnd_le_size (lt_size hi)
    have hlast : runEnd p first.op first.dist (i + 1) - 1 < p.size := by omega
    dsimp only
    rw [Array.getElem?_eq_getElem hlast]
    cases first.op.isSet with
    | false => rfl
    | true =>
      simp only [true_and, if_true, Option.bind_some]
      split <;> rfl

/-- The first and the last slot of a body are there. -/
theorem takeDecrement_eq (hlt : start < stop) (hstop : stop ≤ p.size) :
    takeDecrement p start stop = some (takenDecrement? p start stop) := by
  have hfirst : start < p.size := by omega
  have hlast : stop - 1 < p.size := by omega
  unfold takeDecrement takenDecrement?
  rw [Array.getElem?_eq_getElem hfirst, Array.getElem?_eq_getElem hlast]
  simp only [Option.bind_some, Option.any_some]
  split
  · rfl
  · split <;> rfl

/-- The start of a tested loop is linked to a close that designates it back. -/
theorem linked_iff_of_tested {a b : Instruction} {close : Nat} (ha : p[i]? = some a)
    (hop : a.op = .opens .tested) (hat : a.target? = some close) (hb : p[close]? = some b) :
    p.linked i close = true ↔ b.op = .closes .tested ∧ b.target? = some i := by
  rw [Program.linked_iff]
  constructor
  · rintro ⟨a', b', ha', hb', hpartner, -, hbt⟩
    obtain rfl := Option.some.inj (ha.symm.trans ha')
    obtain rfl := Option.some.inj (hb.symm.trans hb')
    rw [hop] at hpartner
    exact ⟨(Option.some.inj hpartner).symm, hbt⟩
  · rintro ⟨hbop, hbt⟩
    exact ⟨a, b, ha, hb, by rw [hop, hbop]; rfl, hat, hbt⟩

theorem takeSafeWhile_eq (p : Program) (i : Nat) : takeSafeWhile p i = some (safeWhile? p i) := by
  unfold takeSafeWhile safeWhile?
  cases hi : p[i]? with
  | none => rfl
  | some start =>
    cases htarget : start.target? with
    | none => simp [Program.closeOf?, hi, htarget]
    | some close =>
      simp only [Program.closeOf?, hi, htarget, Option.bind_eq_bind, Option.bind_some]
      by_cases hc : start.op = .opens .tested ∧ i + 1 < close ∧ close < p.size
      · obtain ⟨hop, hlt, hsize⟩ := hc
        have hback : p[close]? = some p[close] := Array.getElem?_eq_getElem hsize
        have hlinked := linked_iff_of_tested hi hop htarget hback
        rw [if_pos ⟨hop, hlt, hsize⟩, hback, Option.bind_some]
        by_cases hgood : p.linked i close = true
        · rw [if_pos (hlinked.1 hgood), if_pos ⟨by omega, hsize, hgood⟩,
            takeDecrement_eq hlt (Nat.le_of_lt hsize)]
          simp only [hop, hlt, and_self, if_true, Option.bind_some]
        · rw [if_neg (mt hlinked.2 hgood), if_neg fun h => hgood h.2.2]
      · rw [if_neg hc]
        by_cases hfound : i < close ∧ close < p.size ∧ p.linked i close = true
        · rw [if_pos hfound]
          dsimp only
          rw [if_neg fun h => hc ⟨h.1, h.2, hfound.2.1⟩]
        · rw [if_neg hfound]

end Window

namespace Rule

variable {p : Program} {i : Nat}

/-- The edit that a rule proposes; `none` on the outside if it takes a slot that is not there. Six
rules only ask for slots. -/
def take (rule : Rule) (p : Program) (i : Nat) : Option (Option Edit) :=
  match rule with
  | mergeSets => Window.takeMergeSets p i
  | safeWhile => Window.takeSafeWhile p i
  | _ => some (rule.edit? p i)

/-- A rule tried in place: the program afterwards, and whether the rule has fired. It is `none` if
the rule takes, writes or vacates a slot that is not there. -/
def attempt? (rule : Rule) (p : Program) (i : Nat) : Option (Program × Bool) :=
  (rule.take p i).bind fun
    | some edit => (edit.applyInside? p).map (·, true)
    | none => some (p, false)

theorem take_eq (rule : Rule) (p : Program) (i : Nat) :
    rule.take p i = some (rule.edit? p i) := by
  cases rule with
  | mergeSets => exact Window.takeMergeSets_eq p i
  | safeWhile => exact Window.takeSafeWhile_eq p i
  | _ => rfl

/-- A rule that is tried never takes a slot that is not there. -/
theorem attempt?_eq (rule : Rule) (p : Program) (i : Nat) :
    rule.attempt? p i = some (((rule.applyAt? p i).map (·, true)).getD (p, false)) := by
  rw [attempt?, take_eq, Option.bind_some, applyAt?]
  cases hedit : rule.edit? p i with
  | none => rfl
  | some edit =>
    dsimp only
    rw [(inside_of_edit? hedit).applyInside?_eq]
    rfl

end Rule

/-! ## Passes -/

/-- The number of firings in all passes of an optimization. -/
def Optimized.rewrites (optimized : Optimized) : Nat :=
  optimized.passes.toList.foldr (·.firings.size + ·) 0

namespace Program

/-- As many slots are left by a compaction as were live. -/
theorem size_compact_eq_liveCount (p : Program) : p.compact.program.size = p.liveCount := by
  rw [size_compact, liveCount_eq_liveBefore_size]

/-- The passes that an optimization adds to those before. The induction is along the passes: a
firing pays for a further one. -/
theorem exists_passes_optimizeFrom (p : Program) (passes : Array Pass) :
    ∃ new : List Pass, (p.optimizeFrom passes).passes.toList = passes.toList ++ new ∧
      new.length ≤ p.liveCount + 1 ∧
      (p.optimizeFrom passes).program.size + new.foldr (·.firings.size + ·) 0 ≤ p.liveCount := by
  fun_induction optimizeFrom p passes with
  | case1 p passes swept compacted passes' hidle =>
    have hlive : swept.firings.size + swept.program.liveCount ≤ p.liveCount := p.sweep_liveCount
    have hsize : compacted.program.size = swept.program.liveCount := size_compact_eq_liveCount _
    refine ⟨[⟨swept.firings, compacted.broken, compacted.program.size⟩],
      by simp [passes'], ?_, ?_⟩
    · simp
    · simp only [List.foldr_cons, List.foldr_nil]
      omega
  | case2 p passes swept compacted passes' hfired ih =>
    have hlive : swept.firings.size + swept.program.liveCount ≤ p.liveCount := p.sweep_liveCount
    have hkept : compacted.program.liveCount = swept.program.liveCount := liveCount_compact _
    obtain ⟨new, hpasses, hlength, hsum⟩ := ih
    refine ⟨⟨swept.firings, compacted.broken, compacted.program.size⟩ :: new, ?_, ?_, ?_⟩
    · rw [hpasses]
      simp [passes']
    · rw [List.length_cons]
      omega
    · rw [List.foldr_cons]
      dsimp only
      omega

end Program

/-- Rules and optimization only shrink a program, however malformed it is. A rule that is tried at
an index takes, writes and vacates only slots of the program; it keeps the size, changes nothing
if it does not fire, and lowers the number of live instructions if it does. An optimization ends
after no more passes than there are live instructions, and one; what is left and all firings
together are no more than there were. -/
theorem shrinks_optimize (p : Program) :
    (∀ (rule : Rule) (i : Nat), ∃ (q : Program) (fired : Bool),
      rule.attempt? p i = some (q, fired) ∧
        rule.applyAt? p i = (if fired = true then some q else none) ∧
        q.size = p.size ∧ (fired = false → q = p) ∧ (fired = true → q.liveCount < p.liveCount)) ∧
      (p.optimize .minimal).passes.size ≤ p.liveCount + 1 ∧
      (p.optimize .minimal).program.size + (p.optimize .minimal).rewrites ≤ p.liveCount := by
  refine ⟨fun rule i => ?_, ?_⟩
  · rw [Rule.attempt?_eq]
    cases hedit : rule.edit? p i with
    | none =>
      have happly : rule.applyAt? p i = none := by rw [Rule.applyAt?, hedit]; rfl
      rw [happly]
      exact ⟨p, false, rfl, rfl, rfl, fun _ => rfl, nofun⟩
    | some edit =>
      have happly : rule.applyAt? p i = some (edit.apply p) := by rw [Rule.applyAt?, hedit]; rfl
      rw [happly]
      exact ⟨edit.apply p, true, rfl, rfl, Edit.size_apply edit p, nofun,
        fun _ => Rule.liveCount_apply_lt hedit⟩
  · obtain ⟨new, hpasses, hlength, hsum⟩ := p.exists_passes_optimizeFrom #[]
    rw [Array.toList_empty, List.nil_append] at hpasses
    have hsame : (p.optimize .minimal).passes.toList = new := hpasses
    refine ⟨?_, ?_⟩
    · rwa [← Array.length_toList, hsame]
    · rw [Optimized.rewrites, hsame]
      exact hsum

end TapeCode
