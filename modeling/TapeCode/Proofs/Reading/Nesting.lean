import Mathlib.Data.List.Nodup
import Mathlib.Data.Nat.Init
import TapeCode.Proofs.Orderly
import TapeCode.Proofs.Reading.Brackets

/-!
# The nesting of brackets

Which brackets of a source belong together can be told by counting alone. At each place the depth
is the number of `[` that are open there (`depth`), and a `]` at depth zero is a stray. The others
match the `[` since which there have been as many brackets of one kind as of the other for the
first time (`Matches`).

A program that has been read shows just this (`nesting_parse`): its jumps are those of the
brackets other than the strays, in their order, and two of them are linked if their brackets
match. The loop starts that wait while a source is read are as many as the depth says, and the
start of a `[` waits below as many others as have not been ended since (`exists_waiting_since`).
-/

namespace TapeCode

/-! ## Counting brackets -/

/-- The depth behind a byte. A `]` does not lower the depth zero. -/
def nest (depth : Nat) (b : UInt8) : Nat :=
  if b = '['.toUInt8 then depth + 1 else if b = ']'.toUInt8 then depth - 1 else depth

/-- How many `[` are open behind some bytes. -/
def depth (bytes : List UInt8) : Nat :=
  bytes.foldl nest 0

/-- There is a `]` at an offset, and no `[` is open. -/
def isStray (source : List UInt8) (offset : Nat) : Bool :=
  source[offset]? = some ']'.toUInt8 && depth (source.take offset) = 0

/-- There is a bracket at an offset, and it is not a stray. -/
def isBracket (source : List UInt8) (offset : Nat) : Bool :=
  source[offset]? = some '['.toUInt8 ||
    source[offset]? = some ']'.toUInt8 && depth (source.take offset) ≠ 0

/-- The offsets of the `]` at which no `[` is open. -/
def strays (source : List UInt8) : List Nat :=
  (List.range source.length).filter (isStray source)

/-- The offsets of all other brackets. -/
def brackets (source : List UInt8) : List Nat :=
  (List.range source.length).filter (isBracket source)

/-- How often a byte stands from an offset on before another one. -/
def occurrences (b : UInt8) (source : List UInt8) (first stop : Nat) : Nat :=
  ((source.take stop).drop first).count b

/-- As many `[` as `]` stand from an offset on before another one. -/
def Balances (source : List UInt8) (first stop : Nat) : Prop :=
  occurrences '['.toUInt8 source first stop = occurrences ']'.toUInt8 source first stop

/-- The `]` at `close` is the first one behind the `[` at `start` at which the brackets
since then balance. -/
structure Matches (source : List UInt8) (start close : Nat) : Prop where
  opens : source[start]? = some '['.toUInt8
  closes : source[close]? = some ']'.toUInt8
  lt : start < close
  balances : Balances source start (close + 1)
  first : ∀ c, start < c → c < close → source[c]? = some ']'.toUInt8 →
    ¬ Balances source start (c + 1)

/-- The slots of a program that hold a jump, in program order. -/
def Program.jumps (p : Program) : List Nat :=
  (List.range p.size).filter fun i => p[i]?.any (·.op.isJump)

/-- How the brackets of a source are found in a program: `slot` tells where the jump of
a bracket stands. -/
structure Places (source : List UInt8) (p : Program) (slot : Nat → Nat) : Prop where
  /-- The jumps are those of the brackets, in the same order. -/
  jumps : p.jumps = (brackets source).map slot
  /-- Brackets that match are the ends of a loop. -/
  loop : ∀ start close, Matches source start close → p.IsLoop (slot start) (slot close) .tested
  /-- A `[` that matches nothing is unresolved. -/
  stub : ∀ start, source[start]? = some '['.toUInt8 → (∀ close, ¬ Matches source start close) →
    p[slot start]? = some { op := .opens .tested, arg := Instruction.unresolved }
  /-- A `]` that is not a stray matches a `[`. -/
  matched : ∀ close ∈ brackets source, source[close]? = some ']'.toUInt8 →
    ∃ start, Matches source start close

variable {source : List UInt8} {i start close : Nat} {b : UInt8}

theorem depth_take_succ (hb : source[i]? = some b) :
    depth (source.take (i + 1)) = nest (depth (source.take i)) b := by
  rw [List.take_add_one, hb, depth, List.foldl_append]
  rfl

/-- The loop starts that wait are counted by the depth. -/
theorem length_waiting_upTo (hle : i ≤ source.length) :
    (upTo source i).waiting.length = depth (source.take i) := by
  induction i with
  | zero => rfl
  | succ i ih =>
    have hb := List.getElem?_eq_getElem hle
    rw [depth_take_succ hb, ← ih (Nat.le_of_lt hle)]
    by_cases hopen : source[i] = '['.toUInt8
    · rw [hopen] at hb ⊢
      rw [waiting_of_openBracket hb]
      rfl
    · by_cases hclose : source[i] = ']'.toUInt8
      · rw [hclose] at hb ⊢
        rw [waiting_of_closeBracket hb, List.length_tail]
        rfl
      · rw [waiting_of_other hb hopen hclose, nest, if_neg hopen, if_neg hclose]

theorem waiting_eq_nil_iff (hle : i ≤ source.length) :
    (upTo source i).waiting = [] ↔ depth (source.take i) = 0 := by
  rw [← length_waiting_upTo hle, List.length_eq_zero_iff]

/-! ## Strays -/

theorem range_succ_filter (P : Nat → Bool) (n : Nat) :
    (List.range (n + 1)).filter P = (List.range n).filter P ++ if P n then [n] else [] := by
  rw [List.range_succ, List.filter_append, List.filter_singleton]
  cases P n <;> rfl

theorem Builder.unmatched_count (builder : Builder) (op : Opcode) :
    (builder.count op).unmatched = builder.unmatched := by
  unfold Builder.count
  split
  · split <;> rfl
  · rfl

/-- A byte is noted if it is an end without a start. -/
theorem Builder.unmatched_addByte (builder : Builder) (b : UInt8) (offset : Nat) :
    (builder.addByte b offset).unmatched.toList =
      builder.unmatched.toList ++
        if b = ']'.toUInt8 ∧ builder.waiting = [] then [offset] else [] := by
  have other {next : Builder} (hb : Symbol.ofByte? b ≠ some .closeBracket)
      (hsame : next.unmatched = builder.unmatched) : next.unmatched.toList =
        builder.unmatched.toList ++
          if b = ']'.toUInt8 ∧ builder.waiting = [] then [offset] else [] := by
    rw [if_neg fun h => hb (ofByte?_eq_closeBracket_iff.2 h.1), List.append_nil, hsame]
  unfold Builder.addByte
  cases hb : Symbol.ofByte? b with
  | none => exact other (by rw [hb]; rintro ⟨⟩) rfl
  | some symbol =>
    cases symbol with
    | closeBracket =>
      change (builder.closeLoop offset).unmatched.toList = _
      unfold Builder.closeLoop
      split
      · rename_i hwaiting
        rw [if_pos ⟨ofByte?_eq_closeBracket_iff.1 hb, hwaiting⟩, Array.toList_push]
      · rename_i hwaiting
        have hne : builder.waiting ≠ [] := by
          rw [hwaiting]
          exact List.cons_ne_nil _ _
        rw [if_neg fun h => hne h.2, List.append_nil]
    | openBracket => exact other (by rw [hb]; rintro ⟨⟩) rfl
    | dot => exact other (by rw [hb]; rintro ⟨⟩) rfl
    | comma => exact other (by rw [hb]; rintro ⟨⟩) rfl
    | left => exact other (by rw [hb]; rintro ⟨⟩) (builder.unmatched_count _)
    | right => exact other (by rw [hb]; rintro ⟨⟩) (builder.unmatched_count _)
    | plus => exact other (by rw [hb]; rintro ⟨⟩) (builder.unmatched_count _)
    | minus => exact other (by rw [hb]; rintro ⟨⟩) (builder.unmatched_count _)

theorem isStray_iff : isStray source i = true ↔
    source[i]? = some ']'.toUInt8 ∧ (upTo source i).waiting = [] := by
  rw [isStray, Bool.and_eq_true, decide_eq_true_eq, decide_eq_true_eq]
  refine and_congr_right fun hb => (waiting_eq_nil_iff ?_).symm
  exact Nat.le_of_lt (List.getElem?_eq_some_iff.1 hb).1

/-- The ends that have been dropped are the strays. -/
theorem unmatched_upTo (hle : i ≤ source.length) :
    (upTo source i).unmatched.toList = (List.range i).filter (isStray source) := by
  induction i with
  | zero => rfl
  | succ i ih =>
    have hb := List.getElem?_eq_getElem hle
    rw [range_succ_filter, ← ih (Nat.le_of_lt hle), upTo_succ hb, Builder.unmatched_addByte]
    have hstray : isStray source i = true ↔ _ := isStray_iff
    rw [hb, Option.some.injEq] at hstray
    simp only [hstray]

/-! ## Jumps -/

namespace Program

variable {p : Program} {x y : Instruction}

theorem jumps_push (p : Program) (x : Instruction) :
    jumps (p.push x) = p.jumps ++ if x.op.isJump then [p.size] else [] := by
  rw [jumps, Array.size_push, range_succ_filter, Array.getElem?_push_size]
  refine congrArg (· ++ _) (List.filter_congr fun j hj => ?_)
  rw [Builder.getElem?_push_of_lt (List.mem_range.1 hj)]

/-- Another argument for an instruction leaves the jumps where they are. -/
theorem jumps_put (hy : p[i]? = some y) (hop : x.op = y.op) : (p.put i x).jumps = p.jumps := by
  rw [jumps, size_put]
  refine List.filter_congr fun j hj => ?_
  rw [getElem?_put]
  split
  · rename_i hij
    rw [if_pos (hij ▸ List.mem_range.1 hj), ← hij, hy, Option.any_some, Option.any_some, hop]
  · rfl

end Program

/-- The jump of a bracket stands behind what the bytes before it have added. -/
def slotOf (source : List UInt8) (offset : Nat) : Nat :=
  (upTo source offset).program.size

theorem isBracket_iff : isBracket source i = true ↔
    source[i]? = some '['.toUInt8 ∨
      source[i]? = some ']'.toUInt8 ∧ (upTo source i).waiting ≠ [] := by
  simp only [isBracket, Bool.or_eq_true, Bool.and_eq_true, decide_eq_true_eq, ne_eq]
  refine or_congr_right (and_congr_right fun hb => not_congr (waiting_eq_nil_iff ?_).symm)
  exact Nat.le_of_lt (List.getElem?_eq_some_iff.1 hb).1

/-- A byte adds a jump if it is a bracket other than a stray. -/
theorem Builder.Adds.jumps_eq {builder next : Builder} (h : builder.Adds b next)
    (hstarts : builder.Starts) :
    next.program.jumps = builder.program.jumps ++
      if b = '['.toUInt8 ∨ b = ']'.toUInt8 ∧ builder.waiting ≠ [] then
        [builder.program.size] else [] := by
  have other {symbol : Symbol} (hb : Symbol.ofByte? b = some symbol)
    (hjump : symbol.op.isJump = false) :
      ¬ (b = '['.toUInt8 ∨ b = ']'.toUInt8 ∧ builder.waiting ≠ []) := by
    rintro (h | ⟨h, -⟩)
    · obtain rfl := Option.some.inj (hb.symm.trans (ofByte?_eq_openBracket_iff.2 h))
      cases hjump
    · obtain rfl := Option.some.inj (hb.symm.trans (ofByte?_eq_closeBracket_iff.2 h))
      cases hjump
  cases h with
  | skip hskip =>
    rw [if_neg, List.append_nil]
    rintro (h | ⟨h, hne⟩)
    · cases (hskip _ (ofByte?_eq_openBracket_iff.2 h)).1
    · exact hne (hskip _ (ofByte?_eq_closeBracket_iff.2 h)).2
  | @extend symbol last hb hagg hlast =>
    rw [if_neg (other hb (Opcode.isJump_of_isAggregatable hagg)), List.append_nil]
    rw [Array.back?_eq_getElem?] at hlast
    exact Program.jumps_put hlast rfl
  | @append symbol hb hjump =>
    rw [if_neg (other hb hjump)]
    refine (Program.jumps_push _ _).trans ?_
    rw [hjump]
    rfl
  | enter hb =>
    rw [if_pos (.inl (ofByte?_eq_openBracket_iff.1 hb))]
    exact Program.jumps_push _ _
  | @leave start waiting hb hwaiting =>
    have hne : builder.waiting ≠ [] := by
      rw [hwaiting]
      exact List.cons_ne_nil _ _
    have hstart := hstarts start (hwaiting ▸ List.mem_cons_self)
    rw [if_pos (.inr ⟨ofByte?_eq_closeBracket_iff.1 hb, hne⟩)]
    refine (Program.jumps_push _ _).trans ?_
    rw [Program.size_put]
    exact congrArg (· ++ [_]) (Program.jumps_put hstart rfl)

/-- The jumps are those of the brackets. -/
theorem jumps_upTo (hlength : source.length < 2 ^ 32) (hle : i ≤ source.length) :
    (upTo source i).program.jumps =
      ((List.range i).filter (isBracket source)).map (slotOf source) := by
  induction i with
  | zero => rfl
  | succ i ih =>
    have hb := List.getElem?_eq_getElem hle
    have hbracket : isBracket source i = true ↔ _ := isBracket_iff
    rw [hb, Option.some.injEq, Option.some.injEq] at hbracket
    rw [range_succ_filter, List.map_append, ← ih (Nat.le_of_lt hle),
      (adds_upTo hb).jumps_eq (starts_upTo hlength i)]
    simp only [← hbracket]
    split <;> rfl

/-! ## Matching brackets -/

theorem occurrences_self (x : UInt8) (source : List UInt8) (i : Nat) :
    occurrences x source i i = 0 := by
  rw [occurrences, List.drop_take, Nat.sub_self]
  rfl

theorem occurrences_succ (x : UInt8) (hb : source[i]? = some b) (hle : start ≤ i) :
    occurrences x source start (i + 1) =
      occurrences x source start i + if b = x then 1 else 0 := by
  have hlt := (List.getElem?_eq_some_iff.1 hb).1
  have hlength : start ≤ (source.take i).length := by
    rw [List.length_take]
    omega
  rw [occurrences, List.take_add_one, hb, List.drop_append_of_le_length hlength,
    List.count_append]
  simp [occurrences, List.count_singleton]

/-- Until the brackets since a `[` balance, its start waits, and above it as many others as are to
be ended before. -/
theorem exists_waiting_since (hopen : source[start]? = some '['.toUInt8) (hlt : start < i)
    (hle : i ≤ source.length) (hnot : ∀ c, start < c → c < i → source[c]? = some ']'.toUInt8 →
      ¬ Balances source start (c + 1)) :
    ∃ extra, (upTo source i).waiting =
        extra ++ slotOf source start :: (upTo source start).waiting ∧
      occurrences '['.toUInt8 source start i =
        extra.length + 1 + occurrences ']'.toUInt8 source start i := by
  induction i, hlt using Nat.le_induction with
  | base =>
    refine ⟨[], waiting_of_openBracket hopen, ?_⟩
    rw [occurrences_succ _ hopen (Nat.le_refl _), occurrences_succ _ hopen (Nat.le_refl _),
      occurrences_self, occurrences_self]
    rfl
  | succ i hlt ih =>
    have hstart : start ≤ i := Nat.le_of_lt hlt
    have hb := List.getElem?_eq_getElem hle
    obtain ⟨extra, hwaiting, hcount⟩ :=
      ih (Nat.le_of_lt hle) fun c hc hci => hnot c hc (Nat.lt_succ_of_lt hci)
    rw [occurrences_succ _ hb hstart, occurrences_succ _ hb hstart]
    by_cases hopen' : source[i] = '['.toUInt8
    · rw [hopen'] at hb ⊢
      refine ⟨slotOf source i :: extra, ?_, ?_⟩
      · rw [waiting_of_openBracket hb, hwaiting]
        rfl
      · rw [hcount, if_pos rfl, if_neg (by decide), List.length_cons]
        omega
    · by_cases hclose : source[i] = ']'.toUInt8
      · rw [hclose] at hb ⊢
        rw [if_neg (by decide), if_pos rfl]
        cases extra with
        | nil =>
          refine absurd ?_ (hnot i hlt (Nat.lt_succ_self i) hb)
          rw [Balances, occurrences_succ _ hb hstart, occurrences_succ _ hb hstart, hcount,
            if_neg (by decide), if_pos rfl, List.length_nil]
          omega
        | cons first extra =>
          refine ⟨extra, ?_, ?_⟩
          · rw [waiting_of_closeBracket hb, hwaiting]
            rfl
          · rw [hcount, List.length_cons]
            omega
      · rw [waiting_of_other hb hopen' hclose, if_neg hopen', if_neg hclose]
        exact ⟨extra, hwaiting, hcount⟩

namespace Matches

/-- At the `]` the start of the `[` waits first. -/
theorem waiting_eq (h : Matches source start close) :
    (upTo source close).waiting = slotOf source start :: (upTo source start).waiting := by
  have hle := Nat.le_of_lt (List.getElem?_eq_some_iff.1 h.closes).1
  obtain ⟨extra, hwaiting, hcount⟩ := exists_waiting_since h.opens h.lt hle h.first
  have hbalances := h.balances
  rw [Balances, occurrences_succ _ h.closes (Nat.le_of_lt h.lt),
    occurrences_succ _ h.closes (Nat.le_of_lt h.lt), if_neg (by decide), if_pos rfl] at hbalances
  obtain rfl : extra = [] := List.eq_nil_of_length_eq_zero (by omega)
  exact hwaiting

theorem isLoop (h : Matches source start close) (hlength : source.length < 2 ^ 32) :
    (parse source).program.IsLoop (slotOf source start) (slotOf source close) .tested :=
  isLoop_parse hlength h.closes h.waiting_eq

theorem mem_brackets (h : Matches source start close) : close ∈ brackets source := by
  have hlt := (List.getElem?_eq_some_iff.1 h.closes).1
  refine List.mem_filter.2 ⟨List.mem_range.2 hlt, isBracket_iff.2 (.inr ⟨h.closes, ?_⟩)⟩
  rw [h.waiting_eq]
  exact List.cons_ne_nil _ _

end Matches

/-- If nothing matches a `[` the brackets since then never balance. -/
theorem not_balances_of_not_matches (hopen : source[start]? = some '['.toUInt8)
    (hnot : ∀ close, ¬ Matches source start close) (c : Nat) (hlt : start < c)
    (hc : source[c]? = some ']'.toUInt8) : ¬ Balances source start (c + 1) := by
  induction c using Nat.strongRecOn with
  | ind c ih =>
    intro hbalances
    exact hnot c ⟨hopen, hc, hlt, hbalances, fun c' hlt' hc' hclose => ih c' hc' hlt' hclose⟩

/-- A `[` that matches nothing is unresolved. -/
theorem getElem?_parse_of_not_matches (hlength : source.length < 2 ^ 32)
    (hopen : source[start]? = some '['.toUInt8) (hnot : ∀ close, ¬ Matches source start close) :
    (parse source).program[slotOf source start]? =
      some { op := .opens .tested, arg := Instruction.unresolved } := by
  have hlt := (List.getElem?_eq_some_iff.1 hopen).1
  obtain ⟨extra, hwaiting, -⟩ := exists_waiting_since hopen hlt (Nat.le_refl _)
    fun c hc _ => not_balances_of_not_matches hopen hnot c hc
  obtain ⟨total, htrail, -⟩ := (valid_upTo hlength source.length).trail
  rw [hwaiting, program_upTo_length] at htrail
  exact (htrail.slot (List.mem_append_right _ List.mem_cons_self)).2

theorem Program.nodup_jumps (p : Program) : p.jumps.Nodup :=
  List.nodup_range.filter _

/-- Brackets with the same slot are the same. -/
theorem slotOf_injOn (hlength : source.length < 2 ^ 32) {c c' : Nat} (hc : c ∈ brackets source)
    (hc' : c' ∈ brackets source) (hslot : slotOf source c = slotOf source c') : c = c' := by
  have hjumps := jumps_upTo hlength (Nat.le_refl source.length)
  exact List.inj_on_of_nodup_map (hjumps ▸ Program.nodup_jumps _) hc hc' hslot

/-- A `]` that is not a stray matches a `[`. -/
theorem exists_matches (hlength : source.length < 2 ^ 32) (hmem : close ∈ brackets source)
    (hclose : source[close]? = some ']'.toUInt8) : ∃ start, Matches source start close := by
  have hlt := (List.getElem?_eq_some_iff.1 hclose).1
  have hbracket := isBracket_iff.1 (List.mem_filter.1 hmem).2
  rw [hclose] at hbracket
  obtain ⟨-, hne⟩ := hbracket.resolve_left (by decide)
  obtain ⟨slot, waiting, hwaiting⟩ := List.exists_cons_of_ne_nil hne
  obtain ⟨start, -, hopen, rfl⟩ := exists_opening? (Nat.le_of_lt hlt) hwaiting
  have hloop := isLoop_parse hlength hclose hwaiting
  -- The `[` matches something, as its start is resolved, and this stands in the slot of the `]`.
  by_cases hmatch : ∃ c, Matches source start c
  · obtain ⟨c, hmatch⟩ := hmatch
    have hslot : slotOf source close = slotOf source c :=
      hloop.isPair.right_unique (hmatch.isLoop hlength).isPair
    obtain rfl := slotOf_injOn hlength hmem hmatch.mem_brackets hslot
    exact ⟨start, hmatch⟩
  · have hstub := getElem?_parse_of_not_matches hlength hopen (not_exists.1 hmatch)
    obtain ⟨a, ha, -, hat⟩ := hloop.opens
    obtain rfl := Option.some.inj (hstub.symm.trans ha)
    cases hat

/-! ## Links -/

/-- Of two slots that are linked the first one starts a loop. -/
theorem Program.Orderly.isPair_of_linked {p : Program} {first last : Nat} (h : p.Orderly)
    (hlinked : p.linked first last = true) (hlt : first < last) :
    ∃ kind, p.IsPair kind first last := by
  obtain ⟨a, b, ha, hb, hpartner, hat, hbt⟩ := Program.linked_iff.1 hlinked
  have hjump : a.op.isJump = true := by
    rw [← Opcode.isSome_partner?, hpartner]
    rfl
  cases hopen : a.op.isOpen with
  | true =>
    obtain ⟨kind, hop⟩ := Opcode.exists_opens hopen
    exact ⟨kind, a, ha, hop, hat⟩
  | false =>
    obtain ⟨kind, hop⟩ := Opcode.exists_closes hjump hopen
    rw [hop] at hpartner
    have := h.ordered kind _ _ ⟨b, hb, (Option.some.inj hpartner).symm, hbt⟩
    omega

/-- The warnings are about the strays. The jumps are those of the other brackets, and they are
linked as the brackets match, so that no link is broken and no two ends of a loop enclose a start
that is unresolved. -/
theorem nesting_parse (hlength : source.length < 2 ^ 32) :
    (parse source).warnings = (strays source).map unmatchedWarning ∧
      (∃ slot, Places source (parse source).program slot) ∧
      (parse source).program.brokenLinks = [] ∧
      ∀ first last, (parse source).program.linked first last = true →
        ∀ (i : Nat) (x : Instruction),
        first < i → i < last → (parse source).program[i]? = some x → x.op.isOpen = true →
        x.target? ≠ none := by
  obtain ⟨block, hholds, hfresh, -⟩ := parse_holds hlength
  have hwell := hholds.wellFormed hfresh.safe hfresh.tidy
  refine ⟨?_, ⟨slotOf source, ?_⟩, hholds.brokenLinks_eq_nil, ?_⟩
  · have hunmatched := unmatched_upTo (Nat.le_refl source.length)
    rw [upTo, List.take_length] at hunmatched
    exact congrArg (List.map unmatchedWarning) hunmatched
  · refine ⟨?_, fun _ _ h => h.isLoop hlength, fun _ => getElem?_parse_of_not_matches hlength,
      fun _ => exists_matches hlength⟩
    rw [← program_upTo_length]
    exact jumps_upTo hlength (Nat.le_refl source.length)
  · intro first last hlinked i x hi hi' hx hopen
    obtain ⟨kind, hpair⟩ := hwell.orderly.isPair_of_linked hlinked (Nat.lt_trans hi hi')
    exact hwell.enclosed kind first i last x hpair hi hi' hx hopen

/-- Two ends without a start, a loop in another one, and a start without an end (`]+[[-]x]][`). -/
theorem nesting_parse_of_mixed :
    (parse [93, 43, 91, 91, 45, 93, 120, 93, 93, 91]).warnings = [0, 8].map unmatchedWarning ∧
      ∃ slot, Places [93, 43, 91, 91, 45, 93, 120, 93, 93, 91]
        (parse [93, 43, 91, 91, 45, 93, 120, 93, 93, 91]).program slot := by
  have hlength : ([93, 43, 91, 91, 45, 93, 120, 93, 93, 91] : List UInt8).length < 2 ^ 32 := by
    decide
  obtain ⟨hwarnings, hplaces, -⟩ := nesting_parse hlength
  have hstrays : strays [93, 43, 91, 91, 45, 93, 120, 93, 93, 91] = [0, 8] := by decide
  exact ⟨hstrays ▸ hwarnings, hplaces⟩

end TapeCode
