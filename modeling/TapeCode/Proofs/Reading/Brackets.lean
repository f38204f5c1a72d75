import TapeCode.Proofs.Reading
import TapeCode.Proofs.Slots

/-!
# Brackets and waiting loop starts

The brackets that a search comes by count how many loop starts wait at that place of the source.
So a search to the right from a `[` finds the byte at which its loop start waits first, and a
search to the left finds the start that waits at the depth of the search.
-/

namespace TapeCode

variable {source : List UInt8} {i start : Nat} {b : UInt8} {waiting : List Nat}

theorem ofByte?_eq_openBracket_iff : Symbol.ofByte? b = some .openBracket ↔ b = '['.toUInt8 :=
  Symbol.ofByte?_eq_some_iff.trans eq_comm

theorem ofByte?_eq_closeBracket_iff : Symbol.ofByte? b = some .closeBracket ↔ b = ']'.toUInt8 :=
  Symbol.ofByte?_eq_some_iff.trans eq_comm

theorem waiting_of_openBracket (hb : source[i]? = some '['.toUInt8) :
    (upTo source (i + 1)).waiting = (upTo source i).program.size :: (upTo source i).waiting :=
  (adds_upTo hb).waiting_eq

theorem waiting_of_closeBracket (hb : source[i]? = some ']'.toUInt8) :
    (upTo source (i + 1)).waiting = (upTo source i).waiting.tail :=
  (adds_upTo hb).waiting_eq

theorem waiting_of_other (hb : source[i]? = some b) (hopen : b ≠ '['.toUInt8)
    (hclose : b ≠ ']'.toUInt8) : (upTo source (i + 1)).waiting = (upTo source i).waiting := by
  rw [(adds_upTo hb).waiting_eq]
  split
  · rename_i heq
    exact absurd (ofByte?_eq_openBracket_iff.1 heq) hopen
  · rename_i heq
    exact absurd (ofByte?_eq_closeBracket_iff.1 heq) hclose
  · rfl

theorem seek_of_other {enter leave : UInt8} (depth : Nat) (bytes : List UInt8)
    (hleave : b ≠ leave) (henter : b ≠ enter) :
    seek enter leave depth (b :: bytes) = (seek enter leave depth bytes).map (· + 1) := by
  rw [seek.eq_def]
  dsimp only
  rw [if_neg hleave, if_neg henter]

/-! ## Searches to the right -/

/-- What a search to the right from an offset finds if it is to find the end of the loop of
`start`: the byte at which this start waits first, or nothing, and then it waits for ever. -/
def FindsEnd (source : List UInt8) (i start : Nat) (waiting : List Nat) : Option Nat → Prop
  | some n => source[i + n]? = some ']'.toUInt8 ∧ (upTo source (i + n)).waiting = start :: waiting
  | none => start ∈ (upTo source source.length).waiting

theorem FindsEnd.before {found : Option Nat} (h : FindsEnd source (i + 1) start waiting found) :
    FindsEnd source i start waiting (found.map (· + 1)) := by
  cases found with
  | none => exact h
  | some n =>
    have hoffset : i + (n + 1) = i + 1 + n := by omega
    rwa [Option.map_some, FindsEnd, hoffset]

/-- In front of the search the starts `extra` wait that are to be ended before. -/
theorem findsEnd_seek (extra : List Nat)
    (hwaiting : (upTo source i).waiting = extra ++ start :: waiting) :
    FindsEnd source i start waiting
      (seek '['.toUInt8 ']'.toUInt8 extra.length (source.drop i)) := by
  induction hd : source.length - i generalizing i extra with
  | zero =>
    rw [List.drop_eq_nil_of_le (by omega), seek, FindsEnd,
      ← upTo_of_le (i := i) (by omega), hwaiting]
    exact List.mem_append_right _ List.mem_cons_self
  | succ d ih =>
    have hlt : i < source.length := by omega
    have hb := List.getElem?_eq_getElem hlt
    rw [List.drop_eq_getElem_cons hlt]
    by_cases hclose : source[i] = ']'.toUInt8
    · rw [hclose] at hb ⊢
      cases extra with
      | nil => exact ⟨hb, hwaiting⟩
      | cons first extra =>
        refine (ih extra ?_ (by omega)).before
        rw [waiting_of_closeBracket hb, hwaiting]
        rfl
    · by_cases hopen : source[i] = '['.toUInt8
      · rw [hopen] at hb ⊢
        refine (ih ((upTo source i).program.size :: extra) ?_ (by omega)).before
        rw [waiting_of_openBracket hb, hwaiting]
        rfl
      · rw [seek_of_other _ _ hclose hopen]
        refine (ih extra ?_ (by omega)).before
        rw [waiting_of_other hb hopen hclose, hwaiting]

/-- Behind a `[`, the search for its end stops where its start waits first, or the start waits to
the end of the source. -/
theorem exists_closing? (hwaiting : (upTo source (i + 1)).waiting = start :: waiting) :
    (∃ close, closing? source i = some close ∧ source[close]? = some ']'.toUInt8 ∧
      (upTo source close).waiting = start :: waiting) ∨
    closing? source i = none ∧ start ∈ (upTo source source.length).waiting := by
  have hfinds := findsEnd_seek [] hwaiting
  unfold closing?
  cases hseek : seek '['.toUInt8 ']'.toUInt8 0 (source.drop (i + 1)) with
  | none => exact .inr ⟨rfl, by rwa [List.length_nil, hseek] at hfinds⟩
  | some n => exact .inl ⟨_, rfl, by rwa [List.length_nil, hseek] at hfinds⟩

/-! ## Searches to the left -/

/-- What a search to the left from an offset finds if it is to find a given loop
start, or none. -/
def FindsStart (source : List UInt8) (i : Nat) (start? : Option Nat) : Option Nat → Prop
  | some n => source[i - 1 - n]? = some '['.toUInt8 ∧
      start? = some (upTo source (i - 1 - n)).program.size
  | none => start? = none

theorem FindsStart.behind {start? found : Option Nat} (h : FindsStart source i start? found) :
    FindsStart source (i + 1) start? (found.map (· + 1)) := by
  cases found with
  | none => exact h
  | some n =>
    have hoffset : i + 1 - 1 - (n + 1) = i - 1 - n := by omega
    rwa [Option.map_some, FindsStart, hoffset]

/-- The search finds the start that waits at its depth. -/
theorem findsStart_seek (depth : Nat) (hle : i ≤ source.length) :
    FindsStart source i (upTo source i).waiting[depth]?
      (seek ']'.toUInt8 '['.toUInt8 depth (source.take i).reverse) := by
  induction i generalizing depth with
  | zero => rfl
  | succ i ih =>
    have hb := List.getElem?_eq_getElem hle
    have htake : (source.take (i + 1)).reverse = source[i] :: (source.take i).reverse := by
      rw [List.take_add_one, hb, Option.toList_some, List.reverse_append]
      rfl
    rw [htake]
    by_cases hopen : source[i] = '['.toUInt8
    · rw [hopen] at hb ⊢
      rw [waiting_of_openBracket hb]
      cases depth with
      | zero => exact ⟨hb, rfl⟩
      | succ depth => exact (ih depth (Nat.le_of_lt hle)).behind
    · by_cases hclose : source[i] = ']'.toUInt8
      · rw [hclose] at hb ⊢
        rw [waiting_of_closeBracket hb, List.getElem?_tail]
        exact (ih (depth + 1) (Nat.le_of_lt hle)).behind
      · rw [waiting_of_other hb hopen hclose, seek_of_other _ _ hopen hclose]
        exact (ih depth (Nat.le_of_lt hle)).behind

/-- The search for the start of a loop finds the one that waits first. -/
theorem exists_opening? (hle : i ≤ source.length)
    (hwaiting : (upTo source i).waiting = start :: waiting) :
    ∃ opens, opening? source i = some opens ∧ source[opens]? = some '['.toUInt8 ∧
      (upTo source opens).program.size = start := by
  have hfinds := findsStart_seek 0 hle
  rw [hwaiting, List.getElem?_cons_zero] at hfinds
  unfold opening?
  cases hseek : seek ']'.toUInt8 '['.toUInt8 0 (source.take i).reverse with
  | none => rw [hseek] at hfinds; cases hfinds
  | some n =>
    rw [hseek] at hfinds
    exact ⟨_, rfl, hfinds.1, (Option.some.inj hfinds.2).symm⟩

theorem opening?_eq_none (hle : i ≤ source.length) (hwaiting : (upTo source i).waiting = []) :
    opening? source i = none := by
  have hfinds := findsStart_seek 0 hle
  rw [hwaiting, List.getElem?_nil] at hfinds
  unfold opening?
  cases hseek : seek ']'.toUInt8 '['.toUInt8 0 (source.take i).reverse with
  | none => rfl
  | some n => rw [hseek] at hfinds; cases hfinds.2

/-! ## Links -/

theorem program_of_openBracket (hb : source[i]? = some '['.toUInt8) :
    (upTo source (i + 1)).program = (upTo source i).program.push
      { op := .opens .tested, arg := Instruction.unresolved } := by
  rw [upTo_succ hb]
  rfl

theorem program_of_closeBracket (hb : source[i]? = some ']'.toUInt8)
    (hwaiting : (upTo source i).waiting = start :: waiting) :
    (upTo source (i + 1)).program = ((upTo source i).program.put start
      { op := .opens .tested, arg := UInt32.ofNat (upTo source i).program.size }).push
        { op := .closes .tested, arg := UInt32.ofNat start } := by
  rw [upTo_succ hb]
  change ((upTo source i).closeLoop i).program = _
  rw [Builder.closeLoop, hwaiting]

/-- The two ends of a loop in the program of a source. -/
theorem isLoop_parse (hlength : source.length < 2 ^ 32) (hb : source[i]? = some ']'.toUInt8)
    (hwaiting : (upTo source i).waiting = start :: waiting) :
    (parse source).program.IsLoop start (upTo source i).program.size .tested := by
  have hvalid := valid_upTo hlength i
  obtain ⟨total, htrail, -⟩ := hvalid.trail
  rw [hwaiting] at htrail
  have hstart : start < (upTo source i).program.size := (htrail.slot List.mem_cons_self).1
  have hwaiting' : (upTo source (i + 1)).waiting = waiting := by
    rw [waiting_of_closeBracket hb, hwaiting]
    rfl
  have hprogram := program_of_closeBracket hb hwaiting
  have hlt : (upTo source i).program.size < 2 ^ 32 - 1 := by
    have hle := hvalid.size_le
    have hi := (List.getElem?_eq_some_iff.1 hb).1
    rw [List.length_take] at hle
    omega
  have hopens : (upTo source (i + 1)).Fixed start
      { op := .opens .tested, arg := UInt32.ofNat (upTo source i).program.size } := by
    refine ⟨?_, by rw [hwaiting']; exact htrail.not_mem, .inr rfl⟩
    rw [hprogram, Builder.getElem?_push_of_lt (by rwa [Program.size_put]), Program.getElem?_put,
      if_pos rfl, if_pos hstart]
  have hcloses : (upTo source (i + 1)).Fixed (upTo source i).program.size
      { op := .closes .tested, arg := UInt32.ofNat start } := by
    refine ⟨?_, ?_, .inr rfl⟩
    · rw [hprogram, Array.getElem?_push, if_pos (Program.size_put ..).symm]
    · rw [hwaiting']
      exact fun hmem => Nat.lt_irrefl _ (htrail.slot (List.mem_cons_of_mem _ hmem)).1
  exact ⟨⟨_, getElem?_parse hopens, rfl, Instruction.target?_of_arg_eq rfl hlt⟩,
    _, getElem?_parse hcloses, rfl, Instruction.target?_of_arg_eq rfl (by omega)⟩

end TapeCode
