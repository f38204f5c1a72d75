import TapeCode.Proofs.Reading.Brackets
import TapeCode.Proofs.Reading.Symbols

/-!
# The program of a source means what the source says

A source and its program run alike (`endsAs_parse`). A machine stands at a slot and a reading at
an offset when the bytes so far have written the instructions in front of the slot (`Reads`). For
a step of the machine the reading first passes over the bytes that write nothing
(`exists_adding`). At a bracket both then go on behind the same other one, since the search and
the links agree (`Branches`). Any other instruction is read on to the last byte that it counts
(`exists_settled`).
-/

namespace TapeCode

variable {source : List UInt8} {i ip start : Nat} {b : UInt8} {s : State} {x : Instruction}
  {waiting : List Nat}

/-! ## Steps of a reading -/

namespace Reading

variable {r : Reading}

theorem takes_step (htrouble : r.state.trouble = none) (hb : source[r.offset]? = some b) :
    (stepper source).Takes 1 r (r.step source) := by
  have hlt := (List.getElem?_eq_some_iff.1 hb).1
  exact .single (by simp [stepper, canStep, htrouble, hlt])

theorem step_of_openBracket (hb : source[r.offset]? = some '['.toUInt8) :
    r.step source =
      if r.state.cell = 0 then
        match closing? source r.offset with
        | some close => ⟨close + 1, r.state.look⟩
        | none => ⟨source.length, r.state.look⟩
      else r.pass r.state.look := by
  rw [step, hb]
  rfl

theorem step_of_closeBracket (hb : source[r.offset]? = some ']'.toUInt8) :
    r.step source =
      match opening? source r.offset with
      | some start => if r.state.cell = 0 then r.pass r.state.look else ⟨start + 1, r.state.look⟩
      | none => r.pass r.state := by
  rw [step, hb]
  rfl

/-- A byte that writes nothing is passed over. -/
theorem step_of_skip (hb : source[r.offset]? = some b)
    (hskip : ∀ symbol, Symbol.ofByte? b = some symbol →
      symbol = .closeBracket ∧ (upTo source r.offset).waiting = []) :
    r.step source = r.pass r.state := by
  cases hsymbol : Symbol.ofByte? b with
  | none => exact step_of_comment hb hsymbol
  | some symbol =>
    obtain ⟨rfl, hwaiting⟩ := hskip symbol hsymbol
    rw [ofByte?_eq_closeBracket_iff.1 hsymbol] at hb
    have hle := Nat.le_of_lt (List.getElem?_eq_some_iff.1 hb).1
    rw [step_of_closeBracket hb, opening?_eq_none hle hwaiting]

end Reading

/-! ## Between two instructions -/

/-- No byte from the offset on is counted by the last instruction so far: the bytes are at their
end, or the next one adds an instruction, or the last instruction does not count. -/
def Settled (source : List UInt8) (i : Nat) : Prop :=
  source.length ≤ i ∨ (upTo source i).program.size < (upTo source (i + 1)).program.size ∨
    ∀ last, (upTo source i).program.back? = some last → last.op.isAggregatable = false

theorem settled_of_back? (hback : (upTo source i).program.back? = some x)
    (hx : x.op.isAggregatable = false) : Settled source i :=
  .inr (.inr fun last hlast => by rwa [← Option.some.inj (hback.symm.trans hlast)])

/-- A byte that adds no instruction is passed over, or it is counted. -/
theorem skip_or_extend (hb : source[i]? = some b)
    (hadd : ¬ (upTo source i).program.size < (upTo source (i + 1)).program.size) :
    ((upTo source (i + 1)).program = (upTo source i).program ∧
      ∀ s : State, s.trouble = none → (Reading.stepper source).Takes 1 ⟨i, s⟩ ⟨i + 1, s⟩) ∨
    ∃ symbol last, Symbol.ofByte? b = some symbol ∧ symbol.op.isAggregatable = true ∧
      (upTo source i).program.back? = some last ∧ last.op = symbol.op ∧
      upTo source (i + 1) = (upTo source i).extend last := by
  have hadds := adds_upTo hb
  generalize hnext : upTo source (i + 1) = next at hadds hadd
  cases hadds with
  | skip hskip =>
    refine .inl ⟨rfl, fun s htrouble => ?_⟩
    have hstep : Reading.step source ⟨i, s⟩ = ⟨i + 1, s⟩ := Reading.step_of_skip hb hskip
    rw [← hstep]
    exact Reading.takes_step htrouble hb
  | extend hsymbol hagg hback hop => exact .inr ⟨_, _, hsymbol, hagg, hback, hop, rfl⟩
  | append => simp at hadd
  | enter => simp at hadd
  | leave => simp at hadd

/-- A reading between two instructions passes over bytes that write nothing, up to the end of the
source or a byte that adds an instruction. -/
theorem exists_adding (hsettled : Settled source i) (htrouble : s.trouble = none) :
    ∃ k j, (Reading.stepper source).Takes k ⟨i, s⟩ ⟨j, s⟩ ∧
      (upTo source j).program = (upTo source i).program ∧
      (source.length ≤ j ∨
        (upTo source j).program.size < (upTo source (j + 1)).program.size) := by
  induction hd : source.length - i generalizing i with
  | zero => exact ⟨0, i, .refl, rfl, .inl (by omega)⟩
  | succ d ih =>
    by_cases hadd : (upTo source i).program.size < (upTo source (i + 1)).program.size
    · exact ⟨0, i, .refl, rfl, .inr hadd⟩
    · have hb := List.getElem?_eq_getElem (show i < source.length by omega)
      have hlast := (hsettled.resolve_left (by omega)).resolve_left hadd
      rcases skip_or_extend hb hadd with ⟨hprogram, hpass⟩ | ⟨_, _, -, hagg, hback, hop, -⟩
      · obtain ⟨k, j, htakes, hkept, hend⟩ :=
          ih (i := i + 1) (.inr (.inr (by rwa [hprogram]))) (by omega)
        exact ⟨1 + k, j, (hpass s htrouble).trans htakes, hkept.trans hprogram, hend⟩
      · rw [← hop, hlast _ hback] at hagg
        cases hagg

/-! ## The bytes that an instruction counts -/

/-- An instruction that is no loop start does not wait. -/
theorem not_mem_waiting (hlength : source.length < 2 ^ 32)
    (hx : (upTo source i).program[ip]? = some x) (hop : x.op ≠ .opens .tested) :
    ip ∉ (upTo source i).waiting := by
  intro hmem
  obtain ⟨total, htrail, -⟩ := (valid_upTo hlength i).trail
  rw [Option.some.inj (hx.symm.trans (htrail.slot hmem).2)] at hop
  exact hop rfl

/-- A reading does once more what it has done `count` times. -/
theorem takes_tally {symbol : Symbol} {count : UInt32} (hb : source[i]? = some b)
    (hsymbol : Symbol.ofByte? b = some symbol) (hagg : symbol.op.isAggregatable = true)
    (hcount : count.toNat + 1 < 2 ^ 32)
    (htrouble : (({ op := symbol.op, arg := count } : Instruction).tally s).trouble = none) :
    (Reading.stepper source).Takes 1
      ⟨i, ({ op := symbol.op, arg := count } : Instruction).tally s⟩
      ⟨i + 1, ({ op := symbol.op, arg := count + 1 } : Instruction).tally s⟩ := by
  have hstep : Reading.step source
    ⟨i, ({ op := symbol.op, arg := count } : Instruction).tally s⟩ =
      ⟨i + 1, ({ op := symbol.op, arg := count + 1 } : Instruction).tally s⟩ := by
    rw [Reading.step_of_symbol hb hsymbol (Opcode.isJump_of_isAggregatable hagg),
      Instruction.tally_succ hcount htrouble, Symbol.tally_one hagg]
    rfl
  rw [← hstep]
  exact Reading.takes_step htrouble hb

/-- Behind a byte that an instruction counts, the reading goes on to the last byte that it counts,
and does as often what the symbol does. The induction is on the bytes that are left. -/
theorem exists_settled (hlength : source.length < 2 ^ 32) {op : Opcode} {count : UInt32}
    (hagg : op.isAggregatable = true) (hsize : (upTo source i).program.size = ip + 1)
    (hslot : (upTo source i).program[ip]? = some { op, arg := count })
    (hcount : count.toNat ≤ i) :
    ∃ j total, (parse source).program[ip]? = some { op, arg := total } ∧
      (upTo source j).program.size = ip + 1 ∧ Settled source j ∧
      ∀ s, (({ op, arg := count } : Instruction).tally s).trouble = none →
        ∃ k, (Reading.stepper source).Takes k ⟨i, ({ op, arg := count } : Instruction).tally s⟩
          ⟨j, ({ op, arg := total } : Instruction).tally s⟩ := by
  induction hd : source.length - i generalizing i count with
  | zero =>
    refine ⟨i, count, ?_, hsize, .inl (by omega), fun s _ => ⟨0, .refl⟩⟩
    rwa [upTo_of_le (by omega), program_upTo_length] at hslot
  | succ d ih =>
    have hb := List.getElem?_eq_getElem (show i < source.length by omega)
    by_cases hadd : (upTo source i).program.size < (upTo source (i + 1)).program.size
    · -- The next instruction begins here, so that this one counts no more.
      have hwaiting : ip ∉ (upTo source i).waiting :=
        not_mem_waiting hlength hslot (by rintro rfl; cases hagg)
      exact ⟨i, count, getElem?_parse ((adds_upTo hb).fixed hadd hslot hwaiting), hsize,
        .inr (.inl hadd), fun s _ => ⟨0, .refl⟩⟩
    · rcases skip_or_extend hb hadd with
        ⟨hprogram, hpass⟩ | ⟨symbol, last, hsymbol, -, hback, hop, hnext⟩
      · obtain ⟨j, total, htotal, hsize', hsettled, htakes⟩ :=
          ih (i := i + 1) (by rwa [hprogram]) (by rwa [hprogram]) (by omega) (by omega)
        refine ⟨j, total, htotal, hsize', hsettled, fun s htrouble => ?_⟩
        obtain ⟨k, hrest⟩ := htakes s htrouble
        exact ⟨1 + k, (hpass _ htrouble).trans hrest⟩
      · obtain rfl : last = { op, arg := count } := by
          rw [Array.back?_eq_getElem?, hsize] at hback
          exact Option.some.inj (hback.symm.trans hslot)
        obtain rfl : op = symbol.op := hop
        -- The operand holds the count, since there are no more counts than bytes.
        have hfits : count.toNat + 1 < 2 ^ 32 := by omega
        have hcount' : (count + 1).toNat = count.toNat + 1 := by
          rw [UInt32.toNat_add, UInt32.toNat_one, Nat.mod_eq_of_lt hfits]
        have hslot' : (upTo source (i + 1)).program[ip]? =
            some { op := symbol.op, arg := count + 1 } := by
          rw [hnext, Builder.extend, hsize, Nat.add_sub_cancel, Program.getElem?_put, if_pos rfl,
            if_pos (by omega)]
        obtain ⟨j, total, htotal, hsize', hsettled, htakes⟩ :=
          ih (by rw [hnext]; simpa using hsize) hslot' (by omega) (by omega)
        refine ⟨j, total, htotal, hsize', hsettled, fun s htrouble => ?_⟩
        obtain ⟨k, hrest⟩ := htakes s (Instruction.trouble_tally htrouble _)
        exact ⟨1 + k, (takes_tally hb hsymbol hagg hfits htrouble).trans hrest⟩

/-! ## Brackets -/

theorem size_of_openBracket (hb : source[i]? = some '['.toUInt8) :
    (upTo source (i + 1)).program.size = (upTo source i).program.size + 1 ∧
      Settled source (i + 1) := by
  have hprogram := program_of_openBracket hb
  have hback := (congrArg Array.back? hprogram).trans (Array.back?_push ..)
  exact ⟨by rw [hprogram, Array.size_push], settled_of_back? hback rfl⟩

theorem size_of_closeBracket (hb : source[i]? = some ']'.toUInt8)
    (hwaiting : (upTo source i).waiting = start :: waiting) :
    (upTo source (i + 1)).program.size = (upTo source i).program.size + 1 ∧
      Settled source (i + 1) := by
  have hprogram := program_of_closeBracket hb hwaiting
  have hback := (congrArg Array.back? hprogram).trans (Array.back?_push ..)
  exact ⟨by rw [hprogram, Array.size_push, Program.size_put], settled_of_back? hback rfl⟩

/-- A bracket as it is read and as its instruction is carried out: both look at the cell, and its
value tells where they go on. -/
structure Branches (source : List UInt8) (i : Nat) (x : Instruction)
    (goal : Cell → Nat) : Prop where
  slot : (parse source).program[(upTo source i).program.size]? = some x
  tested : x.op = .opens .tested ∨ x.op = .closes .tested
  step : ∀ s, Reading.step source ⟨i, s⟩ = ⟨goal s.cell, s.look⟩
  nextIp : ∀ m : Machine, (upTo source i).program.size = m.ip →
    (upTo source (goal m.current)).program.size = m.nextIp (parse source).program.size x
  settled : ∀ cell, Settled source (goal cell)

/-- Where a `[` leads past its loop. Without a `]` this is the end of the source, and the end of
the program, since the start still waits there. -/
theorem exists_behind (hlength : source.length < 2 ^ 32) (hb : source[i]? = some '['.toUInt8) :
    ∃ x behind, (parse source).program[(upTo source i).program.size]? = some x ∧
      x.op = .opens .tested ∧
      (upTo source behind).program.size = Machine.landing (parse source).program.size x ∧
      Settled source behind ∧
      ∀ s, Reading.step source ⟨i, s⟩ =
        if s.cell = 0 then ⟨behind, s.look⟩ else ⟨i + 1, s.look⟩ := by
  have hstep (s : State) := Reading.step_of_openBracket (r := ⟨i, s⟩) hb
  rcases exists_closing? (waiting_of_openBracket hb) with
    ⟨close, hclose, hbyte, hwaiting⟩ | ⟨hnone, hmem⟩
  · obtain ⟨⟨x, hx, hop, htarget⟩, -⟩ := isLoop_parse hlength hbyte hwaiting
    obtain ⟨hsize, hsettled⟩ := size_of_closeBracket hbyte hwaiting
    refine ⟨x, close + 1, hx, hop, ?_, hsettled, fun s => ?_⟩
    · rw [hsize, Machine.landing, htarget]
    · rw [hstep, hclose]
      rfl
  · obtain ⟨total, htrail, -⟩ := (valid_upTo hlength source.length).trail
    have hx := (htrail.slot hmem).2
    rw [program_upTo_length] at hx
    refine ⟨_, source.length, hx, rfl, ?_, .inl (Nat.le_refl _), fun s => ?_⟩
    · rw [program_upTo_length]
      rfl
    · rw [hstep, hnone]
      rfl

/-- A `[` goes on behind the loop if the cell is zero. -/
theorem exists_branches_of_openBracket (hlength : source.length < 2 ^ 32)
    (hb : source[i]? = some '['.toUInt8) : ∃ x goal, Branches source i x goal := by
  obtain ⟨x, behind, hx, hop, hlanding, hbehind, hstep⟩ := exists_behind hlength hb
  obtain ⟨hsize, hsettled⟩ := size_of_openBracket hb
  refine ⟨x, fun cell => if cell = 0 then behind else i + 1, hx, .inl hop, fun s => ?_,
    fun m hip => ?_, fun cell => ?_⟩
  · rw [hstep]
    split <;> rfl
  · rw [Machine.nextIp, hop]
    dsimp only
    split
    · exact hlanding
    · rw [hsize, hip]
  · split
    · exact hbehind
    · exact hsettled

/-- A `]` that ends a loop goes on behind the `[` of the loop if the cell is not zero. -/
theorem exists_branches_of_closeBracket (hlength : source.length < 2 ^ 32)
    (hb : source[i]? = some ']'.toUInt8) (hwaiting : (upTo source i).waiting = start :: waiting) :
    ∃ x goal, Branches source i x goal := by
  have hle := Nat.le_of_lt (List.getElem?_eq_some_iff.1 hb).1
  obtain ⟨-, x, hx, hop, htarget⟩ := isLoop_parse hlength hb hwaiting
  obtain ⟨opens, hopens, hbyte, rfl⟩ := exists_opening? hle hwaiting
  obtain ⟨hagain, hsettled⟩ := size_of_openBracket hbyte
  obtain ⟨hsize, hsettled'⟩ := size_of_closeBracket hb hwaiting
  refine ⟨x, fun cell => if cell = 0 then i + 1 else opens + 1, hx, .inr hop, fun s => ?_,
    fun m hip => ?_, fun cell => ?_⟩
  · rw [Reading.step_of_closeBracket (r := ⟨i, s⟩) hb, hopens]
    dsimp only [Reading.pass]
    split <;> rfl
  · rw [Machine.nextIp, hop]
    dsimp only
    split
    · rw [hsize, hip]
    · rw [hagain, Machine.restart, Machine.landing, htarget]
  · split
    · exact hsettled'
    · exact hsettled

/-! ## The simulation -/

/-- The reading and the machine show the same state, and stand in front of the same instruction.
Once something has gone wrong it does not matter where they stand. -/
structure Reads (source : List UInt8) (r : Reading) (m : Machine) : Prop where
  state : m.state = r.state
  place : m.fault = none →
    (upTo source r.offset).program.size = m.ip ∧ Settled source r.offset

/-- The reading at an offset keeps up with a step of the machine. -/
def KeepsUp (source : List UInt8) (i : Nat) (m : Machine) : Prop :=
  ∃ k r', (Reading.stepper source).Takes (k + 1) ⟨i, m.state⟩ r' ∧
    Reads source r' (m.step (parse source).program)

namespace KeepsUp

variable {m : Machine}

/-- Both go on in front of the same instruction. -/
theorem of_takes {k offset : Nat} (hx : (parse source).program[m.ip]? = some x)
    (htakes : (Reading.stepper source).Takes (k + 1) ⟨i, m.state⟩ ⟨offset, s⟩)
    (hstate : (m.counted.perform (parse source).program.size x).state = s)
    (hip : (upTo source offset).program.size = m.counted.nextIp (parse source).program.size x)
    (hsettled : Settled source offset) : KeepsUp source i m := by
  refine ⟨k, _, htakes, ?_⟩
  rw [Machine.step_of_getElem? hx]
  exact ⟨hstate, fun _ => ⟨by rw [Machine.ip_perform]; exact hip, hsettled⟩⟩

theorem of_branches {goal : Cell → Nat} (h : Branches source i x goal)
    (hb : source[i]? = some b) (hfault : m.fault = none)
    (hip : (upTo source i).program.size = m.ip) : KeepsUp source i m := by
  have hone := Reading.takes_step (r := ⟨i, m.state⟩) (Machine.trouble_eq_none_iff.2 hfault) hb
  rw [h.step] at hone
  have hstate : (m.counted.perform (parse source).program.size x).state = m.state.look :=
    Machine.state_perform_tested (m := m.counted) hfault h.tested _
  exact of_takes (k := 0) (hip ▸ h.slot) hone hstate (h.nextIp m.counted hip) (h.settled _)

variable {symbol : Symbol}

/-- An instruction that is carried out once. -/
theorem of_single (hlength : source.length < 2 ^ 32) (hjump : symbol.op.isJump = false)
    (hagg : symbol.op.isAggregatable = false) (hfault : m.fault = none)
    (hsize : (upTo source (i + 1)).program.size = m.ip + 1)
    (hslot : (upTo source (i + 1)).program[m.ip]? = some { op := symbol.op, arg := 1 })
    (hone : (Reading.stepper source).Takes 1 ⟨i, m.state⟩ ⟨i + 1, symbol.act m.state⟩) :
    KeepsUp source i m := by
  have hop : symbol.op ≠ .opens .tested := fun hop => by rw [hop] at hjump; cases hjump
  have hback : (upTo source (i + 1)).program.back? = some { op := symbol.op, arg := 1 } := by
    rwa [Array.back?_eq_getElem?, hsize]
  have hfixed : (upTo source (i + 1)).Fixed m.ip { op := symbol.op, arg := 1 } :=
    ⟨hslot, not_mem_waiting hlength hslot hop, .inr hagg⟩
  refine of_takes (k := 0) (getElem?_parse hfixed) hone ?_ ?_ (settled_of_back? hback hagg)
  · exact Machine.state_perform_one (m := m.counted) hfault hjump _
  · rw [hsize, Machine.nextIp_of_not_isJump hjump]
    rfl

/-- An instruction that counts. If the cell is out of reach the reading runs into this at the
first byte that is counted. -/
theorem of_counted (hlength : source.length < 2 ^ 32) (hagg : symbol.op.isAggregatable = true)
    (hfault : m.fault = none) (hsize : (upTo source (i + 1)).program.size = m.ip + 1)
    (hslot : (upTo source (i + 1)).program[m.ip]? = some { op := symbol.op, arg := 1 })
    (hone : (Reading.stepper source).Takes 1 ⟨i, m.state⟩ ⟨i + 1, symbol.act m.state⟩) :
    KeepsUp source i m := by
  have htrouble : m.state.trouble = none := Machine.trouble_eq_none_iff.2 hfault
  obtain ⟨j, total, htotal, hsize', hsettled, htakes⟩ :=
    exists_settled hlength hagg hsize hslot (Nat.succ_le_succ (Nat.zero_le i))
  have hstate : (m.counted.perform (parse source).program.size
      { op := symbol.op, arg := total }).state =
        ({ op := symbol.op, arg := total } : Instruction).tally m.state :=
    Machine.state_perform_of_isAggregatable (m := m.counted) hfault hagg _
  rw [← Symbol.tally_one hagg] at hone
  by_cases hgood : (({ op := symbol.op, arg := 1 } : Instruction).tally m.state).trouble = none
  · obtain ⟨k, hrest⟩ := htakes m.state hgood
    refine of_takes (k := k) htotal (Nat.add_comm 1 k ▸ hone.trans hrest) hstate ?_ hsettled
    rw [hsize', Machine.nextIp_of_not_isJump (Opcode.isJump_of_isAggregatable hagg)]
    rfl
  · -- Both have run into the same, the machine with the whole count.
    rw [Instruction.tally_of_trouble htrouble hgood] at hstate
    refine ⟨0, _, hone, ?_⟩
    rw [Machine.step_of_getElem? htotal]
    refine ⟨hstate, fun h => ?_⟩
    rw [← hstate] at hgood
    exact absurd (Machine.trouble_eq_none_iff.2 h) hgood

/-- A symbol that adds an instruction other than a jump. -/
theorem of_append (hlength : source.length < 2 ^ 32) (hb : source[i]? = some b)
    (hsymbol : Symbol.ofByte? b = some symbol) (hjump : symbol.op.isJump = false)
    (hnext : upTo source (i + 1) = (upTo source i).push symbol.op 1) (hfault : m.fault = none)
    (hip : (upTo source i).program.size = m.ip) : KeepsUp source i m := by
  have hone := Reading.takes_step (r := ⟨i, m.state⟩) (Machine.trouble_eq_none_iff.2 hfault) hb
  rw [Reading.step_of_symbol hb hsymbol hjump] at hone
  have hsize : (upTo source (i + 1)).program.size = m.ip + 1 := by
    rw [hnext, Builder.size_push, hip]
  have hslot : (upTo source (i + 1)).program[m.ip]? = some { op := symbol.op, arg := 1 } := by
    rw [hnext, ← hip]
    exact Array.getElem?_push_size
  cases hagg : symbol.op.isAggregatable with
  | true => exact of_counted hlength hagg hfault hsize hslot hone
  | false => exact of_single hlength hjump hagg hfault hsize hslot hone

/-- At the byte that adds the instruction of the machine. -/
theorem of_adds (hlength : source.length < 2 ^ 32) (hb : source[i]? = some b)
    (hadd : (upTo source i).program.size < (upTo source (i + 1)).program.size)
    (hfault : m.fault = none) (hip : (upTo source i).program.size = m.ip) :
    KeepsUp source i m := by
  have hadds := adds_upTo hb
  generalize hnext : upTo source (i + 1) = next at hadds hadd
  cases hadds with
  | skip => exact absurd hadd (Nat.lt_irrefl _)
  | extend => simp at hadd
  | append hsymbol hjump => exact of_append hlength hb hsymbol hjump hnext hfault hip
  | enter hsymbol =>
    obtain rfl := ofByte?_eq_openBracket_iff.1 hsymbol
    obtain ⟨x, goal, hbranches⟩ := exists_branches_of_openBracket hlength hb
    exact of_branches hbranches hb hfault hip
  | leave hsymbol hwaiting =>
    obtain rfl := ofByte?_eq_closeBracket_iff.1 hsymbol
    obtain ⟨x, goal, hbranches⟩ := exists_branches_of_closeBracket hlength hb hwaiting
    exact of_branches hbranches hb hfault hip

end KeepsUp

namespace Reads

variable {m : Machine} {r : Reading}

theorem trouble (h : Reads source r m) (hfault : m.fault = none) : r.state.trouble = none := by
  rw [← h.state]
  exact Machine.trouble_eq_none_iff.2 hfault

/-- A step of the machine is matched by the reading. -/
theorem step (hlength : source.length < 2 ^ 32) (h : Reads source r m)
    (hcan : m.canStep (parse source).program = true) :
    ∃ k r', (Reading.stepper source).Takes (k + 1) r r' ∧
      Reads source r' (m.step (parse source).program) := by
  simp only [Machine.canStep, Bool.and_eq_true, Option.isNone_iff_eq_none,
    decide_eq_true_eq] at hcan
  obtain ⟨hfault, hlt⟩ := hcan
  obtain ⟨hip, hsettled⟩ := h.place hfault
  obtain ⟨k, j, hpass, hprogram, hend⟩ := exists_adding hsettled (h.trouble hfault)
  rw [← hprogram] at hip
  have hadd : (upTo source j).program.size < (upTo source (j + 1)).program.size := by
    refine hend.resolve_left fun hle => ?_
    rw [upTo_of_le hle, program_upTo_length] at hip
    omega
  have hj : j < source.length := Nat.lt_of_not_le fun hle => by
    rw [upTo_of_le hle, upTo_of_le (Nat.le_succ_of_le hle)] at hadd
    exact Nat.lt_irrefl _ hadd
  obtain ⟨l, r', htakes, hreads⟩ :=
    KeepsUp.of_adds hlength (List.getElem?_eq_getElem hj) hadd hfault hip
  rw [h.state] at htakes
  exact ⟨k + l, r', hpass.trans htakes, hreads⟩

/-- Where the machine stops the reading soon does. -/
theorem stop (h : Reads source r m) (hcan : m.canStep (parse source).program = false) :
    ∃ k r', (Reading.stepper source).Stops k r r' ∧ r'.state = m.state := by
  cases hfault : m.fault with
  | some fault =>
    have htrouble : r.state.trouble = some fault.trouble := by
      rw [← h.state, Machine.state, hfault]
      rfl
    exact ⟨0, r, ⟨.refl, by simp [Reading.stepper, Reading.canStep, htrouble]⟩, h.state.symm⟩
  | none =>
    have hout : (parse source).program.size ≤ m.ip := by
      simpa [Machine.canStep, hfault] using hcan
    obtain ⟨hip, hsettled⟩ := h.place hfault
    obtain ⟨k, j, hpass, hprogram, hend⟩ := exists_adding hsettled (h.trouble hfault)
    have hj : source.length ≤ j := by
      refine hend.resolve_right fun hadd => ?_
      rw [hprogram, hip] at hadd
      have hle : (upTo source (j + 1)).program.size ≤ _ := size_upTo_le (j + 1)
      omega
    exact ⟨k, _, ⟨hpass, by simp [Reading.stepper, Reading.canStep, hj]⟩, h.state.symm⟩

end Reads

/-- The reading of a source refines its program. -/
theorem refines_parse (hlength : source.length < 2 ^ 32) :
    Stepper.Refines (Reading.stepper source) (Machine.stepper (parse source).program)
      (Reads source)
      fun r m => r.state = m.state :=
  ⟨fun _ _ h hcan => h.step hlength hcan, fun _ _ h hcan => h.stop hcan⟩

/-- The program of a source shorter than `2 ^ 32` bytes runs to its end if the reading of the
source does, and both leave the same data pointer, tape, unread input and output behind, and have
run into the same. -/
theorem endsAs_parse (hlength : source.length < 2 ^ 32) {m : Machine} (hstart : m.AtStart)
    (s : State) :
    m.EndsAs (parse source).program s ↔ Reading.EndsAs source ⟨0, m.state⟩ s := by
  have hrefines := refines_parse hlength
  have hreads : Reads source ⟨0, m.state⟩ m := by
    refine ⟨rfl, fun _ => ⟨hstart.ip.symm, .inr (.inr fun last hlast => ?_)⟩⟩
    cases hlast
  rw [Machine.endsAs_iff hstart.steps]
  constructor
  · rintro ⟨k, m', hstops, rfl⟩
    obtain ⟨n, r', -, hstops', hstate⟩ := hrefines.of_stops hreads hstops
    exact ⟨n, r', hstops', by rw [hstate]⟩
  · rintro ⟨k, r', hstops, rfl⟩
    obtain ⟨n, m', -, hstops', hstate⟩ := hrefines.stops hreads hstops
    exact ⟨n, m', hstops', by rw [hstate]⟩

/-- A count that goes on behind a dropped `]` and a comment, a loop, and a loop start without an
end (`+] +[>++<-][`). -/
theorem endsAs_parse_of_unmatched :
    Reading.EndsAs [43, 93, 32, 43, 91, 62, 43, 43, 60, 45, 93, 91]
      ⟨0, Machine.state { tape := .blank 2 false }⟩
      { dp := 0, tape := ⟨#[0, 4], false⟩, input := [], output := {} } := by
  have hrun : (Machine.run (parse [43, 93, 32, 43, 91, 62, 43, 43, 60, 45, 93, 91]).program 40
      { tape := .blank 2 false }).2 = .completed 13 := by
    decide +kernel
  refine (endsAs_parse (by decide) ⟨rfl, rfl, rfl⟩ _).1 ⟨40, ?_, by decide +kernel⟩
  rw [hrun]
  trivial

end TapeCode
