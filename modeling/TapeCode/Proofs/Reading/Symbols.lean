import TapeCode.Proofs.Block.Fusion
import TapeCode.Proofs.Reading
import TapeCode.Source

/-!
# Symbols and instructions

A symbol other than a bracket does to the state what its instruction does once (`Symbol.act`,
`Machine.state_perform_one`). A motion or arithmetic on the current cell with a larger count does
what its symbol does as often (`Instruction.tally_succ`): if the cell is out of reach this shows
at the first time, and nothing has happened yet.
-/

namespace TapeCode

namespace Tape

theorem modify_modify (tape : Tape) (i : Nat) (f g : Cell → Cell) :
    (tape.modify i f).modify i g = tape.modify i (g ∘ f) := by
  have hlt : i < (tape.extendTo i).cells.size := lt_size_extendTo tape i
  have hinside : i < (tape.modify i f).size := by
    rw [size_modify]
    exact hlt
  rw [modify, extendTo_of_lt hinside, cell_modify, if_pos rfl]
  simp [modify, store]

theorem reaches_modify {tape : Tape} {address : Int64} (h : tape.Reaches address)
    (f : Cell → Cell) : (tape.modify address.toNatClampNeg f).Reaches address := by
  refine ⟨h.1, .inl ?_⟩
  rw [size_modify]
  exact lt_size_extendTo ..

end Tape

namespace State

variable {s : State}

theorem change_change {f : Cell → Cell} (h : (s.change f).trouble = none) (g : Cell → Cell) :
    (s.change f).change g = s.change (g ∘ f) := by
  by_cases hreach : s.tape.Reaches s.dp
  · have hchange : s.change f = { s with tape := s.tape.modify s.dp.toNatClampNeg f } :=
      if_pos hreach
    rw [hchange, change, if_pos (Tape.reaches_modify hreach f), change, if_pos hreach]
    dsimp only
    rw [Tape.modify_modify]
  · rw [change, if_neg hreach] at h
    cases h

theorem trouble_change {f : Cell → Cell} (h : (s.change f).trouble = none) (g : Cell → Cell) :
    (s.change g).trouble = none := by
  unfold change at h ⊢
  split
  · rename_i hreach
    rwa [if_pos hreach] at h
  · rename_i hreach
    rw [if_neg hreach] at h
    cases h

theorem move_move (s : State) (a b : Int64) : (s.move a).move b = s.move (a + b) := by
  rw [move, move, move, Int64.add_assoc]

end State

/-! ## Counts -/

namespace Instruction

variable {op : Opcode} {count : UInt32} {s : State}

/-- What a motion or arithmetic on the current cell does to the state. -/
def tally (x : Instruction) (s : State) : State :=
  if x.op.isMotion then s.move x.amount else s.change (· + x.change)

/-- One more count is one more time. -/
theorem tally_succ (hcount : count.toNat + 1 < 2 ^ 32)
    (h : (tally { op, arg := count } s).trouble = none) :
    tally { op, arg := count + 1 } s = tally { op, arg := 1 } (tally { op, arg := count } s) := by
  have hamount : ({ op, arg := count + 1 } : Instruction).amount =
      ({ op, arg := count } : Instruction).amount + ({ op, arg := 1 } : Instruction).amount :=
    amount_merge (a := { op, arg := count }) (b := { op, arg := 1 }) rfl hcount
  unfold tally at h ⊢
  dsimp only at h ⊢
  split
  · rw [State.move_move, hamount]
  · rename_i hmotion
    rw [if_neg hmotion] at h
    rw [State.change_change h]
    congr 1
    funext cell
    simp only [change, hamount, Cell.ofAmount_add, Function.comp_apply, UInt8.add_assoc]

/-- If nothing goes wrong with one count, nothing does with another one. -/
theorem trouble_tally (h : (tally { op, arg := count } s).trouble = none) (count' : UInt32) :
    (tally { op, arg := count' } s).trouble = none := by
  unfold tally at h ⊢
  dsimp only at h ⊢
  split
  · rename_i hmotion
    rwa [if_pos hmotion] at h
  · rename_i hmotion
    rw [if_neg hmotion] at h
    exact State.trouble_change h _

/-- If something goes wrong with one count, the same does with any other one. -/
theorem tally_of_trouble (hs : s.trouble = none)
    (h : (tally { op, arg := count } s).trouble ≠ none) (count' : UInt32) :
    tally { op, arg := count' } s = tally { op, arg := count } s := by
  unfold tally at h ⊢
  dsimp only at h ⊢
  split
  · rename_i hmotion
    rw [if_pos hmotion] at h
    exact absurd hs h
  · rename_i hmotion
    rw [if_neg hmotion] at h
    by_cases hreach : s.tape.Reaches s.dp
    · rw [State.change, if_pos hreach] at h
      exact absurd hs h
    · rw [State.change, if_neg hreach, State.change, if_neg hreach]

end Instruction

/-! ## Symbols -/

namespace Symbol

/-- What a symbol does to the state. Brackets only look at it, and this is not told here. -/
def act (symbol : Symbol) (s : State) : State :=
  match symbol with
  | .left => s.move (-1)
  | .right => s.move 1
  | .plus => s.change (· + 1)
  | .minus => s.change (· - 1)
  | .dot => s.print
  | .comma => s.read
  | .openBracket | .closeBracket => s

theorem tally_one {symbol : Symbol} (hagg : symbol.op.isAggregatable = true) (s : State) :
    ({ op := symbol.op, arg := 1 } : Instruction).tally s = symbol.act s := by
  cases symbol with
  | left => rfl
  | right => rfl
  | plus => rfl
  | minus =>
    change s.change _ = s.change _
    congr 1
    funext cell
    exact (UInt8.sub_eq_add_neg cell 1).symm
  | _ => cases hagg

end Symbol

namespace Reading

variable {source : List UInt8} {r : Reading} {b : UInt8}

/-- The byte of a symbol other than a bracket. -/
theorem step_of_symbol {symbol : Symbol} (hb : source[r.offset]? = some b)
    (hsymbol : Symbol.ofByte? b = some symbol) (hjump : symbol.op.isJump = false) :
    r.step source = r.pass (symbol.act r.state) := by
  obtain rfl := Symbol.ofByte?_eq_some_iff.1 hsymbol
  rw [step, hb]
  cases symbol with
  | openBracket => cases hjump
  | closeBracket => cases hjump
  | _ => rfl

/-- A byte that writes no symbol. -/
theorem step_of_comment (hb : source[r.offset]? = some b) (hsymbol : Symbol.ofByte? b = none) :
    r.step source = r.pass r.state := by
  have hne (symbol : Symbol) : b ≠ symbol.byte := by
    rintro rfl
    rw [Symbol.ofByte?_eq_some_iff.2 rfl] at hsymbol
    cases hsymbol
  rw [step, hb]
  dsimp only
  exact (if_neg (hne .right)).trans <| (if_neg (hne .left)).trans <| (if_neg (hne .plus)).trans <|
    (if_neg (hne .minus)).trans <| (if_neg (hne .dot)).trans <| (if_neg (hne .comma)).trans <|
    (if_neg (hne .openBracket)).trans <| if_neg (hne .closeBracket)

end Reading

namespace Machine

variable {m : Machine} {x : Instruction}

theorem state_perform_of_isAggregatable (h : m.fault = none) (hagg : x.op.isAggregatable = true)
    (size : Nat) : (m.perform size x).state = x.tally m.state := by
  rw [perform]
  unfold Instruction.tally
  cases hop : x.op with
  | move side => rfl
  | add place =>
    cases place with
    | here =>
      have hoffset : x.offset = 0 := by rw [Instruction.offset, hop]; rfl
      rw [hoffset]
      exact state_update h _
    | aside side => rw [hop] at hagg; cases hagg
  | sub place =>
    cases place with
    | here =>
      have hoffset : x.offset = 0 := by rw [Instruction.offset, hop]; rfl
      rw [hoffset]
      exact state_update h _
    | aside side => rw [hop] at hagg; cases hagg
  | _ => rw [hop] at hagg; cases hagg

theorem state_perform_print (h : m.fault = none) (size : Nat) (hop : x.op = .print) :
    (m.perform size x).state = m.state.print := by
  have hlook := state_probe h
  have houtput : m.probe.output = m.state.output := output_probe m
  rw [perform, hop, State.print, ← hlook, ← houtput]
  dsimp only
  cases hfault : m.probe.fault with
  | some fault =>
    have hsome : m.probe.state.trouble.isSome = true := by rw [state, hfault]; rfl
    rw [if_pos hsome]
    rfl
  | none =>
    have hnone : ¬ m.probe.state.trouble.isSome = true := by
      rw [trouble_eq_none_iff.2 hfault]
      exact Bool.false_ne_true
    rw [if_neg hnone]
    exact state_emit hfault _

/-- An instruction of a symbol does what the symbol does. -/
theorem state_perform_one {symbol : Symbol} (h : m.fault = none)
    (hjump : symbol.op.isJump = false) (size : Nat) :
    (m.perform size { op := symbol.op, arg := 1 }).state = symbol.act m.state := by
  cases hagg : symbol.op.isAggregatable with
  | true => exact (state_perform_of_isAggregatable h hagg size).trans (Symbol.tally_one hagg _)
  | false =>
    cases symbol with
    | dot => exact state_perform_print h size rfl
    | comma => exact state_receive h
    | openBracket => cases hjump
    | closeBracket => cases hjump
    | _ => cases hagg

/-- A tested jump only looks at its cell. -/
theorem state_perform_tested (h : m.fault = none)
    (hop : x.op = .opens .tested ∨ x.op = .closes .tested) (size : Nat) :
    (m.perform size x).state = m.state.look := by
  rw [← state_probe h]
  rcases hop with hop | hop
  · rw [perform, hop]
    dsimp only
    split <;> rfl
  · rw [perform, hop]
    dsimp only
    split <;> rfl

end Machine

end TapeCode
