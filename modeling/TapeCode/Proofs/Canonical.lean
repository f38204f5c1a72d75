import TapeCode.Proofs.Derivation

/-!
# Operands that are not used

Most opcodes leave an operand unused: only changes aside have a distance, and a vacant slot, a
print and an input have no use for a count either. In a program that comes from a source such an
operand has one value, which the listing need not show. `Instruction.Canonical` says which, and
`Program.Derives.canonical` that rules, sweeps and compactions keep to it.
-/

namespace TapeCode

/-- Changes a cell aside of the data pointer. -/
def Opcode.isAside : Opcode → Bool
  | add (.aside _) | sub (.aside _) | set (.aside _) => true
  | _ => false

theorem Opcode.isAside_of_isAggregatable {op : Opcode} (h : op.isAggregatable = true) :
    op.isAside = false := by
  cases op with
  | add place => cases place <;> simp_all [isAggregatable, isAside]
  | sub place => cases place <;> simp_all [isAggregatable, isAside]
  | _ => simp_all [isAggregatable, isAside]

/-- Has a count, a value or a target. -/
def Opcode.takesArg : Opcode → Bool
  | nop | print | input => false
  | _ => true

namespace Opcode

variable {op : Opcode}

theorem takesArg_of_inverse? {other : Opcode} (h : op.inverse? = some other) :
    op.takesArg = true := by
  cases op <;> simp_all [inverse?, takesArg]

theorem takesArg_of_isAggregatable (h : op.isAggregatable = true) : op.takesArg = true := by
  cases op <;> simp_all [isAggregatable, takesArg]

theorem takesArg_of_isSet (h : op.isSet = true) : op.takesArg = true := by
  cases op <;> simp_all [isSet, takesArg]

theorem takesArg_of_isJump (h : op.isJump = true) : op.takesArg = true := by
  cases op <;> simp_all [isJump, takesArg]

end Opcode

/-- The operands that the opcode does not use have the values that the loader gives them. -/
structure Instruction.Canonical (x : Instruction) : Prop where
  dist : x.op.isAside = false → x.dist = 0
  vacant : x.op = .nop → x.arg = 0
  transfer : x.op = .print ∨ x.op = .input → x.arg = 1

/-- All instructions are canonical. -/
def Program.Canonical (p : Program) : Prop :=
  ∀ (i : Nat) (x : Instruction), p[i]? = some x → x.Canonical

namespace Instruction

theorem canonical_nop : nop.Canonical :=
  ⟨fun _ => rfl, fun _ => rfl, by simp [nop]⟩

/-- An instruction that takes an argument may have any. -/
theorem canonical_of_takesArg {op : Opcode} {arg dist : UInt32} (hop : op.takesArg = true)
    (hdist : op.isAside = false → dist = 0) : Canonical ⟨op, arg, dist⟩ := by
  refine ⟨hdist, fun h => ?_, fun h => ?_⟩
  · obtain rfl : op = .nop := h
    cases hop
  · obtain rfl | rfl : op = .print ∨ op = .input := h
    · cases hop
    · cases hop

theorem Canonical.withArg {x : Instruction} (h : x.Canonical) (arg : UInt32)
    (hop : x.op.takesArg = true) : { x with arg }.Canonical :=
  canonical_of_takesArg hop h.dist

end Instruction

namespace Program

open Instruction

variable {p q : Program}

theorem Canonical.put (h : p.Canonical) (i : Nat) {x : Instruction} (hx : x.Canonical) :
    (p.put i x).Canonical := by
  intro j y hy
  rw [getElem?_put] at hy
  split at hy
  · split at hy
    · cases hy
      exact hx
    · cases hy
  · exact h j y hy

theorem Canonical.push (h : p.Canonical) {x : Instruction} (hx : x.Canonical) :
    Canonical (p.push x) := by
  intro j y hy
  rw [Array.getElem?_push] at hy
  split at hy
  · cases hy
    exact hx
  · exact h j y hy

theorem Canonical.vacate (h : p.Canonical) (start stop : Nat) :
    (p.vacate start stop).Canonical := by
  intro j y hy
  rw [getElem?_vacate] at hy
  split at hy
  · cases hy
    exact canonical_nop
  · exact h j y hy

end Program

/-! ## Rules -/

/-- Every instruction that an edit writes is canonical. -/
def Edit.Canonical (edit : Edit) : Prop :=
  ∀ w ∈ edit.writes, w.2.Canonical

theorem Edit.canonical_single {start stop i : Nat} {y : Instruction} (hy : y.Canonical) :
    Edit.Canonical { start, stop, writes := [(i, y)] } := by
  intro w hw
  rw [List.mem_singleton.1 hw]
  exact hy

theorem Program.Canonical.apply {p : Program} {edit : Edit} (h : p.Canonical)
    (hedit : edit.Canonical) : (edit.apply p).Canonical := by
  have writes {q : Program} {ws : List (Nat × Instruction)} (hq : q.Canonical)
      (hws : ∀ w ∈ ws, w.2.Canonical) : (Edit.writeAll q ws).Canonical := by
    induction ws generalizing q with
    | nil => exact hq
    | cons w rest ih =>
      exact ih (hq.put w.1 (hws w List.mem_cons_self)) fun w hw =>
        hws w (List.mem_cons_of_mem _ hw)
  exact writes (h.vacate edit.start edit.stop) hedit

namespace Window

open Instruction

variable {p : Program} {i : Nat} {edit : Edit}

theorem canonical_of_inverseFold? (h : p.Canonical) (he : inverseFold? p i = some edit) :
    edit.Canonical := by
  unfold inverseFold? at he
  split at he
  · rename_i first second hfirst hsecond
    split at he
    · cases he
    · split at he
      · rename_i hinv
        cases he
        refine Edit.canonical_single ?_
        unfold difference
        split
        · exact canonical_nop
        · split
          · exact (h _ _ hsecond).withArg _
              (Opcode.takesArg_of_inverse? (Opcode.inverse?_symm hinv))
          · exact (h _ _ hfirst).withArg _ (Opcode.takesArg_of_inverse? hinv)
      · split at he
        · rename_i hagg
          cases he
          exact Edit.canonical_single
            ((h _ _ hfirst).withArg _ (Opcode.takesArg_of_isAggregatable hagg.2))
        · cases he
  · cases he

theorem canonical_of_foldIntoSet? (h : p.Canonical) (he : foldIntoSet? p i = some edit) :
    edit.Canonical := by
  unfold foldIntoSet? at he
  split at he
  · rename_i first second hfirst hsecond
    split at he
    · rename_i place hset
      split at he
      · cases he
        exact Edit.canonical_single ((h _ _ hfirst).withArg _ (by rw [hset]; rfl))
      · cases he
    · cases he
  · cases he

theorem canonical_of_mergeSets? (h : p.Canonical) (he : mergeSets? p i = some edit) :
    edit.Canonical := by
  unfold mergeSets? at he
  split at he
  · cases he
  · rename_i first hfirst
    split at he
    · rename_i hset
      dsimp only at he
      split at he
      · split at he
        · cases he
          exact Edit.canonical_single ((h _ _ hfirst).withArg _ (Opcode.takesArg_of_isSet hset))
        · cases he
      · cases he
    · cases he

/-- A change aside has a distance and a count of its own. -/
theorem canonical_aside {change : Place → Opcode}
    (hchange : change = .add ∨ change = .sub ∨ change = .set) (side : Direction)
    (arg dist : UInt32) : Instruction.Canonical ⟨change (.aside side), arg, dist⟩ := by
  rcases hchange with rfl | rfl | rfl <;> exact canonical_of_takesArg rfl nofun

theorem canonical_of_offsetArithmetic? (he : offsetArithmetic? p i = some edit) :
    edit.Canonical := by
  unfold offsetArithmetic? at he
  split at he
  · split at he
    · cases he
    · cases he
      exact Edit.canonical_single (canonical_aside (.inl rfl) _ _ _)
  · split at he
    · cases he
    · cases he
      exact Edit.canonical_single (canonical_aside (.inr (.inl rfl)) _ _ _)
  · cases he

theorem canonical_of_offsetSet? (he : offsetSet? p i = some edit) : edit.Canonical := by
  unfold offsetSet? at he
  split at he
  · cases he
    exact Edit.canonical_single (canonical_aside (.inr (.inr rfl)) _ _ _)
  · cases he

theorem canonical_of_constantSet? (he : constantSet? p i = some edit) : edit.Canonical := by
  unfold constantSet? at he
  split at he
  · split at he
    · cases he
      exact Edit.canonical_single (canonical_of_takesArg rfl fun _ => rfl)
    · cases he
  · cases he

theorem canonical_of_unreachableLoop? (he : unreachableLoop? p i = some edit) :
    edit.Canonical := by
  unfold unreachableLoop? at he
  split at he
  · split at he
    · obtain ⟨close, -, rfl⟩ := Option.map_eq_some_iff.1 he
      exact fun w hw => absurd hw List.not_mem_nil
    · cases he
  · cases he

theorem canonical_of_safeWhile? (he : safeWhile? p i = some edit) : edit.Canonical := by
  unfold safeWhile? at he
  split at he
  · split at he
    · obtain ⟨slot, -, rfl⟩ := Option.map_eq_some_iff.1 he
      simp only [Edit.Canonical, List.mem_cons, List.not_mem_nil, or_false,
        forall_eq_or_imp, forall_eq]
      exact ⟨canonical_of_takesArg rfl fun _ => rfl, canonical_of_takesArg rfl fun _ => rfl⟩
    · cases he
  · cases he

end Window

/-- Every rule writes canonical instructions. -/
theorem Rule.canonical_of_edit? {rule : Rule} {p : Program} {i : Nat} {edit : Edit}
    (h : p.Canonical) (he : rule.edit? p i = some edit) : edit.Canonical := by
  cases rule with
  | inverseFold => exact Window.canonical_of_inverseFold? h he
  | constantSet => exact Window.canonical_of_constantSet? he
  | offsetArithmetic => exact Window.canonical_of_offsetArithmetic? he
  | offsetSet => exact Window.canonical_of_offsetSet? he
  | mergeSets => exact Window.canonical_of_mergeSets? h he
  | unreachableLoop => exact Window.canonical_of_unreachableLoop? he
  | foldIntoSet => exact Window.canonical_of_foldIntoSet? h he
  | safeWhile => exact Window.canonical_of_safeWhile? he

/-! ## Derivations -/

namespace Program

variable {p q : Program}

theorem Canonical.visitBelow {sweep : Sweep} (h : sweep.program.Canonical) (n : Nat) :
    (sweep.visitBelow n).program.Canonical := by
  induction n generalizing sweep with
  | zero => exact h
  | succ n ih =>
    refine ih ?_
    unfold Sweep.visit
    split
    · rename_i rule edit hfirst
      exact h.apply (Rule.canonical_of_edit? h (Rule.edit?_of_first? hfirst))
    · exact h

theorem canonical_retarget {table : Array Nat} {size : Nat} {x : Instruction} (h : x.Canonical) :
    (retarget table size x).Canonical := by
  unfold retarget
  split
  · split
    · rename_i hjump
      exact h.withArg _ (Opcode.takesArg_of_isJump hjump)
    · exact h
  · exact h

theorem Canonical.compact (h : p.Canonical) : p.compact.program.Canonical := by
  unfold Program.compact
  split
  · exact h
  · intro i y hy
    obtain ⟨x, hx, rfl⟩ := Array.mem_map.1 (Array.mem_of_getElem? hy)
    obtain ⟨j, hj⟩ := Array.getElem?_of_mem (Array.mem_filter.1 hx).1
    exact canonical_retarget (h j x hj)

/-- What rules, sweeps and compactions make of a canonical program is canonical. -/
theorem Derives.canonical (h : p.Derives q) (hp : p.Canonical) : q.Canonical := by
  induction h with
  | refl => exact hp
  | rule rule i _ hrule ih =>
    obtain ⟨edit, he, rfl⟩ := Option.map_eq_some_iff.1 hrule
    exact ih.apply (Rule.canonical_of_edit? ih he)
  | sweep _ ih => exact ih.visitBelow _
  | compact _ ih => exact ih.compact

end Program

/-! ## The program that a source writes -/

namespace Builder

variable {builder : Builder}

theorem canonical_addSymbol (h : builder.program.Canonical) (symbol : Symbol) (offset : Nat) :
    (builder.addSymbol symbol offset).program.Canonical := by
  have hpush (symbol : Symbol) : (builder.push symbol.op 1).program.Canonical :=
    h.push ⟨fun _ => rfl, by cases symbol <;> simp [Symbol.op], fun _ => rfl⟩
  have hcount (symbol : Symbol) (hagg : symbol.op.isAggregatable = true) :
      (builder.count symbol.op).program.Canonical := by
    unfold count
    split
    · rename_i last hlast
      split
      · rename_i hop
        rw [Array.back?_eq_getElem?] at hlast
        exact h.put _
          ((h _ last hlast).withArg _ (Opcode.takesArg_of_isAggregatable (hop ▸ hagg)))
      · exact hpush symbol
    · exact hpush symbol
  cases symbol with
  | openBracket => exact h.push (Instruction.canonical_of_takesArg rfl fun _ => rfl)
  | closeBracket =>
    unfold addSymbol closeLoop
    dsimp only
    split
    · exact h
    · exact (h.put _ (Instruction.canonical_of_takesArg rfl fun _ => rfl)).push
        (Instruction.canonical_of_takesArg rfl fun _ => rfl)
  | dot => exact hpush .dot
  | comma => exact hpush .comma
  | left => exact hcount .left rfl
  | right => exact hcount .right rfl
  | plus => exact hcount .plus rfl
  | minus => exact hcount .minus rfl

theorem canonical_addBytes (h : builder.program.Canonical) (offset : Nat) (bytes : List UInt8) :
    (builder.addBytes offset bytes).program.Canonical := by
  induction bytes generalizing builder offset with
  | nil => exact h
  | cons b bytes ih =>
    refine ih ?_ (offset + 1)
    unfold addByte
    split
    · exact canonical_addSymbol h _ offset
    · exact h

end Builder

/-- The program of a source is canonical. -/
theorem canonical_parse (source : List UInt8) : (parse source).program.Canonical := by
  have hempty : Program.Canonical ({} : Builder).program := fun _ _ h => by simp at h
  exact Builder.canonical_addBytes hempty 0 source

end TapeCode
