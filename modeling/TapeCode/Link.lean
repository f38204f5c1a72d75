import TapeCode.Listing
import TapeCode.Warning

/-!
# Links between the two ends of a loop

`Program.linked p i j` says that the jumps at `i` and `j` designate each other with partner
opcodes. `Program.closeOf?` finds the other end of a loop inside a span, and
`Program.brokenLinks` lists the resolved jumps that are not linked to the slot they designate.
-/

namespace TapeCode

namespace Program

/-- The instructions at `i` and `j` are the two ends of a loop: partner opcodes that designate
each other. -/
def linked (p : Program) (i j : Nat) : Bool :=
  match p[i]?, p[j]? with
  | some a, some b =>
    a.op.partner? = some b.op ∧ a.target? = some j ∧ b.target? = some i
  | _, _ => false

/-- The close linked to the loop start at `start`, if it lies after it and before `stop`. -/
def closeOf? (p : Program) (start stop : Nat) : Option Nat := do
  let instr ← p[start]?
  let close ← instr.target?
  if start < close ∧ close < stop ∧ p.linked start close then some close else none

/-- A resolved jump that is not linked to the slot it designates. -/
structure BrokenLink where
  index : Nat
  jump : Instruction
  target : Nat
  deriving DecidableEq, Repr

/-- The resolved jumps that are not linked to the slot they designate, in program order. -/
def brokenLinks (p : Program) : List BrokenLink :=
  p.toList.zipIdx.filterMap fun (jump, index) =>
    match jump.target? with
    | none => none
    | some target =>
      if jump.op.isJump && !p.linked index target then some ⟨index, jump, target⟩ else none

/-- What the user is told about a broken link. -/
def BrokenLink.warning (link : BrokenLink) : Warning where
  message := "Instruction " ++ toString link.index ++ " (" ++ link.jump.text
    ++ ") no longer has a matching partner at " ++ toString link.target

/-- What a link says of its two ends. -/
theorem linked_iff {p : Program} {i j : Nat} : p.linked i j = true ↔
    ∃ a b, p[i]? = some a ∧ p[j]? = some b ∧ a.op.partner? = some b.op ∧ a.target? = some j ∧
      b.target? = some i := by
  unfold linked
  constructor
  · intro h
    split at h
    · rename_i a b ha hb
      exact ⟨a, b, ha, hb, of_decide_eq_true h⟩
    · cases h
  · rintro ⟨a, b, ha, hb, h⟩
    simp only [ha, hb]
    exact decide_eq_true h

/-- Links are mutual. -/
theorem linked_comm (p : Program) (i j : Nat) : p.linked i j = p.linked j i := by
  have flip : ∀ i j, p.linked i j = true → p.linked j i = true := by
    intro i j h
    obtain ⟨a, b, ha, hb, hop, hat, hbt⟩ := linked_iff.1 h
    exact linked_iff.2 ⟨b, a, hb, ha, Opcode.partner?_symm hop, hbt, hat⟩
  exact Bool.eq_iff_iff.2 ⟨flip i j, flip j i⟩

/-- A matching close lies after its start and inside the span. -/
theorem closeOf?_bounds {p : Program} {start stop close : Nat}
    (h : p.closeOf? start stop = some close) : start < close ∧ close < stop := by
  simp only [closeOf?, Option.bind_eq_bind, Option.bind_eq_some_iff] at h
  obtain ⟨instr, _, target, _, h⟩ := h
  split at h
  · cases h
    omega
  · simp at h

/-- A matching close is linked to its start. -/
theorem linked_of_closeOf? {p : Program} {start stop close : Nat}
    (h : p.closeOf? start stop = some close) : p.linked start close = true := by
  simp only [closeOf?, Option.bind_eq_bind, Option.bind_eq_some_iff] at h
  obtain ⟨instr, _, target, _, h⟩ := h
  split at h
  · rename_i hc
    cases h
    exact hc.2.2
  · simp at h

end Program

end TapeCode
