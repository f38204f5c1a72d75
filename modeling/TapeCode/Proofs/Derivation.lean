import TapeCode.Optimization
import TapeCode.Proofs.Block.Parse

/-!
# Derivations

`Program.Derives p q` says that `q` comes from `p` by any number of rules at any indices, sweeps
and compactions, in any order. Optimizing a program is one such derivation
(`Program.derives_optimize`).

A program that is laid out as a block stays so: `Program.Derives.exists_rewrites` finds the block
of the derived program among the rewrites of the first one.
-/

namespace TapeCode

namespace Program

/-- A program comes from another by rules, sweeps and compactions. -/
inductive Derives (p : Program) : Program → Prop
  | refl : Derives p p
  | rule {q r : Program} (rule : Rule) (i : Nat) : Derives p q → rule.applyAt? q i = some r →
    Derives p r
  | sweep {q : Program} : Derives p q → Derives p q.sweep.program
  | compact {q : Program} : Derives p q → Derives p q.compact.program

namespace Derives

variable {p q r : Program}

theorem trans (h : p.Derives q) (h' : q.Derives r) : p.Derives r := by
  induction h' with
  | refl => exact h
  | rule rule i _ hrule ih => exact .rule rule i ih hrule
  | sweep _ ih => exact .sweep ih
  | compact _ ih => exact .compact ih

end Derives

/-- The passes of an optimization are a derivation that ends with a compaction. -/
theorem exists_compact_optimizeFrom (p : Program) (passes : Array Pass) :
    ∃ q, p.Derives q ∧ (p.optimizeFrom passes).program = q.compact.program := by
  fun_induction optimizeFrom p passes with
  | case1 p => exact ⟨p.sweep.program, .sweep .refl, rfl⟩
  | case2 p _ _ _ _ _ ih =>
    obtain ⟨q, hderives, heq⟩ := ih
    exact ⟨q, .trans (.compact (.sweep .refl)) hderives, heq⟩

theorem derives_optimizeFrom (p : Program) (passes : Array Pass) :
    p.Derives (p.optimizeFrom passes).program := by
  obtain ⟨q, hderives, heq⟩ := p.exists_compact_optimizeFrom passes
  rw [heq]
  exact .compact hderives

/-- Optimizing is a derivation. -/
theorem derives_optimize (p : Program) (level : Level) :
    p.Derives (p.optimize level).program := by
  cases level with
  | asRead => exact .refl
  | minimal => exact p.derives_optimizeFrom #[]
  | maximal => exact p.derives_optimizeFrom #[]

/-! ## The block of a derived program -/

variable {p q : Program} {block : Block}

/-- One visit of a sweep rewrites the block. -/
theorem exists_rewrites_visit {sweep : Sweep} (h : sweep.program.Holds 0 block sweep.program.size)
    (i : Nat) :
    ∃ block', block.Rewrites block' ∧
      (sweep.visit i).program.Holds 0 block' (sweep.visit i).program.size := by
  unfold Sweep.visit
  split
  · rename_i rule edit hfirst
    have hrule : rule.applyAt? sweep.program i = some (edit.apply sweep.program) :=
      Option.map_eq_some_iff.2 ⟨edit, Rule.edit?_of_first? hfirst, rfl⟩
    obtain ⟨block', hrewrite, hholds⟩ := Rule.exists_rewrite_of_applyAt? h hrule
    exact ⟨block', .head hrewrite .refl, hholds⟩
  · exact ⟨block, .refl, h⟩

theorem exists_rewrites_visitBelow {sweep : Sweep}
    (h : sweep.program.Holds 0 block sweep.program.size) (n : Nat) :
    ∃ block', block.Rewrites block' ∧
      (sweep.visitBelow n).program.Holds 0 block' (sweep.visitBelow n).program.size := by
  induction n generalizing sweep block with
  | zero => exact ⟨block, .refl, h⟩
  | succ n ih =>
    obtain ⟨middle, hvisit, hmiddle⟩ := exists_rewrites_visit h n
    obtain ⟨block', hrest, hholds⟩ := ih hmiddle
    exact ⟨block', hvisit.trans hrest, hholds⟩

/-- The derived program is laid out as a rewritten block. -/
theorem Derives.exists_rewrites (h : p.Derives q) (hblock : p.Holds 0 block p.size) :
    ∃ block', block.Rewrites block' ∧ q.Holds 0 block' q.size := by
  induction h with
  | refl => exact ⟨block, .refl, hblock⟩
  | rule rule i _ hrule ih =>
    obtain ⟨middle, hmiddle, hholds⟩ := ih
    obtain ⟨block', hrewrite, hholds⟩ := Rule.exists_rewrite_of_applyAt? hholds hrule
    exact ⟨block', hmiddle.trans (.head hrewrite .refl), hholds⟩
  | sweep _ ih =>
    obtain ⟨middle, hmiddle, hholds⟩ := ih
    obtain ⟨block', hsweep, hholds⟩ := @exists_rewrites_visitBelow _ ⟨_, #[]⟩ hholds _
    exact ⟨block', hmiddle.trans hsweep, hholds⟩
  | compact _ ih =>
    obtain ⟨middle, hmiddle, hholds⟩ := ih
    exact ⟨middle.compact, hmiddle.trans middle.rewrites_compact, hholds.compact_program⟩

end Program

end TapeCode
