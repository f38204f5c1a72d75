import TapeCode.Proofs.Canonical
import TapeCode.Proofs.Optimization

/-!
# Normal forms

A program is normal if no rule applies to it at any index. Optimization of a program without
vacant slots ends with a normal program without vacant slots, since the last sweep finds nothing
to do and so leaves nothing to compact (`Program.normal_optimizeFrom`). A normal program is
optimized in one pass that changes nothing (`Program.optimize_of_isNormal`), from which
idempotence follows (`fixedPoint_optimize`).

A program with vacant slots can be normal only because of them: no rule looks across the gap. Then
the first sweep finds nothing to do, and the compaction after it, which closes the gap, is the
last one. This is the only way for an optimization to end before a normal program is reached
(`normal_optimize_iff`).
-/

namespace TapeCode

/-! ## Sweeps without a firing -/

namespace Sweep

variable {sweep : Sweep} {i n : Nat}

theorem size_firings_visit (sweep : Sweep) (i : Nat) :
    sweep.firings.size ≤ (sweep.visit i).firings.size := by
  unfold visit
  split
  · simp
  · exact Nat.le_refl _

theorem size_firings_visitBelow (sweep : Sweep) (n : Nat) :
    sweep.firings.size ≤ (sweep.visitBelow n).firings.size := by
  induction n generalizing sweep with
  | zero => exact Nat.le_refl _
  | succ n ih => exact Nat.le_trans (size_firings_visit sweep n) (ih _)

/-- A visit without a firing finds no rule that applies, and changes nothing. -/
theorem visit_of_idle (h : (sweep.visit i).firings.size = sweep.firings.size) :
    sweep.visit i = sweep ∧ ∀ rule : Rule, rule.edit? sweep.program i = none := by
  unfold visit at h ⊢
  split
  · rename_i rule edit hfirst
    rw [hfirst] at h
    simp at h
  · rename_i hfirst
    refine ⟨rfl, fun rule => ?_⟩
    have hnone := List.findSome?_eq_none_iff.1 hfirst rule (by cases rule <;> decide)
    exact Option.map_eq_none_iff.1 hnone

theorem visitBelow_of_idle (h : (sweep.visitBelow n).firings.size = sweep.firings.size) :
    sweep.visitBelow n = sweep ∧ ∀ i < n, ∀ rule : Rule, rule.edit? sweep.program i = none := by
  induction n generalizing sweep with
  | zero => exact ⟨rfl, fun i hi => absurd hi (Nat.not_lt_zero i)⟩
  | succ n ih =>
    have hvisit := size_firings_visit sweep n
    have hrest : (sweep.visit n).firings.size ≤ (sweep.visitBelow (n + 1)).firings.size :=
      size_firings_visitBelow (sweep.visit n) n
    have hidle : (sweep.visit n).firings.size = sweep.firings.size := by omega
    obtain ⟨hsame, hn⟩ := visit_of_idle hidle
    rw [visitBelow, hsame] at h ⊢
    obtain ⟨hall, hbelow⟩ := ih h
    refine ⟨hall, fun i hi => ?_⟩
    rcases Nat.lt_succ_iff_lt_or_eq.1 hi with hlt | rfl
    · exact hbelow i hlt
    · exact hn

end Sweep

namespace Program

variable {p : Program} {block : Block}

/-- No rule applies at any index. -/
def IsNormal (p : Program) : Prop :=
  ∀ (rule : Rule) (i : Nat), rule.applyAt? p i = none

theorem isNormal_iff : p.IsNormal ↔ ∀ (rule : Rule) (i : Nat), rule.edit? p i = none := by
  simp only [IsNormal, Rule.applyAt?, Option.map_eq_none_iff]

/-- A sweep without a firing leaves the program alone, which is normal. -/
theorem sweep_of_idle (h : p.sweep.firings.size = 0) : p.sweep.program = p ∧ p.IsNormal := by
  have hidle : (Sweep.visitBelow ⟨p, #[]⟩ p.size).firings.size = (#[] : Array Firing).size := h
  obtain ⟨hsame, hbelow⟩ := Sweep.visitBelow_of_idle hidle
  refine ⟨congrArg (·.program) hsame, isNormal_iff.2 fun rule i => ?_⟩
  rcases Nat.lt_or_ge i p.size with hlt | hge
  · exact hbelow i hlt rule
  · refine Rule.edit?_eq_none fun x hx => ?_
    rw [Array.getElem?_eq_none hge] at hx
    cases hx

/-- A sweep over a normal program finds nothing to do. -/
theorem sweep_of_isNormal (h : p.IsNormal) : p.sweep = ⟨p, #[]⟩ := by
  have hvisit (i : Nat) : Sweep.visit ⟨p, #[]⟩ i = ⟨p, #[]⟩ := by
    have hfirst : Rule.first? p i = none := by
      refine List.findSome?_eq_none_iff.2 fun rule _ => ?_
      rw [isNormal_iff.1 h]
      rfl
    rw [Sweep.visit, hfirst]
  have hbelow (n : Nat) : Sweep.visitBelow ⟨p, #[]⟩ n = ⟨p, #[]⟩ := by
    induction n with
    | zero => rfl
    | succ n ih => rw [Sweep.visitBelow, hvisit, ih]
  exact hbelow p.size

/-! ## Passes -/

theorem all_isLive_iff : p.all (·.isLive) = true ↔ ∀ x ∈ p, x.op ≠ .nop := by
  rw [Array.all_eq_true_iff_forall_mem]
  refine forall₂_congr fun x _ => ?_
  cases hop : x.op <;> simp [Instruction.isLive, hop, Opcode.isLive]

theorem compact_of_all (h : p.all (·.isLive) = true) : p.compact = ⟨p, []⟩ :=
  if_pos h

theorem all_isLive_compact (p : Program) : p.compact.program.all (·.isLive) = true := by
  unfold compact
  split
  · assumption
  · rw [Array.all_eq_true_iff_forall_mem]
    intro y hy
    obtain ⟨x, hx, rfl⟩ := Array.mem_map.1 hy
    rw [Instruction.isLive, op_retarget]
    exact (Array.mem_filter.1 hx).2

/-- Optimization of a program without vacant slots ends with a normal program
without vacant slots. -/
theorem normal_optimizeFrom (hall : p.all (·.isLive) = true) (passes : Array Pass) :
    (p.optimizeFrom passes).program.all (·.isLive) = true ∧
      (p.optimizeFrom passes).program.IsNormal := by
  fun_induction optimizeFrom p passes with
  | case1 p passes swept compacted passes' hidle =>
    obtain ⟨hsame, hnormal⟩ := sweep_of_idle hidle
    have hprogram : compacted.program = p := by
      simp only [compacted, swept, hsame, compact_of_all hall]
    rw [hprogram]
    exact ⟨hall, hnormal⟩
  | case2 p passes swept compacted passes' _ ih => exact ih (all_isLive_compact _)

/-- A normal program without vacant slots is optimized in one pass that finds nothing to do. -/
theorem optimize_of_isNormal (hall : p.all (·.isLive) = true) (h : p.IsNormal) :
    p.optimize .minimal = ⟨p, #[⟨#[], [], p.size⟩]⟩ := by
  rw [optimize, optimizeFrom, sweep_of_isNormal h]
  simp only [compact_of_all hall]
  rfl

/-- A pass over a program that is laid out as a block breaks no link and leaves such a program. -/
theorem broken_compact_sweep (hblock : ∃ block : Block, p.Holds 0 block p.size) :
    p.sweep.program.compact.broken = [] ∧ ∃ block : Block,
      p.sweep.program.compact.program.Holds 0 block p.sweep.program.compact.program.size := by
  obtain ⟨block, hblock⟩ := hblock
  obtain ⟨middle, -, hholds⟩ := (Derives.refl.sweep : p.Derives _).exists_rewrites hblock
  exact ⟨hholds.broken_compact, middle.compact, hholds.compact_program⟩

theorem broken_of_mem_passes (hblock : ∃ block : Block, p.Holds 0 block p.size)
    {passes : Array Pass} {pass : Pass} (h : pass ∈ (p.optimizeFrom passes).passes) :
    pass ∈ passes ∨ pass.broken = [] := by
  fun_induction optimizeFrom p passes with
  | case1 p passes swept compacted passes' hidle =>
    rcases Array.mem_push.1 h with hbefore | rfl
    · exact .inl hbefore
    · exact .inr (broken_compact_sweep hblock).1
  | case2 p passes swept compacted passes' hfired ih =>
    obtain ⟨hbroken, hrest⟩ := broken_compact_sweep hblock
    rcases ih hrest h with hmem | hnone
    · rcases Array.mem_push.1 hmem with hbefore | rfl
      · exact .inl hbefore
      · exact .inr hbroken
    · exact .inr hnone

/-- Optimizing a program that is laid out as a block gives no warning. -/
theorem warnings_optimize (hblock : p.Holds 0 block p.size) :
    (p.optimize .minimal).warnings = [] := by
  refine List.flatMap_eq_nil_iff.2 fun pass hpass => ?_
  rcases broken_of_mem_passes ⟨block, hblock⟩ (Array.mem_toList_iff.1 hpass) with hmem | hnone
  · exact absurd hmem (Array.not_mem_empty pass)
  · rw [hnone]
    rfl

/-! ## Neighbours -/

/-- Neighbours in a normal program with one distance do not merge. -/
theorem IsNormal.not_isAggregatable (h : p.IsNormal) {i : Nat} {x y : Instruction}
    (hx : p[i]? = some x) (hy : p[i + 1]? = some y) (hdist : x.dist = y.dist)
    (hop : x.op = y.op) : x.op.isAggregatable = false := by
  refine Bool.eq_false_iff.2 fun hagg => ?_
  have hnone : Window.inverseFold? p i = none := isNormal_iff.1 h .inverseFold i
  have hinv : x.op.inverse? ≠ some y.op := hop ▸ x.op.inverse?_ne_self
  simp only [Window.inverseFold?, hx, hy, hdist, ne_eq, not_true_eq_false, if_false] at hnone
  rw [if_neg hinv, if_pos ⟨hop, hagg⟩] at hnone
  cases hnone

/-- A block without vacant slots has live instructions only. -/
theorem Holds.isLive_of_solid {i stop : Nat} (h : p.Holds i block stop) (hsolid : block.Solid)
    {j : Nat} {x : Instruction} (hle : i ≤ j) (hlt : j < stop)
    (hx : p[j]? = some x) : x.isLive = true := by
  have live {y : Instruction} {op : Opcode} (hy : p[j]? = some y) (hop : y.op = op)
      (hlive : op.isLive = true) : x.isLive = true := by
    obtain rfl := Option.some.inj (hx.symm.trans hy)
    rwa [Instruction.isLive, hop]
  induction h with
  | done => omega
  | @instr i stop y rest hy _ _ ih =>
    rcases Nat.lt_or_eq_of_le hle with hlater | rfl
    · exact ih hsolid.2 hlater hlt
    · exact live hy rfl hsolid.1
  | @loop i close stop kind body rest hloop _ _ ihBody ihRest =>
    rcases Nat.lt_or_eq_of_le hle with hlater | rfl
    · rcases Nat.lt_trichotomy j close with hin | rfl | hbehind
      · exact ihBody hsolid.1 hlater hin
      · obtain ⟨b, hb, hbop, -⟩ := hloop.closes
        exact live hb hbop rfl
      · exact ihRest hsolid.2 hbehind hlt
    · obtain ⟨a, ha, haop, -⟩ := hloop.opens
      exact live ha haop rfl
  | @stub i stop a kind rest ha haop _ _ ih =>
    rcases Nat.lt_or_eq_of_le hle with hlater | rfl
    · exact ih hsolid hlater hlt
    · exact live ha haop rfl

end Program

/-- The program of a source has no vacant slot. -/
theorem live_parse {source : List UInt8} (hlength : source.length < 2 ^ 32) :
    ∀ x ∈ (parse source).program, x.op ≠ .nop := by
  obtain ⟨block, hholds, hfresh, -⟩ := parse_holds hlength
  refine Program.all_isLive_iff.1 (Array.all_eq_true_iff_forall_mem.2 fun x hx => ?_)
  obtain ⟨i, hi⟩ := Array.getElem?_of_mem hx
  have hlt := (Array.getElem?_eq_some_iff.1 hi).1
  exact hholds.isLive_of_solid hfresh.solid (Nat.zero_le i) hlt hi

/-- In the optimized program of a source no two neighbours merge: they have no distance, so that
the rule for equal instructions would apply. -/
theorem not_isAggregatable_optimize {source : List UInt8} (hlength : source.length < 2 ^ 32)
    {i : Nat} {x y : Instruction}
    (hx : ((parse source).program.optimize .minimal).program[i]? = some x)
    (hy : ((parse source).program.optimize .minimal).program[i + 1]? = some y)
    (hop : x.op = y.op) : x.op.isAggregatable = false := by
  refine Bool.eq_false_iff.2 fun hagg => ?_
  have hcanonical := ((parse source).program.derives_optimize .minimal).canonical
    (canonical_parse source)
  have hdist {j : Nat} {z : Instruction}
      (hz : ((parse source).program.optimize .minimal).program[j]? = some z)
      (hagg : z.op.isAggregatable = true) : z.dist = 0 :=
    (hcanonical j z hz).dist (Opcode.isAside_of_isAggregatable hagg)
  have hsame : x.dist = y.dist := (hdist hx hagg).trans (hdist hy (hop ▸ hagg)).symm
  have hnormal : ((parse source).program.optimize .minimal).program.IsNormal :=
    (Program.normal_optimizeFrom (Program.all_isLive_iff.2 (live_parse hlength)) #[]).2
  rw [hnormal.not_isAggregatable hx hy hsame hop] at hagg
  cases hagg

/-- Optimizing a program without vacant slots ends with a normal one without vacant slots, which a
second optimization leaves alone. The program of a source has no vacant slot; its optimization
gives no warning, breaks no link and leaves no neighbours that merge. -/
theorem fixedPoint_optimize :
    (∀ p : Program, (∀ x ∈ p, x.op ≠ .nop) →
      (∀ x ∈ (p.optimize .minimal).program, x.op ≠ .nop) ∧
      (p.optimize .minimal).program.IsNormal ∧
      ((p.optimize .minimal).program.optimize .minimal).program = (p.optimize .minimal).program ∧
      ((p.optimize .minimal).program.optimize .minimal).warnings = []) ∧
    ∀ source : List UInt8, source.length < 2 ^ 32 →
      (∀ x ∈ (parse source).program, x.op ≠ .nop) ∧
      ((parse source).program.optimize .minimal).warnings = [] ∧
      ((parse source).program.optimize .minimal).program.brokenLinks = [] ∧
      ∀ (i : Nat) (x y : Instruction),
        ((parse source).program.optimize .minimal).program[i]? = some x →
        ((parse source).program.optimize .minimal).program[i + 1]? = some y → x.op = y.op →
        x.op.isAggregatable = false := by
  refine ⟨fun p h => ?_, fun source hlength => ?_⟩
  · obtain ⟨hall, hnormal⟩ := Program.normal_optimizeFrom (Program.all_isLive_iff.2 h) #[]
    have hagain := Program.optimize_of_isNormal hall hnormal
    refine ⟨Program.all_isLive_iff.1 hall, hnormal, congrArg (·.program) hagain, ?_⟩
    exact congrArg Optimized.warnings hagain
  · obtain ⟨block, hholds, hfresh, -⟩ := parse_holds hlength
    obtain ⟨block', -, -, hholds'⟩ := hholds.optimize hfresh.solid .minimal
    exact ⟨live_parse hlength, Program.warnings_optimize hholds, hholds'.brokenLinks_eq_nil,
      fun i x y hx hy hop => not_isAggregatable_optimize hlength hx hy hop⟩

/-- A program whose loop ends do not match, and a source with a loop, a comment and two changes
that cancel (`[->+<] +-`). -/
theorem fixedPoint_optimize_of_mismatch :
    (Program.optimize #[⟨.opens .tested, 3, 0⟩, ⟨.move .right, 1, 0⟩, ⟨.move .left, 1, 0⟩,
        ⟨.closes .tested, 7, 5⟩] .minimal).program.IsNormal ∧
      ((parse [91, 45, 62, 43, 60, 93, 32, 43, 45]).program.optimize .minimal).warnings = [] :=
  ⟨(fixedPoint_optimize.1 #[⟨.opens .tested, 3, 0⟩, ⟨.move .right, 1, 0⟩, ⟨.move .left, 1, 0⟩,
    ⟨.closes .tested, 7, 5⟩] (by decide)).2.1,
    (fixedPoint_optimize.2 [91, 45, 62, 43, 60, 93, 32, 43, 45] (by decide)).2.1⟩

/-! ## Programs with vacant slots -/

namespace Program

variable {p : Program}

/-- A sweep finds nothing to do exactly in the normal programs. -/
theorem size_firings_sweep_eq_zero_iff : p.sweep.firings.size = 0 ↔ p.IsNormal := by
  refine ⟨fun h => (sweep_of_idle h).2, fun h => ?_⟩
  rw [sweep_of_isNormal h]
  rfl

/-- A normal program is only compacted. -/
theorem program_optimize_of_isNormal (h : p.IsNormal) :
    (p.optimize .minimal).program = p.compact.program := by
  rw [optimize, optimizeFrom, sweep_of_isNormal h]
  rfl

/-- An optimization with a firing ends with a normal program: the passes behind the first one
start without vacant slots. -/
theorem normal_optimize_of_not_isNormal (h : ¬ p.IsNormal) :
    (p.optimize .minimal).program.all (·.isLive) = true ∧
    (p.optimize .minimal).program.IsNormal := by
  have hfired : p.sweep.firings.size ≠ 0 := mt size_firings_sweep_eq_zero_iff.1 h
  rw [optimize, optimizeFrom]
  simp only [if_neg hfired]
  exact normal_optimizeFrom (all_isLive_compact _) _

/-- No optimization leaves a vacant slot. -/
theorem all_isLive_optimize (p : Program) :
    (p.optimize .minimal).program.all (·.isLive) = true := by
  by_cases h : p.IsNormal
  · rw [program_optimize_of_isNormal h]
    exact all_isLive_compact p
  · exact (normal_optimize_of_not_isNormal h).1

end Program

/-- An optimization leaves no vacant slot. It ends with a normal program unless the program was
normal and its compaction is not, and exactly then a second optimization leaves the outcome alone.
The outcome of the second one is normal in any case. -/
theorem normal_optimize_iff (p : Program) :
    (∀ x ∈ (p.optimize .minimal).program, x.op ≠ .nop) ∧
      ((p.optimize .minimal).program.IsNormal ↔ (p.IsNormal → p.compact.program.IsNormal)) ∧
      (((p.optimize .minimal).program.optimize .minimal).program = (p.optimize .minimal).program ↔
        (p.optimize .minimal).program.IsNormal) ∧
      ((p.optimize .minimal).program.optimize .minimal).program.IsNormal := by
  have hall := p.all_isLive_optimize
  have hagain := Program.normal_optimizeFrom hall #[]
  refine ⟨Program.all_isLive_iff.1 hall, ?_, ?_, hagain.2⟩
  · by_cases h : p.IsNormal
    · rw [Program.program_optimize_of_isNormal h, forall_prop_of_true h]
    · exact ⟨fun _ hnormal => absurd hnormal h,
        fun _ => (Program.normal_optimize_of_not_isNormal h).2⟩
  · constructor
    · intro hsame
      exact hsame ▸ hagain.2
    · intro hnormal
      rw [Program.optimize_of_isNormal hall hnormal]

/-- Two changes that cancel, with a vacant slot between them (`+`, nothing, `-`). -/
def Program.parted : Program :=
  #[⟨.add .here, 1, 0⟩, .nop, ⟨.sub .here, 1, 0⟩]

/-- Not every program with a vacant slot ends as a normal one, or as one that a second
optimization leaves alone: no two slots of `Program.parted` are adjacent to a rule, and its
compaction `+-` is what the optimization answers. -/
theorem not_normal_optimize_of_vacant :
    ¬ ∀ p : Program, (∃ x ∈ p, x.op = .nop) →
      (p.optimize .minimal).program.IsNormal ∧
        ((p.optimize .minimal).program.optimize .minimal).program =
          (p.optimize .minimal).program := by
  intro h
  have hnormal : Program.parted.IsNormal := (Program.sweep_of_idle (by decide)).2
  have hclosed : Program.parted.compact.program = #[⟨.add .here, 1, 0⟩, ⟨.sub .here, 1, 0⟩] := by
    decide +kernel
  obtain ⟨hend, -⟩ := h Program.parted ⟨.nop, by simp [Program.parted], rfl⟩
  rw [Program.program_optimize_of_isNormal hnormal, hclosed] at hend
  have hfires : Rule.inverseFold.applyAt? #[⟨.add .here, 1, 0⟩, ⟨.sub .here, 1, 0⟩] 0 ≠ none := by
    decide
  exact hfires (hend .inverseFold 0)

end TapeCode
