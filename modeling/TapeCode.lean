import TapeCode.Command.Rehearsal
import TapeCode.Main
import TapeCode.Proofs.Block.Analysis
import TapeCode.Proofs.Block.Fusion
import TapeCode.Proofs.Block.Rewrite
import TapeCode.Proofs.Block.Rules
import TapeCode.Proofs.Block.Compact
import TapeCode.Proofs.Block.Parse
import TapeCode.Proofs.Derivation
import TapeCode.Proofs.WellFormed
import TapeCode.Proofs.Course
import TapeCode.Proofs.Course.Trails
import TapeCode.Proofs.Block.Course
import TapeCode.Proofs.Block.Fused
import TapeCode.Proofs.Block.Blind
import TapeCode.Proofs.Block.Sound
import TapeCode.Proofs.Execution
import TapeCode.Proofs.Block.Execution
import TapeCode.Proofs.Optimization
import TapeCode.Proofs.Canonical
import TapeCode.Proofs.Optimization.Transfer
import TapeCode.Proofs.NormalForm
import TapeCode.Proofs.Stepper
import TapeCode.Proofs.Relocation
import TapeCode.Proofs.Compaction
import TapeCode.Proofs.Reading
import TapeCode.Proofs.Reading.Brackets
import TapeCode.Proofs.Reading.Refinement
import TapeCode.Proofs.Reading.Nesting
import TapeCode.Proofs.Reading.Spelling
import TapeCode.Proofs.Band
import TapeCode.Proofs.Budget
import TapeCode.Proofs.Orderly
import TapeCode.Proofs.Optimization.Completion
import TapeCode.Proofs.Folding
import TapeCode.Proofs.Block.Passage
import TapeCode.Proofs.Crossing
import TapeCode.Proofs.Span
import TapeCode.Proofs.Span.Blindness
import TapeCode.Proofs.Span.Append
import TapeCode.Proofs.Span.Cut
import TapeCode.Proofs.Counting
import TapeCode.Proofs.Shrinking
import TapeCode.Proofs.Compaction.Links
import TapeCode.Proofs.Faults
import TapeCode.Proofs.Budget.History
import TapeCode.Proofs.Span.Rewriting
import TapeCode.Proofs.Delivery
import TapeCode.Proofs.Listing
