import TapeCode.Stream.Failure

/-!
# Output streams

An output stream keeps the bytes it has taken. It may take only so many, and its flushes may fail.

A stream with a `capacity` holds its bytes back until it is flushed, and then has room again
(`Output.flush`). Without one its flushes have no bearing on what it takes.
-/

namespace TapeCode

/-- An output stream. -/
structure Output where
  /-- The bytes taken so far, oldest first. -/
  bytes : Array UInt8 := #[]
  /-- The number of bytes after which the stream takes no more, if there is one. -/
  limit : Option Nat := none
  /-- How a write fails once the limit is reached. -/
  refusal : Failure := .writeZero
  /-- How every flush fails, if it does. -/
  flushFailure : Option Failure := none
  /-- The number of bytes for which a flush makes room, if it makes any difference. -/
  capacity : Option Nat := none
  deriving DecidableEq, Repr

namespace Output

/-- A stream that holds so many bytes until they are flushed. -/
def buffered (capacity : Nat) (refusal : Failure) : Output :=
  { limit := some capacity, refusal, capacity := some capacity }

/-- The stream has taken all bytes it will take, at least until it is flushed. -/
def isFull (output : Output) : Bool :=
  output.limit.any (· ≤ output.bytes.size)

/-- The stream after it has taken one more byte. -/
def push (output : Output) (b : UInt8) : Output :=
  { output with bytes := output.bytes.push b }

/-- The stream after a flush. One that fails makes no room. -/
def flush (output : Output) : Output :=
  { output with
    limit := match output.flushFailure, output.capacity with
      | none, some capacity => some (output.bytes.size + capacity)
      | _, _ => output.limit }

@[simp] theorem bytes_flush (output : Output) : output.flush.bytes = output.bytes := rfl

/-- All that a flush changes is the limit. -/
theorem flush_eq_self {output : Output} (h : output.flush.limit = output.limit) :
    output.flush = output :=
  congrArg (fun limit => { output with limit }) h

/-- A flush that fails makes no difference. -/
theorem flush_of_flushFailure {output : Output} {cause : Failure}
    (h : output.flushFailure = some cause) : output.flush = output :=
  flush_eq_self (by simp [flush, h])

/-- A second flush makes no more room than the first one. -/
@[simp] theorem flush_flush (output : Output) : output.flush.flush = output.flush := by
  unfold flush
  cases output.flushFailure with
  | some cause => rfl
  | none => cases output.capacity <;> rfl

end Output

end TapeCode
