import TapeCode.Stream.Failure

/-!
# Input streams

An input stream is the list of what is still to arrive: chunks of bytes and failures. An empty
chunk makes one read come back without a byte, and so does the end of the list.

`Input.readByte` reads one byte, trying again as long as it is interrupted; `Input.readAll` reads
until the first read that brings nothing.
-/

namespace TapeCode

/-- Something that arrives on an input stream. -/
inductive Arrival where
  | data (bytes : List UInt8)
  | failure (cause : Failure)
  deriving DecidableEq, Repr

/-- An input stream: what is still to arrive, in order. -/
abbrev Input := List Arrival

/-- The answer to a request for one byte. -/
inductive ReadResult where
  | byte (value : UInt8)
  | nothing
  | failed (cause : Failure)
  deriving DecidableEq, Repr

namespace Input

/-- A stream that delivers the given bytes in one chunk. -/
def ofBytes (bytes : List UInt8) : Input :=
  [.data bytes]

/-- Asks for one byte, and asks again at once when interrupted. A chunk or a failure that is used
up is dropped. -/
def readByte : Input → ReadResult × Input
  | [] => (.nothing, [])
  | .data [] :: rest => (.nothing, rest)
  | .data [b] :: rest => (.byte b, rest)
  | .data (b :: bs) :: rest => (.byte b, .data bs :: rest)
  | .failure .interrupted :: rest => readByte rest
  | .failure cause :: rest => (.failed cause, rest)

/-- The number of arrivals and bytes still to come. -/
def weight : Input → Nat
  | [] => 0
  | .data bytes :: rest => bytes.length + 1 + weight rest
  | .failure _ :: rest => 1 + weight rest

/-- Reading a byte makes a stream lighter. -/
theorem weight_readByte_lt {input rest : Input} {b : UInt8}
    (h : input.readByte = (.byte b, rest)) : rest.weight < input.weight := by
  fun_induction readByte input with
  | case1 => simp at h
  | case2 => simp at h
  | case3 b' rest' =>
    obtain ⟨-, rfl⟩ := Prod.mk.inj h
    simp [weight]
  | case4 b' bs rest' =>
    obtain ⟨-, rfl⟩ := Prod.mk.inj h
    simp [weight]
  | case5 rest' ih =>
    have := ih h
    simp only [weight]
    omega
  | case6 => simp at h

/-- Adds the remaining bytes of a stream to those already read. -/
def readOnto (bytes : Array UInt8) (input : Input) : Except Failure (Array UInt8) :=
  match h : input.readByte with
  | (.byte b, rest) =>
    have := weight_readByte_lt h
    readOnto (bytes.push b) rest
  | (.nothing, _) => .ok bytes
  | (.failed cause, _) => .error cause
termination_by input.weight

/-- All bytes up to the first read that brings nothing, or the failure that ends the reading. -/
def readAll (input : Input) : Except Failure (Array UInt8) :=
  readOnto #[] input

end Input

end TapeCode
