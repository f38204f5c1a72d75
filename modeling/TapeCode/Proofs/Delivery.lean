import TapeCode.Proofs.Execution
import TapeCode.Source

/-!
# How bytes arrive

Bytes may arrive in chunks of any size, with interruptions anywhere between them. Two streams that
differ only in this are told apart by nothing that reads them byte by byte (`Input.Rechunks`): a
source that is loaded from either is the same program with the same notes, or fails for the same
reason, and a machine that reads from either goes through the same states (`deliveries_agree`).

What a stream brings is the list of the answers it gives to requests for one byte
(`Input.answers`). Asking for a byte takes the first answer away (`Input.readByte_fst`,
`Input.answers_readByte`), and streams with the same answers differ only in chunks and
interruptions (`Input.rechunks_iff`).
-/

namespace TapeCode

namespace Input

variable {s t : Input}

/-! ## What a stream brings -/

/-- The two streams differ only in how their data is cut into chunks, none of them empty, and in
where they are interrupted. -/
inductive Rechunks : Input → Input → Prop
  | refl (s : Input) : Rechunks s s
  | symm {s t : Input} : Rechunks s t → Rechunks t s
  | trans {s t u : Input} : Rechunks s t → Rechunks t u → Rechunks s u
  /-- A chunk may be cut in two. -/
  | cut (first second : List UInt8) (rest : Input) : first ≠ [] → second ≠ [] →
    Rechunks (.data (first ++ second) :: rest) (.data first :: .data second :: rest)
  /-- An interruption may be left out. -/
  | interrupted (rest : Input) : Rechunks (.failure .interrupted :: rest) rest
  /-- What comes first may stay. -/
  | behind {s t : Input} (first : Arrival) : Rechunks s t → Rechunks (first :: s) (first :: t)

/-- The arrivals are chunks of data, none of them empty, and interruptions, and carry
the given bytes. -/
inductive Carries : Input → List UInt8 → Prop
  | nothing : Carries [] []
  | data {rest : Input} {bytes : List UInt8} (chunk : List UInt8) :
    chunk ≠ [] → Carries rest bytes → Carries (.data chunk :: rest) (chunk ++ bytes)
  | interrupted {rest : Input} {bytes : List UInt8} : Carries rest bytes →
    Carries (.failure .interrupted :: rest) bytes

/-- The next read comes back without a byte: the stream is at its end, or an
empty chunk arrives. -/
def Pauses (s : Input) : Prop :=
  s = [] ∨ ∃ rest, s = .data [] :: rest

end Input

/-- The answers to requests for one byte that an arrival gives before it is used up. -/
def Arrival.answers : Arrival → List ReadResult
  | data [] => [.nothing]
  | data bytes => bytes.map .byte
  | failure .interrupted => []
  | failure cause => [.failed cause]

/-- The arrival that gives one answer. -/
def ReadResult.arrival : ReadResult → Arrival
  | byte b => .data [b]
  | nothing => .data []
  | failed cause => .failure cause

namespace Input

variable {s t : Input}

/-- The answers to requests for one byte until a stream is at its end. -/
def answers (s : Input) : List ReadResult :=
  s.flatMap Arrival.answers

theorem answers_cons (first : Arrival) (s : Input) :
    answers (first :: s) = first.answers ++ s.answers :=
  List.flatMap_cons

theorem answers_data {bytes : List UInt8} (h : bytes ≠ []) :
    Arrival.answers (.data bytes) = bytes.map .byte := by
  cases bytes with
  | nil => exact absurd rfl h
  | cons => rfl

theorem answers_failure {cause : Failure} (h : cause ≠ .interrupted) :
    Arrival.answers (.failure cause) = [.failed cause] := by
  cases cause with
  | interrupted => exact absurd rfl h
  | _ => rfl

/-- What is carried comes before all other answers. -/
theorem Carries.answers_append {bytes : List UInt8} (h : s.Carries bytes) (t : Input) :
    answers (s ++ t) = bytes.map .byte ++ t.answers := by
  induction h with
  | nothing => rfl
  | data chunk hchunk _ ih =>
    rw [List.cons_append, answers_cons, answers_data hchunk, ih, List.map_append,
      List.append_assoc]
  | interrupted _ ih => exact ih

/-! ## Reading one byte -/

/-- A request for a byte gets the first answer, and nothing from then on. -/
theorem readByte_fst (s : Input) : s.readByte.1 = s.answers.headD .nothing := by
  fun_induction readByte s with
  | case1 => rfl
  | case2 => rfl
  | case3 => rfl
  | case4 => rfl
  | case5 rest ih => exact ih
  | case6 cause rest hcause =>
    rw [answers_cons, answers_failure (by simpa using hcause)]
    rfl

/-- The other answers are still to come. -/
theorem answers_readByte (s : Input) : s.readByte.2.answers = s.answers.tail := by
  fun_induction readByte s with
  | case1 => rfl
  | case2 => rfl
  | case3 => rfl
  | case4 b bytes rest hbytes =>
    rw [answers_cons, answers_cons, answers_data (by simpa using hbytes)]
    rfl
  | case5 rest ih => exact ih
  | case6 cause rest hcause =>
    rw [answers_cons, answers_failure (by simpa using hcause)]
    rfl

/-! ## Streams with the same answers -/

theorem Rechunks.answers_eq (h : s.Rechunks t) : s.answers = t.answers := by
  induction h with
  | refl => rfl
  | symm _ ih => exact ih.symm
  | trans _ _ ih ih' => exact ih.trans ih'
  | cut first second rest hfirst hsecond =>
    have hboth : first ++ second ≠ [] := List.append_ne_nil_of_left_ne_nil hfirst second
    simp only [answers_cons, answers_data hfirst, answers_data hsecond, answers_data hboth,
      List.map_append, List.append_assoc]
  | interrupted rest => rfl
  | behind first _ ih => rw [answers_cons, answers_cons, ih]

/-- A chunk may arrive byte by byte. -/
theorem rechunks_data {bytes : List UInt8} (h : bytes ≠ []) (rest : Input) :
    Rechunks (.data bytes :: rest) (bytes.map (fun b => .data [b]) ++ rest) := by
  induction bytes with
  | nil => exact absurd rfl h
  | cons b bytes ih =>
    cases bytes with
    | nil => exact .refl _
    | cons b' bytes =>
      exact .trans (.cut [b] (b' :: bytes) rest (by simp) (by simp)) (.behind _ (ih (by simp)))

/-- A stream may give its answers one by one. -/
theorem rechunks_answers (s : Input) : s.Rechunks (s.answers.map ReadResult.arrival) := by
  induction s with
  | nil => exact .refl []
  | cons first rest ih =>
    rw [answers_cons, List.map_append]
    cases first with
    | data bytes =>
      by_cases hbytes : bytes = []
      · subst hbytes
        exact .behind _ ih
      · rw [answers_data hbytes, List.map_map]
        exact .trans (.behind _ ih) (rechunks_data hbytes _)
    | failure cause =>
      by_cases hcause : cause = .interrupted
      · subst hcause
        exact .trans (.interrupted rest) ih
      · rw [answers_failure hcause]
        exact .behind _ ih

/-- Streams give the same answers if they differ only in chunks and interruptions,
and only then. -/
theorem rechunks_iff : s.Rechunks t ↔ s.answers = t.answers :=
  ⟨Rechunks.answers_eq, fun h => .trans s.rechunks_answers (h ▸ .symm t.rechunks_answers)⟩

/-- A byte is the same in both streams, and what is left of them differs only in
chunks and interruptions. -/
theorem Rechunks.readByte (h : s.Rechunks t) :
    t.readByte.1 = s.readByte.1 ∧ s.readByte.2.Rechunks t.readByte.2 := by
  have hanswers := h.answers_eq
  refine ⟨by rw [readByte_fst, readByte_fst, hanswers], rechunks_iff.2 ?_⟩
  rw [answers_readByte, answers_readByte, hanswers]

/-! ## Reading all bytes -/

/-- The first answer says how the reading goes on. -/
theorem readOnto_eq (read : Array UInt8) (s : Input) :
    s.readOnto read = match s.answers.headD .nothing with
      | .byte b => s.readByte.2.readOnto (read.push b)
      | .nothing => .ok read
      | .failed cause => .error cause := by
  rw [readOnto, ← readByte_fst]
  split
  all_goals
    rename_i hread
    simp only [hread]

/-- Bytes are read up to another answer. -/
theorem exists_readOnto {bytes : List UInt8} {others : List ReadResult} (read : Array UInt8)
    (h : s.answers = bytes.map .byte ++ others) :
    ∃ rest : Input, s.readOnto read = rest.readOnto (read ++ bytes) ∧ rest.answers = others := by
  induction bytes generalizing s read with
  | nil => exact ⟨s, by simp, h⟩
  | cons b bytes ih =>
    obtain ⟨rest, hrest, hothers⟩ :=
      ih (read.push b) (s := s.readByte.2) (by rw [answers_readByte, h]; rfl)
    refine ⟨rest, ?_, hothers⟩
    rw [readOnto_eq, h]
    exact hrest.trans (by simp)

theorem Pauses.headD_answers (h : s.Pauses) : s.answers.headD .nothing = .nothing := by
  rcases h with rfl | ⟨rest, rfl⟩
  · rfl
  · rfl

/-- The bytes that arrive before a read comes back without one are all that is read. -/
theorem Carries.load_of_pauses {bytes : List UInt8} (h : s.Carries bytes) (ht : t.Pauses) :
    load (s ++ t) = .ok (parse bytes) := by
  obtain ⟨rest, hrest, hothers⟩ := exists_readOnto #[] (h.answers_append t)
  have hread : readAll (s ++ t) = .ok bytes.toArray := by
    rw [readAll, hrest, readOnto_eq, hothers, ht.headD_answers]
    simp
  rw [load, hread]
  rfl

/-- A failure other than an interruption ends the reading. -/
theorem Carries.load_of_failure {bytes : List UInt8} {cause : Failure} (h : s.Carries bytes)
    (hcause : cause ≠ .interrupted) (t : Input) :
    load (s ++ .failure cause :: t) = .error cause := by
  obtain ⟨rest, hrest, hothers⟩ := exists_readOnto #[] (h.answers_append _)
  have hread : readAll (s ++ .failure cause :: t) = .error cause := by
    rw [readAll, hrest, readOnto_eq, hothers, answers_cons, answers_failure hcause]
    rfl
  rw [load, hread]
  rfl

end Input

/-! ## Machines that read -/

namespace Machine

variable {p : Program} {m m' : Machine} {x : Instruction} {s : Input}

/-- The machine with another stream to read from. -/
def onInput (m : Machine) (s : Input) : Machine :=
  { m with input := s }

/-- The machines differ only in how the bytes that they read are cut into chunks, and in where
they are interrupted. -/
def Rechunks (m m' : Machine) : Prop :=
  ∃ s, m' = m.onInput s ∧ m.input.Rechunks s

theorem update_onInput (m : Machine) (s : Input) (offset : Int64) (f : Cell → Cell) :
    (m.onInput s).update offset f = (m.update offset f).onInput s := by
  unfold update onInput
  dsimp only
  split <;> rfl

theorem probe_onInput (m : Machine) (s : Input) : (m.onInput s).probe = m.probe.onInput s := by
  unfold probe onInput
  dsimp only
  split <;> rfl

theorem emit_onInput (m : Machine) (s : Input) (b : UInt8) :
    (m.onInput s).emit b = (m.emit b).onInput s := by
  unfold emit onInput
  dsimp only
  split <;> rfl

/-- Only the instruction that reads asks the stream. -/
theorem perform_onInput (h : x.op ≠ .input) (m : Machine) (s : Input) (size : Nat) :
    (m.onInput s).perform size x = (m.perform size x).onInput s := by
  have hcurrent : (m.onInput s).current = m.current := rfl
  unfold perform
  cases hop : x.op with
  | nop => rfl
  | move => rfl
  | add => exact congrArg next (update_onInput ..)
  | sub => exact congrArg next (update_onInput ..)
  | set => exact congrArg next (update_onInput ..)
  | print =>
    have hfault : (m.probe.onInput s).fault = m.probe.fault := rfl
    dsimp only
    rw [hcurrent, probe_onInput, hfault, emit_onInput]
    split <;> rfl
  | input => exact absurd hop h
  | opens kind =>
    dsimp only
    rw [hcurrent, probe_onInput]
    split
    · rfl
    · cases kind with
      | tested => rfl
      | counted => exact congrArg next (update_onInput ..)
  | closes kind =>
    dsimp only
    rw [hcurrent, probe_onInput]
    split
    · rfl
    · cases kind <;> rfl

theorem receive_eq (m : Machine) :
    m.receive = match m.input.readByte.1 with
      | .byte b => { m with input := m.input.readByte.2 }.update 0 fun _ => b
      | .nothing => { m with input := m.input.readByte.2 }
      | .failed cause => { m with input := m.input.readByte.2 }.fail (.input m.ip cause) :=
  rfl

namespace Rechunks

/-- A change that does not ask the stream, and commutes with replacing it, keeps
the machines alike. -/
theorem of_onInput {f : Machine → Machine} (h : m.Rechunks m')
    (hf : ∀ (m : Machine) (s : Input), f (m.onInput s) = (f m).onInput s) :
    (f m).Rechunks (f m') := by
  obtain ⟨s, rfl, hs⟩ := h
  have hinput : (f m).input = m.input := congrArg (·.input) (hf m m.input)
  exact ⟨s, hf m s, hinput ▸ hs⟩

/-- The same byte is read from both streams. -/
theorem receive (h : m.Rechunks m') : m.receive.Rechunks m'.receive := by
  obtain ⟨s, rfl, hs⟩ := h
  have hinput : (m.onInput s).input = s := rfl
  obtain ⟨hresult, hrest⟩ := hs.readByte
  rw [receive_eq, receive_eq, hinput, hresult]
  have hread : ({ m with input := m.input.readByte.2 } : Machine).Rechunks
      { m with input := s.readByte.2 } := ⟨_, rfl, hrest⟩
  cases m.input.readByte.1 with
  | byte b =>
    exact hread.of_onInput (f := (·.update 0 fun _ => b)) fun m s => update_onInput m s 0 _
  | nothing => exact hread
  | failed cause =>
    exact hread.of_onInput (f := fun m => m.fail (.input m.ip cause)) fun m s => rfl

/-- Every instruction does the same to both machines. -/
theorem perform (h : m.Rechunks m') (size : Nat) (x : Instruction) :
    (m.perform size x).Rechunks (m'.perform size x) := by
  by_cases hop : x.op = .input
  · have hreceive : m.receive.next.Rechunks m'.receive.next := h.receive.of_onInput fun m s => rfl
    unfold Machine.perform
    rw [hop]
    exact hreceive
  · exact h.of_onInput (f := (·.perform size x)) fun m s => perform_onInput hop m s size

theorem canStep_eq (h : m.Rechunks m') (p : Program) : m'.canStep p = m.canStep p := by
  obtain ⟨s, rfl, -⟩ := h
  rfl

theorem step (h : m.Rechunks m') (p : Program) : (m.step p).Rechunks (m'.step p) := by
  have hip : m'.ip = m.ip := by
    obtain ⟨s, rfl, -⟩ := h
    rfl
  have hcounted : m.counted.Rechunks m'.counted := h.of_onInput fun m s => rfl
  cases hx : p[m.ip]? with
  | none =>
    simp only [Machine.step, hip, hx]
    exact h
  | some x =>
    rw [step_of_getElem? hx, step_of_getElem? (hip ▸ hx)]
    exact hcounted.perform p.size x

theorem advance (h : m.Rechunks m') (p : Program) (n : Nat) :
    (m.advance p n).Rechunks (m'.advance p n) := by
  induction n generalizing m m' with
  | zero => exact h
  | succ n ih =>
    rw [Machine.advance, Machine.advance, h.canStep_eq]
    split
    · exact ih (h.step p)
    · exact h

theorem flush (h : m.Rechunks m') : m.flush.Rechunks m'.flush := by
  refine h.of_onInput fun m s => ?_
  unfold Machine.flush onInput
  dsimp only
  split <;> rfl

/-- Two runs with one budget end in the same way. -/
theorem run (h : m.Rechunks m') (p : Program) (budget : Nat) :
    (m.run p budget).1.Rechunks (m'.run p budget).1 ∧
    (m'.run p budget).2 = (m.run p budget).2 := by
  have hsteps : m'.steps = m.steps := by
    obtain ⟨s, rfl, -⟩ := h
    rfl
  have hstopped := h.advance p (budget - m.steps)
  have hfinished := hstopped.flush
  unfold Machine.run
  rw [hsteps]
  refine ⟨hfinished, ?_⟩
  dsimp only
  rw [hstopped.canStep_eq]
  obtain ⟨s, hs, -⟩ := hstopped
  obtain ⟨s', hs', -⟩ := hfinished
  rw [hs', hs]
  rfl

end Rechunks

end Machine

/-- How bytes arrive does not matter. A stream that carries the bytes of a source, cut into chunks
and interrupted anywhere, is loaded as the program that the bytes write, with the same notes, if a
read comes back without a byte behind them, and fails for the reason of the other failure that
comes behind them. Machines that differ only in how the bytes that they read are cut into chunks
and interrupted do so after any number of steps, and after runs with any budget, which end in the
same way. -/
theorem deliveries_agree :
    (∀ (s s' : Input) (bytes : List UInt8), s.Carries bytes → s'.Carries bytes →
      (∀ t t' : Input, t.Pauses → t'.Pauses →
        load (s ++ t) = .ok (parse bytes) ∧ load (s' ++ t') = load (s ++ t)) ∧
      ∀ (cause : Failure) (t t' : Input), cause ≠ .interrupted →
        load (s ++ .failure cause :: t) = .error cause ∧
          load (s' ++ .failure cause :: t') = load (s ++ .failure cause :: t)) ∧
    ∀ (p : Program) (m m' : Machine), m.Rechunks m' →
      (∀ n, (m.advance p n).Rechunks (m'.advance p n)) ∧
      ∀ budget, (m.run p budget).1.Rechunks (m'.run p budget).1 ∧
        (m'.run p budget).2 = (m.run p budget).2 := by
  refine ⟨fun s s' bytes hs hs' => ⟨fun t t' ht ht' => ?_, fun cause t t' hcause => ?_⟩,
    fun p m m' h => ?_⟩
  · rw [hs.load_of_pauses ht, hs'.load_of_pauses ht']
    exact ⟨rfl, rfl⟩
  · rw [hs.load_of_failure hcause t, hs'.load_of_failure hcause t']
    exact ⟨rfl, rfl⟩
  · exact ⟨h.advance p, h.run p⟩

/-- A loop end that has no start (`+]`) arrives in two chunks with an interruption between them,
and at once in front of a failure. A machine reads two bytes that arrive in one chunk or in two,
and waits for the third. -/
theorem deliveries_agree_of_interrupted :
    load [.data [43], .failure .interrupted, .data [93]] = .ok (parse [43, 93]) ∧
      load [.data [43, 93], .failure .timedOut] = .error .timedOut ∧
      (Machine.run #[⟨.input, 1, 0⟩, ⟨.input, 1, 0⟩] 2
          { tape := ⟨#[0], false⟩,
            input := [.failure .interrupted, .data [7], .data [8], .data [9]] }).2 =
        (Machine.run #[⟨.input, 1, 0⟩, ⟨.input, 1, 0⟩] 2
          { tape := ⟨#[0], false⟩, input := [.data [7, 8], .data [9]] }).2 := by
  have hcut : Input.Carries [.data [43], .failure .interrupted, .data [93]] [43, 93] :=
    .data [43] (by decide) (.interrupted (.data [93] (by decide) .nothing))
  have hwhole : Input.Carries [.data [43, 93]] [43, 93] := .data [43, 93] (by decide) .nothing
  have hsource := deliveries_agree.1 _ _ _ hcut hwhole
  have hinput : Input.Rechunks [.data [7, 8], .data [9]]
      [.failure .interrupted, .data [7], .data [8], .data [9]] :=
    .trans (.cut [7] [8] _ (by decide) (by decide)) (.symm (.interrupted _))
  have hmachine := deliveries_agree.2 #[⟨.input, 1, 0⟩, ⟨.input, 1, 0⟩]
    { tape := ⟨#[0], false⟩, input := [.data [7, 8], .data [9]] } _ ⟨_, rfl, hinput⟩
  have hfailed := hsource.2 .timedOut [] [] (by decide)
  exact ⟨(hsource.1 [] [] (.inl rfl) (.inl rfl)).1, hfailed.2.trans hfailed.1, (hmachine.2 2).2⟩

end TapeCode
