import BitsAndBytes.RingBuffer

/-! # The receiver of `uart.c` -/

namespace BitsAndBytes.UartReceiver

open OperationRuns RingBuffer List

/-- Where `uart_getchar` stands: in front of the test of its loop, or in `ring_buffer_read`. -/
inductive Point
  | outside
  | loop (timeoutMs : Nat)
  | reading (timeoutMs : Nat)
deriving DecidableEq

structure Receiver where
  state : State
  point : Point

inductive Input
  | call (timeoutMs : UInt16)
  | proceed
  | interrupt (status byte : UInt8)
deriving DecidableEq

/-- An event at the buffer, with the answer of `uart_getchar` if it returns: the byte, or `none`
for `false`. -/
abbrev Outcome := Event × Option (Option UInt8)

def afterRead (timeoutMs : Nat) : Event → Point × Option (Option UInt8)
  | .read byte => (.outside, some (some byte))
  | .empty => (.loop timeoutMs, none)
  | _ => (.reading timeoutMs, none)

def uartGetchar (state : State) : Point → Option (Receiver × Outcome)
  | .outside => none
  | .loop 0 => some (⟨state, .outside⟩, .silent, some none)
  | .loop (timeoutMs + 1) => some (⟨state, .reading timeoutMs⟩, .silent, none)
  | .reading timeoutMs =>
    let (next, event) := readStep .uart state
    let (point, answer) := afterRead timeoutMs event
    some (⟨next, point⟩, event, answer)

def step (receiver : Receiver) : Input → Option (Receiver × Outcome)
  | .call timeoutMs =>
    if receiver.point = .outside then
      some (⟨receiver.state, .loop timeoutMs.toNat⟩, .silent, none)
    else none
  | .proceed => uartGetchar receiver.state receiver.point
  | .interrupt status byte =>
    let next := uartIsr .uart receiver.state status byte
    some (⟨next.1, receiver.point⟩, next.2, none)

/-- The most steps that `uart_getchar` can take before it returns. -/
def rank (receiver : Receiver) : Nat :=
  match receiver.point, receiver.state.reader with
  | .outside, _ => 0
  | .loop timeoutMs, _ => 2 * timeoutMs + 2
  | .reading timeoutMs, .test => 2 * timeoutMs + 3
  | .reading _, .load => 2
  | .reading _, .store _ => 1

variable {receiver next : Receiver} {input : Input} {out : Outcome}

theorem uartIsr_spec (source : Source) (state : State) (status byte : UInt8) :
    (uartIsr source state status byte).1.reader = state.reader ∧
      (uartIsr source state status byte).2.readByte = none := by
  unfold uartIsr
  split
  · refine ⟨rfl, ?_⟩
    simp only
    split <;> rfl
  · exact ⟨rfl, rfl⟩

theorem step_spec (stepEq : step receiver input = some (next, out)) :
    ((∃ op, RingBuffer.step .uart receiver.state op = some (next.state, out.1)) ∨
        next.state = receiver.state ∧ out.1 = .silent) ∧
      out.2.join = out.1.readByte ∧
      (receiver.point ≠ .outside → out.2 = none →
        next.point ≠ .outside ∧ rank next + [input].count .proceed ≤ rank receiver) := by
  obtain ⟨⟨buffer, reader⟩, point⟩ := receiver
  cases input with
  | call timeoutMs =>
    simp only [step] at stepEq
    split at stepEq <;> cases stepEq
    exact ⟨.inr ⟨rfl, rfl⟩, rfl, fun inside => absurd ‹_› inside⟩
  | interrupt status byte =>
    obtain ⟨sameReader, noRead⟩ := uartIsr_spec .uart ⟨buffer, reader⟩ status byte
    cases stepEq
    exact ⟨.inl ⟨.uartIsr status byte, rfl⟩, noRead.symm, fun inside _ =>
      ⟨inside, by simp [rank, sameReader]⟩⟩
  | proceed =>
    match point with
    | .outside => cases stepEq
    | .loop 0 =>
      cases stepEq
      exact ⟨.inr ⟨rfl, rfl⟩, rfl, nofun⟩
    | .loop (timeoutMs + 1) =>
      cases stepEq
      refine ⟨.inr ⟨rfl, rfl⟩, rfl, fun _ _ => ⟨nofun, ?_⟩⟩
      cases reader <;> simp [rank] <;> omega
    | .reading timeoutMs =>
      cases stepEq
      refine ⟨.inl ⟨.reader, rfl⟩, ?_⟩
      cases reader with
      | test =>
        by_cases same : buffer.readPtr = buffer.writePtr <;> simp [same, rank, Event.readByte]
      | load => simp [rank, Event.readByte]
      | store byte => simp [Event.readByte]

variable {inputs : List Input} {finish : Receiver} {outs : List Outcome}

/-- The rank falls with each step of a call that does not return. -/
theorem rank_of_run (runEq : run step receiver inputs = some (finish, outs))
    (inside : receiver.point ≠ .outside) (waits : ∀ out ∈ outs, out.2 = none) :
    finish.point ≠ .outside ∧ rank finish + inputs.count .proceed ≤ rank receiver := by
  induction inputs generalizing receiver outs with
  | nil =>
    cases runEq
    exact ⟨inside, Nat.le_refl _⟩
  | cons input inputs ih =>
    obtain ⟨next, out, rest, stepEq, restEq, rfl⟩ := run_cons_eq_some.mp runEq
    rw [forall_mem_cons] at waits
    obtain ⟨nextInside, falls⟩ := (step_spec stepEq).2.2 inside waits.1
    obtain ⟨finishInside, later⟩ := ih restEq nextInside waits.2
    refine ⟨finishInside, ?_⟩
    rw [count_cons]
    rw [count_singleton] at falls
    omega

theorem exists_proceed (inside : receiver.point ≠ .outside) :
    ∃ next out, step receiver .proceed = some (next, out) := by
  obtain ⟨state, point⟩ := receiver
  match point with
  | .outside => exact absurd rfl inside
  | .loop 0 | .loop (_ + 1) | .reading _ => exact ⟨_, _, rfl⟩

/-- The bytes returned are those read from the buffer. -/
structure Delivered (receiver : Receiver) (outs : List Outcome) : Prop where
  fifo : Fifo receiver.state (outs.map Prod.fst)
  answers : outs.filterMap (fun out => out.2.join) = readBytes (outs.map Prod.fst)

theorem Delivered.step (delivered : Delivered receiver outs)
    (stepEq : step receiver input = some (next, out)) : Delivered next (outs ++ [out]) := by
  obtain ⟨fifo, answers⟩ := delivered
  obtain ⟨buffered, answered, -⟩ := step_spec stepEq
  constructor
  · rw [map_append, map_singleton]
    rcases buffered with ⟨op, moved⟩ | ⟨same, silent⟩
    · exact fifo.moves (moves_of_step moved)
    · rw [silent]
      exact fifo.quiet rfl rfl (congrArg State.buffer same) (same ▸ fifo.reader)
  · rw [map_append, map_singleton, (history_append _ out.1).2, ← answered,
      filterMap_append, answers]
    cases joined : out.2.join <;> simp [joined]

/-- However often it is interrupted, `uart_getchar` can go on and returns within
`2 * timeout_ms + 2` steps, and the bytes it has returned are the accepted ones in their order,
except those still stored. -/
theorem getchar_returns_bytes_in_order (data : Int → UInt8) (inputs : List Input)
    (receiver : Receiver) (outs : List Outcome)
    (runEq : run step ⟨start data, .outside⟩ inputs = some (receiver, outs)) :
    acceptedBytes (outs.map Prod.fst) =
      outs.filterMap (fun out => out.2.join) ++ receiver.state.buffer.stored ∧
    (receiver.point ≠ .outside → ∃ next out, step receiver .proceed = some (next, out)) ∧
    ∀ timeoutMs, receiver.point = .loop timeoutMs → ∀ later finish laterOuts,
      run step receiver later = some (finish, laterOuts) →
        2 * timeoutMs + 2 ≤ later.count .proceed → ∃ out ∈ laterOuts, out.2 ≠ none := by
  obtain ⟨fifo, answers⟩ : Delivered receiver outs :=
    run_results Delivered (fun delivered => delivered.step) runEq ⟨⟨rfl, trivial⟩, rfl⟩
  refine ⟨answers ▸ fifo.history, exists_proceed,
    fun timeoutMs atLoop later finish laterOuts laterEq enough => ?_⟩
  by_contra! waits
  obtain ⟨inside, falls⟩ := rank_of_run laterEq (by rw [atLoop]; nofun) waits
  have initially : rank receiver = 2 * timeoutMs + 2 := by simp [rank, atLoop]
  have positive : 0 < rank finish := by
    unfold rank
    split <;> simp_all
  omega

theorem getchar_returns_interrupted_byte : ∃ receiver outs, run step ⟨start fun _ => 0, .outside⟩
        [.call 2, .proceed, .proceed, .interrupt 0x80 65, .proceed, .proceed, .proceed, .proceed] =
      some (receiver, outs) ∧ outs.filterMap (fun out => out.2.join) = [65] ∧
      acceptedBytes (outs.map Prod.fst) = [65] ++ receiver.state.buffer.stored := by
  refine ⟨_, _, rfl, rfl, ?_⟩
  exact (getchar_returns_bytes_in_order _ [.call 2, .proceed, .proceed, .interrupt 0x80 65,
    .proceed, .proceed, .proceed, .proceed] _ _ rfl).1

end BitsAndBytes.UartReceiver
