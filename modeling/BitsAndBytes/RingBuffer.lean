import BitsAndBytes.RingWindow
import BitsAndBytes.OperationRuns

/-! # The ring buffer of `basicRing.c` and `uart.c` -/

namespace BitsAndBytes.RingBuffer

open OperationRuns RingWindow Function Option

def bufferSize : Nat := 256

def uartDataReady : UInt8 := 0x80

inductive Source
  | basicRing
  | uart
deriving DecidableEq, Repr

def advance : Source → UInt8 → UInt8
  | .basicRing, pointer => UInt8.ofNat ((pointer.toNat + 1) &&& (bufferSize - 1))
  | .uart, pointer => UInt8.ofNat ((pointer.toNat + 1) % bufferSize)

@[ext]
structure Buffer where
  data : Int → UInt8
  writePtr : UInt8
  readPtr : UInt8

def ringBufferInit (data : Int → UInt8) : Buffer := ⟨data, 0, 0⟩

def ringBufferWrite (source : Source) (buffer : Buffer) (byte : UInt8) : Buffer × Bool :=
  if advance source buffer.writePtr = buffer.readPtr then
    (buffer, false)
  else
    ({ buffer with
      data := update buffer.data buffer.writePtr.toNat byte
      writePtr := advance source buffer.writePtr }, true)

def ringBufferSize (buffer : Buffer) : UInt8 :=
  ⟨((buffer.writePtr.toBitVec.setWidth 32 - buffer.readPtr.toBitVec.setWidth 32) &&&
    255#32).setWidth 8⟩

inductive Reader
  | test
  | load
  | store (byte : UInt8)
deriving DecidableEq, Repr

structure State where
  buffer : Buffer
  reader : Reader

inductive Op
  | reader
  | uartIsr (status byte : UInt8)
deriving DecidableEq, Repr

inductive Event
  | silent
  | accepted (byte : UInt8)
  | refused (byte : UInt8)
  | read (byte : UInt8)
  | empty
deriving DecidableEq, Repr

def readStep (source : Source) (state : State) : State × Event :=
  match state.reader with
  | .test =>
    if state.buffer.readPtr = state.buffer.writePtr then
      (state, .empty)
    else
      ({ state with reader := .load }, .silent)
  | .load =>
    ({ state with reader := .store (state.buffer.data state.buffer.readPtr.toNat) }, .silent)
  | .store byte =>
    (⟨{ state.buffer with readPtr := advance source state.buffer.readPtr }, .test⟩, .read byte)

def uartIsr (source : Source) (state : State) (status byte : UInt8) : State × Event :=
  if status &&& uartDataReady ≠ 0 then
    let written := ringBufferWrite source state.buffer byte
    ({ state with buffer := written.1 },
      if written.2 then .accepted byte else .refused byte)
  else
    (state, .silent)

def step (source : Source) (state : State) : Op → Option (State × Event)
  | .reader => some (readStep source state)
  | .uartIsr status byte => some (uartIsr source state status byte)

def start (data : Int → UInt8) : State :=
  ⟨ringBufferInit data, .test⟩

def Event.acceptedByte : Event → Option UInt8
  | accepted byte => some byte
  | _ => none

def Event.readByte : Event → Option UInt8
  | read byte => some byte
  | _ => none

def acceptedBytes (events : List Event) : List UInt8 :=
  events.filterMap Event.acceptedByte

def readBytes (events : List Event) : List UInt8 :=
  events.filterMap Event.readByte

namespace Buffer

def count (buffer : Buffer) : Int :=
  ((buffer.writePtr.toNat : Int) - buffer.readPtr.toNat) % bufferSize

def stored (buffer : Buffer) : List UInt8 :=
  window buffer.data bufferSize buffer.readPtr.toNat buffer.count.toNat

end Buffer

variable {source : Source} {state : State}

theorem toNat_advance (source : Source) (pointer : UInt8) :
    (advance source pointer).toNat = (pointer.toNat + 1) % bufferSize := by
  cases source with
  | basicRing =>
    have masked : (pointer.toNat + 1) &&& (bufferSize - 1) =
        (pointer.toNat + 1) % 2 ^ 8 := Nat.and_two_pow_sub_one_eq_mod _ 8
    rw [advance, UInt8.toNat_ofNat', masked]
    exact Nat.mod_mod _ _
  | uart =>
    exact Nat.mod_mod _ _

section

variable {buffer : Buffer}

theorem count_bounds (buffer : Buffer) : 0 ≤ buffer.count ∧ buffer.count < 256 := by
  constructor
  · exact Int.emod_nonneg _ (by decide)
  · exact Int.emod_lt_of_pos _ (by decide)

theorem writePtr_eq (buffer : Buffer) : (buffer.writePtr.toNat : Int) =
      ((buffer.readPtr.toNat : Int) + buffer.count) % bufferSize := by
  have writeLt := buffer.writePtr.toNat_lt
  simp only [Buffer.count, bufferSize]
  omega

theorem count_eq_of_full (full : advance source buffer.writePtr = buffer.readPtr) :
    buffer.count = 255 := by
  have pointers := toNat_advance source buffer.writePtr
  rw [full] at pointers
  simp only [Buffer.count, bufferSize] at pointers ⊢
  omega

theorem count_pos_of_ne (notEmpty : buffer.readPtr ≠ buffer.writePtr) : 0 < buffer.count := by
  have writeLt := buffer.writePtr.toNat_lt
  have readLt := buffer.readPtr.toNat_lt
  have pointers : buffer.readPtr.toNat ≠ buffer.writePtr.toNat :=
    fun same => notEmpty (UInt8.toNat_inj.mp same)
  simp only [Buffer.count, bufferSize]
  omega

theorem length_stored (buffer : Buffer) : (buffer.stored.length : Int) = buffer.count := by
  rw [Buffer.stored, length_window]
  exact Int.toNat_of_nonneg (count_bounds buffer).1

theorem toNat_ringBufferSize (buffer : Buffer) :
    (ringBufferSize buffer).toNat = buffer.stored.length := by
  have masked : ∀ x : BitVec 32, (x &&& 255#32).toNat = x.toNat % 2 ^ 8 := by
    intro x
    exact Nat.and_two_pow_sub_one_eq_mod _ 8
  have size : (ringBufferSize buffer).toNat =
      (2 ^ 32 - buffer.readPtr.toBitVec.toNat + buffer.writePtr.toBitVec.toNat) % 2 ^ 32 %
        2 ^ 8 := by
    change (BitVec.setWidth 8 _).toNat = _
    rw [BitVec.toNat_setWidth, masked, BitVec.toNat_sub, BitVec.toNat_setWidth,
      BitVec.toNat_setWidth]
    omega
  have counted : buffer.count =
      ((buffer.writePtr.toBitVec.toNat : Int) - buffer.readPtr.toBitVec.toNat) % 256 := rfl
  have stored := length_stored buffer
  omega

end

def Buffer.push (source : Source) (buffer : Buffer) (byte : UInt8) : Buffer where
  data := update buffer.data buffer.writePtr.toNat byte
  writePtr := advance source buffer.writePtr
  readPtr := buffer.readPtr

theorem stored_push {buffer : Buffer} (room : advance source buffer.writePtr ≠ buffer.readPtr)
    (byte : UInt8) : (buffer.push source byte).stored = buffer.stored ++ [byte] := by
  have bounds := count_bounds buffer
  have readLt := buffer.readPtr.toNat_lt
  have pointers := toNat_advance source buffer.writePtr
  have apart : (advance source buffer.writePtr).toNat ≠ buffer.readPtr.toNat :=
    fun same => room (UInt8.toNat_inj.mp same)
  have counted : (buffer.push source byte).count = buffer.count + 1 := by
    simp only [Buffer.count, Buffer.push, bufferSize] at pointers apart ⊢
    omega
  rw [Buffer.stored, counted]
  exact window_push buffer.data bounds.1 bounds.2 (writePtr_eq buffer) byte

theorem stored_read (source : Source) {buffer : Buffer}
    (notEmpty : buffer.readPtr ≠ buffer.writePtr) :
    buffer.stored = buffer.data buffer.readPtr.toNat ::
      Buffer.stored { buffer with readPtr := advance source buffer.readPtr } := by
  have positive := count_pos_of_ne notEmpty
  have readLt := buffer.readPtr.toNat_lt
  have pointers : ((advance source buffer.readPtr).toNat : Int) =
      ((buffer.readPtr.toNat : Int) + 1) % bufferSize := by
    exact_mod_cast toNat_advance source buffer.readPtr
  have counted : Buffer.count { buffer with readPtr := advance source buffer.readPtr } =
      buffer.count - 1 := by
    simp only [Buffer.count, bufferSize] at positive pointers ⊢
    omega
  rw [Buffer.stored, Buffer.stored, counted, pointers]
  exact window_pop buffer.data (Int.natCast_nonneg _) (by exact_mod_cast readLt) positive

/-- The steps of the reader and of the interrupt. -/
inductive Moves (source : Source) : State → Op → State → Event → Prop
  | empty {buffer} (same : buffer.readPtr = buffer.writePtr) :
      Moves source ⟨buffer, .test⟩ .reader ⟨buffer, .test⟩ .empty
  | test {buffer} (notEmpty : buffer.readPtr ≠ buffer.writePtr) :
      Moves source ⟨buffer, .test⟩ .reader ⟨buffer, .load⟩ .silent
  | load {buffer} : Moves source ⟨buffer, .load⟩ .reader
        ⟨buffer, .store (buffer.data buffer.readPtr.toNat)⟩ .silent
  | store {buffer byte} : Moves source ⟨buffer, .store byte⟩ .reader
        ⟨{ buffer with readPtr := advance source buffer.readPtr }, .test⟩ (.read byte)
  | notReady {state status byte} : Moves source state (.uartIsr status byte) state .silent
  | refuse {buffer reader status byte}
      (full : advance source buffer.writePtr = buffer.readPtr) :
      Moves source ⟨buffer, reader⟩ (.uartIsr status byte) ⟨buffer, reader⟩ (.refused byte)
  | accept {buffer reader status byte}
      (room : advance source buffer.writePtr ≠ buffer.readPtr) :
      Moves source ⟨buffer, reader⟩ (.uartIsr status byte)
        ⟨buffer.push source byte, reader⟩ (.accepted byte)

theorem moves_of_step {next : State} {op : Op} {event : Event}
    (stepEq : step source state op = some (next, event)) : Moves source state op next event := by
  obtain ⟨buffer, reader⟩ := state
  cases op with
  | reader =>
    rw [step, some.injEq] at stepEq
    cases reader with
    | test =>
      simp only [readStep] at stepEq
      split at stepEq <;> cases stepEq
      · exact .empty ‹_›
      · exact .test ‹_›
    | load =>
      cases stepEq
      exact .load
    | store byte =>
      cases stepEq
      exact .store
  | uartIsr status byte =>
    rw [step, some.injEq, uartIsr] at stepEq
    split at stepEq
    · by_cases full : advance source buffer.writePtr = buffer.readPtr
      · simp only [ringBufferWrite, full, if_true] at stepEq
        cases stepEq
        exact .refuse full
      · simp only [ringBufferWrite, full, if_false] at stepEq
        cases stepEq
        exact .accept full
    · cases stepEq
      exact .notReady

/-- What the reader has found out stays true when it is interrupted. -/
def Knows (buffer : Buffer) : Reader → Prop
  | .test => True
  | .load => buffer.readPtr ≠ buffer.writePtr
  | .store byte =>
    buffer.readPtr ≠ buffer.writePtr ∧ byte = buffer.data buffer.readPtr.toNat

theorem Knows.push {buffer : Buffer} {reader : Reader} (knows : Knows buffer reader)
    (room : advance source buffer.writePtr ≠ buffer.readPtr) (byte : UInt8) :
    Knows (buffer.push source byte) reader := by
  cases reader with
  | test => trivial
  | load => exact room.symm
  | store read =>
    obtain ⟨notEmpty, readEq⟩ := knows
    have apart : (buffer.readPtr.toNat : Int) ≠ buffer.writePtr.toNat :=
      fun same => notEmpty (UInt8.toNat_inj.mp (by exact_mod_cast same))
    exact ⟨room.symm, readEq.trans (update_of_ne apart _ _).symm⟩

/-- The bytes accepted are those read followed by those stored. -/
structure Fifo (state : State) (events : List Event) : Prop where
  history : acceptedBytes events = readBytes events ++ state.buffer.stored
  reader : Knows state.buffer state.reader

theorem history_append (events : List Event) (event : Event) : acceptedBytes (events ++ [event]) =
        acceptedBytes events ++ event.acceptedByte.toList ∧
      readBytes (events ++ [event]) = readBytes events ++ event.readByte.toList := by
  simp only [acceptedBytes, readBytes, List.filterMap_append]
  cases event <;> exact ⟨rfl, rfl⟩

namespace Fifo

variable {next : State} {op : Op} {event : Event} {events : List Event}

theorem quiet (fifo : Fifo state events) (noAccept : event.acceptedByte = none)
    (noRead : event.readByte = none) (sameBuffer : next.buffer = state.buffer)
    (knows : Knows next.buffer next.reader) : Fifo next (events ++ [event]) := by
  obtain ⟨accepts, reads⟩ := history_append events event
  refine ⟨?_, knows⟩
  rw [accepts, reads, noAccept, noRead, sameBuffer]
  simpa using fifo.history

theorem moves (fifo : Fifo state events) (moved : Moves source state op next event) :
    Fifo next (events ++ [event]) := by
  obtain ⟨accepts, reads⟩ := history_append events event
  have history := fifo.history
  have knows := fifo.reader
  cases moved with
  | empty => exact fifo.quiet rfl rfl rfl trivial
  | test notEmpty => exact fifo.quiet rfl rfl rfl notEmpty
  | load => exact fifo.quiet rfl rfl rfl ⟨knows, rfl⟩
  | store =>
    obtain ⟨notEmpty, byteEq⟩ := knows
    rw [stored_read source notEmpty, ← byteEq] at history
    exact ⟨by simpa [accepts, reads, Event.acceptedByte, Event.readByte], trivial⟩
  | notReady | refuse => exact fifo.quiet rfl rfl rfl knows
  | accept room =>
    refine ⟨?_, knows.push room _⟩
    simp [accepts, reads, Event.acceptedByte, Event.readByte, history, stored_push room]

end Fifo

theorem full_of_refused {next : State} {op : Op} {byte : UInt8}
    (stepEq : step source state op = some (next, .refused byte)) :
    state.buffer.stored.length = 255 := by
  cases moves_of_step stepEq with
  | @refuse buffer _ _ _ full =>
    have counted := count_eq_of_full full
    rw [← length_stored] at counted
    exact_mod_cast counted

/-- The bytes accepted are the bytes read and the bytes stored, in order. -/
theorem accepted_eq_read_append_stored (source : Source) (data : Int → UInt8)
    (ops : List Op) (state : State) (events : List Event)
    (runEq : run (step source) (start data) ops = some (state, events)) :
    acceptedBytes events = readBytes events ++ state.buffer.stored ∧
    (∀ op next byte, step source state op = some (next, .refused byte) →
      state.buffer.stored.length = 255) ∧
    (ringBufferSize state.buffer).toNat = state.buffer.stored.length :=
  ⟨(run_results Fifo (fun fifo stepEq => fifo.moves (moves_of_step stepEq)) runEq
    ⟨rfl, trivial⟩).history, fun _ _ _ => full_of_refused, toNat_ringBufferSize state.buffer⟩

def interruptedRead : List Op :=
  [.uartIsr 0x80 65, .reader, .uartIsr 0x80 66, .reader, .reader]

theorem first_byte_read : ∃ state events, run (step .uart) (start fun _ => 0) interruptedRead =
        some (state, events) ∧ acceptedBytes events = [65] ++ state.buffer.stored := by
  refine ⟨_, _, rfl, ?_⟩
  exact (accepted_eq_read_append_stored .uart (fun _ => 0) interruptedRead _ _ rfl).1

end BitsAndBytes.RingBuffer
