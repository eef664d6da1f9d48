import BitsAndBytes.OperationRuns

/-! # The output buffer of `customBuffer.c` -/

namespace BitsAndBytes.CustomBuffer

open OperationRuns List Option

def bufferSize : Nat := 1024

structure Buffer where
  buffer : Nat → UInt8
  size : Nat
  position : Nat
  position_le : position ≤ size

def createBuffer (memory : Nat → UInt8) : Buffer where
  buffer := memory
  size := bufferSize
  position := 0
  position_le := Nat.zero_le _

def Buffer.contents (buf : Buffer) : List UInt8 :=
  (range buf.position).map buf.buffer

inductive WriteResult
  | failed
  | wrote (count : Nat)
deriving DecidableEq, Repr

def Buffer.emptied (buf : Buffer) : Buffer :=
  { buf with position := 0, position_le := Nat.zero_le _ }

def flushBuffer (buf : Buffer) (written : List UInt8) (result : WriteResult) :
    Option (Buffer × List UInt8 × Int) :=
  if buf.position = 0 then
    some (buf, written, 0)
  else
    match result with
    | .failed => some (buf, written, -1)
    | .wrote count =>
      if 1 ≤ count ∧ count ≤ buf.position then
        some (buf.emptied, written ++ buf.contents.take count, 0)
      else
        none

def Buffer.toWrite (buf : Buffer) (data : List UInt8) : Nat :=
  let available := buf.size - buf.position
  if data.length < available then data.length else available

theorem toWrite_le_available (buf : Buffer) (data : List UInt8) :
    buf.toWrite data ≤ buf.size - buf.position := by
  simp only [Buffer.toWrite]
  split <;> omega

theorem toWrite_le_length (buf : Buffer) (data : List UInt8) : buf.toWrite data ≤ data.length := by
  simp only [Buffer.toWrite]
  split <;> omega

def Buffer.copyIn (buf : Buffer) (data : List UInt8) : Buffer where
  buffer := fun i =>
    if buf.position ≤ i ∧ i < buf.position + buf.toWrite data then
      data.getD (i - buf.position) 0
    else
      buf.buffer i
  size := buf.size
  position := buf.position + buf.toWrite data
  position_le := by
    have := toWrite_le_available buf data
    have := buf.position_le
    omega

structure System where
  buf : Buffer
  written : List UInt8
  copied : List UInt8
  data : Option (List UInt8)

def start (memory : Nat → UInt8) : System :=
  ⟨createBuffer memory, [], [], none⟩

def iterate (system : System) (data : List UInt8) (result : WriteResult) :
    Option (System × Option Int) :=
  let filled := system.buf.copyIn data
  let copied := system.copied ++ data.take (system.buf.toWrite data)
  let rest := data.drop (system.buf.toWrite data)
  if filled.position = filled.size then
    (flushBuffer filled system.written result).map fun flushed =>
      if flushed.2.2 = -1 then
        (⟨flushed.1, flushed.2.1, copied, none⟩, some (-1))
      else
        (⟨flushed.1, flushed.2.1, copied, some rest⟩, none)
  else
    some (⟨filled, system.written, copied, some rest⟩, none)

inductive Op
  | writeToBuffer (data : List UInt8)
  | advance (result : WriteResult)
  | flushBuffer (result : WriteResult)
deriving DecidableEq, Repr

def step (system : System) : Op → Option (System × Option Int)
  | .writeToBuffer data =>
    match system.data with
    | none => some ({ system with data := some data }, none)
    | some _ => none
  | .advance result =>
    match system.data with
    | none => none
    | some [] => some ({ system with data := none }, some 0)
    | some (byte :: rest) => iterate system (byte :: rest) result
  | .flushBuffer result =>
    match system.data with
    | none =>
      (flushBuffer system.buf system.written result).map fun flushed =>
        (⟨flushed.1, flushed.2.1, system.copied, none⟩, some flushed.2.2)
    | some _ => none

/-- The bytes written and those in the buffer are the bytes copied, in order. -/
def StreamExact (system : System) : Prop :=
  system.written ++ system.buf.contents = system.copied

theorem contents_copyIn (buf : Buffer) (data : List UInt8) :
    (buf.copyIn data).contents = buf.contents ++ data.take (buf.toWrite data) := by
  have fits := toWrite_le_length buf data
  apply ext_getElem
  · simp [Buffer.contents, Buffer.copyIn, fits]
  · intro i iLt _
    have inside : i < buf.position + buf.toWrite data := by
      simpa [Buffer.contents, Buffer.copyIn] using iLt
    by_cases before : i < buf.position
    · simp [Buffer.contents, Buffer.copyIn, before, Nat.not_le.mpr before]
    · have behind : i - buf.position < data.length := by omega
      simp [Buffer.contents, Buffer.copyIn, Nat.not_lt.mp before, inside,
        getElem?_eq_getElem behind]

/-- `write` fails or writes all that was requested. -/
def WriteResult.Whole (result : WriteResult) (requested : Nat) : Prop :=
  ∀ count, result = .wrote count → 1 ≤ count → count ≤ requested → count = requested

variable {buf flushed : Buffer} {written sent : List UInt8} {result : WriteResult} {status : Int}

theorem contents_emptied (buf : Buffer) : buf.emptied.contents = [] := rfl

theorem length_contents (buf : Buffer) : buf.contents.length = buf.position := by
  simp [Buffer.contents]

theorem stream_flushBuffer (whole : result.Whole buf.position)
    (flushEq : flushBuffer buf written result = some (flushed, sent, status)) :
    sent ++ flushed.contents = written ++ buf.contents := by
  unfold flushBuffer at flushEq
  split at flushEq
  · simp only [some.injEq, Prod.mk.injEq] at flushEq
    rw [← flushEq.1, ← flushEq.2.1]
  · cases result with
    | failed =>
      simp only [some.injEq, Prod.mk.injEq] at flushEq
      rw [← flushEq.1, ← flushEq.2.1]
    | wrote count =>
      simp only [ite_none_right_eq_some, some.injEq, Prod.mk.injEq] at flushEq
      obtain ⟨⟨positive, atMost⟩, rfl, rfl, -⟩ := flushEq
      rw [whole count rfl positive atMost, contents_emptied, append_nil,
        ← length_contents, take_length]

theorem exists_flushBuffer_of_not_whole (written : List UInt8)
    (short : ¬ result.Whole buf.position) :
    ∃ flushed sent, flushBuffer buf written result = some (flushed, sent, 0) ∧
      (sent ++ flushed.contents).length < (written ++ buf.contents).length := by
  simp only [WriteResult.Whole, not_forall] at short
  obtain ⟨count, rfl, positive, atMost, short⟩ := short
  have nonempty : buf.position ≠ 0 := by omega
  refine ⟨buf.emptied, written ++ buf.contents.take count, ?_, ?_⟩
  · simp [flushBuffer, nonempty, positive, atMost]
  · rw [contents_emptied, append_nil, length_append, length_append, length_take, length_contents]
    omega

def requested (system : System) : Op → Nat
  | .writeToBuffer _ => 0
  | .advance _ =>
    match system.data with
    | none => 0
    | some [] => 0
    | some (byte :: rest) =>
      let filled := system.buf.copyIn (byte :: rest)
      if filled.position = filled.size then filled.position else 0
  | .flushBuffer _ => if system.data = none then system.buf.position else 0

def Op.answer : Op → WriteResult
  | .writeToBuffer _ => .failed
  | .advance result => result
  | .flushBuffer result => result

/-- The `write` of this iteration is not partial. -/
def WholeWrite (system : System) (op : Op) : Prop :=
  op.answer.Whole (requested system op)

variable {system next : System} {op : Op} {out : Option Int}

section

variable (exact : StreamExact system)
include exact

theorem StreamExact.copyIn (data : List UInt8) :
    system.written ++ (system.buf.copyIn data).contents =
      system.copied ++ data.take (system.buf.toWrite data) := by
  rw [contents_copyIn, ← append_assoc, show _ ++ _ = system.copied from exact]

theorem StreamExact.iterate {data : List UInt8}
    (whole : (system.buf.copyIn data).position = (system.buf.copyIn data).size →
      result.Whole (system.buf.copyIn data).position)
    (iterated : iterate system data result = some (next, out)) : StreamExact next := by
  simp only [CustomBuffer.iterate] at iterated
  split at iterated
  case isTrue full =>
    rw [map_eq_some_iff] at iterated
    obtain ⟨⟨flushed, sent, status⟩, flushEq, returned⟩ := iterated
    have kept := (stream_flushBuffer (whole full) flushEq).trans (exact.copyIn data)
    split at returned
    · rw [← (Prod.mk.inj returned).1]
      exact kept
    · rw [← (Prod.mk.inj returned).1]
      exact kept
  case isFalse =>
    rw [← (Prod.mk.inj (some.inj iterated)).1]
    exact exact.copyIn data

theorem StreamExact.step (whole : WholeWrite system op)
    (stepEq : step system op = some (next, out)) :
    StreamExact next := by
  cases op with
  | writeToBuffer data =>
    cases idle : system.data with
    | none =>
      simp only [CustomBuffer.step, idle, some.injEq, Prod.mk.injEq] at stepEq
      rw [← stepEq.1]
      exact exact
    | some _ => simp [CustomBuffer.step, idle] at stepEq
  | advance result =>
    cases running : system.data with
    | none => simp [CustomBuffer.step, running] at stepEq
    | some data =>
      cases data with
      | nil =>
        simp only [CustomBuffer.step, running, some.injEq, Prod.mk.injEq] at stepEq
        rw [← stepEq.1]
        exact exact
      | cons byte rest =>
        simp only [CustomBuffer.step, running] at stepEq
        refine exact.iterate (fun full => ?_) stepEq
        simpa only [WholeWrite, Op.answer, requested, running, if_pos full] using whole
  | flushBuffer result =>
    cases idle : system.data with
    | none =>
      simp only [CustomBuffer.step, idle, map_eq_some_iff, Prod.mk.injEq] at stepEq
      obtain ⟨⟨flushed, sent, status⟩, flushEq, rfl, -⟩ := stepEq
      simp only [WholeWrite, Op.answer, requested, idle, if_true] at whole
      exact (stream_flushBuffer whole flushEq).trans exact
    | some _ => simp [CustomBuffer.step, idle] at stepEq

theorem StreamExact.lost (short : ¬ WholeWrite system op) :
    ∃ next out, CustomBuffer.step system op = some (next, out) ∧ ¬ StreamExact next := by
  have requests : requested system op ≠ 0 := by
    intro none
    apply short
    intro count _ positive atMost
    omega
  cases op with
  | writeToBuffer data => exact absurd rfl requests
  | advance result =>
    cases running : system.data with
    | none => simp [requested, running] at requests
    | some data =>
      cases data with
      | nil => simp [requested, running] at requests
      | cons byte rest =>
        have full : (system.buf.copyIn (byte :: rest)).position =
            (system.buf.copyIn (byte :: rest)).size := by
          by_contra space
          simp [requested, running, space] at requests
        simp only [WholeWrite, Op.answer, requested, running, if_pos full] at short
        obtain ⟨flushed, sent, flushEq, shorter⟩ :=
          exists_flushBuffer_of_not_whole system.written short
        rw [exact.copyIn (byte :: rest)] at shorter
        simp only [CustomBuffer.step, running, CustomBuffer.iterate, if_pos full, flushEq]
        refine ⟨_, _, rfl, fun stillExact => ?_⟩
        exact Nat.ne_of_lt shorter (congrArg length stillExact)
  | flushBuffer result =>
    cases idle : system.data with
    | some data => simp [requested, idle] at requests
    | none =>
      simp only [WholeWrite, Op.answer, requested, idle, if_true] at short
      obtain ⟨flushed, sent, flushEq, shorter⟩ :=
        exists_flushBuffer_of_not_whole system.written short
      rw [show _ ++ _ = system.copied from exact] at shorter
      simp only [CustomBuffer.step, idle, flushEq]
      refine ⟨_, _, rfl, fun stillExact => ?_⟩
      exact Nat.ne_of_lt shorter (congrArg length stillExact)

end

/-- The stream is exact if and only if every `write` that succeeds is complete. -/
theorem stream_exact_iff_whole_writes (memory : Nat → UInt8) (ops : List Op) :
    (∀ initialOps, initialOps <+: ops → ∀ system,
        Reaches step (start memory) initialOps system → StreamExact system) ↔
      Respects step WholeWrite (start memory) ops :=
  always_iff_respects StreamExact StreamExact id StreamExact.step StreamExact.lost
    (show StreamExact (start memory) from rfl) ops

theorem short_write_loses_bytes : ∃ system, Reaches step (start fun _ => 0)
        [.writeToBuffer [1, 2, 3], .advance .failed, .advance .failed, .flushBuffer (.wrote 1)]
        system ∧
      system.written = [1] ∧ system.buf.contents = [] ∧ system.copied = [1, 2, 3] ∧
        ¬ StreamExact system := by
  refine ⟨_, ⟨_, rfl⟩, rfl, rfl, rfl, fun exact => ?_⟩
  have lengths : 1 = 3 := congrArg length exact
  omega

end BitsAndBytes.CustomBuffer
