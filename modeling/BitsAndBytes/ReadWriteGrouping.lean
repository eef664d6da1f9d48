import BitsAndBytes.ByteMemory
import BitsAndBytes.OperationRuns
import BitsAndBytes.RingWindow
import Mathlib.Data.List.Perm.Basic

/-! # The memory controller of `readWriteGrouping.c` -/

namespace BitsAndBytes.ReadWriteGrouping

open OperationRuns RingWindow Function List Option ByteMemory

def maxQueueSize : Int := 1024

def tlbSize : Nat := 64

def bufferSize : Nat := 64 * 1024

def maxCycles : Nat := 1000000

inductive BusMode
  | readMode
  | writeMode
  | modeTransition
deriving DecidableEq, Repr

structure MemoryRequest where
  address : UInt64
  data : UInt64
  priority : UInt32
  timestamp : UInt64
deriving DecidableEq, Repr

structure Queue where
  requests : Int → MemoryRequest
  head : Int
  tail : Int
  size : Int
  totalAge : UInt64

structure TlbEntry where
  logicalAddr : UInt64
  physicalAddr : UInt64

structure MemoryController where
  readQueue : Queue
  writeQueue : Queue
  currentMode : BusMode
  readCount : Int
  writeCount : Int
  tlb : Nat → TlbEntry
  dataBuffer : Nat → UInt8

def initQueue (requests : Int → MemoryRequest) : Queue :=
  ⟨requests, 0, 0, 0, 0⟩

def enqueue (q : Queue) (req : MemoryRequest) : Bool × Queue :=
  if q.size = maxQueueSize then
    (false, q)
  else
    (true,
      { requests := update q.requests q.tail req
        head := q.head
        tail := (q.tail + 1).tmod maxQueueSize
        size := q.size + 1
        totalAge := q.totalAge + req.priority.toUInt64 })

def dequeue (q : Queue) : Option (MemoryRequest × Queue) :=
  if q.size = 0 then
    none
  else
    some (q.requests q.head, { q with
        head := (q.head + 1).tmod maxQueueSize
        size := q.size - 1
        totalAge := q.totalAge - (q.requests q.head).priority.toUInt64 })

def initMemoryController (reads writes : Int → MemoryRequest)
    (dataBuffer : Nat → UInt8) : MemoryController where
  readQueue := initQueue reads
  writeQueue := initQueue writes
  currentMode := .readMode
  readCount := 0
  writeCount := 0
  tlb := fun _ => ⟨0, 0⟩
  dataBuffer := dataBuffer

def hashAddress (logicalAddr : UInt64) : UInt64 :=
  logicalAddr ^^^ (logicalAddr >>> 12)

def translateAddress (mc : MemoryController) (logicalAddr : UInt64) : UInt64 × MemoryController :=
  let tlbIndex := logicalAddr.toNat % tlbSize
  if (mc.tlb tlbIndex).logicalAddr = logicalAddr then
    ((mc.tlb tlbIndex).physicalAddr, mc)
  else
    (hashAddress logicalAddr, { mc with
        tlb := update mc.tlb tlbIndex ⟨logicalAddr, hashAddress logicalAddr⟩ })

def handleDataTransfer (mc : MemoryController) (req : MemoryRequest) :
    Option (MemoryController × MemoryRequest) :=
  let translated := translateAddress mc req.address
  let offset := translated.1.toNat % bufferSize
  if bufferSize < offset + 8 then
    none
  else if req.address &&& 1 = 1 then
    some (translated.2, { req with data := UInt64.ofNat (load translated.2.dataBuffer 8 offset) })
  else
    some ({ translated.2 with
      dataBuffer := store translated.2.dataBuffer 8 offset req.data.toNat }, req)

abbrev Served := MemoryController × Bool × Option MemoryRequest

def readCycle (mc : MemoryController) : Option Served :=
  match dequeue mc.readQueue with
  | none => some (mc, decide (0 < mc.writeQueue.size), none)
  | some (req, rest) =>
    (handleDataTransfer { mc with readQueue := rest } req).map fun handled =>
      let count := handled.1.readCount + 1
      ({ handled.1 with readCount := count },
        decide (maxQueueSize.tdiv 2 ≤ count) && decide (0 < handled.1.writeQueue.size),
        some req)

def writeCycle (mc : MemoryController) : Option Served :=
  match dequeue mc.writeQueue with
  | none => some (mc, decide (0 < mc.readQueue.size), none)
  | some (req, rest) =>
    (handleDataTransfer { mc with writeQueue := rest } req).map fun handled =>
      let count := handled.1.writeCount + 1
      ({ handled.1 with writeCount := count },
        decide (maxQueueSize.tdiv 2 ≤ count) && decide (0 < handled.1.readQueue.size),
        some req)

def transitionCycle (mc : MemoryController) : Served :=
  ({ mc with
      currentMode := if mc.currentMode = .readMode then .writeMode else .readMode
      readCount := 0
      writeCount := 0 }, false, none)

def switchMode (served : Served) : MemoryController × Option MemoryRequest :=
  (if served.2.1 then { served.1 with currentMode := .modeTransition } else served.1, served.2.2)

def processCycle (mc : MemoryController) (_ : Unit) :
    Option (MemoryController × Option MemoryRequest) :=
  match mc.currentMode with
  | .readMode => (readCycle mc).map switchMode
  | .writeMode => (writeCycle mc).map switchMode
  | .modeTransition => some (switchMode (transitionCycle mc))

def processMemoryRequests (mc : MemoryController) :
    Option (MemoryController × List MemoryRequest) :=
  (run processCycle mc (replicate maxCycles ())).map fun last =>
    (last.1, last.2.filterMap id)

inductive Side
  | reads
  | writes
deriving DecidableEq, Repr

def submit (mc : MemoryController) (request : Side × MemoryRequest) : MemoryController :=
  match request.1 with
  | .reads => { mc with readQueue := (enqueue mc.readQueue request.2).2 }
  | .writes => { mc with writeQueue := (enqueue mc.writeQueue request.2).2 }

def Queue.contents (q : Queue) : List MemoryRequest :=
  window q.requests maxQueueSize q.head q.size.toNat

/-- Both queues are empty, and their requests were transferred. -/
def Drained (mc after : MemoryController) (transfers : List MemoryRequest) : Prop :=
  after.readQueue.size = 0 ∧ after.writeQueue.size = 0 ∧
    transfers.Perm (mc.readQueue.contents ++ mc.writeQueue.contents)

/-- The eight bytes of the request lie in the data buffer. -/
def InBuffer (req : MemoryRequest) : Prop :=
  (hashAddress req.address).toNat % bufferSize + 8 ≤ bufferSize

namespace Queue

def Valid (q : Queue) : Prop :=
  Positions maxQueueSize q.head q.tail q.size

theorem valid_initQueue (requests : Int → MemoryRequest) : (initQueue requests).Valid := by
  constructor <;> simp [initQueue, maxQueueSize]

namespace Valid

variable {q : Queue}

theorem enqueue (valid : q.Valid) (req : MemoryRequest) :
    (ReadWriteGrouping.enqueue q req).2.Valid := by
  rw [ReadWriteGrouping.enqueue]
  split
  · exact valid
  · rename_i notFull
    exact Positions.push valid notFull

theorem dequeue (valid : q.Valid) (notEmpty : q.size ≠ 0) :
    ∃ req rest, ReadWriteGrouping.dequeue q = some (req, rest) ∧ rest.Valid ∧
      q.contents = req :: rest.contents :=
  ⟨_, _, if_neg notEmpty, Positions.pop valid notEmpty,
    Positions.window_pop q.requests valid notEmpty⟩

theorem contents_eq_nil_iff (valid : q.Valid) : q.contents = [] ↔ q.size = 0 :=
  window_toNat_eq_nil_iff q.requests maxQueueSize q.head valid.count_nonneg

theorem length_contents_le (valid : q.Valid) : q.contents.length ≤ maxCycles := by
  have size_le := valid.count_le
  rw [contents, length_window, maxCycles]
  simp only [maxQueueSize] at size_le
  omega

end Valid

end Queue

def Translated (mc : MemoryController) : Prop :=
  ∀ index, (mc.tlb index).physicalAddr = hashAddress (mc.tlb index).logicalAddr

structure Transferred (mc next : MemoryController) : Prop where
  readQueue_eq : next.readQueue = mc.readQueue
  writeQueue_eq : next.writeQueue = mc.writeQueue
  currentMode_eq : next.currentMode = mc.currentMode

variable {mc after : MemoryController} {transfers : List (Option MemoryRequest)}

theorem translateAddress_spec (translated : Translated mc) (logicalAddr : UInt64) :
    (translateAddress mc logicalAddr).1 = hashAddress logicalAddr ∧
      Translated (translateAddress mc logicalAddr).2 ∧
        Transferred mc (translateAddress mc logicalAddr).2 := by
  simp only [translateAddress]
  split
  · rename_i hit
    refine ⟨?_, translated, ⟨rfl, rfl, rfl⟩⟩
    rw [translated, hit]
  · refine ⟨rfl, fun index => ?_, ⟨rfl, rfl, rfl⟩⟩
    by_cases written : index = logicalAddr.toNat % tlbSize
    · simp only [written, update_self]
    · simp only [update_of_ne written]
      exact translated index

theorem handleDataTransfer_cases (mc : MemoryController) (translated : Translated mc)
    (req : MemoryRequest) :
    (¬ InBuffer req ∧ handleDataTransfer mc req = none) ∨
      InBuffer req ∧ ∃ next left, handleDataTransfer mc req = some (next, left) ∧
        Translated next ∧ Transferred mc next := by
  obtain ⟨address, afterwards, kept⟩ := translateAddress_spec translated req.address
  simp only [handleDataTransfer, address, InBuffer]
  split
  · exact .inl ⟨by omega, rfl⟩
  · refine .inr ⟨by omega, ?_⟩
    split
    · exact ⟨_, _, rfl, afterwards, kept⟩
    · exact ⟨_, _, rfl, afterwards, ⟨kept.1, kept.2, kept.3⟩⟩

/-- The TLB holds translations, and the controller is not in the write mode. -/
structure Serving (mc : MemoryController) : Prop where
  translated : Translated mc
  mode : mc.currentMode ≠ .writeMode
  valid : mc.readQueue.Valid

def Reading (mc : MemoryController) : Prop :=
  mc.currentMode = .readMode ∧ mc.writeQueue.size = 0

/-- What one cycle does: nothing, a transfer, or one outside of the buffer. -/
inductive Cycle (mc : MemoryController) :
    Option (MemoryController × Option MemoryRequest) → Prop
  | idle {next : MemoryController} (serving : Serving next)
      (reads : next.readQueue = mc.readQueue) (writes : next.writeQueue = mc.writeQueue)
      (waits : Reading mc → mc.readQueue.size = 0 ∧ Reading next) :
      Cycle mc (some (next, none))
  | outside {req : MemoryRequest} {rest : List MemoryRequest}
      (contents : mc.readQueue.contents = req :: rest) (outside : ¬ InBuffer req) :
      Cycle mc none
  | transfer {next : MemoryController} {req : MemoryRequest} (serving : Serving next)
      (contents : mc.readQueue.contents = req :: next.readQueue.contents)
      (writes : next.writeQueue = mc.writeQueue) (inside : InBuffer req)
      (stays : Reading mc → Reading next) :
      Cycle mc (some (next, some req))

section

variable {mc : MemoryController}

theorem readQueue_switchMode (served : Served) :
    (switchMode served).1.readQueue = served.1.readQueue := by
  rw [switchMode]
  split <;> rfl

theorem writeQueue_switchMode (served : Served) :
    (switchMode served).1.writeQueue = served.1.writeQueue := by
  rw [switchMode]
  split <;> rfl

section

variable (serving : Serving mc)
include serving

theorem Serving.switchMode (shouldSwitch : Bool) (transfer : Option MemoryRequest) :
    Serving (ReadWriteGrouping.switchMode (mc, shouldSwitch, transfer)).1 := by
  cases shouldSwitch with
  | false => exact serving
  | true => exact ⟨serving.translated, BusMode.noConfusion, serving.valid⟩

theorem cycle_readCycle (mode : mc.currentMode = .readMode) :
    Cycle mc ((readCycle mc).map switchMode) := by
  by_cases empty : mc.readQueue.size = 0
  · have idle : readCycle mc = some (mc, decide (0 < mc.writeQueue.size), none) := by
      rw [readCycle, dequeue, if_pos empty]
    rw [idle]
    refine .idle (serving.switchMode _ none) (readQueue_switchMode _)
      (writeQueue_switchMode _) fun reading => ⟨empty, ?_⟩
    rw [reading.2]
    exact reading
  · obtain ⟨req, rest, dequeued, restValid, contents⟩ := serving.valid.dequeue empty
    rcases handleDataTransfer_cases { mc with readQueue := rest }
      serving.translated req with ⟨outside, failed⟩ | ⟨inside, next, left, handled,
        translated, kept⟩
    · rw [readCycle, dequeued]
      simp only [failed]
      exact .outside contents outside
    · obtain ⟨reads, writes, sameMode⟩ := kept
      simp only at reads writes sameMode
      rw [readCycle, dequeued]
      simp only [handled, map_some]
      have still : Serving { next with readCount := next.readCount + 1 } :=
        ⟨translated, by rw [sameMode]; exact serving.mode, by rwa [reads]⟩
      refine .transfer (still.switchMode _ _) ?_ ?_ inside fun reading => ?_
      · rw [contents, ← reads]
        exact congrArg (fun q : Queue => req :: q.contents) (readQueue_switchMode
          ({ next with readCount := next.readCount + 1 }, _, some req)).symm
      · exact (writeQueue_switchMode _).trans writes
      · have noWrites : ¬ 0 < next.writeQueue.size := by
          rw [writes, reading.2]
          exact Int.lt_irrefl 0
        rw [decide_eq_false noWrites, Bool.and_false]
        exact ⟨sameMode.trans mode, by rw [← reading.2, ← writes]; rfl⟩

theorem cycle_processCycle : Cycle mc (processCycle mc ()) := by
  rw [processCycle]
  split
  · rename_i mode
    exact cycle_readCycle serving mode
  · rename_i mode
    exact absurd mode serving.mode
  · rename_i mode
    refine .idle ⟨serving.translated, ?_, serving.valid⟩ rfl rfl fun reading => ?_
    · simp [transitionCycle, mode]
    · rw [reading.1] at mode
      cases mode

theorem Serving.run_ignores_writes {cycles : List Unit}
    (runEq : run processCycle mc cycles = some (after, transfers)) :
    after.writeQueue = mc.writeQueue ∧ ∀ req, some req ∈ transfers → InBuffer req := by
  refine (run_results (fun state past => Serving state ∧
    state.writeQueue = mc.writeQueue ∧ ∀ req, some req ∈ past → InBuffer req) ?_ runEq
      ⟨serving, rfl, nofun⟩).2
  rintro state past ⟨⟩ next transfer ⟨serving, kept, inside⟩ cycle
  have cases := cycle_processCycle serving
  rw [cycle] at cases
  simp only [mem_append, mem_singleton]
  cases cases with
  | idle serving _ writes _ =>
    refine ⟨serving, writes.trans kept, fun req member => ?_⟩
    exact inside req (member.resolve_right nofun)
  | transfer serving _ writes isInside _ =>
    refine ⟨serving, writes.trans kept, fun req member => ?_⟩
    rcases member with before | isLast
    · exact inside req before
    · rwa [some.inj isLast]

theorem Serving.exists_run (inside : ∀ req ∈ mc.readQueue.contents, InBuffer req)
    (cycles : List Unit) :
    ∃ after transfers, run processCycle mc cycles = some (after, transfers) := by
  induction cycles generalizing mc with
  | nil => exact ⟨mc, [], rfl⟩
  | cons _ cycles ih =>
    have cases := cycle_processCycle serving
    generalize outcome : processCycle mc () = result at cases
    cases cases with
    | idle serving reads _ _ =>
      obtain ⟨after, transfers, runEq⟩ := ih serving (reads ▸ inside)
      exact ⟨after, _, run_cons_eq_some.mpr ⟨_, _, transfers, outcome, runEq, rfl⟩⟩
    | outside contents outside =>
      exact absurd (inside _ (contents ▸ mem_cons_self)) outside
    | transfer serving contents _ _ _ =>
      rw [contents] at inside
      obtain ⟨after, transfers, runEq⟩ := ih serving fun req member =>
        inside req (mem_cons_of_mem _ member)
      exact ⟨after, _, run_cons_eq_some.mpr ⟨_, _, transfers, outcome, runEq, rfl⟩⟩

theorem Serving.run_drains_reads (reading : Reading mc) {cycles : Nat}
    (enough : mc.readQueue.contents.length ≤ cycles)
    (runEq : run processCycle mc (replicate cycles ()) = some (after, transfers)) :
    after.readQueue.size = 0 ∧ transfers.filterMap id = mc.readQueue.contents := by
  induction cycles generalizing mc transfers with
  | zero =>
    have nothing := length_eq_zero_iff.mp (Nat.le_zero.mp enough)
    cases runEq
    exact ⟨serving.valid.contents_eq_nil_iff.mp nothing, nothing.symm⟩
  | succ cycles ih =>
    obtain ⟨next, transfer, rest, cycle, restEq, rfl⟩ := run_cons_eq_some.mp runEq
    have cases := cycle_processCycle serving
    rw [cycle] at cases
    cases cases with
    | idle serving reads _ waits =>
      obtain ⟨empty, stillReading⟩ := waits reading
      have nothing := serving.valid.contents_eq_nil_iff.mpr (reads ▸ empty)
      rw [← reads, nothing] at enough ⊢
      obtain ⟨readsDone, all⟩ := ih serving stillReading (nothing ▸ Nat.zero_le cycles) restEq
      exact ⟨readsDone, all.trans nothing⟩
    | transfer serving contents _ _ stays =>
      rw [contents] at enough ⊢
      obtain ⟨readsDone, all⟩ := ih serving (stays reading) (Nat.le_of_succ_le_succ enough) restEq
      exact ⟨readsDone, by rw [← all]; rfl⟩

end

end

/-- The state in which `process_memory_requests` is called. -/
structure Ready (mc : MemoryController) : Prop where
  translated : Translated mc
  mode : mc.currentMode = .readMode
  readsValid : mc.readQueue.Valid
  writesValid : mc.writeQueue.Valid

theorem Ready.serving (ready : Ready mc) : Serving mc :=
  ⟨ready.translated, by rw [ready.mode]; exact BusMode.noConfusion, ready.readsValid⟩

theorem ready_submitted (reads writes : Int → MemoryRequest) (dataBuffer : Nat → UInt8)
    (requests : List (Side × MemoryRequest)) :
    Ready (requests.foldl submit (initMemoryController reads writes dataBuffer)) := by
  have initially : Ready (initMemoryController reads writes dataBuffer) :=
    ⟨fun _ => show (0 : UInt64) = hashAddress 0 by decide, rfl, Queue.valid_initQueue reads,
      Queue.valid_initQueue writes⟩
  generalize initMemoryController reads writes dataBuffer = mc at initially
  induction requests generalizing mc with
  | nil => exact initially
  | cons request requests ih =>
    refine ih (submit mc request) ?_
    obtain ⟨translated, mode, readsValid, writesValid⟩ := initially
    obtain ⟨side, req⟩ := request
    cases side with
    | reads => exact ⟨translated, mode, readsValid.enqueue req, writesValid⟩
    | writes => exact ⟨translated, mode, readsValid, writesValid.enqueue req⟩

theorem processMemoryRequests_eq_some {transfers : List MemoryRequest} :
    processMemoryRequests mc = some (after, transfers) ↔
      ∃ outs, run processCycle mc (replicate maxCycles ()) = some (after, outs) ∧
        outs.filterMap id = transfers := by
  simp only [processMemoryRequests, map_eq_some_iff, Prod.exists, Prod.mk.injEq]
  constructor
  · rintro ⟨after, outs, runEq, rfl, rfl⟩
    exact ⟨outs, runEq, rfl⟩
  · rintro ⟨outs, runEq, rfl⟩
    exact ⟨after, outs, runEq, rfl, rfl⟩

/-- Both queues are drained exactly if no write was queued and every read lies inside. -/
theorem drained_iff_no_writes (reads writes : Int → MemoryRequest)
    (dataBuffer : Nat → UInt8) (requests : List (Side × MemoryRequest)) :
    let mc := requests.foldl submit (initMemoryController reads writes dataBuffer)
    (∃ after transfers, processMemoryRequests mc = some (after, transfers) ∧
        Drained mc after transfers) ↔
      mc.writeQueue.size = 0 ∧ ∀ req ∈ mc.readQueue.contents, InBuffer req := by
  intro mc
  have ready : Ready mc := ready_submitted reads writes dataBuffer requests
  constructor
  · rintro ⟨after, transfers, processed, -, noWrites, all⟩
    obtain ⟨outs, runEq, rfl⟩ := processMemoryRequests_eq_some.mp processed
    obtain ⟨kept, inside⟩ := ready.serving.run_ignores_writes runEq
    rw [kept] at noWrites
    refine ⟨noWrites, fun req member => inside req ?_⟩
    have transferred := all.mem_iff.mpr (mem_append_left _ member)
    obtain ⟨out, isOut, same⟩ := mem_filterMap.mp transferred
    rwa [← show out = some req from same]
  · rintro ⟨noWrites, inside⟩
    obtain ⟨after, outs, runEq⟩ := ready.serving.exists_run inside (replicate maxCycles ())
    have kept := (ready.serving.run_ignores_writes runEq).1
    obtain ⟨readsDone, all⟩ := ready.serving.run_drains_reads ⟨ready.mode, noWrites⟩
      ready.readsValid.length_contents_le runEq
    refine ⟨after, _, processMemoryRequests_eq_some.mpr ⟨outs, runEq, rfl⟩, readsDone,
      by rw [kept]; exact noWrites, ?_⟩
    rw [all, ready.writesValid.contents_eq_nil_iff.mpr noWrites, append_nil]

def zeroWrite : MemoryRequest :=
  ⟨0, 0, 0, 0⟩

theorem write_left_in_queue :
    let mc := submit (initMemoryController (fun _ => zeroWrite) (fun _ => zeroWrite)
      fun _ => 0) (.writes, zeroWrite)
    ∃ after transfers, processMemoryRequests mc = some (after, transfers) ∧
      ¬ Drained mc after transfers := by
  intro mc
  have serving : Serving mc := (ready_submitted (fun _ => zeroWrite) (fun _ => zeroWrite)
    (fun _ => 0) [(.writes, zeroWrite)]).serving
  obtain ⟨after, outs, runEq⟩ := serving.exists_run nofun (replicate maxCycles ())
  refine ⟨after, _, processMemoryRequests_eq_some.mpr ⟨outs, runEq, rfl⟩, fun drained => ?_⟩
  have empty := drained.2.1
  rw [(serving.run_ignores_writes runEq).1] at empty
  exact absurd empty (by decide)

end BitsAndBytes.ReadWriteGrouping
