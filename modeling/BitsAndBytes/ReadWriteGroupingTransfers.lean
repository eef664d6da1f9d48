import BitsAndBytes.ReadWriteGrouping

/-! # Translations and transfers of `readWriteGrouping.c` -/

namespace BitsAndBytes.ReadWriteGrouping

open OperationRuns Option

def translate (mc : MemoryController) (logicalAddr : UInt64) : Option (MemoryController × UInt64) :=
  some ((translateAddress mc logicalAddr).2, (translateAddress mc logicalAddr).1)

inductive Operation
  | submit (request : Side × MemoryRequest)
  | translateAddress (logicalAddr : UInt64)
  | handleDataTransfer (req : MemoryRequest)
  | processCycle

def step (mc : MemoryController) : Operation → Option (MemoryController × Unit)
  | .submit request => some (submit mc request, ())
  | .translateAddress logicalAddr => some ((translateAddress mc logicalAddr).2, ())
  | .handleDataTransfer req =>
    (handleDataTransfer mc req).map fun handled => (handled.1, ())
  | .processCycle => (processCycle mc ()).map fun served => (served.1, ())

def transferOffset (mc : MemoryController) (req : MemoryRequest) : Nat :=
  (translateAddress mc req.address).1.toNat % bufferSize

def BytesInside (mc : MemoryController) (req : MemoryRequest) : Prop :=
  ∀ byte < 8, transferOffset mc req + byte < bufferSize

section

variable {width shift : Nat}

theorem xor_ushiftRight_injective (positive : 0 < shift) :
    Function.Injective fun word : BitVec width => word ^^^ (word >>> shift) := by
  intro word other same
  have bits : ∀ distance index, width ≤ index + distance →
      word.getLsbD index = other.getLsbD index := by
    intro distance
    induction distance with
    | zero =>
      intro index outside
      rw [BitVec.getLsbD_of_ge word index outside, BitVec.getLsbD_of_ge other index outside]
    | succ distance ih =>
      intro index inside
      have higher := ih (shift + index) (by omega)
      have sums := congrArg (BitVec.getLsbD · index) same
      simp only [BitVec.getLsbD_xor, BitVec.getLsbD_ushiftRight, higher] at sums
      exact Bool.xor_left_inj.mp sums
  apply BitVec.eq_of_getLsbD_eq
  intro index _
  exact bits width index (Nat.le_add_left width index)

theorem hashAddress_injective : Function.Injective hashAddress := by
  intro address other same
  apply UInt64.eq_of_toBitVec_eq
  apply xor_ushiftRight_injective (show 0 < 12 by decide)
  exact congrArg UInt64.toBitVec same

end

theorem translated_initMemoryController (reads writes : Int → MemoryRequest)
    (dataBuffer : Nat → UInt8) :
    Translated (initMemoryController reads writes dataBuffer) :=
  fun _ => show (0 : UInt64) = hashAddress 0 by decide

variable {req : MemoryRequest} {served : Served}

theorem Translated.run_translate {mc : MemoryController} (translated : Translated mc)
    (addresses : List UInt64) :
    ∃ last, run translate mc addresses = some (last, addresses.map hashAddress) := by
  induction addresses generalizing mc with
  | nil => exact ⟨mc, rfl⟩
  | cons address addresses ih =>
    obtain ⟨returned, still, -⟩ := translateAddress_spec translated address
    obtain ⟨last, runEq⟩ := ih still
    refine ⟨last, run_cons_eq_some.mpr ⟨_, _, _, rfl, runEq, ?_⟩⟩
    rw [returned, List.map_cons]

/-- A translation is the address xored with itself shifted by 12, and injective. -/
theorem translations_hash_and_injective (reads writes : Int → MemoryRequest)
    (dataBuffer : Nat → UInt8) (addresses : List UInt64) :
    (∃ last, run translate (initMemoryController reads writes dataBuffer) addresses =
        some (last, addresses.map fun l : UInt64 => l ^^^ (l >>> 12))) ∧
      Function.Injective fun l : UInt64 => l ^^^ (l >>> 12) :=
  ⟨(translated_initMemoryController reads writes dataBuffer).run_translate addresses,
    hashAddress_injective⟩

section

variable {mc next : MemoryController}

theorem Translated.handleDataTransfer (translated : Translated mc) {left : MemoryRequest}
    (handled : ReadWriteGrouping.handleDataTransfer mc req = some (next, left)) :
    Translated next := by
  rcases handleDataTransfer_cases mc translated req with ⟨-, failed⟩ | ⟨-, after, rest, same,
    kept, -⟩
  · rw [failed] at handled
    cases handled
  · rw [same] at handled
    cases handled
    exact kept

theorem Translated.switchMode (translated : Translated served.1) :
    Translated (ReadWriteGrouping.switchMode served).1 := by
  unfold ReadWriteGrouping.switchMode
  split
  · exact translated
  · exact translated

theorem Translated.map_handleDataTransfer {finish : MemoryController × MemoryRequest → Served}
    (translated : Translated mc)
    (kept : ∀ handled, Translated handled.1 → Translated (finish handled).1)
    (finished : (ReadWriteGrouping.handleDataTransfer mc req).map finish = some served) :
    Translated served.1 := by
  obtain ⟨⟨after, left⟩, handled, rfl⟩ := map_eq_some_iff.mp finished
  exact kept (after, left) (translated.handleDataTransfer handled)

theorem Translated.readCycle (translated : Translated mc)
    (cycle : ReadWriteGrouping.readCycle mc = some served) : Translated served.1 := by
  unfold ReadWriteGrouping.readCycle at cycle
  split at cycle
  · cases cycle
    exact translated
  · rename_i req rest dequeued
    have before : Translated { mc with readQueue := rest } := translated
    exact before.map_handleDataTransfer (fun _ after => after) cycle

theorem Translated.writeCycle (translated : Translated mc)
    (cycle : ReadWriteGrouping.writeCycle mc = some served) : Translated served.1 := by
  unfold ReadWriteGrouping.writeCycle at cycle
  split at cycle
  · cases cycle
    exact translated
  · rename_i req rest dequeued
    have before : Translated { mc with writeQueue := rest } := translated
    exact before.map_handleDataTransfer (fun _ after => after) cycle

theorem Translated.processCycle {transfer : Option MemoryRequest} (translated : Translated mc)
    (cycle : ReadWriteGrouping.processCycle mc () = some (next, transfer)) :
    Translated next := by
  unfold ReadWriteGrouping.processCycle at cycle
  split at cycle
  · obtain ⟨served, reads, switched⟩ := map_eq_some_iff.mp cycle
    have kept := (translated.readCycle reads).switchMode
    rwa [switched] at kept
  · obtain ⟨served, writes, switched⟩ := map_eq_some_iff.mp cycle
    have kept := (translated.writeCycle writes).switchMode
    rwa [switched] at kept
  · cases cycle
    exact translated

theorem Translated.step {operation : Operation} {out : Unit} (translated : Translated mc)
    (stepEq : ReadWriteGrouping.step mc operation = some (next, out)) : Translated next := by
  cases operation with
  | submit request =>
    obtain ⟨side, req⟩ := request
    cases stepEq
    cases side <;> exact translated
  | translateAddress logicalAddr =>
    cases stepEq
    exact (translateAddress_spec translated logicalAddr).2.1
  | handleDataTransfer req =>
    obtain ⟨⟨after, left⟩, handled, same⟩ := map_eq_some_iff.mp stepEq
    cases same
    exact translated.handleDataTransfer handled
  | processCycle =>
    obtain ⟨⟨after, transfer⟩, cycle, same⟩ := map_eq_some_iff.mp stepEq
    cases same
    exact translated.processCycle cycle

theorem Translated.bytesInside_iff (translated : Translated mc) (req : MemoryRequest) :
    BytesInside mc req ↔ InBuffer req := by
  have offset : transferOffset mc req = (hashAddress req.address).toNat % bufferSize := by
    rw [transferOffset, (translateAddress_spec translated req.address).1]
  unfold BytesInside InBuffer
  rw [offset]
  constructor
  · intro inside
    exact inside 7 (by decide)
  · intro inside byte byteLt
    omega

end

/-- A transfer stays inside exactly if the remainder of its address is at most 65528. -/
theorem bytesInside_iff_remainder_le {reads writes : Int → MemoryRequest}
    {dataBuffer : Nat → UInt8} {operations : List Operation} {mc : MemoryController}
    (reached : Reaches step (initMemoryController reads writes dataBuffer) operations mc)
    (req : MemoryRequest) :
    BytesInside mc req ↔ (req.address ^^^ (req.address >>> 12)).toNat % 65536 ≤ 65528 := by
  have translated : Translated mc :=
    reached.invariant Translated (fun translated stepEq => translated.step stepEq)
      (translated_initMemoryController reads writes dataBuffer)
  rw [translated.bytesInside_iff]
  unfold InBuffer hashAddress bufferSize
  omega

theorem bytes_inside_after_transfer :
    ∃ mc, Reaches step (initMemoryController (fun _ => zeroWrite) (fun _ => zeroWrite)
        fun _ => 0) [.submit (.reads, ⟨0x1001, 0, 0, 0⟩), .processCycle] mc ∧
      BytesInside mc ⟨0x2000, 0, 0, 0⟩ := by
  obtain ⟨mc, reached⟩ : ∃ mc, Reaches step (initMemoryController (fun _ => zeroWrite)
      (fun _ => zeroWrite) fun _ => 0)
        [.submit (.reads, ⟨0x1001, 0, 0, 0⟩), .processCycle] mc := ⟨_, _, rfl⟩
  exact ⟨mc, reached, (bytesInside_iff_remainder_le reached _).mpr (by decide)⟩

theorem read_behind_data_buffer :
    ∃ mc, Reaches step (initMemoryController (fun _ => zeroWrite) (fun _ => zeroWrite)
        fun _ => 0) [.submit (.reads, ⟨0xFFF5, 0, 0, 0⟩)] mc ∧
      ¬ BytesInside mc ⟨0xFFF5, 0, 0, 0⟩ ∧ processCycle mc () = none := by
  refine ⟨_, ⟨_, rfl⟩, fun inside => ?_, rfl⟩
  exact absurd (inside 7 (by decide)) (by decide)

end BitsAndBytes.ReadWriteGrouping
