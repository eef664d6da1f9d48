import BitsAndBytes.AllocatorOperations
import Mathlib.Data.Set.BooleanAlgebra
import Mathlib.Order.CompletePartialOrder

/-! # Runs of the tagged heap -/

namespace BitsAndBytes.Allocator

open BoundaryTags BlockTiling OperationRuns

def Payload.bytes (payload : Payload) : Set Nat :=
  Set.Ico payload.ptr (payload.ptr + payload.size)

def tagBytes (p : Nat) : Set Nat :=
  Set.Ico p (p + 4)

def blockBytes (memory : Nat → UInt8) (bp : Nat) : Set Nat :=
  Set.Ico (hdrp bp) (hdrp bp + (getSize memory (hdrp bp)).toNat)

/-- The live payloads lie in allocated blocks, apart from each other and from all tags. -/
structure PayloadsSafe (client : Client) (prologue : Nat) : Prop where
  inside : ∀ payload ∈ client.live,
    payload.bytes ⊆ Set.Ico client.heap.heapStart client.heap.heapEnd
  allocated : ∀ payload ∈ client.live, ∃ bp, IsBlock client.heap.memory prologue bp ∧
      getAlloc client.heap.memory (hdrp bp) ≠ 0 ∧ payload.bytes ⊆ blockBytes client.heap.memory bp
  disjoint : client.live.Pairwise fun payload other =>
    Disjoint payload.bytes other.bytes
  untagged : ∀ payload ∈ client.live, ∀ bp, IsBlock client.heap.memory prologue bp →
      Disjoint payload.bytes (tagBytes (hdrp bp)) ∧
        Disjoint payload.bytes (tagBytes (ftrp client.heap.memory bp))

def extensionFor (size : UInt64) : UInt64 :=
  extensionSize (extendsizeOf (asizeOf size) / 8)

/-- `m_malloc` returns null, or a block that has a slot to spare and is not split. -/
inductive MallocSafe (heap : Heap) (size : UInt64) : Prop
  | nothing (zero : size = 0)
  | refused (noFit : NoFit heap (asizeOf size))
      (full : heap.heapEnd < (heap.currentBreak + (extensionFor size).toNat) % 2 ^ 64)
  | whole (large : sizeTSize < size.toNat) (noWrap : size.toNat + 23 < 2 ^ 64)
      (bp : Nat) (firstFit : FirstFit heap (asizeOf size) bp)
      (spare : (getSize heap.memory (hdrp bp)).toNat = (asizeOf size).toNat + sizeTSize)
  | extended (large : sizeTSize < size.toNat)
      (noWrap : size.toNat + 23 < 2 ^ 64) (noFit : NoFit heap (asizeOf size))
      (extensible : Extensible heap (extensionFor size).toNat)
      (spare : (extensionFor size).toNat = (asizeOf size).toNat + sizeTSize)

/-- The call is a safe `m_malloc`, or frees a live block that can be joined. -/
def Safe (client : Client) : Call → Prop
  | .malloc size => MallocSafe client.heap size
  | .free ptr => ptr ∈ client.live.map Payload.ptr ∧ Joinable client.heap.memory (ptr - sizeTSize)

theorem nonzero_of_large {size : UInt64} (large : sizeTSize < size.toNat) : size ≠ 0 := by
  rintro rfl
  exact absurd large (by decide)

/-- The payload has room between the tags of an allocated block. -/
def Owned (start : Nat) (tags : List UInt32) (payload : Payload) : Prop :=
  ∃ placed ∈ place tagSize start tags, ¬ IsFree placed.2 ∧
    payload.ptr = placed.1 + 16 ∧ payload.size + 24 ≤ tagSize placed.2

/-- The heap is well tagged, and every live payload is owned. -/
structure Sound (client : Client) (start : Nat) (first : UInt32)
    (tags : List UInt32) : Prop where
  wellTagged : WellTagged client.heap start first tags
  owned : ∀ payload ∈ client.live, Owned (start + tagSize first) tags payload
  distinct : (client.live.map Payload.ptr).Nodup

namespace Sound

variable {client : Client} {start : Nat} {first : UInt32} {tags : List UInt32}
  (sound : Sound client start first tags)
include sound

variable {bp : Nat} {size : UInt64}

theorem isBlock_iff : IsBlock client.heap.memory (start + 8) bp ↔
      bp ∈ pointers start (first :: tags) ∨ bp = start + extent tagSize (first :: tags) + 8 :=
  isBlock_iff_mem_pointers sound.wellTagged.tagged sound.wellTagged.epilogue

theorem untagged {payload : Payload} (live : payload ∈ client.live)
    (isBlock : IsBlock client.heap.memory (start + 8) bp) :
    Disjoint payload.bytes (tagBytes (hdrp bp)) ∧
      Disjoint payload.bytes (tagBytes (ftrp client.heap.memory bp)) := by
  obtain ⟨placed, member, used, ptrIs, fits⟩ := sound.owned payload live
  have placedMem : placed ∈ place tagSize start (first :: tags) := List.mem_cons_of_mem _ member
  have within := within_of_mem_place placedMem
  have apart : ∀ p, p + 4 ≤ placed.1 + 16 ∨ placed.1 + tagSize placed.2 ≤ p + 8 →
      Disjoint payload.bytes (tagBytes p) := by
    intro p outside
    rw [Set.disjoint_left]
    rintro byte ⟨lower, upper⟩ ⟨tagLower, tagUpper⟩
    omega
  rcases sound.isBlock_iff.mp isBlock with inSequence | rfl
  · obtain ⟨block, blockMem, rfl⟩ := List.mem_map.mp inSequence
    have holds : Holds client.heap.memory block.1 block.2 := sound.wellTagged.tagged block blockMem
    rw [holds.ftrp_eq, hdrp_add]
    rcases eq_or_disjoint_of_mem_place placedMem blockMem with rfl | before | after
    · exact ⟨apart _ (by omega), apart _ (by omega)⟩
    · exact ⟨apart _ (by omega), apart _ (by omega)⟩
    · exact ⟨apart _ (by omega), apart _ (by omega)⟩
  · have zero : (getSize client.heap.memory (hdrp (start +
        extent tagSize (first :: tags) + 8))).toNat = 0 := sound.wellTagged.epilogue
    rw [ftrp, zero, hdrp_add]
    simp only [sizeTSize]
    exact ⟨apart _ (by omega), apart _ (by omega)⟩

theorem disjoint_of_ne {payload other : Payload} (live : payload ∈ client.live)
    (otherLive : other ∈ client.live) (different : payload.ptr ≠ other.ptr) :
    Disjoint payload.bytes other.bytes := by
  obtain ⟨placed, member, -, ptrIs, fits⟩ := sound.owned payload live
  obtain ⟨block, blockMem, -, otherIs, otherFits⟩ := sound.owned other otherLive
  rw [Set.disjoint_left]
  rintro byte ⟨lower, upper⟩ ⟨otherLower, otherUpper⟩
  rcases eq_or_disjoint_of_mem_place member blockMem with rfl | before | after
  · exact different (by rw [ptrIs, otherIs])
  · omega
  · omega

theorem payloadsSafe : PayloadsSafe client (start + 8) where
  inside := by
    rintro payload live byte ⟨lower, upper⟩
    obtain ⟨placed, member, -, ptrIs, fits⟩ := sound.owned payload live
    have within := within_of_mem_place member
    have ends := sound.wellTagged.ends
    rw [extent_cons] at ends
    refine ⟨?_, by omega⟩
    rcases sound.wellTagged.begins with atPrologue | behind
    · rw [atPrologue]
      omega
    · rw [behind]
      omega
  allocated := by
    intro payload live
    obtain ⟨placed, member, used, ptrIs, fits⟩ := sound.owned payload live
    have placedMem : placed ∈ place tagSize start (first :: tags) := List.mem_cons_of_mem _ member
    have holds : Holds client.heap.memory placed.1 placed.2 :=
      sound.wellTagged.tagged placed placedMem
    refine ⟨placed.1 + 8, ?_, ?_, ?_⟩
    · exact sound.isBlock_iff.mpr (.inl (List.mem_map.mpr ⟨placed, placedMem, rfl⟩))
    · rw [hdrp_add, getAlloc, holds.header]
      exact used
    · rintro byte ⟨lower, upper⟩
      rw [blockBytes, holds.getSize_eq, hdrp_add]
      exact ⟨by omega, by omega⟩
  disjoint := by
    refine (List.pairwise_map.mp sound.distinct).imp_of_mem ?_
    intro payload other live otherLive different
    exact sound.disjoint_of_ne live otherLive different
  untagged := fun _ live _ isBlock => sound.untagged live isBlock

theorem adopt {heap : Heap} {newTags : List UInt32} {payload : Payload}
    (wellTagged : WellTagged heap start first newTags)
    (stays : ∀ placed ∈ place tagSize (start + tagSize first) tags,
      ¬ IsFree placed.2 → placed ∈ place tagSize (start + tagSize first) newTags ∧
        payload.ptr ≠ placed.1 + 16)
    (owned : Owned (start + tagSize first) newTags payload) :
    Sound ⟨heap, payload :: client.live⟩ start first newTags := by
  refine ⟨wellTagged, ?_, ?_⟩
  · intro other live
    rcases List.mem_cons.mp live with rfl | earlier
    · exact owned
    · obtain ⟨placed, member, used, ptrIs, fits⟩ := sound.owned other earlier
      exact ⟨placed, (stays placed member used).1, used, ptrIs, fits⟩
  · rw [List.map_cons, List.nodup_cons]
    refine ⟨?_, sound.distinct⟩
    intro taken
    obtain ⟨other, live, samePtr⟩ := List.mem_map.mp taken
    obtain ⟨placed, member, used, ptrIs, -⟩ := sound.owned other live
    apply (stays placed member used).2
    rw [← samePtr, ptrIs]

theorem exists_block_of_firstFit {asize : UInt64} (firstFit : FirstFit client.heap asize bp) :
    findFit client.heap asize = some (some bp) ∧
      ∃ before tag after, tags = before ++ tag :: after ∧ IsFree tag ∧
        bp = start + tagSize first + extent tagSize before + 8 ∧
          Holds client.heap.memory (start + tagSize first + extent tagSize before) tag := by
  obtain ⟨searched, member⟩ := sound.wellTagged.findFit_of_firstFit firstFit
  refine ⟨searched, ?_⟩
  obtain ⟨placed, placedMem, rfl⟩ := List.mem_map.mp member
  have holds := sound.wellTagged.tagged placed placedMem
  have free : IsFree placed.2 := by
    have passes := of_decide_eq_true firstFit.available.fits
    rw [hdrp_add, getAlloc, holds.header] at passes
    exact passes.1
  rcases List.mem_cons.mp placedMem with rfl | behind
  · exact absurd free sound.wellTagged.prologue
  · obtain ⟨before, after, splits, address⟩ := exists_split_of_mem_place behind
    rw [address] at holds ⊢
    exact ⟨before, placed.2, after, splits, free, rfl, holds⟩

theorem malloc_whole (large : sizeTSize < size.toNat) (noWrap : size.toNat + 23 < 2 ^ 64)
    (firstFit : FirstFit client.heap (asizeOf size) bp)
    (spare : (getSize client.heap.memory (hdrp bp)).toNat = (asizeOf size).toNat + sizeTSize) :
    ∃ next out newTags, step client (.malloc size) = some (next, out) ∧
      Sound next start first newTags := by
  obtain ⟨searched, before, tag, after, splits, free, rfl, holds⟩ :=
    sound.exists_block_of_firstFit firstFit
  rw [holds.getSize_eq] at spare
  obtain ⟨memory, newTag, placeEq, used, bytes, retagged⟩ := placeAt_whole client.heap holds spare
  have covers : extent tagSize [tag] = tagSize newTag := by
    rw [bytes, extent_cons, extent_nil, Nat.add_zero]
  have stepEq : step client (.malloc size) = some (⟨{ client.heap with memory := memory },
        ⟨start + tagSize first + extent tagSize before + 16, size.toNat⟩ ::
          client.live⟩, some (start + tagSize first + extent tagSize before + 16)) := by
    rw [step, mMalloc_of_fit (nonzero_of_large large) searched, Option.map_some, placeEq]
    rfl
  have apart : ∀ placed ∈ place tagSize (start + tagSize first) tags,
      ¬ IsFree placed.2 → placed.1 ≠ start + tagSize first + extent tagSize before := by
    intro placed member placedUsed same
    have tagMem : (start + tagSize first + extent tagSize before, tag) ∈
        place tagSize (start + tagSize first) tags := by
      rw [splits]
      simp
    rw [sound.wellTagged.eq_of_address member tagMem same] at placedUsed
    exact placedUsed free
  refine ⟨_, _, before ++ newTag :: after, stepEq, sound.adopt
    (sound.wellTagged.replace (by simpa using splits) covers retagged) ?_ ?_⟩
  · intro placed member placedUsed
    have elsewhere := apart placed member placedUsed
    refine ⟨?_, by dsimp only; omega⟩
    rw [splits, List.append_cons] at member
    rcases mem_place_replace covers member with stays | isTag
    · exact stays
    · rw [place_cons, place_nil, List.mem_singleton] at isTag
      exact absurd (congrArg Prod.fst isTag) elsewhere
  · have asize := asizeOf_toNat large noWrap
    refine ⟨(start + tagSize first + extent tagSize before, newTag), by simp, used, rfl, ?_⟩
    simp only [sizeTSize] at spare
    dsimp only
    omega

theorem malloc_extended (large : sizeTSize < size.toNat) (noWrap : size.toNat + 23 < 2 ^ 64)
    (noFit : NoFit client.heap (asizeOf size))
    (extensible : Extensible client.heap (extensionFor size).toNat)
    (spare : (extensionFor size).toNat = (asizeOf size).toNat + sizeTSize) :
    ∃ next out newTags, step client (.malloc size) = some (next, out) ∧
      Sound next start first newTags := by
  have asize := asizeOf_toNat large noWrap
  simp only [sizeTSize] at large spare
  obtain ⟨extendedMemory, newBreak, tag, extendEq, tagBytes, extension⟩ :=
    sound.wellTagged.extendHeap_spec extensible
      (by rw [← extensionFor]; omega) (by rw [← extensionFor]; omega)
  rw [← extensionFor, spare] at tagBytes
  obtain ⟨memory, newTag, placeEq, used, bytes, retagged⟩ := placeAt_whole { client.heap with
      memory := extendedMemory
      currentBreak := newBreak } extension.carries tagBytes
  have written := extension.trans bytes retagged
  have stepEq : step client (.malloc size) =
      some (⟨{ client.heap with memory := memory, currentBreak := newBreak },
        ⟨start + extent tagSize (first :: tags) + 16, size.toNat⟩ ::
          client.live⟩, some (start + extent tagSize (first :: tags) + 16)) := by
    rw [step, mMalloc_of_extension (nonzero_of_large large)
      (sound.wellTagged.findFit_of_noFit noFit) extendEq, Option.map_some, placeEq]
    rfl
  have breakIs := sound.wellTagged.eq_epilogue extensible.atEpilogue extensible.zeroSize
  have room := extensible.room
  have zero := tagSize_eq_zero_of_getSize extensible.newEpilogue
  rw [breakIs, spare, ← tagBytes, ← bytes] at room zero
  have endIs : start + tagSize first + extent tagSize tags =
      start + extent tagSize (first :: tags) := by
    rw [extent_cons, Nat.add_assoc]
  have extendedWell := sound.wellTagged.extend newBreak written (by
    rw [written.elsewhere _ (.inr (Nat.le_refl _))]
    rwa [Nat.add_right_comm, hdrp_add] at zero) (by omega)
  refine ⟨_, _, tags ++ [newTag], stepEq, sound.adopt extendedWell ?_ ?_⟩
  · intro placed member placedUsed
    have within := within_of_mem_place member
    have roomy := ((tagged_cons.mp sound.wellTagged.tagged).2 placed member).roomy
    simp only [sizeTSize] at roomy
    refine ⟨?_, by dsimp only; omega⟩
    rw [place_append]
    exact List.mem_append_left _ member
  · refine ⟨(start + extent tagSize (first :: tags), newTag), ?_, used, rfl, ?_⟩
    · rw [place_append, endIs]
      simp
    · dsimp only
      omega

theorem malloc_step (safe : MallocSafe client.heap size) :
    ∃ next out newTags, step client (.malloc size) = some (next, out) ∧
      Sound next start first newTags := by
  cases safe with
  | nothing zero =>
    refine ⟨client, none, tags, ?_, sound⟩
    rw [step, mMalloc, if_pos zero]
    rfl
  | refused noFit full =>
    by_cases zero : size = 0
    · refine ⟨client, none, tags, ?_, sound⟩
      rw [step, mMalloc, if_pos zero]
      rfl
    · have refused : extendHeap client.heap (extendsizeOf (asizeOf size) / 8) = none := by
        exact if_pos full
      refine ⟨client, none, tags, ?_, sound⟩
      rw [step, mMalloc_of_refusal zero (sound.wellTagged.findFit_of_noFit noFit) refused]
      rfl
  | whole large noWrap bp firstFit spare => exact sound.malloc_whole large noWrap firstFit spare
  | extended large noWrap noFit extensible spare =>
    exact sound.malloc_extended large noWrap noFit extensible spare

theorem free_step {ptr : Nat} (live : ptr ∈ client.live.map Payload.ptr)
    (joinable : Joinable client.heap.memory (ptr - sizeTSize)) :
    ∃ next out newTags, step client (.free ptr) = some (next, out) ∧
      Sound next start first newTags := by
  obtain ⟨payload, payloadLive, rfl⟩ := List.mem_map.mp live
  obtain ⟨freed, freedMem, -, ptrIs, -⟩ := sound.owned payload payloadLive
  obtain ⟨before, after, splits, address⟩ := exists_split_of_mem_place freedMem
  rw [ptrIs, address] at joinable
  obtain ⟨memory, newTags, freeEq, newWell, stays⟩ := sound.wellTagged.mFree_spec splits joinable
  have stepEq : step client (.free payload.ptr) = some (⟨{ client.heap with memory := memory },
        client.live.filter fun other => other.ptr ≠ payload.ptr⟩, none) := by
    rw [step, if_pos live, ptrIs, address, freeEq]
  refine ⟨_, _, newTags, stepEq, newWell, ?_, ?_⟩
  · intro other otherLive
    obtain ⟨remains, different⟩ := List.mem_filter.mp otherLive
    obtain ⟨placed, member, used, otherIs, fits⟩ := sound.owned other remains
    have elsewhere : other.ptr ≠ payload.ptr := of_decide_eq_true different
    exact ⟨placed, stays placed member used (by omega), used, otherIs, fits⟩
  · exact sound.distinct.sublist (List.filter_sublist.map Payload.ptr)

theorem step {call : Call} (safe : Safe client call) :
    ∃ next out newTags, Allocator.step client call = some (next, out) ∧
      Sound next start first newTags := by
  cases call with
  | malloc size => exact sound.malloc_step safe
  | free ptr => exact sound.free_step safe.1 safe.2

end Sound

/-- If the calls of a run are safe, they return and keep the live payloads safe. -/
theorem payloads_safe_of_safe_calls {heap : Heap} {start : Nat} {first : UInt32}
    {tags : List UInt32} (wellTagged : WellTagged heap start first tags)
    {calls : List Call} (safe : Respects step Safe ⟨heap, []⟩ calls) :
    ∀ initial, initial <+: calls → ∃ reached,
      Reaches step ⟨heap, []⟩ initial reached ∧ PayloadsSafe reached (start + 8) := by
  intro initial isInitial
  have initially : Sound ⟨heap, []⟩ start first tags := ⟨wellTagged, by simp, List.nodup_nil⟩
  obtain ⟨reached, run, newTags, sound⟩ := (safe.of_prefix isInitial).exists_reaches
      (fun client => ∃ tags, Sound client start first tags)
      (fun ⟨_, sound⟩ safe =>
        let ⟨next, out, newTags, stepEq, kept⟩ := sound.step safe
        ⟨next, out, stepEq, newTags, kept⟩)
      ⟨tags, initially⟩
  exact ⟨reached, run, sound.payloadsSafe⟩

def oneBlockHeap (size : UInt32) : Heap where
  memory :=
    putTags (putTags (put (fun _ => 0) (24 + size.toNat) (pack 0 1)) 32
      (pack size.toUInt64 0)) 16 (pack 16 1)
  heapStart := 16
  heapEnd := 32 + size.toNat
  currentBreak := 32 + size.toNat
  representable := by
    have := size.toNat_lt
    omega

theorem wellTagged_oneBlockHeap {size : UInt32} (known : size = 40 ∨ size = 64) :
    WellTagged (oneBlockHeap size) 8 17 [size] := by
  rcases known with rfl | rfl <;>
  · refine ⟨?_, by decide, by decide +kernel, by decide, by decide⟩
    rw [tagged_cons, tagged_cons]
    exact ⟨⟨by decide, by decide +kernel, by decide +kernel⟩,
      ⟨by decide, by decide +kernel, by decide +kernel⟩, tagged_nil⟩

instance (memory : Nat → UInt8) (bp : Nat) : Decidable (Joinable memory bp) :=
  decidable_of_iff (_ ∧ (_ → _ → _))
    ⟨fun both => ⟨both.1, both.2⟩, fun joinable => ⟨joinable.small, joinable.notAtEpilogue⟩⟩

theorem payloads_safe_of_malloc_and_free : WellTagged (oneBlockHeap 40) 8 17 [40] ∧
      Respects step Safe ⟨oneBlockHeap 40, []⟩ [.malloc 16, .free 40] ∧
      ∀ initial, initial <+: [.malloc 16, .free 40] → ∃ reached,
        Reaches step ⟨oneBlockHeap 40, []⟩ initial reached ∧ PayloadsSafe reached 16 := by
  have wellTagged : WellTagged (oneBlockHeap 40) 8 17 [40] := wellTagged_oneBlockHeap (.inl rfl)
  have secondIs : nextBlkp (oneBlockHeap 40).memory 16 = 32 := by decide +kernel
  have firstFit : FirstFit (oneBlockHeap 40) (asizeOf 16) 32 := by
    refine ⟨⟨?_, by decide +kernel, by decide +kernel⟩, ?_⟩
    · rw [← secondIs]
      exact IsBlock.first.next (by decide +kernel)
    · rintro other earlier ⟨isBlock, -, passes⟩
      have met : other = 16 ∨ other = 32 ∨ other = 72 := by
        have walked := (isBlock_iff_mem_pointers wellTagged.tagged wellTagged.epilogue).mp isBlock
        have pointersAre : pointers 8 [17, 40] = [16, 32] := by decide
        have endIs : 8 + extent tagSize [17, 40] + 8 = 72 := by decide
        rw [pointersAre, endIs] at walked
        simpa [or_assoc] using walked
      obtain rfl : other = 16 := by omega
      exact absurd passes (by decide +kernel)
  have freeable : ∀ result ∈ step ⟨oneBlockHeap 40, []⟩ (.malloc 16),
      40 ∈ result.1.live.map Payload.ptr ∧ Joinable result.1.heap.memory 32 := by
    decide +kernel
  have safe : Respects step Safe ⟨oneBlockHeap 40, []⟩ [.malloc 16, .free 40] :=
    ⟨.whole (by decide) (by decide) 32 firstFit (by decide +kernel),
      fun _ _ stepEq => ⟨freeable _ stepEq, fun _ _ _ => trivial⟩⟩
  exact ⟨wellTagged, safe, payloads_safe_of_safe_calls wellTagged safe⟩

theorem payload_meets_footer_of_free_half : WellTagged (oneBlockHeap 64) 8 17 [64] ∧
      ∃ reached, Reaches step ⟨oneBlockHeap 64, []⟩ [.malloc 16] reached ∧
        ¬ PayloadsSafe reached 16 := by
  have returns : (step ⟨oneBlockHeap 64, []⟩ (.malloc 16)).isSome := by decide +kernel
  obtain ⟨⟨reached, out⟩, stepEq⟩ := Option.isSome_iff_exists.mp returns
  have evaluated : (step ⟨oneBlockHeap 64, []⟩ (.malloc 16)).map (fun result =>
      let memory := result.1.heap.memory
      (result.1.live, nextBlkp memory 16, nextBlkp memory 32, ftrp memory 64,
        decide (0 < getSize memory (hdrp 16)), decide (0 < getSize memory (hdrp 32)))) =
      some ([⟨72, 16⟩], 32, 64, 80, true, true) := by
    decide +kernel
  rw [stepEq, Option.map_some, Option.some.injEq] at evaluated
  simp only [Prod.mk.injEq, decide_eq_true_eq] at evaluated
  obtain ⟨live, second, third, footer, firstPositive, secondPositive⟩ := evaluated
  refine ⟨wellTagged_oneBlockHeap (.inr rfl), reached,
    reaches_cons.mpr ⟨reached, out, stepEq, reaches_nil.mpr rfl⟩, fun payloadsSafe => ?_⟩
  have isBlock : IsBlock reached.heap.memory 16 64 := by
    rw [← third, ← second]
    rw [← second] at secondPositive
    exact (IsBlock.first.next firstPositive).next secondPositive
  have apart := (payloadsSafe.untagged ⟨72, 16⟩ (by simp [live]) 64 isBlock).2
  rw [footer, Set.disjoint_left] at apart
  exact apart (show 80 ∈ Set.Ico 72 88 by simp) (show 80 ∈ Set.Ico 80 84 by simp)

end BitsAndBytes.Allocator
