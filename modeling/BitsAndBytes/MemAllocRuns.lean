import BitsAndBytes.ByteMemory
import BitsAndBytes.MemAllocInvariants
import Mathlib.Order.CompletePartialOrder

/-! # Runs of the pool allocator -/

namespace BitsAndBytes.MemAlloc

open LinkedTraversal BlockTiling OperationRuns List

variable {pool : Pool} {regions : List Region} {client : Client} {offset ptr : Nat}
  {calls : List Call} {allocation : Nat × Nat}

def payload (pool : Pool) (ptr : Nat) : Set Nat :=
  Set.Ico ptr (ptr + (pool.block (ptr - sizeofBlock)).size)

def headerBytes (offset : Nat) : Set Nat :=
  Set.Ico offset (offset + sizeofBlock)

/-- The blocks follow each other from the start of the pool to its end. -/
structure TilesExactly (pool : Pool) (found : List Nat) : Prop where
  first : found.head? = some 0
  adjacent : found.IsChain fun offset next =>
    next = offset + sizeofBlock + (pool.block offset).size
  last : ∀ offset, found.getLast? = some offset →
    offset + sizeofBlock + (pool.block offset).size = memorySize

/-- The live pointers are the payloads of the used blocks and do not overlap. -/
structure LivePayloads (client : Client) (found : List Nat) : Prop where
  distinct : client.live.Nodup
  correspond : ∀ ptr, ptr ∈ client.live ↔
    ∃ offset ∈ found, (client.pool.block offset).isFree = false ∧ ptr = offset + sizeofBlock
  inside : ∀ ptr ∈ client.live, payload client.pool ptr ⊆ Set.Ico 0 memorySize
  disjoint : ∀ ptr ∈ client.live, ∀ other ∈ client.live, ptr ≠ other →
    Disjoint (payload client.pool ptr) (payload client.pool other)
  noHeader : ∀ ptr ∈ client.live, ∀ offset ∈ found,
    Disjoint (payload client.pool ptr) (headerBytes offset)

variable {first last : Option Nat} {finish : Client}

private theorem isChain_place (represents : Represents pool first offset regions last) :
    ((place Region.span offset regions).map Prod.fst).IsChain
      fun offset next =>
        next = offset + sizeofBlock + (pool.block offset).size := by
  induction regions generalizing first offset with
  | nil => simp
  | cons region regions ih =>
    obtain ⟨-, size, -, rest⟩ := represents
    have later := ih rest
    cases regions with
    | nil => simp
    | cons next regions =>
      simp only [place_cons, map_cons, isChain_cons_cons] at later ⊢
      refine ⟨?_, later⟩
      rw [size, Region.span]
      omega

theorem Tiles.tilesExactly (tiles : Tiles pool regions) : TilesExactly pool (offsets regions) where
  first := by
    have covers := tiles.extent_eq
    cases regions with
    | nil => simp [memorySize] at covers
    | cons region regions => simp [offsets]
  adjacent := isChain_place tiles.represents
  last := by
    intro offset isLast
    have covers := tiles.extent_eq
    rcases eq_nil_or_concat regions with rfl | ⟨before, region, rfl⟩
    · simp [offsets] at isLast
    · rw [concat_eq_append] at covers isLast tiles
      have header := tiles.represents.header_of_split
      simp only [offsets, place_append, place_cons, place_nil, map_append,
        map_cons, map_nil, List.getLast?_concat, Nat.zero_add,
        Option.some.injEq] at isLast
      subst offset
      rw [Nat.zero_add] at header
      simp only [extent_append, extent_cons, extent_nil, Region.span] at covers
      rw [header.1]
      omega

private theorem Invariant.placed_of_live (invariant : Invariant client regions)
    (isLive : ptr ∈ client.live) :
    ∃ placed ∈ place Region.span 0 regions, placed.2.isFree = false ∧ ptr = placed.1 + sizeofBlock ∧
        payload client.pool ptr = Set.Ico ptr (placed.1 + placed.2.span) := by
  obtain ⟨allocation, member, rfl⟩ := mem_map.mp (invariant.live.mem_iff.mp isLive)
  obtain ⟨placed, placedMem, rfl⟩ := mem_map.mp member
  rw [mem_filter] at placedMem
  have header := invariant.tiles.represents.header_of_mem placedMem.1
  refine ⟨placed, placedMem.1, by simpa using placedMem.2, rfl, ?_⟩
  simp only [payload, Nat.add_sub_cancel, header.1, Region.span]
  rw [Nat.add_assoc]

theorem Invariant.livePayloads (invariant : Invariant client regions) :
    LivePayloads client (offsets regions) where
  distinct := by
    rw [invariant.live.nodup_iff]
    have addresses := nodup_addresses Region.span_pos 0 regions
    simp only [allocations, map_map]
    refine List.Nodup.map_on ?_ ((List.Nodup.of_map _ addresses).filter _)
    intro first firstMem second secondMem same
    have firstPlaced := (mem_filter.mp firstMem).1
    have secondPlaced := (mem_filter.mp secondMem).1
    have sameOffset : first.1 = second.1 := by simpa using same
    exact inj_on_of_nodup_map addresses firstPlaced secondPlaced sameOffset
  correspond := by
    intro ptr
    constructor
    · intro isLive
      obtain ⟨placed, placedMem, isUsed, rfl, -⟩ := invariant.placed_of_live isLive
      refine ⟨placed.1, mem_map_of_mem placedMem, ?_, rfl⟩
      rw [(invariant.tiles.represents.header_of_mem placedMem).2, isUsed]
    · rintro ⟨offset, found, isUsed, rfl⟩
      obtain ⟨placed, placedMem, rfl⟩ := mem_map.mp found
      rw [(invariant.tiles.represents.header_of_mem placedMem).2] at isUsed
      refine invariant.live.mem_iff.mpr (mem_map.mpr
        ⟨(placed.1, placed.2.size), mem_map.mpr ⟨placed, ?_, rfl⟩, rfl⟩)
      exact mem_filter.mpr ⟨placedMem, by simpa using isUsed⟩
  inside := by
    intro ptr isLive
    obtain ⟨placed, placedMem, -, -, bytes⟩ := invariant.placed_of_live isLive
    have within := within_of_mem_place placedMem
    rw [invariant.tiles.extent_eq] at within
    rw [bytes]
    exact Set.Ico_subset_Ico (Nat.zero_le _) (by omega)
  disjoint := by
    intro ptr isLive other otherLive different
    obtain ⟨placed, placedMem, -, rfl, bytes⟩ := invariant.placed_of_live isLive
    obtain ⟨second, secondMem, -, rfl, otherBytes⟩ := invariant.placed_of_live otherLive
    rw [bytes, otherBytes, Set.Ico_disjoint_Ico]
    rcases eq_or_disjoint_of_mem_place placedMem secondMem with
      rfl | placedFirst | secondFirst
    · exact absurd rfl different
    · omega
    · omega
  noHeader := by
    intro ptr isLive offset found
    obtain ⟨placed, placedMem, -, rfl, bytes⟩ := invariant.placed_of_live isLive
    obtain ⟨second, secondMem, rfl⟩ := mem_map.mp found
    rw [bytes, headerBytes, Set.Ico_disjoint_Ico]
    rcases eq_or_disjoint_of_mem_place placedMem secondMem with
      rfl | placedFirst | secondFirst
    · omega
    · omega
    · simp only [Region.span] at secondFirst ⊢
      omega

theorem exists_invariant_of_reaches (reached : Reaches step (start pool) calls finish) :
    ∃ regions, Invariant finish regions :=
  reached.invariant (fun client => ∃ regions, Invariant client regions)
    (fun ⟨_, invariant⟩ stepEq =>
      let ⟨next, kept, _⟩ := invariant.step stepEq
      ⟨next, kept⟩) ⟨_, invariant_start pool⟩

private theorem allocation_kept (reached : Reaches step client calls finish)
    (invariant : Invariant client regions) (member : allocation ∈ allocations 0 regions)
    (notFreed : Call.free (some (allocation.1 + sizeofBlock)) ∉ calls) :
    ∃ finalRegions, Invariant finish finalRegions ∧ allocation ∈ allocations 0 finalRegions := by
  induction calls generalizing client regions with
  | nil =>
    rw [reaches_nil.mp reached]
    exact ⟨regions, invariant, member⟩
  | cons call calls ih =>
    obtain ⟨next, out, stepEq, rest⟩ := reaches_cons.mp reached
    obtain ⟨nextRegions, nextInvariant, kept⟩ := invariant.step stepEq
    rw [mem_cons, not_or] at notFreed
    exact ih rest nextInvariant (kept allocation member (Ne.symm notFreed.1)) notFreed.2

private theorem Invariant.header_of_allocation (invariant : Invariant client regions)
    (member : allocation ∈ allocations 0 regions) :
    allocation.1 + sizeofBlock ∈ client.live ∧
      (client.pool.block allocation.1).size = allocation.2 := by
  refine ⟨invariant.live.mem_iff.mpr (mem_map_of_mem member), ?_⟩
  obtain ⟨placed, placedMem, rfl⟩ := mem_map.mp member
  exact (invariant.tiles.represents.header_of_mem (mem_filter.mp placedMem).1).1

theorem Invariant.step_returns (invariant : Invariant client regions) (call : Call)
    (allowed : ∀ ptr, call = .free (some ptr) → ptr ∈ client.live) :
    ∃ next out, MemAlloc.step client call = some (next, out) := by
  cases call with
  | allocate size strategy =>
    rcases allocateMemory_tiles invariant.tiles size strategy with
      failed | ⟨_, _, _, _, -, -, -, outcome, -⟩
    · simp [MemAlloc.step, failed]
    · simp [MemAlloc.step, outcome]
  | free ptr =>
    cases ptr with
    | none => simp [MemAlloc.step, freeMemory]
    | some ptr =>
      have isLive := allowed ptr rfl
      obtain ⟨allocation, member, rfl⟩ := mem_map.mp (invariant.live.mem_iff.mp isLive)
      obtain ⟨before, region, after, rfl, -, rfl⟩ := exists_split_of_mem_allocations member
      obtain ⟨freed, outcome, -⟩ := freeMemory_tiles invariant.tiles
      simp [MemAlloc.step, isLive, outcome]

/-- In every reachable state the blocks tile the pool, and live payloads stay where they are. -/
theorem reachable_pool_is_tiled (pool : Pool) (calls : List Call)
    (client : Client) (reached : Reaches step (start pool) calls client) :
    (∃ found, blockOffsets client.pool = some found ∧
      TilesExactly client.pool found ∧ LivePayloads client found) ∧
    (∀ call, (∀ ptr, call = .free (some ptr) → ptr ∈ client.live) →
      ∃ next out, step client call = some (next, out)) ∧
    ∀ later finish, Reaches step client later finish →
      ∀ ptr ∈ client.live, Call.free (some ptr) ∉ later →
        ptr ∈ finish.live ∧ payload finish.pool ptr = payload client.pool ptr := by
  obtain ⟨regions, invariant⟩ := exists_invariant_of_reaches reached
  refine ⟨⟨offsets regions, invariant.tiles.blockOffsets_eq,
    invariant.tiles.tilesExactly, invariant.livePayloads⟩,
    fun call allowed => invariant.step_returns call allowed, ?_⟩
  intro later finish continued ptr isLive notFreed
  obtain ⟨allocation, member, rfl⟩ := mem_map.mp (invariant.live.mem_iff.mp isLive)
  obtain ⟨finalRegions, finalInvariant, finalMem⟩ :=
    allocation_kept continued invariant member notFreed
  have before := invariant.header_of_allocation member
  have after := finalInvariant.header_of_allocation finalMem
  refine ⟨after.1, ?_⟩
  simp only [payload, Nat.add_sub_cancel, after.2, before.2]

theorem reachable_pool_is_tiled_after_reuse : ∃ client, Reaches step (start staticPool)
        [.allocate 100 .firstFit, .allocate 200 .bestFit, .free (some 24),
          .allocate 150 .worstFit] client ∧
      client.live = [392, 160] ∧
      ∃ found, blockOffsets client.pool = some found ∧
        TilesExactly client.pool found ∧ LivePayloads client found := by
  have reached : Reaches step (start staticPool)
      [.allocate 100 .firstFit, .allocate 200 .bestFit, .free (some 24),
        .allocate 150 .worstFit] _ := ⟨_, rfl⟩
  exact ⟨_, reached, rfl, (reachable_pool_is_tiled _ _ _ reached).1⟩

private theorem free_in_order (invariant : Invariant client regions) {order : List Nat}
    (allLive : order.Perm client.live) :
    ∃ finish finalRegions, Reaches step client (order.map fun ptr => .free (some ptr)) finish ∧
        Invariant finish finalRegions ∧ finish.live = [] := by
  induction order generalizing client regions with
  | nil => exact ⟨client, regions, by simp, invariant, nil_perm.mp allLive⟩
  | cons ptr order ih =>
    have isLive : ptr ∈ client.live := allLive.mem_iff.mp (by simp)
    obtain ⟨next, out, stepEq⟩ := invariant.step_returns (.free (some ptr))
      (by rintro _ ⟨⟩; exact isLive)
    obtain ⟨nextRegions, nextInvariant, -⟩ := invariant.step stepEq
    have nextLive : next.live = client.live.erase ptr := by
      simp only [MemAlloc.step, isLive, if_true, Option.map_eq_some_iff, Prod.mk.injEq] at stepEq
      obtain ⟨_, -, rfl, -⟩ := stepEq
      rfl
    have remaining : order.Perm next.live := by
      rw [nextLive]
      simpa using allLive.erase ptr
    obtain ⟨finish, finalRegions, rest, final, empty⟩ := ih nextInvariant remaining
    exact ⟨finish, finalRegions, reaches_cons.mpr ⟨next, out, stepEq, rest⟩, final, empty⟩

private theorem Invariant.regions_of_no_live (invariant : Invariant client regions)
    (empty : client.live = []) : regions = [⟨memorySize - sizeofBlock, true⟩] := by
  have noAllocation : allocations 0 regions = [] := by
    have := invariant.live
    rw [empty, nil_perm, map_eq_nil_iff] at this
    exact this
  have covers := invariant.tiles.extent_eq
  have separated := invariant.separated
  cases regions with
  | nil => simp [memorySize] at covers
  | cons region regions =>
    rw [allocations_cons, append_eq_nil_iff] at noAllocation
    have isFree : region.isFree := by
      by_contra isUsed
      simp [isUsed] at noAllocation
    cases regions with
    | nil =>
      obtain ⟨size, flag⟩ := region
      simp only [extent_cons, extent_nil, Region.span, memorySize, sizeofBlock] at covers
      have sizeEq : size = memorySize - sizeofBlock := by
        simp only [memorySize, sizeofBlock]
        omega
      rw [sizeEq, show flag from isFree]
    | cons next regions =>
      have nextFree : next.isFree := by
        by_contra isUsed
        simp [allocations_cons, isUsed] at noAllocation
      exact absurd ⟨isFree, nextFree⟩ (isChain_cons_cons.mp separated).1

private theorem isChain_free_place (represents : Represents pool first offset regions last)
    (separated : Separated regions) :
    ((place Region.span offset regions).map Prod.fst).IsChain
      fun offset next => ¬ ((pool.block offset).isFree ∧ (pool.block next).isFree) := by
  induction regions generalizing first offset with
  | nil => simp
  | cons region regions ih =>
    obtain ⟨-, -, isFree, rest⟩ := represents
    cases regions with
    | nil => simp
    | cons next regions =>
      obtain ⟨apart, restSeparated⟩ := isChain_cons_cons.mp separated
      have later := ih rest restSeparated
      simp only [place_cons, map_cons, isChain_cons_cons] at later ⊢
      obtain ⟨-, -, nextFree, -⟩ := rest
      exact ⟨by rw [isFree, nextFree]; exact apart, later⟩

/-- Freeing the live pointers in any order returns to the single free block. -/
theorem freeing_all_restores_pool (pool : Pool) (calls : List Call)
    (client : Client) (reached : Reaches step (start pool) calls client) :
    (∃ found, blockOffsets client.pool = some found ∧ found.IsChain fun offset next =>
        ¬ ((client.pool.block offset).isFree ∧ (client.pool.block next).isFree)) ∧
    ∀ order : List Nat, order.Perm client.live → ∃ finish,
        Reaches step client (order.map fun ptr => .free (some ptr)) finish ∧
          finish.live = [] ∧ blockOffsets finish.pool = some [0] ∧
            finish.pool.block 0 = ⟨memorySize - sizeofBlock, true, none⟩ := by
  obtain ⟨regions, invariant⟩ := exists_invariant_of_reaches reached
  refine ⟨⟨offsets regions, invariant.tiles.blockOffsets_eq,
    isChain_free_place invariant.tiles.represents invariant.separated⟩, ?_⟩
  intro order allLive
  obtain ⟨finish, finalRegions, freed, final, empty⟩ := free_in_order invariant allLive
  have single := final.regions_of_no_live empty
  subst single
  refine ⟨finish, freed, empty, ?_, ?_⟩
  · simpa [offsets] using final.tiles.blockOffsets_eq
  · obtain ⟨-, size, isFree, atEnd⟩ := final.tiles.represents
    have next : (finish.pool.block 0).next = none := atEnd
    cases contents : finish.pool.block 0
    simp_all

theorem freeing_all_restores_pool_of_two_blocks : ∃ client, Reaches step (start staticPool)
        [.allocate 100 .firstFit, .allocate 200 .firstFit] client ∧
      ∃ finish, Reaches step client [.free (some 24), .free (some 160)] finish ∧
          finish.live = [] ∧ blockOffsets finish.pool = some [0] ∧
            finish.pool.block 0 = ⟨memorySize - sizeofBlock, true, none⟩ := by
  have reached : Reaches step (start staticPool)
      [.allocate 100 .firstFit, .allocate 200 .firstFit] _ := ⟨_, rfl⟩
  exact ⟨_, reached, (freeing_all_restores_pool _ _ _ reached).2 [24, 160]
    (List.Perm.swap 160 24 [])⟩

theorem toNat_roundRequest (size : UInt64) :
    (roundRequest size).toNat = (size.toNat + 15) % 2 ^ 64 / 16 * 16 := by
  have added : (size + 16 - 1).toNat = (size.toNat + 15) % 2 ^ 64 := by
    have sixteen : (16 : UInt64).toNat = 16 := rfl
    have one : (1 : UInt64).toNat = 1 := rfl
    rw [UInt64.toNat_sub, UInt64.toNat_add, sixteen, one]
    omega
  rw [roundRequest, UInt64.toNat_and, added]
  exact ByteMemory.and_mask 60 4 (Nat.mod_lt _ (by decide))

theorem exists_granted (size : Nat) {region : Region} (fits : size ≤ region.size) :
    ∃ granted rest, carve size region = granted :: rest ∧ size ≤ granted.size := by
  rw [carve]
  split
  · exact ⟨_, _, rfl, le_rfl⟩
  · exact ⟨_, _, rfl, fits⟩

theorem size_of_allocateMemory {next : Pool} (tiles : Tiles pool regions) {size : UInt64}
    {strategy : AllocationStrategy}
    (returned : allocateMemory pool size strategy = some (next, some ptr)) :
    (roundRequest size).toNat ≤ (next.block (ptr - sizeofBlock)).size ∧
      (next.block (ptr - sizeofBlock)).size < memorySize := by
  rcases allocateMemory_tiles tiles size strategy with
    failed | ⟨before, region, after, allocated, -, -, fits, outcome, nextTiles⟩
  · simp [failed] at returned
  · rw [outcome, Option.some.injEq, Prod.mk.injEq, Option.some.injEq] at returned
    obtain ⟨rfl, rfl⟩ := returned
    obtain ⟨granted, rest, carved, enough⟩ := exists_granted _ fits
    rw [carved, append_assoc] at nextTiles
    have header := nextTiles.represents.header_of_split.1
    rw [Nat.zero_add] at header
    rw [Nat.add_sub_cancel, header]
    refine ⟨enough, ?_⟩
    have total := nextTiles.extent_eq
    rw [cons_append, BlockTiling.extent_append, BlockTiling.extent_cons, Region.span] at total
    simp only [sizeofBlock] at total
    omega

/-- A block is as large as its request exactly when rounding the request up does not wrap. -/
theorem block_holds_request_iff (pool : Pool) (calls : List Call) (client : Client)
    (reached : Reaches step (start pool) calls client) (size : UInt64)
    (strategy : AllocationStrategy) (next : Pool) (ptr : Nat)
    (returned : allocateMemory client.pool size strategy = some (next, some ptr)) :
    size.toNat ≤ (next.block (ptr - sizeofBlock)).size ↔ size.toNat ≤ 2 ^ 64 - 16 := by
  obtain ⟨regions, invariant⟩ := exists_invariant_of_reaches reached
  obtain ⟨rounded, small⟩ := size_of_allocateMemory invariant.tiles returned
  rw [toNat_roundRequest] at rounded
  simp only [memorySize] at small
  omega

theorem block_holds_request_of_hundred_bytes :
    ∃ next, allocateMemory (start staticPool).pool 100 .bestFit = some (next, some 24) ∧
      (100 : UInt64).toNat ≤ (next.block (24 - sizeofBlock)).size := by
  have reached : Reaches step (start staticPool) [] (start staticPool) := reaches_nil.mpr rfl
  have returned : allocateMemory (start staticPool).pool 100 .bestFit = some (_, some 24) := rfl
  exact ⟨_, returned,
    (block_holds_request_iff _ _ _ reached 100 .bestFit _ 24 returned).mpr (by decide)⟩

theorem largest_request_gets_empty_block :
    ∃ next, Reaches step (start staticPool) [] (start staticPool) ∧
      allocateMemory (start staticPool).pool (-1) .firstFit = some (next, some 24) ∧
        (next.block (24 - sizeofBlock)).size = 0 ∧
          (next.block (24 - sizeofBlock)).size < (-1 : UInt64).toNat := by
  refine ⟨_, reaches_nil.mpr rfl, rfl, rfl, ?_⟩
  decide

section

variable {before after : List Region} {region : Region} {full : Client} {outs : List (Option Nat)}

private theorem exists_release_carve (separated : Separated (before ++ region :: after))
    (isFree : region.isFree) (size : Nat) :
    ∃ used rest, carve size region = used :: rest ∧
      release before used (rest ++ after) = before ++ region :: after := by
  obtain ⟨-, behind, junction⟩ := isChain_append.mp separated
  obtain ⟨regionSize, rfl⟩ : ∃ regionSize, region = ⟨regionSize, true⟩ := ⟨_, by rw [← isFree]⟩
  have joined : ∀ rest, joinPrevious before ⟨regionSize, true⟩ rest =
      before ++ ⟨regionSize, true⟩ :: rest := by
    intro rest
    unfold joinPrevious
    cases last : before.getLast? with
    | none => rw [getLast?_eq_none_iff.mp last, nil_append]
    | some prev =>
      have prevUsed := junction prev last _ rfl
      simp_all
  unfold carve release
  split
  · refine ⟨_, _, rfl, ?_⟩
    have whole : size + (sizeofBlock + (regionSize - size - sizeofBlock)) = regionSize := by
      simp only at *
      omega
    simp only [joinNext, cons_append, nil_append, if_true, Region.join, whole, joined]
  · refine ⟨_, _, rfl, ?_⟩
    cases after with
    | nil => exact joined []
    | cons next after =>
      have nextUsed := (isChain_cons_cons.mp behind).1
      simp_all [joinNext]

private theorem exists_free_reversed (tiles : Tiles client.pool regions)
    (separated : Separated regions) (requests : List (UInt64 × AllocationStrategy))
    (allocated : run step client (requests.map fun request => .allocate request.1 request.2) =
      some (full, outs)) :
    ∃ finish, Reaches step full (outs.reverse.map .free) finish ∧ Tiles finish.pool regions ∧
      finish.live = client.live := by
  induction requests generalizing client regions outs with
  | nil =>
    cases allocated
    exact ⟨full, reaches_nil.mpr rfl, tiles, rfl⟩
  | cons request requests ih =>
    obtain ⟨next, out, rest, stepEq, restEq, rfl⟩ := run_cons_eq_some.mp allocated
    simp only [reverse_cons, map_append, reaches_append]
    rcases allocateMemory_tiles tiles request.1 request.2 with
      failed | ⟨before, region, after, pool, rfl, isFree, -, outcome, carved⟩
    · simp only [step, failed, Option.map_some, Option.some.injEq, Prod.mk.injEq] at stepEq
      obtain ⟨rfl, rfl⟩ := stepEq
      obtain ⟨finish, reached, kept⟩ := ih tiles separated restEq
      exact ⟨finish, ⟨finish, reached, [none], rfl⟩, kept⟩
    · simp only [step, outcome, Option.map_some, Option.some.injEq, Prod.mk.injEq] at stepEq
      obtain ⟨rfl, rfl⟩ := stepEq
      obtain ⟨middle, reached, kept, live⟩ := ih carved (separated_carve separated isFree _) restEq
      obtain ⟨used, unused, carveEq, released⟩ := exists_release_carve separated isFree _
      rw [carveEq, append_assoc, cons_append] at kept
      obtain ⟨freed, freeEq, restored⟩ := freeMemory_tiles kept
      refine ⟨⟨freed, client.live⟩, ⟨middle, reached, [none], ?_⟩, released ▸ restored, rfl⟩
      simp [run, step, live, freeEq]

theorem freeing_in_reverse_restores_blocks (pool : Pool) (calls : List Call) (client : Client)
    (reached : Reaches step (start pool) calls client)
    (requests : List (UInt64 × AllocationStrategy)) (full : Client) (outs : List (Option Nat))
    (allocated : run step client (requests.map fun request => .allocate request.1 request.2) =
      some (full, outs)) :
    ∃ finish, Reaches step full (outs.reverse.map .free) finish ∧ finish.live = client.live ∧
      ∃ found, blockOffsets client.pool = some found ∧ blockOffsets finish.pool = some found ∧
        ∀ offset ∈ found, (finish.pool.block offset).size = (client.pool.block offset).size ∧
          (finish.pool.block offset).isFree = (client.pool.block offset).isFree := by
  obtain ⟨regions, invariant⟩ := exists_invariant_of_reaches reached
  obtain ⟨finish, freed, kept, sameLive⟩ :=
    exists_free_reversed invariant.tiles invariant.separated requests allocated
  refine ⟨finish, freed, sameLive, offsets regions, invariant.tiles.blockOffsets_eq,
    kept.blockOffsets_eq, fun offset found => ?_⟩
  obtain ⟨placed, placedMem, rfl⟩ := mem_map.mp found
  have before := invariant.tiles.represents.header_of_mem placedMem
  have after := kept.represents.header_of_mem placedMem
  rw [before.1, before.2]
  exact after

theorem freeing_in_reverse_restores_blocks_of_three :
    ∃ client full finish, Reaches step (start staticPool) [.allocate 50 .firstFit] client ∧
      run step client [.allocate 100 .bestFit, .allocate 2000 .firstFit, .allocate 200 .worstFit] =
        some (full, [some 112, none, some 248]) ∧
      Reaches step full [.free (some 248), .free none, .free (some 112)] finish ∧
      finish.live = [24] := by
  have reached : Reaches step (start staticPool) [.allocate 50 .firstFit] _ := ⟨_, rfl⟩
  obtain ⟨finish, freed, live, -⟩ := freeing_in_reverse_restores_blocks _ _ _ reached
    [(100, .bestFit), (2000, .firstFit), (200, .worstFit)] _ _ rfl
  exact ⟨_, _, finish, reached, rfl, freed, live⟩

end

end BitsAndBytes.MemAlloc
