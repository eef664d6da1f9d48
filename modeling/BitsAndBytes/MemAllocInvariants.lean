import BitsAndBytes.MemAllocOperations
import Mathlib.Data.List.Chain
import Mathlib.Order.Interval.Set.Disjoint

/-! # Reachable states of the pool allocator -/

namespace BitsAndBytes.MemAlloc

open LinkedTraversal BlockTiling OperationRuns List Option

variable {regions : List Region} {region : Region}

def allocations (offset : Nat) (regions : List Region) : List (Nat × Nat) :=
  ((place Region.span offset regions).filter fun placed =>
    !placed.2.isFree).map fun placed => (placed.1, placed.2.size)

@[simp]
theorem allocations_nil (offset : Nat) : allocations offset [] = [] := rfl

theorem allocations_cons (offset : Nat) (region : Region)
    (regions : List Region) :
    allocations offset (region :: regions) =
      (if region.isFree then [] else [(offset, region.size)]) ++
        allocations (offset + region.span) regions := by
  cases isFree : region.isFree <;> simp [allocations, isFree]

@[simp]
theorem allocations_append (offset : Nat) (first second : List Region) :
    allocations offset (first ++ second) =
      allocations offset first ++ allocations (offset + extent Region.span first) second := by
  simp [allocations]

theorem allocations_eq_nil (allFree : ∀ region ∈ regions, region.isFree) (offset : Nat) :
    allocations offset regions = [] := by
  induction regions generalizing offset with
  | nil => rfl
  | cons region regions ih =>
    rw [allocations_cons, allFree region (by simp)]
    simpa using ih (fun other member =>
      allFree other (mem_cons_of_mem _ member)) _

theorem allocations_carve (before after : List Region) (isFree : region.isFree)
    (size : Nat) :
    ∃ granted, (allocations 0 (before ++ carve size region ++ after)).Perm
      ((extent Region.span before, granted) :: allocations 0 (before ++ region :: after)) := by
  have carved : ∃ granted, allocations (extent Region.span before)
      (carve size region) = [(extent Region.span before, granted)] := by
    unfold carve
    split
    · exact ⟨size, by simp [allocations_cons]⟩
    · exact ⟨region.size, by simp [allocations_cons]⟩
  obtain ⟨granted, carvedEq⟩ := carved
  refine ⟨granted, ?_⟩
  simp only [allocations_append, allocations_cons, isFree, extent_carve,
    carvedEq, Nat.zero_add, if_true, nil_append, append_assoc]
  exact perm_middle

theorem allocations_release (before after : List Region) (isUsed : region.isFree = false) :
    (allocations 0 (before ++ region :: after)).Perm
      ((extent Region.span before, region.size) ::
        allocations 0 (release before region after)) := by
  obtain ⟨earlier, front, back, later, rfl, rfl, joinedFree, releaseEq, -⟩ :=
    release_cases before after region
  have frontFree : ∀ offset, allocations offset front = [] :=
    allocations_eq_nil fun joined member => joinedFree joined (by simp [member])
  have backFree : ∀ offset, allocations offset back = [] :=
    allocations_eq_nil fun joined member => joinedFree joined (by simp [member])
  have laterOffset : extent Region.span earlier + extent Region.span front +
      region.span + extent Region.span back = extent Region.span earlier +
        (sizeofBlock + (extent Region.span front + region.size +
          extent Region.span back)) := by
    simp only [Region.span]
    omega
  simp only [releaseEq, allocations_append, allocations_cons, frontFree,
    backFree, isUsed, extent_append, Nat.zero_add, append_nil, if_true,
    nil_append, Bool.false_eq_true, if_false, laterOffset]
  exact perm_middle

/-- No two free regions are neighbours. -/
def Separated (regions : List Region) : Prop :=
  regions.IsChain fun first second =>
    ¬ (first.isFree ∧ second.isFree)

theorem separated_carve {before after : List Region}
    (separated : Separated (before ++ region :: after)) (isFree : region.isFree)
    (size : Nat) : Separated (before ++ carve size region ++ after) := by
  unfold Separated at separated ⊢
  rw [isChain_append] at separated
  obtain ⟨inFront, behind, junction⟩ := separated
  have front : ∀ prev ∈ before.getLast?, prev.isFree = false := by
    intro prev member
    have := junction prev member region (by simp)
    simpa [isFree] using this
  unfold carve
  split
  · rw [append_assoc, isChain_append]
    refine ⟨inFront, ?_, ?_⟩
    · simp only [cons_append, nil_append, isChain_cons_cons]
      refine ⟨by simp, ?_⟩
      cases after with
      | nil => simp
      | cons next after =>
        rw [isChain_cons_cons] at behind ⊢
        exact ⟨by simpa [isFree] using behind.1, behind.2⟩
    · intro prev member other otherMem
      simp [front prev member]
  · rw [append_assoc, isChain_append]
    refine ⟨inFront, ?_, ?_⟩
    · cases after with
      | nil => simp
      | cons next after =>
        rw [isChain_cons_cons] at behind
        simpa using behind.2
    · intro prev member other otherMem
      simp [front prev member]

theorem separated_release {before after : List Region}
    (separated : Separated (before ++ region :: after)) :
    Separated (release before region after) := by
  obtain ⟨earlier, front, back, later, rfl, rfl, joinedFree, releaseEq,
    earlierUsed, laterUsed, frontShort, backShort⟩ := release_cases before after region
  rw [releaseEq]
  unfold Separated at separated ⊢
  have lastUsed : ∀ prev ∈ earlier.getLast?, prev.isFree = false := by
    intro prev member
    rcases eq_nil_or_concat front with rfl | ⟨_, joined, rfl⟩
    · exact earlierUsed prev member rfl
    · have short : ‹List Region› = [] := by simpa using frontShort
      subst short
      rw [concat_eq_append, nil_append, append_assoc, isChain_append] at separated
      have := separated.2.2 prev member joined (by simp)
      simpa [joinedFree joined (by simp)] using this
  have nextUsed : ∀ next ∈ later.head?, next.isFree = false := by
    intro next member
    cases back with
    | nil => exact laterUsed next member rfl
    | cons joined rest =>
      have short : rest = [] := by simpa using backShort
      subst short
      have behind := (isChain_append.mp separated).2.1
      cases later with
      | nil => simp at member
      | cons other later =>
        obtain rfl : other = next := by simpa using member
        simp only [cons_append, nil_append, isChain_cons_cons] at behind
        simpa [joinedFree joined (by simp)] using behind.2.1
  rw [isChain_append]
  refine ⟨?_, ?_, ?_⟩
  · rw [append_assoc] at separated
    exact separated.left_of_append
  · cases later with
    | nil => simp
    | cons next later =>
      rw [isChain_cons_cons]
      refine ⟨by simp [nextUsed next (by simp)], ?_⟩
      have behind := (isChain_append.mp separated).2.1
      rw [← cons_append] at behind
      exact behind.right_of_append
  · intro prev member other otherMem
    simp [lastUsed prev member]

/-- The pool is tiled, and its used regions are the live allocations. -/
structure Invariant (client : Client) (regions : List Region) : Prop where
  tiles : Tiles client.pool regions
  live : client.live.Perm
    ((allocations 0 regions).map fun allocation => allocation.1 + sizeofBlock)
  separated : Separated regions

theorem invariant_start (pool : Pool) :
    Invariant (start pool) [⟨memorySize - sizeofBlock, true⟩] where
  tiles := by
    constructor
    · simp [start, initMemory, Pool.setBlock, Represents]
    · simp [Region.span, sizeofBlock, memorySize]
  live := by simp [start, allocations_cons]
  separated := by simp [Separated]

theorem exists_split_of_mem_allocations {allocation : Nat × Nat}
    (member : allocation ∈ allocations 0 regions) :
    ∃ before region after, regions = before ++ region :: after ∧
      region.isFree = false ∧ allocation = (extent Region.span before, region.size) := by
  obtain ⟨placed, placedMem, rfl⟩ := mem_map.mp member
  rw [mem_filter] at placedMem
  obtain ⟨before, after, split, address⟩ := exists_split_of_mem_place placedMem.1
  refine ⟨before, placed.2, after, split, by simpa using placedMem.2, ?_⟩
  rw [address, Nat.zero_add]

theorem Invariant.step {client next : Client} {call : Call} {out : Option Nat}
    (invariant : Invariant client regions) (stepEq : step client call = some (next, out)) :
    ∃ nextRegions, Invariant next nextRegions ∧ ∀ allocation ∈ allocations 0 regions,
        call ≠ .free (some (allocation.1 + sizeofBlock)) →
          allocation ∈ allocations 0 nextRegions := by
  cases call with
  | allocate size strategy =>
    rcases allocateMemory_tiles invariant.tiles size strategy with
      failed | ⟨before, region, after, allocated, rfl, isFree, -, outcome, tiles⟩
    · simp only [MemAlloc.step, failed, map_some, some.injEq, Prod.mk.injEq] at stepEq
      obtain ⟨rfl, -⟩ := stepEq
      exact ⟨regions, ⟨invariant.tiles, by simpa using invariant.live,
        invariant.separated⟩, fun allocation member _ => member⟩
    · simp only [MemAlloc.step, outcome, map_some, some.injEq, Prod.mk.injEq] at stepEq
      obtain ⟨rfl, -⟩ := stepEq
      obtain ⟨granted, added⟩ := allocations_carve before after isFree (roundRequest size).toNat
      refine ⟨_, ⟨tiles, ?_, separated_carve invariant.separated isFree _⟩, ?_⟩
      · refine (invariant.live.cons _).trans ?_
        simpa using (added.map (fun allocation => allocation.1 + sizeofBlock)).symm
      · intro allocation member _
        exact added.mem_iff.mpr (mem_cons_of_mem _ member)
  | free ptr =>
    cases ptr with
    | none =>
      obtain ⟨rfl, -⟩ := stepEq
      exact ⟨regions, invariant, fun allocation member _ => member⟩
    | some ptr =>
      simp only [MemAlloc.step] at stepEq
      split at stepEq
      · rename_i isLive
        obtain ⟨freedAllocation, freedMem, rfl⟩ :=
          mem_map.mp (invariant.live.mem_iff.mp isLive)
        obtain ⟨before, region, after, rfl, isUsed, rfl⟩ :=
          exists_split_of_mem_allocations freedMem
        obtain ⟨freed, outcome, tiles⟩ := freeMemory_tiles invariant.tiles
        simp only [outcome, map_some, some.injEq, Prod.mk.injEq] at stepEq
        obtain ⟨rfl, -⟩ := stepEq
        have removed := allocations_release before after isUsed
        refine ⟨_, ⟨tiles, ?_, separated_release invariant.separated⟩, ?_⟩
        · have erased := (invariant.live.trans (removed.map
            (fun allocation => allocation.1 + sizeofBlock))).erase
              (extent Region.span before + sizeofBlock)
          simpa using erased
        · intro allocation member notFreed
          rcases mem_cons.mp (removed.mem_iff.mp member) with
            rfl | remains
          · exact absurd rfl notFreed
          · exact remains
      · cases stepEq

end BitsAndBytes.MemAlloc
