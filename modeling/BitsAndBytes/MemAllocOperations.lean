import BitsAndBytes.MemAllocLayout
import BitsAndBytes.SelectionSort

/-! # What `allocate_memory` and `free_memory` do to the layout -/

namespace BitsAndBytes.MemAlloc

open LinkedTraversal BlockTiling SelectionSort List Option

variable {pool : Pool} {regions : List Region}
variable {before : List Region} {region : Region}

def rank (pool : Pool) : AllocationStrategy → Nat → Int
  | .firstFit, _ => 0
  | .bestFit, block => (pool.block block).size
  | .worstFit, block => -(pool.block block).size

def eligible (pool : Pool) (size : Nat) : AllocationStrategy → Nat → Bool
  | .firstFit, block => pool.fits size block
  | .bestFit, block => pool.fits size block && decide ((pool.block block).size < memorySize + 1)
  | .worstFit, block => pool.fits size block && decide (0 < (pool.block block).size)

variable {after : List Region} {first : Option Nat} {offset : Nat}

theorem fits_of_eligible {size block : Nat} {strategy : AllocationStrategy}
    (isEligible : eligible pool size strategy block) : pool.fits size block := by
  cases strategy with
  | firstFit => exact isEligible
  | bestFit | worstFit => exact (Bool.and_eq_true_iff.mp isEligible).1

theorem extremeFit_eq_firstLeast (tiles : Tiles pool regions) {better : Nat → Nat → Bool}
    (key : Nat → Int)
    (agrees : ∀ first second, better first second = decide (key first < key second))
    (seed size : Nat) :
    extremeFit pool better seed size = some (firstLeast
      (fun block => pool.fits size block && better (pool.block block).size seed)
      (fun block => key (pool.block block).size) (offsets regions)) := by
  have body : extremeFitBody pool better size = fun best current => .yield
      (keepBetter (pool.fits size) (fun block => (pool.block block).size) better best current) := by
    funext best current
    rw [extremeFitBody, keepBetter]
    split
    · split <;> rfl
    · rfl
  rw [extremeFit, tiles.traverse_eq, map_some, body, visit_yield, foldl_keepBetter agrees]

theorem selectBlock_eq_firstLeast (tiles : Tiles pool regions) (size : Nat)
    (strategy : AllocationStrategy) :
    selectBlock pool size strategy =
      some (firstLeast (eligible pool size strategy) (rank pool strategy) (offsets regions)) := by
  cases strategy with
  | firstFit =>
    rw [selectBlock, firstFit, tiles.traverse_eq, visit_find]
    exact congrArg some (firstLeast_const (pool.fits size) (0 : Int) _).symm
  | bestFit =>
    refine extremeFit_eq_firstLeast tiles (fun size => size) (fun first second => ?_) _ size
    simp
  | worstFit =>
    refine extremeFit_eq_firstLeast tiles (fun size => -size) (fun first second => ?_) _ size
    simp

theorem selectBlock_tiles (tiles : Tiles pool regions) (size : Nat)
    (strategy : AllocationStrategy) :
    ∃ choice, selectBlock pool size strategy = some choice ∧
      ∀ block, choice = some block → block ∈ offsets regions ∧ pool.fits size block := by
  refine ⟨_, selectBlock_eq_firstLeast tiles size strategy, fun block chosen => ?_⟩
  rcases firstLeast_cases (eligible pool size strategy) (rank pool strategy)
    (offsets regions) with ⟨nothing, -⟩ | ⟨before, least, after, found, split, isFirst⟩
  · rw [nothing] at chosen
    cases chosen
  · rw [found, some.injEq] at chosen
    subst chosen
    exact ⟨by simp [split], fits_of_eligible isFirst.accepted⟩

@[simp]
theorem splitBlock_pointer (pool : Pool) (block size : Nat) :
    (splitBlock pool block size).2 = block + sizeofBlock := by
  simp only [splitBlock]
  split <;> rfl

theorem allocateMemory_tiles (tiles : Tiles pool regions) (size : UInt64)
    (strategy : AllocationStrategy) :
    allocateMemory pool size strategy = some (pool, none) ∨ ∃ before region after allocated,
        regions = before ++ region :: after ∧ region.isFree ∧
          (roundRequest size).toNat ≤ region.size ∧
          allocateMemory pool size strategy =
            some (allocated, some (extent Region.span before + sizeofBlock)) ∧
          Tiles allocated (before ++ carve (roundRequest size).toNat region ++ after) := by
  obtain ⟨choice, chosen, sound⟩ := selectBlock_tiles tiles (roundRequest size).toNat strategy
  simp only [allocateMemory, chosen, map_some]
  cases choice with
  | none => exact .inl rfl
  | some block =>
    right
    obtain ⟨member, fits⟩ := sound block rfl
    obtain ⟨placed, placedMem, rfl⟩ := mem_map.mp member
    obtain ⟨before, after, split, address⟩ := exists_split_of_mem_place placedMem
    have header := tiles.represents.header_of_mem placedMem
    simp only [Pool.fits, Bool.and_eq_true, decide_eq_true_eq, header.1, header.2] at fits
    rw [Nat.zero_add] at address
    rw [address]
    simp only [splitBlock_pointer]
    refine ⟨before, placed.2, after, _, split, fits.1, fits.2, rfl, ?_⟩
    exact splitBlock_tiles (split ▸ tiles) _

def joinNext (region : Region) : List Region → Region × List Region
  | [] => (region, [])
  | next :: after =>
    if next.isFree then (region.join next, after) else (region, next :: after)

def joinPrevious (before : List Region) (region : Region)
    (after : List Region) : List Region :=
  match before.getLast? with
  | none => region :: after
  | some prev =>
    if prev.isFree then before.dropLast ++ prev.join region :: after
    else before ++ region :: after

def release (before : List Region) (region : Region)
    (after : List Region) : List Region :=
  joinPrevious before (joinNext ⟨region.size, true⟩ after).1
    (joinNext ⟨region.size, true⟩ after).2

theorem mergeNext_tiles (tiles : Tiles pool (before ++ region :: after)) :
    Tiles (mergeNext pool (extent Region.span before))
      (before ++ (joinNext region after).1 :: (joinNext region after).2) := by
  have header := tiles.represents.header_of_split
  rw [Nat.zero_add] at header
  obtain ⟨-, -, behind⟩ := header
  cases after with
  | nil =>
    have atEnd : (pool.block (extent Region.span before)).next = none := behind
    simpa [mergeNext, atEnd, joinNext] using tiles
  | cons next after =>
    obtain ⟨atNext, -, isFreeEq, -⟩ := behind
    simp only [mergeNext, atNext, isFreeEq, joinNext]
    split
    · exact absorb_tiles tiles
    · exact tiles

private theorem find?_previous_of_first {target : Nat}
    (represents : Represents pool first offset regions none) (notAfter : target ≤ offset) :
    ((place Region.span offset regions).map Prod.fst).find?
      (fun prev => decide ((pool.block prev).next = some target)) = none := by
  induction regions generalizing first offset with
  | nil => rfl
  | cons region regions ih =>
    obtain ⟨-, -, -, rest⟩ := represents
    have positive := region.span_pos
    have different : (pool.block offset).next ≠ some target := by
      cases regions with
      | nil =>
        have atEnd : (pool.block offset).next = none := rest
        simp [atEnd]
      | cons next regions =>
        rw [rest.1]
        intro same
        have := some.inj same
        omega
    rw [place_cons, map_cons, find?_cons_of_neg (by simpa using different)]
    exact ih rest (by omega)

private theorem find?_previous
    (represents : Represents pool first offset (before ++ region :: after) none) :
    ((place Region.span offset (before ++ region :: after)).map
        Prod.fst).find? (fun prev => decide ((pool.block prev).next =
          some (offset + extent Region.span before))) =
      ((place Region.span offset before).getLast?).map Prod.fst := by
  induction before generalizing first offset with
  | nil => exact find?_previous_of_first represents (by simp)
  | cons next before ih =>
    obtain ⟨-, -, -, rest⟩ := represents
    have later := ih rest
    rw [extent_cons, ← Nat.add_assoc]
    rw [cons_append, place_cons, map_cons]
    cases before with
    | nil =>
      have found := rest.1
      rw [find?_cons_of_pos (by simpa using found)]
      simp
    | cons other before =>
      have otherPositive := other.span_pos
      have different : (pool.block offset).next ≠ some (offset + next.span +
          extent Region.span (other :: before)) := by
        rw [rest.1, extent_cons]
        intro same
        have := some.inj same
        omega
      rw [find?_cons_of_neg (by simpa using different), later]
      simp

section

variable {after : List Region} (tiles : Tiles pool (before ++ region :: after))
include tiles

theorem findPrevious_tiles : findPrevious pool (extent Region.span before) =
      some (((place Region.span 0 before).getLast?).map Prod.fst) := by
  have found := find?_previous tiles.represents
  rw [Nat.zero_add] at found
  rw [findPrevious, tiles.traverse_eq, ← found]
  have search := visit_find (fun prev => decide ((pool.block prev).next =
    some (extent Region.span before))) (offsets (before ++ region :: after))
  simp only [decide_eq_true_eq] at search
  rw [search, offsets]

theorem mergePrevious_tiles : Tiles (mergePrevious pool (extent Region.span before)
        (((place Region.span 0 before).getLast?).map Prod.fst))
      (joinPrevious before region after) := by
  rcases eq_nil_or_concat before with rfl | ⟨earlier, prev, rfl⟩
  · simpa [mergePrevious, joinPrevious] using tiles
  · have prevTiles : Tiles pool (earlier ++ prev :: region :: after) := by
      simpa using tiles
    have header := prevTiles.represents.header_of_split
    rw [Nat.zero_add] at header
    simp only [concat_eq_append, joinPrevious, place_append, place_cons,
      place_nil, getLast?_concat, map_some, Nat.zero_add,
      mergePrevious, header.2.1, dropLast_concat, extent_append,
      extent_cons, extent_nil, Nat.add_zero]
    split
    · exact absorb_tiles prevTiles
    · simpa using prevTiles

theorem freeMemory_tiles :
    ∃ freed, freeMemory pool (some (extent Region.span before + sizeofBlock)) =
        some freed ∧ Tiles freed (release before region after) := by
  have marked := setFree_tiles tiles
  have merged := mergeNext_tiles marked
  simp only [freeMemory, Nat.add_sub_cancel, findPrevious_tiles merged, map_some]
  exact ⟨_, rfl, mergePrevious_tiles merged⟩

end

theorem release_cases (before after : List Region) (region : Region) :
    ∃ earlier front back later, before = earlier ++ front ∧
      after = back ++ later ∧ (∀ joined ∈ front ++ back, joined.isFree) ∧
      release before region after = earlier ++
        ⟨extent Region.span front + region.size + extent Region.span back, true⟩ :: later ∧
      (∀ prev, earlier.getLast? = some prev → front = [] → prev.isFree = false) ∧
      (∀ next, later.head? = some next → back = [] → next.isFree = false) ∧
      front.length ≤ 1 ∧ back.length ≤ 1 := by
  have nextSide : ∃ back later, after = back ++ later ∧ (∀ joined ∈ back, joined.isFree) ∧
      joinNext ⟨region.size, true⟩ after = (⟨region.size + extent Region.span back, true⟩, later) ∧
      (∀ next, later.head? = some next → back = [] → next.isFree = false) ∧ back.length ≤ 1 := by
    cases after with
    | nil => exact ⟨[], [], by simp [joinNext]⟩
    | cons next after =>
      by_cases isFree : next.isFree
      · exact ⟨[next], after, by
          simp [joinNext, isFree, Region.join, Region.span]⟩
      · exact ⟨[], next :: after, by simpa [joinNext] using isFree⟩
  obtain ⟨back, later, afterEq, backFree, joinEq, laterUsed, backShort⟩ := nextSide
  simp only [release, joinEq]
  rcases eq_nil_or_concat before with rfl | ⟨earlier, prev, rfl⟩
  · exact ⟨[], [], back, later, by simp, afterEq, by simpa using backFree,
      by simp [joinPrevious], by simp, laterUsed, by simp, backShort⟩
  · rw [concat_eq_append]
    by_cases isFree : prev.isFree
    · refine ⟨earlier, [prev], back, later, rfl, afterEq, ?_, ?_, by simp,
        laterUsed, by simp, backShort⟩
      · simpa [isFree] using backFree
      · simp only [joinPrevious, getLast?_concat, isFree, if_true,
          dropLast_concat, Region.join, extent_cons, extent_nil, Nat.add_zero, Region.span]
        congr 3
        omega
    · refine ⟨earlier ++ [prev], [], back, later, by simp, afterEq,
        by simpa using backFree, ?_, ?_, laterUsed, by simp, backShort⟩
      · simp [joinPrevious, isFree]
      · simpa using isFree

end BitsAndBytes.MemAlloc
