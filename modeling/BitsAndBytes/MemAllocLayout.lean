import BitsAndBytes.MemAlloc
import BitsAndBytes.BlockTiling

/-! # Layout of the pool of `mem_alloc.c` -/

namespace BitsAndBytes.MemAlloc

open LinkedTraversal BlockTiling Function List

structure Region where
  size : Nat
  isFree : Bool
deriving DecidableEq, Repr

variable {pool : Pool} {last : Option Nat} {offset : Nat} {before regions : List Region}
  {region : Region}

namespace Region

def span (region : Region) : Nat :=
  sizeofBlock + region.size

def join (region behind : Region) : Region :=
  ⟨region.size + (sizeofBlock + behind.size), region.isFree⟩

theorem span_pos (region : Region) : 0 < region.span := by
  simp only [span, sizeofBlock]
  omega

@[simp]
theorem span_join (region behind : Region) :
    (region.join behind).span = region.span + behind.span := by
  simp only [span, join]
  omega

end Region

/-- The list of blocks from `first` on has these regions. -/
def Represents (pool : Pool) : Option Nat → Nat → List Region → Option Nat → Prop
  | first, _, [], last => first = last
  | first, offset, region :: regions, last =>
    first = some offset ∧ (pool.block offset).size = region.size ∧
        (pool.block offset).isFree = region.isFree ∧
          Represents pool (pool.block offset).next (offset + region.span)
            regions last

/-- The regions fill the pool. -/
structure Tiles (pool : Pool) (regions : List Region) : Prop where
  represents : Represents pool pool.head 0 regions none
  extent_eq : extent Region.span regions = memorySize

variable {first : Option Nat} {after : List Region} {changed : Pool}

theorem represents_append : Represents pool first offset (before ++ after) last ↔
      ∃ middle, Represents pool first offset before middle ∧
        Represents pool middle (offset + extent Region.span before) after
          last := by
  induction before generalizing first offset with
  | nil => simp [Represents]
  | cons region before ih =>
    simp only [cons_append, Represents, ih, extent_cons, Nat.add_assoc]
    constructor
    · rintro ⟨atFirst, size, isFree, middle, left, right⟩
      exact ⟨middle, ⟨atFirst, size, isFree, left⟩, right⟩
    · rintro ⟨middle, ⟨atFirst, size, isFree, left⟩, right⟩
      exact ⟨atFirst, size, isFree, middle, left, right⟩

theorem Represents.congr (represents : Represents pool first offset regions last)
    (agree : ∀ place, offset ≤ place → place < offset + extent Region.span regions →
      changed.block place = pool.block place) : Represents changed first offset regions last := by
  induction regions generalizing first offset with
  | nil => exact represents
  | cons region regions ih =>
    obtain ⟨atFirst, size, isFree, rest⟩ := represents
    have positive := region.span_pos
    rw [extent_cons] at agree
    have here : changed.block offset = pool.block offset := agree offset (Nat.le_refl _) (by omega)
    refine ⟨atFirst, by rw [here, size], by rw [here, isFree], ?_⟩
    rw [here]
    exact ih rest fun place lower upper => agree place (by omega) (by omega)

theorem Tiles.replace (before old new after : List Region)
    (tiles : Tiles pool (before ++ old ++ after)) (sameHead : changed.head = pool.head)
    (sameExtent : extent Region.span new = extent Region.span old)
    (agree : ∀ place, place < extent Region.span before ∨ extent Region.span before + extent
      Region.span old ≤ place → changed.block place = pool.block place)
    (rewritten : ∀ entry exit, Represents pool entry (extent Region.span before) old exit →
      Represents changed entry (extent Region.span before) new exit) :
    Tiles changed (before ++ new ++ after) := by
  obtain ⟨represents, extentEq⟩ := tiles
  rw [represents_append, extent_append] at represents
  obtain ⟨exit, upToOld, behind⟩ := represents
  rw [represents_append] at upToOld
  obtain ⟨entry, inFront, inside⟩ := upToOld
  simp only [Nat.zero_add] at behind inside
  constructor
  · rw [sameHead, represents_append, extent_append, sameExtent]
    refine ⟨exit, represents_append.mpr ⟨entry, ?_, ?_⟩, ?_⟩
    · exact inFront.congr fun place _ upper => agree place (.inl (by omega))
    · simpa using rewritten entry exit inside
    · have kept := behind.congr fun place lower _ => agree place (.inr lower)
      simpa using kept
  · simpa [sameExtent] using extentEq

theorem Tiles.setHeader {old : List Region} {header : Block}
    (tiles : Tiles pool (before ++ old ++ after)) (sameSpan : region.span = extent Region.span old)
    (heads : ∀ entry exit, Represents pool entry (extent Region.span before) old exit →
      entry = some (extent Region.span before) ∧ header = ⟨region.size, region.isFree, exit⟩) :
    Tiles (pool.setBlock (extent Region.span before) header) (before ++ region :: after) := by
  rw [append_cons]
  refine tiles.replace before old [region] after rfl (by simpa using sameSpan) ?_ ?_
  · intro place outside
    have positive := region.span_pos
    have notHere : place ≠ extent Region.span before := by omega
    simp [Pool.setBlock, update_of_ne notHere]
  · intro entry exit represents
    obtain ⟨atEntry, rfl⟩ := heads entry exit represents
    simp [Represents, Pool.setBlock, atEntry]

def offsets (regions : List Region) : List Nat :=
  (place Region.span 0 regions).map Prod.fst

theorem Represents.path (represents : Represents pool first offset regions last) :
    Path (fun current => (pool.block current).next) first
      ((place Region.span offset regions).map Prod.fst) last := by
  induction regions generalizing first offset with
  | nil => exact represents
  | cons region regions ih =>
    obtain ⟨atFirst, -, -, rest⟩ := represents
    exact ⟨atFirst, ih rest⟩

theorem length_le_extent (regions : List Region) : regions.length ≤ extent Region.span regions := by
  induction regions with
  | nil => simp
  | cons region regions ih =>
    have positive := region.span_pos
    rw [extent_cons, length_cons]
    omega

theorem Tiles.traverse_eq {Acc : Type*} (tiles : Tiles pool regions)
    (body : Acc → Nat → ForInStep Acc) (acc : Acc) :
    traverse (fun current => (pool.block current).next) body memorySize
        pool.head acc = some (visit body (offsets regions) acc) := by
  apply traverse_of_path body acc tiles.represents.path
  rw [length_map, length_place, ← tiles.extent_eq]
  exact length_le_extent regions

theorem Tiles.blockOffsets_eq (tiles : Tiles pool regions) :
    blockOffsets pool = some (offsets regions) := by
  rw [blockOffsets, tiles.traverse_eq, visit_collect, nil_append]

theorem Represents.header_of_mem (represents : Represents pool first offset regions last)
    {placed : Nat × Region} (member : placed ∈ place Region.span offset regions) :
    (pool.block placed.1).size = placed.2.size ∧
      (pool.block placed.1).isFree = placed.2.isFree := by
  induction regions generalizing first offset with
  | nil => simp at member
  | cons region regions ih =>
    obtain ⟨-, size, isFree, rest⟩ := represents
    rw [place_cons, mem_cons] at member
    rcases member with rfl | later
    · exact ⟨size, isFree⟩
    · exact ih rest later

theorem Represents.header_of_split
    (represents : Represents pool first offset (before ++ region :: after) last) :
    (pool.block (offset + extent Region.span before)).size = region.size ∧
      (pool.block (offset + extent Region.span before)).isFree = region.isFree ∧
      Represents pool (pool.block (offset + extent Region.span before)).next
        (offset + extent Region.span before + region.span) after last := by
  obtain ⟨middle, -, -, size, isFree, rest⟩ := represents_append.mp represents
  exact ⟨size, isFree, rest⟩

def carve (size : Nat) (region : Region) : List Region :=
  if size + sizeofBlock + minAllocation < region.size then
    [⟨size, false⟩, ⟨region.size - size - sizeofBlock, true⟩]
  else
    [⟨region.size, false⟩]

theorem extent_carve (size : Nat) (region : Region) :
    extent Region.span (carve size region) = region.span := by
  unfold carve
  split
  · simp only [extent_cons, extent_nil, Region.span]
    omega
  · simp [Region.span]

theorem splitBlock_tiles (tiles : Tiles pool (before ++ region :: after)) (size : Nat) :
    Tiles (splitBlock pool (extent Region.span before) size).1
      (before ++ carve size region ++ after) := by
  have header := tiles.represents.header_of_split
  rw [Nat.zero_add] at header
  have spanEq : extent Region.span [region] = region.span := by simp
  have grouped : Tiles pool (before ++ [region] ++ after) := by simpa using tiles
  refine grouped.replace before [region] (carve size region) after ?_
    (by rw [extent_carve, spanEq]) ?_ ?_
  · simp only [splitBlock]
    split <;> rfl
  · intro place outside
    have positive := region.span_pos
    rw [spanEq] at outside
    simp only [splitBlock, header.1]
    split
    · rename_i room
      have notHere : place ≠ extent Region.span before := by omega
      have notNew : place ≠ extent Region.span before + sizeofBlock + size := by
        simp only [Region.span] at outside
        omega
      simp [Pool.setBlock, update_of_ne notHere, update_of_ne notNew]
    · have notHere : place ≠ extent Region.span before := by omega
      simp [Pool.setBlock, update_of_ne notHere]
  · rintro entry exit ⟨atEntry, sizeEq, isFreeEq, atExit⟩
    have exitEq : (pool.block (extent Region.span before)).next = exit := atExit
    simp only [splitBlock, carve, sizeEq]
    split
    · have apart : extent Region.span before + sizeofBlock + size ≠
          extent Region.span before := by
        simp only [sizeofBlock]
        omega
      have nextPlace : extent Region.span before + (sizeofBlock + size) =
          extent Region.span before + sizeofBlock + size := by omega
      simp [Represents, Pool.setBlock, update_of_ne apart, Region.span, nextPlace, atEntry, exitEq]
    · simp [Represents, Pool.setBlock, atEntry, exitEq]

theorem setFree_tiles (tiles : Tiles pool (before ++ region :: after)) :
    Tiles (pool.setBlock (extent Region.span before)
        { pool.block (extent Region.span before) with isFree := true })
      (before ++ ⟨region.size, true⟩ :: after) := by
  have grouped : Tiles pool (before ++ [region] ++ after) := by simpa using tiles
  apply grouped.setHeader
  · simp [Region.span]
  · rintro entry exit ⟨atEntry, sizeEq, -, atExit⟩
    have exitEq := atExit
    dsimp only
    rw [sizeEq, exitEq]
    exact ⟨atEntry, rfl⟩

theorem absorb_tiles {behind : Region} (tiles : Tiles pool (before ++ region :: behind :: after)) :
    Tiles (absorb pool (extent Region.span before)
        (extent Region.span before + region.span)) (before ++ region.join behind :: after) := by
  have grouped : Tiles pool (before ++ [region, behind] ++ after) := by
    simpa using tiles
  apply grouped.setHeader
  · simp
  · rintro entry exit ⟨atEntry, sizeEq, isFreeEq, atBehind, behindSize, -, atExit⟩
    have exitEq := atExit
    dsimp only
    rw [sizeEq, isFreeEq, behindSize, exitEq]
    exact ⟨atEntry, rfl⟩

end BitsAndBytes.MemAlloc
