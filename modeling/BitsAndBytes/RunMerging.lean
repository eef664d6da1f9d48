import BitsAndBytes.BlockTiling
import Mathlib.Data.List.Chain

/-! # Merging runs of unused blocks -/

namespace BitsAndBytes.RunMerging

open BlockTiling List

variable {Block : Type*} (length : Block → Nat) (Unused Free : Block → Prop)
  (keep : Block → Block)

/-- Longest runs of unused blocks have become free blocks, and used blocks have stayed. -/
structure Merged (start : Nat) (blocks newBlocks : List Block) : Prop where
  covers : extent length newBlocks = extent length blocks
  kept : ∀ placed ∈ place length start blocks, ¬ Unused placed.2 →
    (placed.1, keep placed.2) ∈ place length start newBlocks
  others : ∀ placed ∈ place length start newBlocks, Free placed.2 ∨
    ∃ old ∈ place length start blocks, ¬ Unused old.2 ∧ placed = (old.1, keep old.2)
  apart : newBlocks.IsChain fun first second => ¬ (Free first ∧ Free second)

def runLength [DecidablePred Unused] : List Block → Nat
  | [] => 0
  | block :: blocks => if Unused block then length block + runLength blocks else 0

variable {length Unused Free keep} {start : Nat} {block : Block} {blocks : List Block}
  {placed : Nat × Block}

theorem eq_head_of_lt (member : placed ∈ place length start (block :: blocks))
    (early : placed.1 < start + length block) : placed = (start, block) := by
  rw [place_cons, mem_cons] at member
  rcases member with isHead | later
  · exact isHead
  · have within := within_of_mem_place later
    omega

theorem mem_tail_of_lt (member : placed ∈ place length start (block :: blocks))
    (late : start < placed.1) : placed ∈ place length (start + length block) blocks := by
  rw [place_cons, mem_cons] at member
  rcases member with rfl | later
  · exact absurd late (Nat.lt_irrefl _)
  · exact later

section

variable [DecidablePred Unused]

theorem runLength_le_extent (blocks : List Block) :
    runLength length Unused blocks ≤ extent length blocks := by
  induction blocks with
  | nil => exact Nat.le_refl 0
  | cons block blocks ih =>
    rw [runLength, extent_cons]
    split <;> omega

theorem unused_of_lt_runLength (member : placed ∈ place length start blocks)
    (early : placed.1 < start + runLength length Unused blocks) : Unused placed.2 := by
  induction blocks generalizing start with
  | nil => simp at member
  | cons block blocks ih =>
    rw [runLength] at early
    have within := within_of_mem_place member
    split at early
    case isTrue unused =>
      rw [place_cons, mem_cons] at member
      rcases member with rfl | later
      · exact unused
      · exact ih later (by omega)
    case isFalse => omega

theorem exists_used_of_runLength_lt
    (shorter : runLength length Unused blocks < extent length blocks) (start : Nat) :
    ∃ used, ¬ Unused used ∧
      (start + runLength length Unused blocks, used) ∈ place length start blocks := by
  induction blocks generalizing start with
  | nil => exact absurd shorter (Nat.lt_irrefl 0)
  | cons block blocks ih =>
    rw [runLength, extent_cons] at shorter
    rw [runLength]
    split at shorter
    case isTrue unused =>
      obtain ⟨used, isUsed, member⟩ := ih (by omega) (start + length block)
      rw [if_pos unused, ← Nat.add_assoc]
      exact ⟨used, isUsed, mem_cons_of_mem _ member⟩
    case isFalse isUsed =>
      rw [if_neg isUsed]
      exact ⟨block, isUsed, mem_cons_self⟩

end

variable {newBlocks : List Block}

theorem merged_nil : Merged length Unused Free keep start [] [] :=
  ⟨rfl, by simp, by simp, isChain_nil⟩

variable {first second newBlock : Block}

theorem Merged.congr {others : List Block}
    (merged : Merged length Unused Free keep start blocks newBlocks)
    (sameExtent : extent length others = extent length blocks)
    (sameUsed : ∀ placed : Nat × Block, ¬ Unused placed.2 →
      (placed ∈ place length start blocks ↔ placed ∈ place length start others)) :
    Merged length Unused Free keep start others newBlocks where
  covers := merged.covers.trans sameExtent.symm
  kept placed member used := merged.kept placed ((sameUsed placed used).mpr member) used
  others placed member := by
    rcases merged.others placed member with free | ⟨old, oldMem, used, same⟩
    · exact .inl free
    · exact .inr ⟨old, (sameUsed old used).mp oldMem, used, same⟩
  apart := merged.apart

theorem merged_replace (unused : Unused first) (alsoUnused : Unused second)
    (same : length first = length second) :
    Merged length Unused Free keep start (first :: blocks) newBlocks ↔
      Merged length Unused Free keep start (second :: blocks) newBlocks := by
  have sameUsed : ∀ placed : Nat × Block, ¬ Unused placed.2 →
      (placed ∈ place length start (first :: blocks) ↔
        placed ∈ place length start (second :: blocks)) := by
    rintro ⟨address, placed⟩ used
    have notFirst : placed ≠ first := fun equal => used (equal ▸ unused)
    have notSecond : placed ≠ second := fun equal => used (equal ▸ alsoUnused)
    simp [notFirst, notSecond, same]
  constructor
  · intro merged
    exact merged.congr (by simp [same]) sameUsed
  · intro merged
    exact merged.congr (by simp [same]) fun placed used => (sameUsed placed used).symm

theorem merged_join {joined : Block} (unused : Unused first) (nextUnused : Unused second)
    (joinedUnused : Unused joined) (sum : length joined = length first + length second) :
    Merged length Unused Free keep start (first :: second :: blocks) newBlocks ↔
      Merged length Unused Free keep start (joined :: blocks) newBlocks := by
  have sameUsed : ∀ placed : Nat × Block, ¬ Unused placed.2 →
      (placed ∈ place length start (first :: second :: blocks) ↔
        placed ∈ place length start (joined :: blocks)) := by
    rintro ⟨address, placed⟩ used
    have notFirst : placed ≠ first := fun equal => used (equal ▸ unused)
    have notSecond : placed ≠ second := fun equal => used (equal ▸ nextUnused)
    have notJoined : placed ≠ joined := fun equal => used (equal ▸ joinedUnused)
    simp [notFirst, notSecond, notJoined, sum, Nat.add_assoc]
  have sameExtent : extent length (joined :: blocks) =
      extent length (first :: second :: blocks) := by
    simp [sum, Nat.add_assoc]
  constructor
  · intro merged
    exact merged.congr sameExtent sameUsed
  · intro merged
    exact merged.congr sameExtent.symm fun placed used => (sameUsed placed used).symm

theorem Merged.cons
    (merged : Merged length Unused Free keep (start + length block) blocks newBlocks)
    (same : length newBlock = length block)
    (isNew : Unused block ∧ Free newBlock ∨ ¬ Unused block ∧ newBlock = keep block)
    (behind : ∀ next ∈ newBlocks.head?, ¬ (Free newBlock ∧ Free next)) :
    Merged length Unused Free keep start (block :: blocks) (newBlock :: newBlocks) where
  covers := by rw [extent_cons, extent_cons, merged.covers, same]
  kept placed member used := by
    rw [place_cons, mem_cons] at member
    rw [place_cons, same]
    rcases member with rfl | later
    · rcases isNew with ⟨unused, -⟩ | ⟨-, rfl⟩
      · exact absurd unused used
      · exact mem_cons_self
    · exact mem_cons_of_mem _ (merged.kept placed later used)
  others placed member := by
    rw [place_cons, mem_cons, same] at member
    rcases member with rfl | later
    · rcases isNew with ⟨-, isFree⟩ | ⟨used, rfl⟩
      · exact .inl isFree
      · exact .inr ⟨(start, block), mem_cons_self, used, rfl⟩
    · rcases merged.others placed later with placedFree | ⟨old, oldMem, used, equal⟩
      · exact .inl placedFree
      · exact .inr ⟨old, mem_cons_of_mem _ oldMem, used, equal⟩
  apart := isChain_cons.mpr ⟨behind, merged.apart⟩

theorem Merged.cons_free {free : Block}
    (merged : Merged length Unused Free keep (start + length block) blocks newBlocks)
    (unused : Unused block) (isFree : Free free) (same : length free = length block)
    (behind : ∀ next ∈ newBlocks.head?, ¬ Free next) :
    Merged length Unused Free keep start (block :: blocks) (free :: newBlocks) :=
  merged.cons same (.inl ⟨unused, isFree⟩) fun next head both => behind next head both.2

section

variable (lengthKeep : ∀ block, length (keep block) = length block)
  (usedKeep : ∀ block, ¬ Unused block → ¬ Free (keep block))
include lengthKeep usedKeep

theorem Merged.cons_keep
    (merged : Merged length Unused Free keep (start + length block) blocks newBlocks)
    (used : ¬ Unused block) :
    Merged length Unused Free keep start (block :: blocks) (keep block :: newBlocks) :=
  merged.cons (lengthKeep block) (.inr ⟨used, rfl⟩) fun _ _ both =>
    usedKeep block used both.1

end

theorem Merged.tail
    (merged : Merged length Unused Free keep start (block :: blocks) (newBlock :: newBlocks))
    (same : length newBlock = length block) (positive : 0 < length block) :
    Merged length Unused Free keep (start + length block) blocks newBlocks where
  covers := by
    have covers := merged.covers
    rw [extent_cons, extent_cons] at covers
    omega
  kept placed member used := by
    have within := within_of_mem_place member
    have kept := merged.kept placed (mem_cons_of_mem _ member) used
    rw [← same]
    exact mem_tail_of_lt kept (by dsimp only; omega)
  others placed member := by
    have within := within_of_mem_place member
    rw [← same] at member
    rcases merged.others placed (mem_cons_of_mem _ member) with free | found
    · exact .inl free
    · obtain ⟨old, oldMem, used, rfl⟩ := found
      exact .inr ⟨old, mem_tail_of_lt oldMem (by dsimp only at within; omega), used, rfl⟩
  apart := merged.apart.tail

section

variable (positive : ∀ block ∈ newBlocks, 0 < length block)
include positive

theorem Merged.exists_keep (lengthKeep : ∀ block, length (keep block) = length block)
    (merged : Merged length Unused Free keep start (block :: blocks) newBlocks)
    (used : ¬ Unused block) :
    ∃ rest, newBlocks = keep block :: rest ∧
      Merged length Unused Free keep (start + length block) blocks rest := by
  have kept := merged.kept (start, block) mem_cons_self used
  cases newBlocks with
  | nil => simp at kept
  | cons newBlock rest =>
    have newPositive := positive newBlock mem_cons_self
    have isHead := eq_head_of_lt kept (by dsimp only; omega)
    obtain rfl : keep block = newBlock := congrArg Prod.snd isHead
    rw [lengthKeep] at newPositive
    exact ⟨rest, rfl, merged.tail (lengthKeep block) newPositive⟩

theorem Merged.exists_run [DecidablePred Unused]
    (merged : Merged length Unused Free keep start (block :: blocks) newBlocks)
    (unused : Unused block) (blockPositive : 0 < length block) :
    ∃ free rest, newBlocks = free :: rest ∧ Free free ∧
      length free = length block + runLength length Unused blocks := by
  have covers := merged.covers
  rw [extent_cons] at covers
  have runLe : runLength length Unused blocks ≤ extent length blocks :=
    runLength_le_extent blocks
  have runIs : runLength length Unused (block :: blocks) =
      length block + runLength length Unused blocks := if_pos unused
  cases newBlocks with
  | nil =>
    rw [extent_nil] at covers
    omega
  | cons free rest =>
    rw [extent_cons] at covers
    have isFree : Free free := by
      rcases merged.others (start, free) mem_cons_self with isFree | found
      · exact isFree
      · obtain ⟨old, oldMem, used, same⟩ := found
        have address : start = old.1 := congrArg Prod.fst same
        have oldIs := eq_head_of_lt oldMem (by omega)
        rw [oldIs] at used
        exact absurd unused used
    refine ⟨free, rest, rfl, isFree, Nat.le_antisymm ?_ ?_⟩
    · by_contra longer
      have covered : runLength length Unused (block :: blocks) <
          extent length (block :: blocks) := by
        rw [extent_cons]
        omega
      obtain ⟨next, used, member⟩ := exists_used_of_runLength_lt covered start
      rw [runIs] at member
      have kept := eq_head_of_lt (merged.kept _ member used) (by dsimp only; omega)
      have address := congrArg Prod.fst kept
      omega
    · by_contra shorter
      cases rest with
      | nil =>
        rw [extent_nil] at covers
        omega
      | cons next rest =>
        have nextUsed : ¬ Free next := fun nextFree =>
          (isChain_cons_cons.mp merged.apart).1 ⟨isFree, nextFree⟩
        rcases merged.others (start + length free, next)
          (mem_cons_of_mem _ mem_cons_self) with nextFree | found
        · exact nextUsed nextFree
        · obtain ⟨old, oldMem, used, same⟩ := found
          have address : start + length free = old.1 := congrArg Prod.fst same
          exact used (unused_of_lt_runLength oldMem (by omega))

end

end BitsAndBytes.RunMerging
