import Mathlib.Data.List.Pairwise
import Mathlib.Algebra.BigOperators.Group.List.Basic
import Mathlib.Algebra.Ring.Nat

/-! # Consecutive blocks in a range of addresses -/

namespace BitsAndBytes.BlockTiling

open List

variable {Block : Type*} (length : Block → Nat)

def extent (blocks : List Block) : Nat :=
  (blocks.map length).sum

def place : Nat → List Block → List (Nat × Block)
  | _, [] => []
  | start, block :: blocks =>
    (start, block) :: place (start + length block) blocks

@[simp]
theorem extent_nil : extent length [] = 0 := rfl

variable (start : Nat)

@[simp]
theorem extent_cons (block : Block) (blocks : List Block) :
    extent length (block :: blocks) = length block + extent length blocks := by
  simp [extent]

@[simp]
theorem extent_append (first second : List Block) :
    extent length (first ++ second) = extent length first + extent length second := by
  simp [extent]

@[simp]
theorem place_nil : place length start [] = [] := rfl

@[simp]
theorem place_cons (block : Block) (blocks : List Block) : place length start (block :: blocks) =
      (start, block) :: place length (start + length block) blocks := rfl

@[simp]
theorem place_append (first second : List Block) : place length start (first ++ second) =
      place length start first ++ place length (start + extent length first) second := by
  induction first generalizing start with
  | nil => simp
  | cons block first ih => simp [ih, Nat.add_assoc]

@[simp]
theorem length_place (blocks : List Block) :
    (place length start blocks).length = blocks.length := by
  induction blocks generalizing start with
  | nil => rfl
  | cons block blocks ih => simp [ih]

variable {length} {start : Nat} {blocks : List Block} {placed : Nat × Block}

theorem within_of_mem_place (member : placed ∈ place length start blocks) :
    start ≤ placed.1 ∧ placed.1 + length placed.2 ≤ start + extent length blocks := by
  induction blocks generalizing start with
  | nil => simp at member
  | cons block blocks ih =>
    rw [place_cons, mem_cons] at member
    rw [extent_cons]
    rcases member with rfl | later
    · exact ⟨Nat.le_refl _, by dsimp only; omega⟩
    · have bounds := ih later
      omega

theorem pairwise_place (start : Nat) (blocks : List Block) : (place length start blocks).Pairwise
      (fun first second => first.1 + length first.2 ≤ second.1) := by
  induction blocks generalizing start with
  | nil => simp
  | cons block blocks ih =>
    rw [place_cons, pairwise_cons]
    refine ⟨fun placed member => ?_, ih _⟩
    exact (within_of_mem_place member).1

theorem eq_or_disjoint_of_mem_place {first second : Nat × Block}
    (firstMem : first ∈ place length start blocks)
    (secondMem : second ∈ place length start blocks) :
    first = second ∨ first.1 + length first.2 ≤ second.1 ∨
      second.1 + length second.2 ≤ first.1 := by
  induction blocks generalizing start with
  | nil => simp at firstMem
  | cons block blocks ih =>
    rw [place_cons, mem_cons] at firstMem secondMem
    rcases firstMem with rfl | firstLater <;> rcases secondMem with rfl | secondLater
    · exact .inl rfl
    · exact .inr (.inl (within_of_mem_place secondLater).1)
    · exact .inr (.inr (within_of_mem_place firstLater).1)
    · exact ih firstLater secondLater

theorem pairwise_addresses (positive : ∀ block, 0 < length block)
    (start : Nat) (blocks : List Block) :
    ((place length start blocks).map Prod.fst).Pairwise (· < ·) := by
  rw [pairwise_map]
  refine (pairwise_place start blocks).imp ?_
  intro first second ordered
  have := positive first.2
  omega

theorem nodup_addresses (positive : ∀ block, 0 < length block)
    (start : Nat) (blocks : List Block) : ((place length start blocks).map Prod.fst).Nodup :=
  (pairwise_addresses positive start blocks).imp fun ordered => Nat.ne_of_lt ordered

theorem exists_split_of_mem_place (member : placed ∈ place length start blocks) :
    ∃ before after, blocks = before ++ placed.2 :: after ∧
      placed.1 = start + extent length before := by
  induction blocks generalizing start with
  | nil => simp at member
  | cons block blocks ih =>
    rw [place_cons, mem_cons] at member
    rcases member with rfl | later
    · exact ⟨[], blocks, rfl, by simp⟩
    · obtain ⟨before, after, rfl, address⟩ := ih later
      refine ⟨block :: before, after, rfl, ?_⟩
      rw [address, extent_cons]
      omega

end BitsAndBytes.BlockTiling
