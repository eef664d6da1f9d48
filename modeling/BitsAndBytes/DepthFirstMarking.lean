import Mathlib.Data.Finset.Card

/-! # Marking by depth-first search -/

namespace BitsAndBytes.DepthFirstMarking

open List Option

variable {Word Node : Type*} (resolve : Word → Option Node) (words : Node → List Word)

/-- The nodes that can be reached from the words. -/
inductive Reachable (roots : List Word) : Node → Prop
  | root {word : Word} {node : Node} (isRoot : word ∈ roots)
      (points : resolve word = some node) : Reachable roots node
  | child {node child : Node} {word : Word} (reachable : Reachable roots node)
      (isWord : word ∈ words node) (points : resolve word = some child) : Reachable roots child

/-- The result adds to the marked nodes those that can be reached from the words. -/
structure Explored (marked : Finset Node) (roots : List Word) (result : Finset Node) :
    Prop where
  kept : marked ⊆ result
  roots_marked : ∀ word ∈ roots, ∀ node, resolve word = some node → node ∈ result
  reachable : ∀ node ∈ result, node ∈ marked ∨ Reachable resolve words roots node
  closed : ∀ node ∈ result, node ∈ marked ∨
    ∀ word ∈ words node, ∀ child, resolve word = some child → child ∈ result

section

variable {resolve words} {marked middle result : Finset Node} {word : Word} {node : Node}
  {roots others : List Word}

theorem Reachable.mono (subset : roots ⊆ others)
    (reachable : Reachable resolve words roots node) : Reachable resolve words others node := by
  induction reachable with
  | root isRoot points => exact .root (subset isRoot) points
  | child _ isWord points ih => exact .child ih isWord points

theorem Reachable.trans (start : Reachable resolve words roots node) {last : Node}
    (reachable : Reachable resolve words (words node) last) :
    Reachable resolve words roots last := by
  induction reachable with
  | root isWord points => exact .child start isWord points
  | child _ isWord points ih => exact .child ih isWord points

namespace Explored

theorem nil : Explored resolve words marked [] marked :=
  ⟨subset_rfl, nofun, fun _ member => .inl member, fun _ member => .inl member⟩

theorem unchanged (points : ∀ node, resolve word = some node → node ∈ marked) :
    Explored resolve words marked [word] marked := by
  refine ⟨subset_rfl, ?_, fun _ member => .inl member, fun _ member => .inl member⟩
  rw [forall_mem_singleton]
  exact points

theorem cons (first : Explored resolve words marked [word] middle)
    (rest : Explored resolve words middle roots result) :
    Explored resolve words marked (word :: roots) result := by
  refine ⟨first.kept.trans rest.kept, ?_, fun node member => ?_, fun node member => ?_⟩
  · rw [forall_mem_cons]
    refine ⟨fun node points => ?_, rest.roots_marked⟩
    exact rest.kept (first.roots_marked word (mem_singleton_self word) node points)
  · rcases rest.reachable node member with inMiddle | reachable
    · refine (first.reachable node inMiddle).imp_right fun reachable => ?_
      exact reachable.mono (by simp)
    · exact .inr (reachable.mono (subset_cons_self word roots))
  · rcases rest.closed node member with inMiddle | closed
    · refine (first.closed node inMiddle).imp_right fun closed other isWord child points => ?_
      exact rest.kept (closed other isWord child points)
    · exact .inr closed

theorem mem_iff (explored : Explored resolve words ∅ roots result) :
    node ∈ result ↔ Reachable resolve words roots node := by
  constructor
  · intro member
    exact (explored.reachable node member).resolve_left (Finset.notMem_empty node)
  · intro reachable
    induction reachable with
    | root isRoot points => exact explored.roots_marked _ isRoot _ points
    | @child node _ _ _ isWord points ih =>
      exact (explored.closed node ih).resolve_left (Finset.notMem_empty node) _ isWord _ points

end Explored

end

variable [DecidableEq Node]

def visit : Nat → Finset Node → Word → Option (Finset Node)
  | 0, _, _ => none
  | depth + 1, marked, word =>
    match resolve word with
    | none => some marked
    | some node =>
      if node ∈ marked then some marked
      else (words node).foldlM (visit depth) (insert node marked)

variable {resolve words} {marked result nodes : Finset Node} {word other : Word} {node : Node}
  {roots : List Word} {depth : Nat}

theorem visit_congr (same : resolve word = resolve other) :
    visit resolve words depth marked word = visit resolve words depth marked other := by
  cases depth with
  | zero => rfl
  | succ depth => rw [visit, visit, same]

theorem eq_of_visit (nothing : resolve word = none)
    (visited : visit resolve words depth marked word = some result) : result = marked := by
  cases depth with
  | zero => cases visited
  | succ depth =>
    rw [visit, nothing] at visited
    exact (some.inj visited).symm

theorem Explored.of_words (points : resolve word = some node)
    (explored : Explored resolve words (insert node marked) (words node) result) :
    Explored resolve words marked [word] result := by
  have isRoot : Reachable resolve words [word] node := .root (mem_singleton_self word) points
  refine ⟨(Finset.subset_insert node marked).trans explored.kept, ?_, fun other member => ?_,
    fun other member => ?_⟩
  · rw [forall_mem_singleton]
    intro other otherPoints
    rw [points] at otherPoints
    cases otherPoints
    exact explored.kept (Finset.mem_insert_self node marked)
  · rcases explored.reachable other member with early | reachable
    · rcases Finset.mem_insert.mp early with rfl | wasMarked
      · exact .inr isRoot
      · exact .inl wasMarked
    · exact .inr (isRoot.trans reachable)
  · rcases explored.closed other member with early | closed
    · rcases Finset.mem_insert.mp early with rfl | wasMarked
      · exact .inr explored.roots_marked
      · exact .inl wasMarked
    · exact .inr closed

theorem exists_foldlM (roots : List Word) (each : ∀ {marked} word, (nodes \ marked).card < depth →
      ∃ result, visit resolve words depth marked word = some result ∧
        Explored resolve words marked [word] result)
    (few : (nodes \ marked).card < depth) :
    ∃ result, roots.foldlM (visit resolve words depth) marked = some result ∧
      Explored resolve words marked roots result := by
  induction roots generalizing marked with
  | nil => exact ⟨marked, rfl, .nil⟩
  | cons word roots ih =>
    obtain ⟨middle, visited, first⟩ := each word few
    have fewer : (nodes \ middle).card ≤ (nodes \ marked).card :=
      Finset.card_le_card (Finset.sdiff_subset_sdiff subset_rfl first.kept)
    obtain ⟨result, folded, rest⟩ := ih (lt_of_le_of_lt fewer few)
    refine ⟨result, ?_, first.cons rest⟩
    rw [foldlM_cons, visited]
    exact folded

theorem subset_of_foldlM
    (each : ∀ {marked word result}, visit resolve words depth marked word = some result →
      marked ⊆ nodes → result ⊆ nodes)
    (folded : roots.foldlM (visit resolve words depth) marked = some result)
    (subset : marked ⊆ nodes) : result ⊆ nodes := by
  induction roots generalizing marked with
  | nil =>
    cases folded
    exact subset
  | cons word roots ih =>
    obtain ⟨middle, first, rest⟩ := bind_eq_some_iff.mp folded
    exact ih rest (each first subset)

section

variable (resolve_mem : ∀ {word node}, resolve word = some node → node ∈ nodes)
include resolve_mem

theorem exists_visit (word : Word) (few : (nodes \ marked).card < depth) :
    ∃ result, visit resolve words depth marked word = some result ∧
      Explored resolve words marked [word] result := by
  induction depth generalizing marked word with
  | zero => exact absurd few (Nat.not_lt_zero _)
  | succ depth ih =>
    rw [visit]
    cases points : resolve word with
    | none => exact ⟨marked, rfl, .unchanged (by simp [points])⟩
    | some node =>
      by_cases wasMarked : node ∈ marked
      · exact ⟨marked, if_pos wasMarked, .unchanged (by simp [points, wasMarked])⟩
      · have fewer : (nodes \ insert node marked).card < depth := by
          have unmarked : node ∈ nodes \ marked :=
            Finset.mem_sdiff.mpr ⟨resolve_mem points, wasMarked⟩
          rw [Finset.sdiff_insert, Finset.card_erase_of_mem unmarked]
          have positive := Finset.card_pos.mpr ⟨node, unmarked⟩
          omega
        obtain ⟨result, folded, explored⟩ :=
          exists_foldlM (words node) (fun word few => ih word few) fewer
        exact ⟨result, (if_neg wasMarked).trans folded, .of_words points explored⟩

theorem exists_marked (roots : List Word) : ∃ result, (∀ depth, nodes.card < depth →
        roots.foldlM (visit resolve words depth) ∅ = some result) ∧
      ∀ node, node ∈ result ↔ Reachable resolve words roots node := by
  have returns : ∀ depth, nodes.card < depth → ∃ result,
      roots.foldlM (visit resolve words depth) ∅ = some result ∧
        Explored resolve words ∅ roots result := by
    intro depth enough
    exact exists_foldlM roots (fun word few => exists_visit resolve_mem word few)
      (by rwa [Finset.sdiff_empty])
  obtain ⟨result, -, explored⟩ := returns (nodes.card + 1) (Nat.lt_succ_self _)
  refine ⟨result, fun depth enough => ?_, fun node => explored.mem_iff⟩
  obtain ⟨other, folded, otherExplored⟩ := returns depth enough
  rw [folded, some.injEq]
  ext node
  rw [otherExplored.mem_iff, explored.mem_iff]

theorem subset_of_visit (visited : visit resolve words depth marked word = some result)
    (subset : marked ⊆ nodes) : result ⊆ nodes := by
  induction depth generalizing marked word result with
  | zero => cases visited
  | succ depth ih =>
    rw [visit] at visited
    cases points : resolve word with
    | none =>
      rw [points] at visited
      cases visited
      exact subset
    | some node =>
      rw [points] at visited
      simp only at visited
      split at visited
      · cases visited
        exact subset
      · exact subset_of_foldlM (fun visited subset => ih visited subset) visited
          (Finset.insert_subset (resolve_mem points) subset)

end

end BitsAndBytes.DepthFirstMarking
