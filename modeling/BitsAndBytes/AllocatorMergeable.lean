import BitsAndBytes.AllocatorVisits

/-! # Blocks that the sweep can merge -/

namespace BitsAndBytes.Allocator

open BoundaryTags BlockTiling RunMerging WhileLoop

/-- Each run of garbage, with `bytes` before it, has a size that fits into a tag. -/
def Fits : Nat → List UInt32 → Prop
  | bytes, [] => bytes < 2 ^ 32
  | bytes, tag :: tags =>
    if Garbage tag then Fits (bytes + tagSize tag) tags else bytes < 2 ^ 32 ∧ Fits 0 tags

/-- Of a run of garbage only the first block takes up a free block behind it. -/
def Mergeable (epilogue : UInt32) : Bool → List UInt32 → Prop
  | _, [] => True
  | merging, [tag] => Garbage tag → merging → ¬ IsFree epilogue
  | merging, tag :: next :: tags =>
    if Garbage tag then
      if IsFree next then merging = false ∧ Mergeable epilogue true tags
      else Mergeable epilogue true (next :: tags)
    else Mergeable epilogue false (next :: tags)

instance decidableFits : ∀ bytes tags, Decidable (Fits bytes tags)
  | bytes, [] => inferInstanceAs (Decidable (bytes < 2 ^ 32))
  | bytes, tag :: tags =>
    have := decidableFits (bytes + tagSize tag) tags
    have := decidableFits 0 tags
    inferInstanceAs (Decidable (if Garbage tag then Fits (bytes + tagSize tag) tags
      else bytes < 2 ^ 32 ∧ Fits 0 tags))

instance decidableMergeable (epilogue : UInt32) :
    ∀ merging tags, Decidable (Mergeable epilogue merging tags)
  | _, [] => inferInstanceAs (Decidable True)
  | merging, [tag] =>
    inferInstanceAs (Decidable (Garbage tag → merging → ¬ IsFree epilogue))
  | merging, tag :: next :: tags =>
    have := decidableMergeable epilogue true tags
    have := decidableMergeable epilogue true (next :: tags)
    have := decidableMergeable epilogue false (next :: tags)
    inferInstanceAs (Decidable (if Garbage tag then
      if IsFree next then merging = false ∧ Mergeable epilogue true tags
      else Mergeable epilogue true (next :: tags)
    else Mergeable epilogue false (next :: tags)))

variable {bytes start : Nat} {tag : UInt32} {tags : List UInt32} {final : Heap}
  {memory : Nat → UInt8}

theorem fits_cons_of_garbage (garbage : Garbage tag) :
    Fits bytes (tag :: tags) ↔ Fits (bytes + tagSize tag) tags := by
  rw [Fits, if_pos garbage]

theorem fits_cons_of_kept (kept : ¬ Garbage tag) :
    Fits bytes (tag :: tags) ↔ bytes < 2 ^ 32 ∧ Fits 0 tags := by
  rw [Fits, if_neg kept]

theorem Fits.lt (fits : Fits bytes tags) : bytes < 2 ^ 32 := by
  induction tags generalizing bytes with
  | nil => exact fits
  | cons tag tags ih =>
    by_cases garbage : Garbage tag
    · have more := ih ((fits_cons_of_garbage garbage).mp fits)
      omega
    · exact ((fits_cons_of_kept garbage).mp fits).1

theorem Fits.mono {fewer : Nat} (fits : Fits bytes tags) (le : fewer ≤ bytes) :
    Fits fewer tags := by
  induction tags generalizing bytes fewer with
  | nil => exact Nat.lt_of_le_of_lt le fits
  | cons tag tags ih =>
    by_cases garbage : Garbage tag
    · rw [fits_cons_of_garbage garbage] at fits ⊢
      exact ih fits (Nat.add_le_add_right le _)
    · rw [fits_cons_of_kept garbage] at fits ⊢
      exact ⟨Nat.lt_of_le_of_lt le fits.1, fits.2⟩

theorem mergeable_cons_of_kept {epilogue : UInt32} {merging : Bool} (kept : ¬ Garbage tag) :
    Mergeable epilogue merging (tag :: tags) ↔ Mergeable epilogue false tags := by
  cases tags with
  | nil => simp [Mergeable, kept]
  | cons next tags => rw [Mergeable, if_neg kept]

theorem freeBytes_of_isFree (isFree : IsFree tag) : freeBytes tag = tagSize tag := if_pos isFree

theorem freeBytes_of_used (used : ¬ IsFree tag) : freeBytes tag = 0 := if_neg used

namespace Cursor

def FitsBehind (cursor : Cursor) : Prop :=
  Fits (freeBytes cursor.prev) cursor.rest

def MergeableBehind (cursor : Cursor) (epilogue : UInt32) : Prop :=
  Mergeable epilogue (decide (IsFree cursor.prev)) cursor.rest

end Cursor

section

variable {epilogue : UInt32} {cursor next : Cursor} (absorbs : Absorbs epilogue cursor next)
include absorbs

theorem Absorbs.base_eq : next.base = cursor.base := by
  cases absorbs with
  | free _ prevUsed _ isFree _ | next _ prevUsed _ isFree _ =>
    rw [base_of_isFree isFree, base_of_used prevUsed]
  | prev _ prevFree _ isFree _ => rw [base_of_isFree isFree, base_of_isFree prevFree]

theorem Absorbs.merged_iff {newTags : List UInt32} :
    Merged tagSize Garbage IsFree unmark start cursor.pending newTags ↔
      Merged tagSize Garbage IsFree unmark start next.pending newTags := by
  cases absorbs with
  | free garbage prevUsed _ isFree bytes =>
    rw [pending_of_used prevUsed, pending_of_isFree isFree]
    exact merged_replace garbage (.inl isFree) bytes.symm
  | next garbage prevUsed nextFree isFree bytes =>
    rw [pending_of_used prevUsed, pending_of_isFree isFree]
    exact merged_join garbage (.inl nextFree) (.inl isFree) bytes
  | prev garbage prevFree _ isFree bytes =>
    rw [pending_of_isFree prevFree, pending_of_isFree isFree]
    exact merged_join (.inl prevFree) garbage (.inl isFree) bytes

theorem Absorbs.mergeable_iff :
    cursor.MergeableBehind epilogue ↔ next.MergeableBehind epilogue := by
  cases absorbs with
  | @free _ _ _ _ rest garbage prevUsed nextUsed isFree _ =>
    cases rest with
    | nil => simp [Cursor.MergeableBehind, Mergeable, prevUsed]
    | cons next rest =>
      have used : ¬ IsFree next := nextUsed next rfl
      simp [Cursor.MergeableBehind, Mergeable, isFree, garbage, used]
  | next garbage prevUsed nextFree isFree _ =>
    simp [Cursor.MergeableBehind, Mergeable, prevUsed, isFree, garbage, nextFree]
  | @prev _ _ _ _ rest garbage prevFree nextUsed isFree _ =>
    cases rest with
    | nil =>
      have used : ¬ IsFree epilogue := nextUsed
      simp [Cursor.MergeableBehind, Mergeable, used]
    | cons next rest =>
      have used : ¬ IsFree next := nextUsed
      simp [Cursor.MergeableBehind, Mergeable, isFree, garbage, used]

end

section

variable {epilogue : UInt32} {cursor next : Cursor} {lowest : Nat}
  (visits : Visits epilogue cursor lowest next)
include visits

theorem Visits.length_lt : next.rest.length < cursor.rest.length := by
  cases visits with
  | keep => simp
  | absorb absorbs =>
    cases absorbs with
    | free => simp
    | next =>
      simp only [List.length_cons]
      omega
    | prev => simp
  | tear => simp

theorem Visits.fits (fits : cursor.FitsBehind) : next.FitsBehind := by
  cases visits with
  | keep kept =>
    rw [Cursor.FitsBehind, fits_cons_of_kept kept] at fits
    rw [Cursor.FitsBehind, freeBytes_of_used (not_isFree_unmark _ kept)]
    exact fits.2
  | absorb absorbs =>
    cases absorbs with
    | free garbage prevUsed _ isFree bytes =>
      rw [Cursor.FitsBehind, fits_cons_of_garbage garbage, freeBytes_of_used prevUsed,
        Nat.zero_add] at fits
      rwa [Cursor.FitsBehind, freeBytes_of_isFree isFree, bytes]
    | next garbage prevUsed nextFree isFree bytes =>
      rw [Cursor.FitsBehind, fits_cons_of_garbage garbage,
        fits_cons_of_garbage (.inl nextFree), freeBytes_of_used prevUsed, Nat.zero_add] at fits
      rwa [Cursor.FitsBehind, freeBytes_of_isFree isFree, bytes]
    | prev garbage prevFree _ isFree bytes =>
      rw [Cursor.FitsBehind, fits_cons_of_garbage garbage, freeBytes_of_isFree prevFree] at fits
      rwa [Cursor.FitsBehind, freeBytes_of_isFree isFree, bytes]
  | tear garbage prevFree _ isFree bytes =>
    rw [Cursor.FitsBehind, fits_cons_of_garbage garbage] at fits
    rw [Cursor.FitsBehind, freeBytes_of_isFree isFree, bytes]
    exact fits.mono (Nat.le_add_left _ _)

theorem Visits.base_le_lowest : cursor.base ≤ lowest := by
  cases visits with
  | @keep start prev _ _ _ =>
    by_cases prevFree : IsFree prev
    · rw [base_of_isFree prevFree]
      exact Nat.le_add_right _ _
    · rw [base_of_used prevFree]
  | absorb => exact Nat.le_refl _
  | tear _ prevFree _ _ _ => rw [base_of_isFree prevFree]

theorem Visits.base_le : cursor.base ≤ next.base := by
  have lower := visits.base_le_lowest
  cases visits with
  | keep kept =>
    rw [base_of_used (not_isFree_unmark _ kept)]
    exact Nat.le_trans lower (Nat.le_add_right _ _)
  | absorb absorbs => rw [absorbs.base_eq]
  | tear _ _ _ isFree _ =>
    rw [base_of_isFree isFree]
    exact Nat.le_trans lower (Nat.le_add_right _ _)

theorem Visits.finish_eq :
    next.address + extent tagSize next.rest = cursor.address + extent tagSize cursor.rest := by
  cases visits with
  | keep => simp [Cursor.address, tagSize_unmark, Nat.add_assoc]
  | absorb absorbs =>
    cases absorbs with
    | free _ _ _ _ bytes | next _ _ _ _ bytes | prev _ _ _ _ bytes =>
      simp [Cursor.address, bytes, Nat.add_assoc]
  | tear _ _ _ _ bytes => simp [Cursor.address, bytes, Nat.add_assoc]

theorem Visits.mergeable (mergeable : cursor.MergeableBehind epilogue) :
    next.MergeableBehind epilogue := by
  cases visits with
  | keep kept =>
    rw [Cursor.MergeableBehind, mergeable_cons_of_kept kept] at mergeable
    rw [Cursor.MergeableBehind, decide_eq_false (not_isFree_unmark _ kept)]
    exact mergeable
  | absorb absorbs => exact absorbs.mergeable_iff.mp mergeable
  | tear garbage prevFree nextFree _ _ =>
    simp [Cursor.MergeableBehind, Mergeable, garbage, prevFree, nextFree] at mergeable

end

section

variable {heap : Heap} {epilogue : UInt32}

section

variable {start : Nat} {prev tag : UInt32} {rest : List UInt32}
  (visiting : Visiting heap.memory epilogue ⟨start, prev, tag :: rest⟩)
  (fits : Cursor.FitsBehind ⟨start, prev, tag :: rest⟩)
include visiting fits

theorem exists_absorbs_of_used (garbage : Garbage tag) (prevUsed : ¬ IsFree prev) :
    ∃ memory next, Absorbs epilogue ⟨start, prev, tag :: rest⟩ next ∧
      Moves heap memory epilogue ⟨start, prev, tag :: rest⟩ (start + tagSize prev) next := by
  rw [Cursor.FitsBehind, fits_cons_of_garbage garbage, freeBytes_of_used prevUsed,
    Nat.zero_add] at fits
  obtain ⟨cleared, freed, isFree, same, prevHolds, nextIs, retagged, swept⟩ :=
    exists_cleared visiting garbage
  have behind := visiting.behind
  have ended := visiting.ended_behind
  by_cases nextFree : IsFree (rest.headD epilogue)
  · have coalesces := coalesces_next prevHolds retagged.carries nextIs prevUsed nextFree
    rw [same] at coalesces
    cases rest with
    | nil =>
      have zero : tagSize (([] : List UInt32).headD epilogue) = 0 := visiting.zero
      rw [zero, Nat.add_zero] at coalesces
      obtain ⟨memory, joined, joinedFree, bytes, moves⟩ :=
        moves_of_coalesces visiting same retagged swept (coalesces (tagSize_lt tag))
          (Nat.le_refl _) behind ended
      exact ⟨memory, _, .free garbage prevUsed (by simp) joinedFree bytes, moves⟩
    | cons next rest =>
      have nextIsFree : IsFree next := nextFree
      rw [fits_cons_of_garbage (.inl nextIsFree)] at fits
      rw [extent_cons, ← Nat.add_assoc] at ended
      rw [tagged_cons] at behind
      obtain ⟨memory, joined, joinedFree, bytes, moves⟩ :=
        moves_of_coalesces visiting same retagged swept (coalesces fits.lt)
          (Nat.le_add_right _ _) (by rw [← Nat.add_assoc]; exact behind.2)
          (by rw [← Nat.add_assoc]; exact ended)
      exact ⟨memory, _, .next garbage prevUsed nextIsFree joinedFree bytes, moves⟩
  · have coalesces := coalesces_neither prevHolds retagged.carries nextIs isFree prevUsed nextFree
    rw [same] at coalesces
    obtain ⟨memory, joined, joinedFree, bytes, moves⟩ :=
      moves_of_coalesces visiting same retagged swept coalesces (Nat.le_refl _) behind ended
    refine ⟨memory, _, .free garbage prevUsed ?_ joinedFree bytes, moves⟩
    intro next head
    rw [List.headD_eq_head?_getD, Option.mem_def.mp head] at nextFree
    exact nextFree

theorem exists_visits (apart : rest = [] → Garbage tag → IsFree prev → ¬ IsFree epilogue) :
    ∃ memory lowest next, Visits epilogue ⟨start, prev, tag :: rest⟩ lowest next ∧
      Moves heap memory epilogue ⟨start, prev, tag :: rest⟩ lowest next := by
  by_cases garbage : Garbage tag
  · by_cases prevFree : IsFree prev
    · rw [Cursor.FitsBehind, fits_cons_of_garbage garbage, freeBytes_of_isFree prevFree] at fits
      by_cases nextFree : IsFree (rest.headD epilogue)
      · cases rest with
        | nil => exact absurd nextFree (apart rfl garbage prevFree)
        | cons next rest =>
          have nextIsFree : IsFree next := nextFree
          rw [fits_cons_of_garbage (.inl nextIsFree)] at fits
          obtain ⟨memory, freed, isFree, bytes, moves⟩ :=
            moves_tear visiting garbage prevFree nextIsFree fits.lt
          exact ⟨memory, _, _, .tear garbage prevFree nextIsFree isFree bytes, moves⟩
      · obtain ⟨memory, joined, isFree, bytes, moves⟩ :=
          moves_prev visiting garbage prevFree nextFree fits.lt
        exact ⟨memory, _, _, .absorb (.prev garbage prevFree nextFree isFree bytes),
          by rwa [base_of_isFree prevFree]⟩
    · obtain ⟨memory, next, absorbs, moves⟩ := exists_absorbs_of_used visiting fits garbage prevFree
      exact ⟨memory, _, next, .absorb absorbs, by rwa [base_of_used prevFree]⟩
  · obtain ⟨memory, moves⟩ := moves_keep visiting garbage
    exact ⟨memory, _, _, .keep garbage, moves⟩

end

variable {prev : UInt32}

theorem sweepsFrom_iff_of_end (visiting : Visiting heap.memory epilogue ⟨start, prev, []⟩) :
    SweepsFrom heap (start + tagSize prev + 8) final ↔ final = heap := by
  have ended : get heap.memory (start + tagSize prev) = epilogue := visiting.ended
  have stopped : sweepTest (heap, start + tagSize prev + 8) = false := by
    rw [sweepTest, decide_eq_false_iff_not]
    rw [getSize_pos_iff, ended, visiting.zero]
    exact Nat.lt_irrefl 0
  simp only [SweepsFrom, exists_ends_iff_of_stop stopped, Prod.mk.injEq]
  simp

theorem sweepsFrom_iff_of_block {address bp : Nat} (headed : Headed heap.memory address tag)
    (swept : sweepBlock heap (address + 8) = { heap with memory := memory })
    (pointer : nextBlkp memory (address + 8) = bp) :
    SweepsFrom heap (address + 8) final ↔ SweepsFrom { heap with memory := memory } bp final := by
  have roomy := headed.roomy
  have tested : sweepTest (heap, address + 8) := by
    rw [sweepTest, decide_eq_true_eq]
    rw [getSize_pos_iff, headed.header]
    omega
  have executed : sweepBody (heap, address + 8) =
      some (({ heap with memory := memory }, bp), ()) := by
    rw [sweepBody]
    rw [swept]
    rw [pointer]
  simp only [SweepsFrom, exists_ends_iff_of_iteration tested executed]

theorem Moves.sweepsFrom_iff {lowest : Nat} {rest : List UInt32} {next : Cursor}
    (moves : Moves heap memory epilogue ⟨start, prev, tag :: rest⟩ lowest next)
    (headed : Headed heap.memory (start + tagSize prev) tag) :
    SweepsFrom heap (start + tagSize prev + 8) final ↔
      SweepsFrom { heap with memory := memory } (next.address + 8) final :=
  sweepsFrom_iff_of_block headed moves.swept moves.pointer

end

end BitsAndBytes.Allocator
