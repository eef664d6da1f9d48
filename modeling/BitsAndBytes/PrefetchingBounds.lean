import BitsAndBytes.Prefetching
import Mathlib.Tactic.Linarith
import Mathlib.Tactic.Ring

/-! # The indices read by the prefetching cache -/

namespace BitsAndBytes.Prefetching

open OperationRuns List Option

variable {memory : Int → Int} {address : Int} {moments : Nat → Moment}
variable {state : State} {cache : Cache}

/-- The miss is at the distance of the last one, so words are prefetched. -/
structure RepeatsStride (state : State) (address : Int) : Prop where
  missed : findInCache state.cache address = none
  known : state.lastAddress ≠ -1
  repeated : address - state.lastAddress = state.prefetchStride

def brought (memory : Int → Int) (state : State) (access : Access) : State :=
  { state with
    cache := bringToCache memory state.cache (access.address : Nat) (access.moments 0) }

def prefetches (memory : Int → Int) (state : State) (access : Access) (count : Nat) :
    State × List Int :=
  prefetchLoop memory (brought memory state access) (access.address : Nat) access.moments count

/-- Eleven strides from the miss there is still an index, or -1 while a slot is empty. -/
def StaysAbove (memory : Int → Int) (state : State) (access : Access) : Prop :=
  RepeatsStride state (access.address : Nat) →
    0 ≤ (access.address : Nat) + 11 * state.prefetchStride ∨
      (access.address : Nat) + 11 * state.prefetchStride = -1 ∧ ∃ slot < cacheSize,
          (prefetches memory state access (prefetchDistance - 1)).1.cache.tags slot = -1

@[simp]
theorem prefetchLoop_prefetchStride (state : State) (count : Nat) :
    (prefetchLoop memory state address moments count).1.prefetchStride = state.prefetchStride := by
  induction count with
  | zero => rfl
  | succ count ih =>
    rw [prefetchLoop, prefetch]
    split <;> exact ih

def ahead (state : State) (address : Int) (i : Nat) : Int :=
  address + (i + 1 : Nat) * state.prefetchStride

theorem prefetchLoop_succ (memory : Int → Int) (state : State) (address : Int)
    (moments : Nat → Moment) (i : Nat) :
    prefetchLoop memory state address moments (i + 1) =
      let done := prefetchLoop memory state address moments i
      if ahead state address (i + 1) < arraySize ∧
          findInCache done.1.cache (ahead state address (i + 1)) = none then
        ({ done.1 with
            cache := bringToCache memory done.1.cache (ahead state address (i + 1))
              (moments (i + 1)) },
          done.2 ++ [ahead state address (i + 1)])
      else
        done := by
  have addressEq : address + (i + 1 : Nat) * state.prefetchStride + state.prefetchStride =
      ahead state address (i + 1) := by
    rw [ahead]
    push_cast
    ring
  rw [prefetchLoop, prefetch]
  simp only [prefetchLoop_prefetchStride, addressEq]
  split
  · rfl
  · simp only [toList_none, append_nil, Prod.mk.eta]

variable {count : Nat} {reads : List Int}

theorem exists_of_mem_prefetchLoop {index : Int}
    (read : index ∈ (prefetchLoop memory state address moments count).2) :
    index < arraySize ∧ ∃ i ≤ count, index = ahead state address i := by
  induction count with
  | zero => cases read
  | succ count ih =>
    rw [prefetchLoop_succ] at read
    dsimp only at read
    split at read
    · rename_i brings
      rcases mem_append.mp read with earlier | last
      · obtain ⟨below, i, iLe, isAhead⟩ := ih earlier
        exact ⟨below, i, Nat.le_succ_of_le iLe, isAhead⟩
      · rw [mem_singleton.mp last]
        exact ⟨brings.1, count + 1, le_rfl, rfl⟩
    · obtain ⟨below, i, iLe, isAhead⟩ := ih read
      exact ⟨below, i, Nat.le_succ_of_le iLe, isAhead⟩

theorem tags_prefetchLoop (memory : Int → Int) (state : State) (address : Int)
    (moments : Nat → Moment) (count slot : Nat) :
    (prefetchLoop memory state address moments count).1.cache.tags slot = state.cache.tags slot ∨
      (prefetchLoop memory state address moments count).1.cache.tags slot ∈
        (prefetchLoop memory state address moments count).2 := by
  induction count with
  | zero => exact .inl rfl
  | succ count ih =>
    rw [prefetchLoop_succ]
    dsimp only
    split
    · dsimp only
      rcases bringToCache_cases memory
          (prefetchLoop memory state address moments count).1.cache
          (ahead state address (count + 1)) (moments (count + 1)) slot with
        ⟨-, tag, -⟩ | ⟨-, tag, -⟩
      · rw [tag]
        exact .inr (by simp)
      · rw [tag]
        exact ih.imp_right (mem_append_left _)
    · exact ih

theorem ahead_succ (state : State) (address : Int) (i : Nat) :
    ahead state address (i + 1) = ahead state address i + state.prefetchStride := by
  simp only [ahead]
  push_cast
  ring

theorem ahead_nonneg_of_forward (nonneg : 0 ≤ address) (forward : 0 ≤ state.prefetchStride)
    (i : Nat) : 0 ≤ ahead state address i :=
  add_nonneg nonneg (mul_nonneg (Int.natCast_nonneg _) forward)

theorem ahead_nonneg {i : Nat} (nonneg : 0 ≤ address) (last : 0 ≤ ahead state address count)
    (le : i ≤ count) : 0 ≤ ahead state address i := by
  rcases le_total 0 state.prefetchStride with forward | backward
  · exact ahead_nonneg_of_forward nonneg forward i
  · simp only [ahead] at last ⊢
    have farther : ((count + 1 : Nat) : Int) * state.prefetchStride ≤
        (i + 1 : Nat) * state.prefetchStride := mul_le_mul_of_nonpos_right (by omega) backward
    omega

def TagsAbove (cache : Cache) : Prop :=
  ∀ slot < cacheSize, -1 ≤ cache.tags slot

theorem TagsAbove.of_reads {next : Cache} (above : TagsAbove cache)
    (tags : ∀ slot, next.tags slot = cache.tags slot ∨ next.tags slot ∈ reads)
    (inRange : ∀ index ∈ reads, InRange index) : TagsAbove next := by
  intro slot slotLt
  rcases tags slot with before | read
  · rw [before]
    exact above slot slotLt
  · exact le_trans (by decide) (inRange _ read).1

theorem reads_prefetchLoop_iff (above : TagsAbove state.cache) (nonneg : 0 ≤ address) (i : Nat) :
    (∀ index ∈ (prefetchLoop memory state address moments (i + 1)).2, InRange index) ↔
      0 ≤ ahead state address (i + 1) ∨ ahead state address (i + 1) = -1 ∧ ∃ slot < cacheSize,
          (prefetchLoop memory state address moments i).1.cache.tags slot = -1 := by
  have succ := prefetchLoop_succ memory state address moments i
  by_cases last : 0 ≤ ahead state address (i + 1)
  · refine iff_of_true (fun index read => ?_) (.inl last)
    obtain ⟨below, j, jLe, rfl⟩ := exists_of_mem_prefetchLoop read
    exact ⟨ahead_nonneg nonneg last jLe, below⟩
  rw [or_iff_right last]
  have below : ahead state address (i + 1) < arraySize := by
    omega
  constructor
  · intro inRange
    cases found : findInCache (prefetchLoop memory state address moments i).1.cache
        (ahead state address (i + 1)) with
    | none =>
      rw [succ, if_pos ⟨below, found⟩] at inRange
      exact absurd (inRange _ (by simp)).1 last
    | some slot =>
      obtain ⟨slotLt, tag⟩ := findInCache_eq_some found
      rw [succ, if_neg (by simp [found])] at inRange
      have tagAbove := above.of_reads (tags_prefetchLoop memory state address moments i)
        inRange slot slotLt
      have isEmpty : ahead state address (i + 1) = -1 := by omega
      exact ⟨isEmpty, slot, slotLt, tag.trans isEmpty⟩
  · rintro ⟨isEmpty, slot, slotLt, tag⟩ index read
    have found : findInCache (prefetchLoop memory state address moments i).1.cache
        (ahead state address (i + 1)) ≠ none := by
      intro missed
      exact findInCache_eq_none.mp missed slot slotLt (tag.trans isEmpty.symm)
    rw [succ, if_neg (fun brings => found brings.2)] at read
    obtain ⟨indexBelow, j, jLe, rfl⟩ := exists_of_mem_prefetchLoop read
    refine ⟨ahead_nonneg nonneg ?_ jLe, indexBelow⟩
    have backward : ¬ 0 ≤ state.prefetchStride := fun forward =>
      last (ahead_nonneg_of_forward nonneg forward (i + 1))
    rw [ahead_succ] at isEmpty
    omega

/-- The cache and the indices read after a hit, a miss, or a miss with prefetches. -/
inductive Accessed (memory : Int → Int) (state : State) (access : Access) :
    Cache → List Int → Prop
  | hit {slot time} (found : findInCache state.cache (access.address : Nat) = some slot) :
      Accessed memory state access (updateLru state.cache slot time) []
  | single (other : ¬ RepeatsStride state (access.address : Nat)) :
      Accessed memory state access (brought memory state access).cache [(access.address : Nat)]
  | ahead (repeats : RepeatsStride state (access.address : Nat)) :
      Accessed memory state access (prefetches memory state access prefetchDistance).1.cache
        ((access.address : Nat) :: (prefetches memory state access prefetchDistance).2)

variable {access : Access}

theorem accessed_of_step {next : State} {outcome : Outcome}
    (stepEq : step memory state access = some (next, outcome)) :
    Accessed memory state access next.cache outcome.reads := by
  rw [step, some.injEq, accessMemory] at stepEq
  split at stepEq
  · rename_i slot found
    cases stepEq
    exact .hit found
  · rename_i missed
    cases stepEq
    simp only [followStride]
    split
    · rename_i known
      split
      · rename_i repeated
        exact .ahead ⟨missed, known, repeated⟩
      · rename_i other
        exact .single fun repeats => other repeats.repeated
    · rename_i unknown
      exact .single fun repeats => unknown repeats.known

theorem tags_brought (memory : Int → Int) (state : State) (access : Access) (slot : Nat) :
    (brought memory state access).cache.tags slot = state.cache.tags slot ∨
      (brought memory state access).cache.tags slot ∈ [((access.address : Nat) : Int)] := by
  rcases bringToCache_cases memory state.cache (access.address : Nat) (access.moments 0) slot
    with ⟨-, tag, -⟩ | ⟨-, tag, -⟩
  · exact .inr (mem_singleton.mpr tag)
  · exact .inl tag

theorem Accessed.tags (accessed : Accessed memory state access cache reads) (slot : Nat) :
    cache.tags slot = state.cache.tags slot ∨ cache.tags slot ∈ reads := by
  cases accessed with
  | hit => exact .inl rfl
  | single => exact tags_brought memory state access slot
  | ahead =>
    rcases tags_prefetchLoop memory (brought memory state access) (access.address : Nat)
      access.moments prefetchDistance slot with before | read
    · rw [prefetches, before]
      refine (tags_brought memory state access slot).imp_right fun isAddress => ?_
      rw [mem_singleton.mp isAddress]
      exact mem_cons_self
    · exact .inr (mem_cons_of_mem _ read)

theorem Accessed.reads_iff (accessed : Accessed memory state access cache reads)
    (above : TagsAbove state.cache) :
    (∀ index ∈ reads, InRange index) ↔ StaysAbove memory state access := by
  have inRange := inRange_address access
  have single : ∀ index ∈ [((access.address : Nat) : Int)], InRange index := by
    rintro index (_ | ⟨_, ⟨⟩⟩)
    exact inRange
  cases accessed with
  | hit found =>
    refine iff_of_true nofun fun repeats => ?_
    rw [repeats.missed] at found
    cases found
  | single other =>
    exact iff_of_true single fun repeats => absurd repeats other
  | ahead repeats =>
    have broughtAbove := above.of_reads (tags_brought memory state access) single
    rw [forall_mem_cons, and_iff_right inRange, StaysAbove, forall_prop_of_true repeats]
    exact reads_prefetchLoop_iff broughtAbove inRange.1 (prefetchDistance - 1)

/-- Reads are in range exactly if each prefetch stays at or above 0, or ends at -1 with a slot free.
-/
theorem reads_in_range_iff (memory : Int → Int) (cache : Cache) (accesses : List Access) :
    ∃ finish outcomes, run (step memory) (start cache) accesses = some (finish, outcomes) ∧
      ((∀ outcome ∈ outcomes, ∀ index ∈ outcome.reads, InRange index) ↔
        Respects (step memory) (StaysAbove memory) (start cache) accesses) := by
  obtain ⟨finish, outcomes, runEq⟩ := exists_run (total memory) (start cache) accesses
  refine ⟨finish, outcomes, runEq, ?_⟩
  refine results_iff_respects (fun state => TagsAbove state.cache)
    (fun outcome => ∀ index ∈ outcome.reads, InRange index)
    (fun above stepEq => (accessed_of_step stepEq).reads_iff above) ?_ runEq ?_
  · intro state access next outcome above guarded stepEq
    have accessed := accessed_of_step stepEq
    exact above.of_reads accessed.tags ((accessed.reads_iff above).mpr guarded)
  · intro slot slotLt
    exact (if_pos slotLt).ge

def backwardAccesses : List Access :=
  [⟨10, fun _ => ⟨1, 0⟩⟩, ⟨5, fun _ => ⟨2, 0⟩⟩, ⟨0, fun _ => ⟨3, 0⟩⟩]

theorem backward_accesses_read_below_memory : ∃ finish outcomes,
    run (step fun _ => 0) (start ⟨fun _ => 0, fun _ => 0, fun _ => 0⟩) backwardAccesses =
        some (finish, outcomes) ∧
      outcomes.map Outcome.reads =
        [[10], [5], [0, -10, -15, -20, -25, -30, -35, -40, -45, -50, -55]] ∧ ¬ InRange (-10) := by
  refine ⟨_, _, rfl, ?_, by decide⟩
  decide +kernel

end BitsAndBytes.Prefetching
