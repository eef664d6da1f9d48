import BitsAndBytes.AllocatorMergeable

/-! # The sweep of the tagged heap -/

namespace BitsAndBytes.Allocator

open BoundaryTags BlockTiling RunMerging WhileLoop Option

variable {epilogue prev : UInt32} {cursor : Cursor} {memory : Nat → UInt8} {runStart : Nat}
  {final : Heap} {newTags : List UInt32}

/-- The new blocks are the old ones with their runs of garbage merged. -/
structure Swept (memory : Nat → UInt8) (start : Nat) (tags newTags : List UInt32) : Prop where
  tagged : Tagged tagSize sizeTSize (get memory) start newTags
  merged : Merged tagSize Garbage IsFree unmark start tags newTags

section

variable {start : Nat} {tag : UInt32} {tags : List UInt32}

theorem swept_nil : Swept memory start [] [] := ⟨tagged_nil, merged_nil⟩

theorem Swept.cons_keep (swept : Swept memory (start + tagSize tag) tags newTags)
    (kept : ¬ Garbage tag) (holds : Holds memory start (unmark tag)) :
    Swept memory start (tag :: tags) (unmark tag :: newTags) :=
  ⟨tagged_cons.mpr ⟨holds, by rw [tagSize_unmark]; exact swept.tagged⟩,
    swept.merged.cons_keep tagSize_unmark not_isFree_unmark kept⟩

theorem Swept.cons_free (swept : Swept memory (start + tagSize tag) tags newTags)
    (isFree : IsFree tag) (holds : Holds memory start tag)
    (behind : ∀ next ∈ newTags.head?, ¬ IsFree next) :
    Swept memory start (tag :: tags) (tag :: newTags) :=
  ⟨tagged_cons.mpr ⟨holds, swept.tagged⟩, swept.merged.cons_free (.inl isFree) isFree rfl behind⟩

variable (swept : Swept memory start (tag :: tags) newTags)
include swept

theorem Swept.positive : ∀ newTag ∈ newTags, 0 < tagSize newTag := by
  intro newTag member
  have roomy := swept.tagged.roomy newTag member
  simp only [sizeTSize] at roomy
  omega

theorem Swept.exists_keep (kept : ¬ Garbage tag) :
    ∃ laterTags, Swept memory (start + tagSize tag) tags laterTags := by
  obtain ⟨laterTags, rfl, later⟩ := swept.merged.exists_keep swept.positive tagSize_unmark kept
  have tagged := (tagged_cons.mp swept.tagged).2
  rw [tagSize_unmark] at tagged
  exact ⟨laterTags, tagged, later⟩

theorem Swept.exists_run (garbage : Garbage tag) (roomy : 2 * sizeTSize ≤ tagSize tag) :
    ∃ run laterTags, newTags = run :: laterTags ∧ Holds memory start run ∧
      tagSize run = tagSize tag + runLength tagSize Garbage tags := by
  simp only [sizeTSize] at roomy
  obtain ⟨run, laterTags, rfl, -, bytes⟩ :=
    swept.merged.exists_run swept.positive garbage (by omega)
  exact ⟨run, laterTags, rfl, (tagged_cons.mp swept.tagged).1, bytes⟩

theorem Swept.exists_single (garbage : Garbage tag) (roomy : 2 * sizeTSize ≤ tagSize tag)
    (ends : runLength tagSize Garbage tags = 0) :
    ∃ laterTags, Swept memory (start + tagSize tag) tags laterTags := by
  obtain ⟨run, laterTags, rfl, -, bytes⟩ := swept.exists_run garbage roomy
  rw [ends, Nat.add_zero] at bytes
  simp only [sizeTSize] at roomy
  have tagged := (tagged_cons.mp swept.tagged).2
  rw [bytes] at tagged
  exact ⟨laterTags, tagged, swept.merged.tail bytes (by omega)⟩

end

def Cursor.SweptBehind (cursor : Cursor) (memory : Nat → UInt8) (newTags : List UInt32) : Prop :=
  Swept memory cursor.base cursor.pending newTags

section

variable {start : Nat} {tag : UInt32} {rest : List UInt32}

theorem sweptBehind_iff_of_isFree (isFree : IsFree prev) :
    Cursor.SweptBehind ⟨start, prev, rest⟩ memory newTags ↔
      Swept memory start (prev :: rest) newTags := by
  rw [Cursor.SweptBehind, base_of_isFree isFree, pending_of_isFree isFree]

theorem sweptBehind_iff_of_used (used : ¬ IsFree prev) :
    Cursor.SweptBehind ⟨start, prev, rest⟩ memory newTags ↔
      Swept memory (start + tagSize prev) rest newTags := by
  rw [Cursor.SweptBehind, base_of_used used, pending_of_used used]

theorem sweptBehind_iff_of_kept (kept : ¬ Garbage tag) :
    Cursor.SweptBehind ⟨start, unmark tag, rest⟩ memory newTags ↔
      Swept memory (start + tagSize tag) rest newTags := by
  rw [sweptBehind_iff_of_used (not_isFree_unmark tag kept), tagSize_unmark]

theorem Absorbs.sweptBehind_iff {next : Cursor} (absorbs : Absorbs epilogue cursor next) :
    cursor.SweptBehind memory newTags ↔ next.SweptBehind memory newTags := by
  rw [Cursor.SweptBehind, Cursor.SweptBehind, absorbs.base_eq]
  constructor
  · intro swept
    exact ⟨swept.tagged, absorbs.merged_iff.mp swept.merged⟩
  · intro swept
    exact ⟨swept.tagged, absorbs.merged_iff.mpr swept.merged⟩

theorem exists_swept_end (front : Holds memory start prev) :
    ∃ newTags, Cursor.SweptBehind ⟨start, prev, []⟩ memory newTags := by
  by_cases prevFree : IsFree prev
  · refine ⟨[prev], (sweptBehind_iff_of_isFree prevFree).mpr ?_⟩
    exact swept_nil.cons_free prevFree front (by simp)
  · exact ⟨[], (sweptBehind_iff_of_used prevFree).mpr swept_nil⟩

theorem exists_swept_keep (kept : ¬ Garbage tag) (prevHolds : Holds memory start prev)
    (keptHolds : Holds memory (start + tagSize prev) (unmark tag))
    (swept : Cursor.SweptBehind ⟨start + tagSize prev, unmark tag, rest⟩ memory newTags) :
    ∃ allTags, Cursor.SweptBehind ⟨start, prev, tag :: rest⟩ memory allTags := by
  have keptSwept := ((sweptBehind_iff_of_kept kept).mp swept).cons_keep kept keptHolds
  by_cases prevFree : IsFree prev
  · refine ⟨prev :: unmark tag :: newTags, (sweptBehind_iff_of_isFree prevFree).mpr ?_⟩
    apply keptSwept.cons_free prevFree prevHolds
    rintro next ⟨⟩
    exact not_isFree_unmark tag kept
  · exact ⟨unmark tag :: newTags, (sweptBehind_iff_of_used prevFree).mpr keptSwept⟩

theorem exists_swept_of_keep (kept : ¬ Garbage tag) (prevRoomy : 2 * sizeTSize ≤ tagSize prev)
    (swept : Cursor.SweptBehind ⟨start, prev, tag :: rest⟩ memory newTags) :
    ∃ laterTags, Cursor.SweptBehind ⟨start + tagSize prev, unmark tag, rest⟩ memory
      laterTags := by
  simp only [sweptBehind_iff_of_kept kept]
  by_cases prevFree : IsFree prev
  · rw [sweptBehind_iff_of_isFree prevFree] at swept
    obtain ⟨behindTags, behind⟩ :=
      swept.exists_single (.inl prevFree) prevRoomy (by rw [runLength, if_neg kept])
    exact behind.exists_keep kept
  · rw [sweptBehind_iff_of_used prevFree] at swept
    exact swept.exists_keep kept

end

variable {tag run : UInt32} {start : Nat} {rest : List UInt32}

section

variable {heap : Heap}

theorem base_of_kept (start : Nat) (rest : List UInt32) (kept : ¬ Garbage tag) :
    Cursor.base ⟨start, unmark tag, rest⟩ = start + tagSize tag := by
  rw [base_of_used (not_isFree_unmark tag kept), tagSize_unmark]

theorem exists_swept_of_mergeable (visiting : Visiting heap.memory epilogue cursor)
    (fits : cursor.FitsBehind) (mergeable : cursor.MergeableBehind epilogue) :
    ∃ memory newTags, SweepsFrom heap (cursor.address + 8) { heap with memory := memory } ∧
      (∀ address, address + 8 ≤ cursor.base → get memory address = get heap.memory address) ∧
      get memory (cursor.address + extent tagSize cursor.rest) = epilogue ∧
      cursor.SweptBehind memory newTags := by
  induction size : cursor.rest.length using Nat.strong_induction_on generalizing heap cursor with
  | _ size ih =>
    obtain ⟨start, prev, rest⟩ := cursor
    cases rest with
    | nil =>
      have stops := (sweepsFrom_iff_of_end visiting).mpr rfl
      obtain ⟨newTags, swept⟩ := exists_swept_end visiting.front
      exact ⟨heap.memory, newTags, stops, fun _ _ => rfl, visiting.ended, swept⟩
    | cons tag rest =>
      have apart : rest = [] → Garbage tag → IsFree prev → ¬ IsFree epilogue := by
        rintro rfl garbage prevFree
        exact mergeable garbage (decide_eq_true prevFree)
      obtain ⟨memory, lowest, next, visits, moves⟩ := exists_visits visiting fits apart
      obtain ⟨final, newTags, sweeps, below, ended, swept⟩ :=
        ih _ (size ▸ visits.length_lt) moves.visiting (visits.fits fits)
          (visits.mergeable mergeable) rfl
      have sweepsBefore := (moves.sweepsFrom_iff visiting.headed).mpr sweeps
      have unchanged : ∀ address, address + 8 ≤ Cursor.base ⟨start, prev, tag :: rest⟩ →
          get final address = get heap.memory address := by
        intro address lower
        have upper := visits.base_le
        have lowestLe := visits.base_le_lowest
        rw [below address (by omega)]
        exact moves.below address (by omega)
      rw [visits.finish_eq] at ended
      cases visits with
      | keep kept =>
        rw [base_of_kept (start + tagSize prev) rest kept] at below
        have sizes := tagSize_unmark tag
        have keptHolds : Holds final (start + tagSize prev) (unmark tag) :=
          Holds.congr moves.visiting.front fun address lower => below address (by omega)
        have prevHolds : Holds final start prev := by
          refine Holds.congr visiting.front fun address lower => ?_
          rw [below address (by omega)]
          exact moves.below address lower
        obtain ⟨allTags, allSwept⟩ := exists_swept_keep kept prevHolds keptHolds swept
        exact ⟨final, allTags, sweepsBefore, unchanged, ended, allSwept⟩
      | absorb absorbs =>
        exact ⟨final, newTags, sweepsBefore, unchanged, ended, absorbs.sweptBehind_iff.mpr swept⟩
      | tear garbage prevFree nextFree _ _ =>
        simp [Cursor.MergeableBehind, Mergeable, garbage, prevFree, nextFree] at mergeable

theorem not_holds_of_footer (inside : runStart < start)
    (ends : runStart + tagSize run = start + tagSize prev)
    (footer : get memory (start + tagSize prev - 8) = prev) : ¬ Holds memory runStart run := by
  intro holds
  have read := holds.footer
  simp only [sizeTSize] at read
  rw [ends, footer] at read
  subst read
  omega

section

variable (epilogueUsed : ¬ IsFree epilogue)
include epilogueUsed

variable (visiting : Visiting heap.memory epilogue cursor)
include visiting

theorem below_unchanged (fits : cursor.FitsBehind)
    (sweeps : SweepsFrom heap (cursor.address + 8) final) {address : Nat}
    (lower : address + 8 ≤ cursor.base) : get final.memory address = get heap.memory address := by
  induction size : cursor.rest.length using Nat.strong_induction_on generalizing heap cursor with
  | _ size ih =>
    obtain ⟨start, prev, rest⟩ := cursor
    cases rest with
    | nil => rw [(sweepsFrom_iff_of_end visiting).mp sweeps]
    | cons tag rest =>
      obtain ⟨memory, lowest, next, visits, moves⟩ :=
        exists_visits visiting fits fun _ _ _ => epilogueUsed
      have upper := visits.base_le
      have lowestLe := visits.base_le_lowest
      rw [ih _ (size ▸ visits.length_lt) moves.visiting (visits.fits fits)
        ((moves.sweepsFrom_iff visiting.headed).mp sweeps) (by omega) rfl]
      exact moves.below address (by omega)

theorem not_holds_run (fits : cursor.FitsBehind)
    (sweeps : SweepsFrom heap (cursor.address + 8) final) (prevFree : IsFree cursor.prev)
    (inside : runStart < cursor.start)
    (ends : runStart + tagSize run = cursor.address + runLength tagSize Garbage cursor.rest) :
    ¬ Holds final.memory runStart run := by
  intro holds
  induction size : cursor.rest.length using Nat.strong_induction_on generalizing heap cursor with
  | _ size ih =>
    obtain ⟨start, prev, rest⟩ := cursor
    have footer := visiting.front.footer
    cases rest with
    | nil =>
      rw [(sweepsFrom_iff_of_end visiting).mp sweeps] at holds
      exact not_holds_of_footer inside ends footer holds
    | cons tag rest =>
      obtain ⟨memory, lowest, next, visits, moves⟩ :=
        exists_visits visiting fits fun _ _ _ => epilogueUsed
      have nextFits := visits.fits fits
      have length := visits.length_lt
      have sweepsNext := (moves.sweepsFrom_iff visiting.headed).mp sweeps
      cases visits with
      | keep kept =>
        rw [runLength, if_neg kept, Nat.add_zero] at ends
        have base := base_of_kept (start + tagSize prev) rest kept
        have prevRoomy := visiting.front.roomy
        simp only [sizeTSize] at prevRoomy
        have stays : get final.memory (start + tagSize prev - 8) = prev := by
          rw [below_unchanged epilogueUsed moves.visiting nextFits sweepsNext
            (by rw [base]; omega), moves.below _ (by omega)]
          exact footer
        exact not_holds_of_footer inside ends stays holds
      | absorb absorbs =>
        cases absorbs with
        | free _ prevUsed | next _ prevUsed => exact absurd prevFree prevUsed
        | prev garbage _ _ isFree bytes =>
          rw [runLength, if_pos garbage] at ends
          refine ih _ (size ▸ length) moves.visiting nextFits sweepsNext isFree inside ?_ rfl
          rw [ends, Cursor.address, Cursor.address, bytes]
          dsimp only
          omega
      | tear garbage _ _ isFree bytes =>
        rw [runLength, if_pos garbage] at ends
        refine ih _ (size ▸ length) moves.visiting nextFits sweepsNext isFree
          (Nat.lt_of_lt_of_le inside (Nat.le_add_right _ _)) ?_ rfl
        rw [ends, Cursor.address, Cursor.address, bytes]
        dsimp only
        omega

theorem mergeable_of_swept (fits : cursor.FitsBehind)
    (sweeps : SweepsFrom heap (cursor.address + 8) final)
    (swept : cursor.SweptBehind final.memory newTags) : cursor.MergeableBehind epilogue := by
  induction size : cursor.rest.length using Nat.strong_induction_on
    generalizing heap cursor newTags with
  | _ size ih =>
    obtain ⟨start, prev, rest⟩ := cursor
    cases rest with
    | nil => trivial
    | cons tag rest =>
      obtain ⟨memory, lowest, next, visits, moves⟩ :=
        exists_visits visiting fits fun _ _ _ => epilogueUsed
      have nextFits := visits.fits fits
      have length := visits.length_lt
      have sweepsNext := (moves.sweepsFrom_iff visiting.headed).mp sweeps
      cases visits with
      | keep kept =>
        obtain ⟨laterTags, laterSwept⟩ := exists_swept_of_keep kept visiting.front.roomy swept
        have later := ih _ (size ▸ length) moves.visiting nextFits sweepsNext laterSwept rfl
        rw [Cursor.MergeableBehind, decide_eq_false (not_isFree_unmark _ kept)] at later
        rw [Cursor.MergeableBehind, mergeable_cons_of_kept kept]
        exact later
      | absorb absorbs =>
        exact absorbs.mergeable_iff.mpr (ih _ (size ▸ length) moves.visiting nextFits
          sweepsNext (absorbs.sweptBehind_iff.mp swept) rfl)
      | @tear _ _ _ next freed rest garbage prevFree nextFree isFree bytes =>
        have prevRoomy := visiting.front.roomy
        rw [sweptBehind_iff_of_isFree prevFree] at swept
        obtain ⟨run, runTags, -, runHolds, runBytes⟩ := swept.exists_run (.inl prevFree) prevRoomy
        simp only [sizeTSize] at prevRoomy
        refine absurd runHolds (not_holds_run epilogueUsed moves.visiting nextFits sweepsNext
          isFree (Nat.lt_add_of_pos_right (by omega)) ?_)
        rw [runBytes, runLength, if_pos garbage, Cursor.address, bytes]
        dsimp only
        omega

end

end

theorem exists_isFree {bytes : Nat} (aligned : bytes % 8 = 0) (small : bytes < 2 ^ 32) :
    ∃ tag, IsFree tag ∧ tagSize tag = bytes := by
  have size : (UInt64.ofNat bytes).toNat = bytes := by exact Nat.mod_eq_of_lt (by omega)
  exact ⟨_, joined_spec size aligned small⟩

theorem freeBytes_lt (tag : UInt32) : freeBytes tag < 2 ^ 32 := by
  have bound := tagSize_lt tag
  rw [freeBytes]
  split <;> omega

theorem exists_swept_of_garbage (garbage : Garbage tag) (prevRoomy : 2 * sizeTSize ≤ tagSize prev)
    (swept : Cursor.SweptBehind ⟨start, prev, tag :: rest⟩ memory newTags) :
    ∃ address block, IsFree block ∧ tagSize block = freeBytes prev + tagSize tag ∧
      Cursor.SweptBehind ⟨address, block, rest⟩ memory newTags := by
  by_cases prevFree : IsFree prev
  · rw [sweptBehind_iff_of_isFree prevFree] at swept
    obtain ⟨run, -, -, -, runBytes⟩ := swept.exists_run (.inl prevFree) prevRoomy
    rw [runLength, if_pos garbage] at runBytes
    have runLt := tagSize_lt run
    have aligned := tagSize_mod_eight tag
    have prevAligned := tagSize_mod_eight prev
    obtain ⟨joined, isFree, bytes⟩ :
        ∃ joined, IsFree joined ∧ tagSize joined = tagSize prev + tagSize tag :=
      exists_isFree (by omega) (by omega)
    refine ⟨start, joined, isFree, by rw [bytes, freeBytes_of_isFree prevFree], ?_⟩
    rw [sweptBehind_iff_of_isFree isFree]
    exact ⟨swept.tagged, (merged_join (.inl prevFree) garbage (.inl isFree) bytes).mp swept.merged⟩
  · rw [sweptBehind_iff_of_used prevFree] at swept
    obtain ⟨freed, isFree, bytes⟩ := exists_isFree (tagSize_mod_eight tag) (tagSize_lt tag)
    refine ⟨start + tagSize prev, freed, isFree,
      by rw [bytes, freeBytes_of_used prevFree, Nat.zero_add], ?_⟩
    rw [sweptBehind_iff_of_isFree isFree]
    exact ⟨swept.tagged, (merged_replace garbage (.inl isFree) bytes.symm).mp swept.merged⟩

theorem fits_of_swept (prevRoomy : 2 * sizeTSize ≤ tagSize prev)
    (roomy : ∀ tag ∈ rest, 2 * sizeTSize ≤ tagSize tag)
    (swept : Cursor.SweptBehind ⟨start, prev, rest⟩ memory newTags) :
    Cursor.FitsBehind ⟨start, prev, rest⟩ := by
  induction rest generalizing start prev newTags with
  | nil => exact freeBytes_lt prev
  | cons tag rest ih =>
    rw [List.forall_mem_cons] at roomy
    by_cases garbage : Garbage tag
    · obtain ⟨address, block, isFree, bytes, blockSwept⟩ :=
        exists_swept_of_garbage garbage prevRoomy swept
      have later := ih (bytes ▸ Nat.le_add_left_of_le roomy.1) roomy.2 blockSwept
      rw [Cursor.FitsBehind, freeBytes_of_isFree isFree, bytes] at later
      rw [Cursor.FitsBehind, fits_cons_of_garbage garbage]
      exact later
    · obtain ⟨laterTags, laterSwept⟩ := exists_swept_of_keep garbage prevRoomy swept
      have later := ih (by rw [tagSize_unmark]; exact roomy.1) roomy.2 laterSwept
      rw [Cursor.FitsBehind, freeBytes_of_used (not_isFree_unmark _ garbage)] at later
      rw [Cursor.FitsBehind, fits_cons_of_kept garbage]
      exact ⟨freeBytes_lt prev, later⟩

def sweptPrologue (heap : Heap) (start : Nat) (first : UInt32) : UInt32 :=
  if heap.heapStart = start + 8 then unmark first else first

/-- `sweep` ends with one free block for each run of garbage. -/
def Collects (heap : Heap) (start : Nat) (first : UInt32) (tags : List UInt32) : Prop :=
  ∃ final newTags, Sweeps heap final ∧
    WellTagged final start (sweptPrologue heap start first) newTags ∧
    Merged tagSize Garbage IsFree unmark (start + tagSize first) tags newTags

section

variable {start : Nat} {prologue : UInt32} {tags : List UInt32} (used : ¬ IsFree prologue)
include used

theorem fitsBehind_iff_of_used : Cursor.FitsBehind ⟨start, prologue, tags⟩ ↔ Fits 0 tags := by
  rw [Cursor.FitsBehind, freeBytes_of_used used]

theorem mergeableBehind_iff_of_used :
    Cursor.MergeableBehind ⟨start, prologue, tags⟩ epilogue ↔ Mergeable epilogue false tags := by
  rw [Cursor.MergeableBehind, decide_eq_false used]

end

theorem tagSize_sweptPrologue (heap : Heap) (start : Nat) (first : UInt32) :
    tagSize (sweptPrologue heap start first) = tagSize first := by
  rw [sweptPrologue]
  split
  · exact tagSize_unmark first
  · rfl

section

variable {heap : Heap} {start : Nat} {first : UInt32} {tags : List UInt32}
  (wellTagged : WellTagged heap start first tags)
include wellTagged

theorem WellTagged.sweptPrologue_used : ¬ IsFree (sweptPrologue heap start first) := by
  rw [sweptPrologue]
  split
  · rw [isFree_unmark_iff]
    exact wellTagged.prologue
  · exact wellTagged.prologue

theorem WellTagged.of_merged {prologue : UInt32} (sizes : tagSize prologue = tagSize first)
    (used : ¬ IsFree prologue) (prologueHolds : Holds memory start prologue)
    (tagged : Tagged tagSize sizeTSize (get memory) (start + tagSize first) newTags)
    (covers : extent tagSize newTags = extent tagSize tags)
    (ended : get memory (start + extent tagSize (first :: tags)) =
      get heap.memory (start + extent tagSize (first :: tags))) :
    WellTagged { heap with memory := memory } start prologue newTags := by
  have total : start + extent tagSize (prologue :: newTags) =
      start + extent tagSize (first :: tags) := by
    rw [extent_cons, extent_cons, sizes, covers]
  refine ⟨tagged_cons.mpr ⟨prologueHolds, sizes ▸ tagged⟩, used, ?_, ?_, ?_⟩
  · rw [total]
    rw [ended]
    exact wellTagged.epilogue
  · rw [sizes]
    exact wellTagged.begins
  · rw [total]
    exact wellTagged.ends

variable (marked : heap.heapStart = start + 8 → ¬ Garbage first)
include marked

theorem WellTagged.exists_visiting :
    ∃ memory, Visiting ({ heap with memory := memory } : Heap).memory
        (get heap.memory (start + extent tagSize (first :: tags)))
        ⟨start, sweptPrologue heap start first, tags⟩ ∧
      ∀ final, Sweeps heap final ↔ SweepsFrom { heap with memory := memory }
        (start + tagSize (sweptPrologue heap start first) + 8) final := by
  obtain ⟨prologueHolds, tagged⟩ := tagged_cons.mp wellTagged.tagged
  have ended : get heap.memory (start + tagSize first + extent tagSize tags) =
      get heap.memory (start + extent tagSize (first :: tags)) := by
    rw [extent_cons, Nat.add_assoc]
  rcases wellTagged.begins with atPrologue | behind
  · obtain ⟨memory, swept, retagged⟩ :=
      sweepBlock_of_kept (Holds.headed prologueHolds) (marked atPrologue)
    have sizes := tagSize_unmark first
    rw [sweptPrologue, if_pos atPrologue]
    refine ⟨memory, ?_, fun final => ?_⟩
    · refine visiting_of_front retagged.carries (by rw [sizes]) tagged ended
        wellTagged.epilogue fun address above => ?_
      exact retagged.elsewhere address (.inr (by omega))
    · have begun : Sweeps heap final ↔ SweepsFrom heap (start + 8) final := by
        rw [Sweeps, atPrologue]
      rw [begun, sweepsFrom_iff_of_block (Holds.headed prologueHolds) swept
        (nextBlkp_of_header retagged.carries.header)]
  · have roomy := prologueHolds.roomy
    simp only [sizeTSize] at roomy
    rw [sweptPrologue, if_neg (by omega)]
    refine ⟨heap.memory, ?_, fun final => ?_⟩
    · exact visiting_of_front prologueHolds rfl tagged ended wellTagged.epilogue fun _ _ => rfl
    · have begun : Sweeps heap final ↔ SweepsFrom heap (start + tagSize first + 8) final := by
        rw [Sweeps, behind]
      exact begun

theorem WellTagged.collects_of_mergeable (fits : Fits 0 tags)
    (mergeable : Mergeable (get heap.memory (start + extent tagSize (first :: tags))) false
      tags) : Collects heap start first tags := by
  obtain ⟨memory, visiting, sweeps_iff⟩ := wellTagged.exists_visiting marked
  have used := wellTagged.sweptPrologue_used
  have sizes := tagSize_sweptPrologue heap start first
  obtain ⟨final, newTags, sweeps, below, ended, swept⟩ :=
    exists_swept_of_mergeable visiting ((fitsBehind_iff_of_used used).mpr fits)
      ((mergeableBehind_iff_of_used used).mpr mergeable)
  rw [base_of_used used] at below
  rw [sweptBehind_iff_of_used used, sizes] at swept
  have prologueHolds := Holds.congr visiting.front below
  rw [Cursor.address, Nat.add_assoc, sizes] at ended
  refine ⟨_, newTags, (sweeps_iff _).mpr sweeps, ?_, swept.merged⟩
  exact wellTagged.of_merged sizes used prologueHolds swept.tagged swept.merged.covers
    (by rw [extent_cons]; exact ended)

theorem WellTagged.mergeable_of_collects
    (epilogueUsed : ¬ IsFree (get heap.memory (start + extent tagSize (first :: tags))))
    (collects : Collects heap start first tags) :
    Fits 0 tags ∧
      Mergeable (get heap.memory (start + extent tagSize (first :: tags))) false tags := by
  obtain ⟨final, newTags, sweeps, finalTagged, merged⟩ := collects
  obtain ⟨memory, visiting, sweeps_iff⟩ := wellTagged.exists_visiting marked
  have used := wellTagged.sweptPrologue_used
  have roomy := (tagged_cons.mp wellTagged.tagged).2.roomy
  have tagged := (tagged_cons.mp finalTagged.tagged).2
  have swept : Cursor.SweptBehind ⟨start, sweptPrologue heap start first, tags⟩ final.memory
      newTags := by
    rw [sweptBehind_iff_of_used used]
    refine ⟨tagged, ?_⟩
    rw [tagSize_sweptPrologue]
    exact merged
  have fits := fits_of_swept visiting.front.roomy roomy swept
  have mergeable :=
    mergeable_of_swept epilogueUsed visiting fits ((sweeps_iff final).mp sweeps) swept
  exact ⟨(fitsBehind_iff_of_used used).mp fits, (mergeableBehind_iff_of_used used).mp mergeable⟩

/-- The condition on the tags is sufficient, and necessary if the epilogue is allocated. -/
theorem sweep_collects_iff_mergeable :
    (Fits 0 tags ∧ Mergeable (get heap.memory (start + extent tagSize (first :: tags))) false
        tags → Collects heap start first tags) ∧
      (¬ IsFree (get heap.memory (start + extent tagSize (first :: tags))) →
        Collects heap start first tags →
          Fits 0 tags ∧ Mergeable (get heap.memory (start + extent tagSize (first :: tags)))
            false tags) :=
  ⟨fun ⟨fits, mergeable⟩ => wellTagged.collects_of_mergeable marked fits mergeable,
    wellTagged.mergeable_of_collects marked⟩

end

def writeTags (epilogue : UInt32) : Nat → List UInt32 → Nat → UInt8
  | start, [] => put (fun _ => 0) start epilogue.toUInt64
  | start, tag :: tags =>
    putTags (writeTags epilogue (start + tagSize tag) tags) (start + 8) tag.toUInt64

theorem tagged_writeTags {tags : List UInt32} (roomy : ∀ tag ∈ tags, 16 ≤ tagSize tag) :
    Tagged tagSize sizeTSize (get (writeTags epilogue start tags)) start tags ∧
      get (writeTags epilogue start tags) (start + extent tagSize tags) = epilogue := by
  induction tags generalizing start with
  | nil =>
    refine ⟨tagged_nil, ?_⟩
    rw [writeTags, extent_nil, Nat.add_zero, get_put_self, UInt32.toUInt32_toUInt64]
  | cons tag tags ih =>
    rw [List.forall_mem_cons] at roomy
    obtain ⟨tagged, ended⟩ :
        Tagged tagSize sizeTSize (get (writeTags epilogue (start + tagSize tag) tags))
            (start + tagSize tag) tags ∧
          get (writeTags epilogue (start + tagSize tag) tags)
            (start + tagSize tag + extent tagSize tags) = epilogue := ih roomy.2
    have word : tag.toUInt64.toUInt32 = tag := UInt32.toUInt32_toUInt64 tag
    have retagged : Retagged (writeTags epilogue (start + tagSize tag) tags)
        (writeTags epilogue start (tag :: tags)) start tag.toUInt64.toUInt32 :=
      retagged_putTags (by rw [word]; exact roomy.1)
    rw [word] at retagged
    rw [tagged_cons, extent_cons, ← Nat.add_assoc]
    refine ⟨⟨retagged.carries, tagged.congr fun address lower _ =>
      retagged.elsewhere address (.inr lower)⟩, ?_⟩
    rw [retagged.elsewhere _ (.inr (Nat.le_add_right _ _)), ended]

def threeBlockHeap (first second third : UInt32) : Heap where
  memory := writeTags 1 8 [17, first, second, third]
  heapStart := 32
  heapEnd := 80
  currentBreak := 80
  representable := by decide

theorem wellTagged_threeBlockHeap {first second third : UInt32} (firstSize : tagSize first = 16)
    (secondSize : tagSize second = 16) (thirdSize : tagSize third = 16) :
    WellTagged (threeBlockHeap first second third) 8 17 [first, second, third] := by
  have prologueSize : tagSize 17 = 16 := by decide
  have total : extent tagSize [17, first, second, third] = 64 := by
    simp only [extent_cons, extent_nil, prologueSize, firstSize, secondSize, thirdSize]
  have roomy : ∀ tag ∈ [17, first, second, third], 16 ≤ tagSize tag := by
    simp [prologueSize, firstSize, secondSize, thirdSize]
  obtain ⟨tagged, ended⟩ : Tagged tagSize sizeTSize
        (get (threeBlockHeap first second third).memory) 8 [17, first, second, third] ∧
      get (threeBlockHeap first second third).memory
        (8 + extent tagSize [17, first, second, third]) = 1 := tagged_writeTags roomy
  refine ⟨tagged, by decide, ?_, .inr rfl, ?_⟩
  · rw [ended]
    decide
  · rw [total]
    exact Nat.le_refl 80

theorem sweep_collects_three_blocks : WellTagged (threeBlockHeap 17 19 16) 8 17 [17, 19, 16] ∧
      Collects (threeBlockHeap 17 19 16) 8 17 [17, 19, 16] := by
  have wellTagged : WellTagged (threeBlockHeap 17 19 16) 8 17 [17, 19, 16] :=
    wellTagged_threeBlockHeap (by decide) (by decide) (by decide)
  exact ⟨wellTagged, (sweep_collects_iff_mergeable wellTagged (by decide)).1
    ⟨by decide, by decide +kernel⟩⟩

theorem sweep_leaves_unequal_tags : WellTagged (threeBlockHeap 17 17 16) 8 17 [17, 17, 16] ∧
      ∃ final, Sweeps (threeBlockHeap 17 17 16) final ∧
        ∀ newTags, ¬ WellTagged final 8 17 newTags := by
  have returns : (OperationRuns.run (iteration sweepTest sweepBody)
      (threeBlockHeap 17 17 16, 32) [(), (), ()]).isSome := by
    decide +kernel
  obtain ⟨⟨⟨final, bp⟩, outs⟩, runEq⟩ := isSome_iff_exists.mp returns
  have evaluated : (OperationRuns.run (iteration sweepTest sweepBody)
      (threeBlockHeap 17 17 16, 32) [(), (), ()]).map (fun result =>
        (result.2, sweepTest result.1, get result.1.1.memory 24, get result.1.1.memory 64)) =
      some ([(), (), ()], false, 48, 32) := by
    decide +kernel
  rw [runEq, map_some, some.injEq] at evaluated
  simp only [Prod.mk.injEq] at evaluated
  obtain ⟨rfl, stopped, header, footer⟩ := evaluated
  refine ⟨wellTagged_threeBlockHeap (by decide) (by decide) (by decide), final,
    ⟨bp, [(), (), ()], runEq, stopped⟩, fun newTags finalTagged => ?_⟩
  cases newTags with
  | nil =>
    have epilogue := finalTagged.epilogue
    rw [show 8 + extent tagSize [17] = 24 from by decide, header] at epilogue
    exact absurd epilogue (by decide)
  | cons tag newTags =>
    have holds := (tagged_cons.mp (tagged_cons.mp finalTagged.tagged).2).1
    rw [show 8 + tagSize 17 = 24 from by decide] at holds
    obtain rfl : 48 = tag := header.symm.trans holds.header
    have read := holds.footer
    rw [show 24 + tagSize 48 - sizeTSize = 64 from by decide, footer] at read
    exact absurd read (by decide)

end BitsAndBytes.Allocator
