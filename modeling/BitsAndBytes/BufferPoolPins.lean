import BitsAndBytes.BufferPool

/-! # Pinned frames of the buffer pool -/

namespace BitsAndBytes.BufferPool

open OperationRuns List Option

def OlderThan (pool : Pool) (time : Int) (i : FrameIndex) : Prop :=
  (pool.frames i).pinCount = 0 ∧ (pool.frames i).lastAccess < time

variable (pool : Pool)

theorem foldl_olderFrame (indices : List FrameIndex) (start : FrameIndex × Int) :
    (indices.foldl (olderFrame pool) start = start ∧ ∀ i ∈ indices, ¬ OlderThan pool start.2 i) ∨
      OlderThan pool start.2 (indices.foldl (olderFrame pool) start).1 := by
  induction indices generalizing start with
  | nil => exact .inl ⟨rfl, by simp⟩
  | cons first indices ih =>
    rw [foldl_cons]
    by_cases older : OlderThan pool start.2 first
    · right
      have next : olderFrame pool start first =
          (first, (pool.frames first).lastAccess) := if_pos older
      rw [next]
      rcases ih (first, (pool.frames first).lastAccess) with ⟨same, -⟩ | found
      · rw [same]
        exact older
      · exact ⟨found.1, found.2.trans older.2⟩
    · have next : olderFrame pool start first = start := if_neg older
      rw [next]
      rcases ih start with ⟨same, none⟩ | found
      · left
        refine ⟨same, ?_⟩
        intro i member
        rcases mem_cons.mp member with rfl | later
        · exact older
        · exact none i later
      · exact .inr found

theorem findLruPage_cases : OlderThan pool (pool.frames firstFrame).lastAccess (findLruPage pool) ∨
      (findLruPage pool = firstFrame ∧
        ∀ i, ¬ OlderThan pool (pool.frames firstFrame).lastAccess i) := by
  rcases foldl_olderFrame pool (finRange bufferPoolSize).tail
      (firstFrame, (pool.frames firstFrame).lastAccess) with ⟨same, none⟩ | found
  · right
    refine ⟨congrArg Prod.fst same, ?_⟩
    intro i older
    by_cases first : i = firstFrame
    · subst first
      exact lt_irrefl _ older.2
    · refine none i ?_ older
      have member := mem_finRange i
      rcases mem_cons.mp member with same | later
      · exact absurd same first
      · exact later
  · exact .inl found

/-- If a frame is unpinned, the call evicts no pinned one. -/
def KeepsPinned (pool : Pool) (call : Call) : Prop :=
  ∀ pageId now, call = .getPage pageId now → (∃ i, (pool.frames i).pinCount = 0) →
      ∀ i, 0 < (pool.frames i).pinCount →
        ((getPage pool pageId now).1.frames i).pageId = (pool.frames i).pageId

/-- If frame 0 is pinned and another one is not, some unpinned frame is older than it. -/
def VictimUnpinned (pool : Pool) (call : Call) : Prop :=
  ∀ pageId now, call = .getPage pageId now → Absent pool pageId →
    (∃ i, (pool.frames i).pinCount = 0) → 0 < (pool.frames firstFrame).pinCount →
        ∃ i, OlderThan pool (pool.frames firstFrame).lastAccess i

theorem keepsPinned_iff_victimUnpinned (call : Call) :
    KeepsPinned pool call ↔ VictimUnpinned pool call := by
  constructor
  · intro keeps pageId now called absent someUnpinned pinned
    by_contra noneOlder
    rcases findLruPage_cases pool with older | ⟨victim, -⟩
    · exact noneOlder ⟨_, older⟩
    · have kept := keeps pageId now called someUnpinned firstFrame pinned
      rw [getPage_of_absent absent, victim] at kept
      exact absent firstFrame kept.symm
  · intro unpinned pageId now called someUnpinned i pinned
    rcases getPage_cases pool pageId now with ⟨j, -, outcome⟩ | ⟨absent, outcome⟩
    · rw [outcome]
      exact field_update BufferFrame.pageId (by rfl) i
    · have different : i ≠ findLruPage pool := by
        rintro same
        rcases findLruPage_cases pool with older | ⟨victim, noneOlder⟩
        · rw [same, older.1] at pinned
          exact lt_irrefl _ pinned
        · rw [same, victim] at pinned
          obtain ⟨j, older⟩ := unpinned pageId now called absent someUnpinned pinned
          exact noneOlder j older
      rw [outcome]
      simp [loadPage, different]

/-- No pinned frame is taken if and only if a pinned frame 0 is never the oldest. -/
theorem pinned_frames_kept_iff_victims_unpinned (malloced : FrameIndex → PageData)
    (file : PosixFile.File) (calls : List Call) :
    Respects step KeepsPinned (createBufferPool malloced file) calls ↔
      Respects step VictimUnpinned (createBufferPool malloced file) calls :=
  respects_congr keepsPinned_iff_victimUnpinned _ calls

def holdFirstPage : List Call :=
  .getPage 1 1 :: (finRange bufferPoolSize).tail.flatMap fun i =>
    [.getPage (i.val + 1) 2, .releasePage i]

theorem held_page_loses_its_frame : ¬ Respects step KeepsPinned
        (createBufferPool (fun _ _ => 0) ⟨fun _ => 0, 0, 0⟩)
        (holdFirstPage ++ [.getPage 11 3]) := by
  intro respected
  obtain ⟨reached, outs, runEq⟩ := exists_run step_total
    (createBufferPool (fun _ _ => 0) ⟨fun _ => 0, 0, 0⟩) holdFirstPage
  have kept := (respected.of_append ⟨outs, runEq⟩).1 11 3 rfl
  have counts : (run step (createBufferPool (fun _ _ => 0) ⟨fun _ => 0, 0, 0⟩)
      holdFirstPage).map (fun last => ((last.1.frames ⟨1, by decide⟩).pinCount,
        (last.1.frames firstFrame).pinCount, (last.1.frames firstFrame).pageId,
          ((getPage last.1 11 3).1.frames firstFrame).pageId)) =
      some (0, 1, 1, 11) := by
    decide
  rw [runEq, map_some, some.injEq, Prod.mk.injEq, Prod.mk.injEq, Prod.mk.injEq] at counts
  obtain ⟨unpinned, pinned, before, after⟩ := counts
  have same := kept ⟨_, unpinned⟩ firstFrame (by rw [pinned]; decide)
  rw [before, after] at same
  exact absurd same (by decide)

end BitsAndBytes.BufferPool
