import BitsAndBytes.BufferPool

/-! # What a page reveals about other pages -/

namespace BitsAndBytes.BufferPool

open OperationRuns PosixFile Option Function

variable {i : FrameIndex} {page : PageNumber}

def firstStep (pool : Pool) (calls : Call × Call) : Option (Pool × Option FrameIndex) :=
  step pool calls.1

/-- The two calls are equal, except for the bytes stored in a frame of another page. -/
def SameFor (page : PageNumber) (pool : Pool) (calls : Call × Call) : Prop :=
  calls.1 = calls.2 ∨ ∃ i stored otherStored, calls = (.modify i stored, .modify i otherStored) ∧
      (pool.frames i).pageId ≠ page

/-- A load of the page reads all of it, or goes to a frame that is new. -/
def LoadsWhole (page : PageNumber) (pool : Pool) : Prop :=
  Absent pool page → (page + 1) * pageSize ≤ (evictPage pool (findLruPage pool)).file.length ∨
      (pool.frames (findLruPage pool)).pageId = -1

/-- Pages have an `int` offset, `page` is loaded whole, and no empty frame is changed. -/
def Careful (page : PageNumber) (pool : Pool) : Call → Prop
  | .getPage pageId _ =>
    (∃ number : PageNumber, pageId = number) ∧ (pageId = page → LoadsWhole page pool)
  | .markDirty i => (pool.frames i).pageId ≠ -1
  | .modify i _ => (pool.frames i).pageId ≠ -1
  | .releasePage _ => True
  | .flushPage _ => True

structure FramesAgree (page : PageNumber) (frame other : BufferFrame) : Prop where
  pageId_eq : frame.pageId = other.pageId
  dirty_eq : frame.dirty = other.dirty
  pinCount_eq : frame.pinCount = other.pinCount
  lastAccess_eq : frame.lastAccess = other.lastAccess
  data_eq : frame.pageId = page ∨ frame.pageId = -1 → frame.data = other.data
  numbered : frame.pageId = -1 ∨ ∃ number : PageNumber, frame.pageId = number
  dirty_numbered : frame.dirty → frame.pageId ≠ -1

/-- The pools differ at most in the bytes of other pages. -/
structure Agree (page : PageNumber) (pool other : Pool) : Prop where
  frames : ∀ i, FramesAgree page (pool.frames i) (other.frames i)
  file : AgreeOn pageSize page pool.file other.file

namespace Agree

variable {pool other : Pool}

theorem createBufferPool (page : PageNumber) (malloced : FrameIndex → PageData) (file : File) :
    Agree page (BufferPool.createBufferPool malloced file)
      (BufferPool.createBufferPool malloced file) := by
  refine ⟨fun i => ?_, rfl, fun _ _ => rfl⟩
  constructor <;> simp [BufferPool.createBufferPool]

section

variable (agree : Agree page pool other)
include agree

theorem findPage_eq (pageId : Int) : findPage pool pageId = findPage other pageId := by
  simp only [findPage, (agree.frames _).pageId_eq]

theorem findLruPage_eq : findLruPage pool = findLruPage other := by
  have sameBody : olderFrame pool = olderFrame other := by
    funext lru i
    simp only [olderFrame, (agree.frames i).pinCount_eq, (agree.frames i).lastAccess_eq]
  rw [findLruPage, findLruPage, sameBody, (agree.frames firstFrame).lastAccess_eq]

theorem update_frame (i : FrameIndex) {frame otherFrame : BufferFrame}
    (framesAgree : FramesAgree page frame otherFrame) :
    Agree page { pool with frames := update pool.frames i frame }
      { other with frames := update other.frames i otherFrame } := by
  refine ⟨fun j => ?_, agree.file⟩
  by_cases same : j = i
  · subst same
    simpa using framesAgree
  · simpa [same] using agree.frames j

theorem pinPage (i : FrameIndex) (now : Int) :
    Agree page (BufferPool.pinPage pool i now) (BufferPool.pinPage other i now) := by
  have before := agree.frames i
  apply agree.update_frame
  exact { before with
    pinCount_eq := by simp only [before.pinCount_eq]
    lastAccess_eq := rfl }

theorem releasePage (i : FrameIndex) :
    Agree page (BufferPool.releasePage pool i) (BufferPool.releasePage other i) := by
  have before := agree.frames i
  apply agree.update_frame
  exact { before with pinCount_eq := by simp only [before.pinCount_eq] }

section

variable (used : (pool.frames i).pageId ≠ -1)
include used

theorem markDirty : Agree page (BufferPool.markDirty pool i) (BufferPool.markDirty other i) := by
  have before := agree.frames i
  apply agree.update_frame
  exact { before with
    dirty_eq := rfl
    dirty_numbered := fun _ => used }

theorem modify {stored otherStored : Fin pageSize → Option UInt8}
    (same : (pool.frames i).pageId = page → stored = otherStored) :
    Agree page (BufferPool.modify pool i stored) (BufferPool.modify other i otherStored) := by
  have before := agree.frames i
  apply agree.update_frame
  refine { before with data_eq := ?_ }
  rintro (isPage | unused)
  · funext k
    simp only [same isPage, before.data_eq (.inl isPage)]
  · exact absurd unused used

theorem writePage : Agree page (BufferPool.writePage pool i) (BufferPool.writePage other i) := by
  have before := agree.frames i
  rcases before.numbered with unused | ⟨number, isNumber⟩
  · exact absurd unused used
  refine ⟨agree.frames, ?_⟩
  simp only [BufferPool.writePage, ← before.pageId_eq, isNumber, pageOffset_natCast]
  apply agree.file.write
  intro isPage
  apply before.data_eq
  left
  rw [isNumber, isPage]

end

theorem evictPage (i : FrameIndex) :
    Agree page (BufferPool.evictPage pool i) (BufferPool.evictPage other i) := by
  have before := agree.frames i
  by_cases dirty : (pool.frames i).dirty
  · rw [BufferPool.evictPage, if_pos dirty, BufferPool.evictPage, if_pos (before.dirty_eq ▸ dirty)]
    exact agree.writePage (before.dirty_numbered dirty)
  · rw [BufferPool.evictPage, if_neg dirty, BufferPool.evictPage, if_neg (before.dirty_eq ▸ dirty)]
    exact agree

theorem flushPage (i : FrameIndex) :
    Agree page (BufferPool.flushPage pool i) (BufferPool.flushPage other i) := by
  have before := agree.frames i
  by_cases dirty : (pool.frames i).dirty
  · rw [BufferPool.flushPage, if_pos dirty, BufferPool.flushPage, if_pos (before.dirty_eq ▸ dirty)]
    refine (agree.writePage (before.dirty_numbered dirty)).update_frame i ?_
    exact { before with
      dirty_eq := rfl
      dirty_numbered := fun dirty => absurd dirty Bool.false_ne_true }
  · rw [BufferPool.flushPage, if_neg dirty, BufferPool.flushPage, if_neg (before.dirty_eq ▸ dirty)]
    exact agree

theorem loadPage (i : FrameIndex) (number : PageNumber) (now : Int)
    (whole : number = page → (page + 1) * pageSize ≤ pool.file.length ∨ (pool.frames i).pageId =
      -1) :
    Agree page (BufferPool.loadPage pool i number now)
      (BufferPool.loadPage other i number now) := by
  have before := agree.frames i
  have loaded : FramesAgree page
      ((BufferPool.loadPage pool i number now).frames i)
      ((BufferPool.loadPage other i number now).frames i) := by
    simp only [BufferPool.loadPage, update_self]
    refine ⟨rfl, rfl, rfl, rfl, ?_, .inr ⟨number, rfl⟩,
      fun dirty => absurd dirty Bool.false_ne_true⟩
    rintro (isPage | unused)
    · have numberEq : number = page := Fin.ext (Int.ofNat_inj.mp isPage)
      subst numberEq
      simp only [pageOffset_natCast]
      apply agree.file.readInto_eq
      rcases whole rfl with covered | unused
      · exact .inl covered
      · exact .inr (before.data_eq (.inr unused))
    · simp only at unused
      omega
  refine ⟨fun j => ?_, agree.file.lseek_afterRead _ _⟩
  by_cases same : j = i
  · subst same
    exact loaded
  · simpa [BufferPool.loadPage, same] using agree.frames j

theorem getPage {pageId now : Int} (careful : Careful page pool (.getPage pageId now)) :
    Agree page (BufferPool.getPage pool pageId now).1
        (BufferPool.getPage other pageId now).1 ∧
      (BufferPool.getPage pool pageId now).2 = (BufferPool.getPage other pageId now).2 := by
  obtain ⟨⟨number, rfl⟩, whole⟩ := careful
  cases found : findPage pool number with
  | some i =>
    have otherFound : findPage other number = some i := by rw [← agree.findPage_eq, found]
    rw [getPage_of_findPage found, getPage_of_findPage otherFound]
    exact ⟨agree.pinPage i now, rfl⟩
  | none =>
    have absent := findPage_eq_none.mp found
    have otherAbsent : Absent other number := by rw [← findPage_eq_none, ← agree.findPage_eq, found]
    rw [getPage_of_absent absent, getPage_of_absent otherAbsent, ← agree.findLruPage_eq]
    refine ⟨?_, rfl⟩
    apply (agree.evictPage (findLruPage pool)).loadPage
    rintro rfl
    rw [frames_evictPage]
    exact whole rfl absent

end

end Agree

theorem agree_step {pool other next otherNext : Pool} {calls : Call × Call}
    {out otherOut : Option FrameIndex} (agree : Agree page pool other)
    (same : SameFor page pool calls) (careful : Careful page pool calls.1)
    (stepEq : step pool calls.1 = some (next, out))
    (otherStepEq : step other calls.2 = some (otherNext, otherOut)) :
    Agree page next otherNext := by
  rcases same with equal | ⟨i, stored, otherStored, rfl, otherPage⟩
  · rw [← equal] at otherStepEq
    cases call : calls.1 with
    | getPage pageId now =>
      rw [call] at careful stepEq otherStepEq
      cases stepEq
      cases otherStepEq
      exact (agree.getPage careful).1
    | releasePage i =>
      rw [call] at stepEq otherStepEq
      cases stepEq
      cases otherStepEq
      exact agree.releasePage i
    | markDirty i =>
      rw [call] at careful stepEq otherStepEq
      cases stepEq
      cases otherStepEq
      exact agree.markDirty careful
    | flushPage i =>
      rw [call] at stepEq otherStepEq
      cases stepEq
      cases otherStepEq
      exact agree.flushPage i
    | modify i stored =>
      rw [call] at careful stepEq otherStepEq
      cases stepEq
      cases otherStepEq
      exact agree.modify careful fun _ => rfl
  · cases stepEq
    cases otherStepEq
    exact agree.modify careful fun isPage => absurd isPage otherPage

theorem agree_of_runs {pool other finish otherFinish : Pool} {calls : List (Call × Call)}
    (agree : Agree page pool other) (same : Respects firstStep (SameFor page) pool calls)
    (careful : Respects firstStep (fun pool calls => Careful page pool calls.1) pool calls)
    (reached : Reaches step pool (calls.map Prod.fst) finish)
    (otherReached : Reaches step other (calls.map Prod.snd) otherFinish) :
    Agree page finish otherFinish := by
  induction calls generalizing pool other with
  | nil =>
    rw [reaches_nil.mp reached, reaches_nil.mp otherReached]
    exact agree
  | cons first calls ih =>
    obtain ⟨next, out, stepEq, rest⟩ := reaches_cons.mp reached
    obtain ⟨otherNext, otherOut, otherStepEq, otherRest⟩ := reaches_cons.mp otherReached
    exact ih (agree_step agree same.1 careful.1 stepEq otherStepEq)
      (same.2 next out stepEq) (careful.2 next out stepEq) rest otherRest

def pageContents (pool : Pool) (page : PageNumber) (now : Int) : PageData :=
  ((getPage pool page now).1.frames (getPage pool page now).2).data

/-- If a page is only loaded in full or into new frames, its data depends on no other page. -/
theorem page_contents_same_of_whole_loads (malloced : FrameIndex → PageData)
    (file : File) (page : PageNumber) (now : Int) (calls : List (Call × Call))
    (finish otherFinish : Pool) (same : Respects firstStep (SameFor page)
      (createBufferPool malloced file) calls)
    (careful : Respects firstStep (fun pool calls => Careful page pool calls.1)
      (createBufferPool malloced file) calls)
    (reached : Reaches step (createBufferPool malloced file) (calls.map Prod.fst) finish)
    (otherReached : Reaches step (createBufferPool malloced file) (calls.map Prod.snd) otherFinish)
    (whole : LoadsWhole page finish) :
    pageContents finish page now = pageContents otherFinish page now := by
  have agree := agree_of_runs (Agree.createBufferPool page malloced file) same
    careful reached otherReached
  have careful : Careful page finish (.getPage page now) := ⟨⟨page, rfl⟩, fun _ => whole⟩
  obtain ⟨after, sameFrame⟩ := agree.getPage careful
  have framesAgree := after.frames (getPage finish page now).2
  rw [pageContents, pageContents, ← sameFrame]
  exact framesAgree.data_eq (.inl (pageId_getPage finish page now))

theorem page_contents_same_of_fresh_frame : pageContents
        (modify (getPage (createBufferPool (fun _ _ => 0) ⟨fun _ => 0, 0, 0⟩)
          1 1).1 firstFrame fun _ => some 7) ⟨2, by decide⟩ 1 =
      pageContents
        (modify (getPage (createBufferPool (fun _ _ => 0) ⟨fun _ => 0, 0, 0⟩)
          1 1).1 firstFrame fun _ => some 8) ⟨2, by decide⟩ 1 := by
  apply page_contents_same_of_whole_loads (fun _ _ => 0) ⟨fun _ => 0, 0, 0⟩
    ⟨2, by decide⟩ 1 [(.getPage 1 1, .getPage 1 1),
      (.modify firstFrame fun _ => some 7, .modify firstFrame fun _ => some 8)]
  · refine ⟨.inl rfl, fun next out stepEq => ⟨.inr ⟨_, _, _, rfl, ?_⟩, fun _ _ _ => trivial⟩⟩
    cases stepEq
    decide
  · refine ⟨⟨⟨⟨1, by decide⟩, rfl⟩, fun same => absurd same (by decide)⟩,
      fun next out stepEq => ⟨?_, fun _ _ _ => trivial⟩⟩
    cases stepEq
    simp only [Careful]
    decide
  · exact ⟨_, rfl⟩
  · exact ⟨_, rfl⟩
  · intro _
    right
    decide

def fillFrames : List Call :=
  .markDirty firstFrame :: .releasePage firstFrame ::
    (List.finRange bufferPoolSize).tail.flatMap fun i =>
      [.getPage i.val 1, .releasePage i]

def leakingCalls : List (Call × Call) :=
  (.getPage 0 1, .getPage 0 1) ::
    (.modify firstFrame fun _ => some 7, .modify firstFrame fun _ => some 8) ::
      fillFrames.map fun call => (call, call)

theorem respects_sameFor_of_eq (pool : Pool) (calls : List Call) :
    Respects firstStep (SameFor page) pool (calls.map fun call => (call, call)) := by
  induction calls generalizing pool with
  | nil => trivial
  | cons call calls ih => exact ⟨.inl rfl, fun next _ _ => ih next⟩

theorem stale_bytes_of_another_page_are_returned :
    ¬ ∀ (page : PageNumber) (now : Int) (calls : List (Call × Call))
        (finish otherFinish : Pool),
      Respects firstStep (SameFor page)
          (createBufferPool (fun _ _ => 0) ⟨fun _ => 0, 0, 0⟩) calls →
        Reaches step (createBufferPool (fun _ _ => 0) ⟨fun _ => 0, 0, 0⟩)
            (calls.map Prod.fst) finish →
          Reaches step (createBufferPool (fun _ _ => 0) ⟨fun _ => 0, 0, 0⟩)
              (calls.map Prod.snd) otherFinish →
            pageContents finish page now = pageContents otherFinish page now := by
  intro noLeak
  obtain ⟨finish, outs, runEq⟩ := exists_run step_total
    (createBufferPool (fun _ _ => 0) ⟨fun _ => 0, 0, 0⟩) (leakingCalls.map Prod.fst)
  obtain ⟨otherFinish, otherOuts, otherRunEq⟩ := exists_run step_total
    (createBufferPool (fun _ _ => 0) ⟨fun _ => 0, 0, 0⟩) (leakingCalls.map Prod.snd)
  have same : Respects firstStep (SameFor ⟨10, by decide⟩)
      (createBufferPool (fun _ _ => 0) ⟨fun _ => 0, 0, 0⟩) leakingCalls := by
    refine ⟨.inl rfl, fun next out stepEq => ⟨.inr ⟨_, _, _, rfl, ?_⟩,
      fun last _ _ => respects_sameFor_of_eq last fillFrames⟩⟩
    cases stepEq
    decide
  have equal := noLeak ⟨10, by decide⟩ 1 leakingCalls finish otherFinish same
    ⟨outs, runEq⟩ ⟨otherOuts, otherRunEq⟩
  have first : (run step (createBufferPool (fun _ _ => 0) ⟨fun _ => 0, 0, 0⟩)
      (leakingCalls.map Prod.fst)).map (fun last =>
        pageContents last.1 ⟨10, by decide⟩ 1 ⟨0, by decide⟩) = some 7 := by
    decide
  have second : (run step (createBufferPool (fun _ _ => 0) ⟨fun _ => 0, 0, 0⟩)
      (leakingCalls.map Prod.snd)).map (fun last =>
        pageContents last.1 ⟨10, by decide⟩ 1 ⟨0, by decide⟩) = some 8 := by
    decide
  rw [runEq, map_some, some.injEq] at first
  rw [otherRunEq, map_some, some.injEq] at second
  rw [equal, second] at first
  exact absurd first (by decide)

end BitsAndBytes.BufferPool
