import BitsAndBytes.BufferPool
import BitsAndBytes.FlatMemory

/-! # The buffer pool against the pages written -/

namespace BitsAndBytes.BufferPool

open OperationRuns PosixFile FlatMemory Function

variable {page : PageNumber} {pool : Pool} {latest : PageNumber → Option PageData}

inductive Access
  | write (page : PageNumber) (contents : PageData) (now : Int)
  | read (page : PageNumber) (now : Int)
  | flush (i : FrameIndex)

def writePageContents (pool : Pool) (page : PageNumber) (contents : PageData)
    (now : Int) : Pool :=
  let got := getPage pool page now
  releasePage (markDirty (modify got.1 got.2 fun k => some (contents k)) got.2) got.2

def readPageContents (pool : Pool) (page : PageNumber) (now : Int) : Pool × PageData :=
  let got := getPage pool page now
  (releasePage got.1 got.2, (got.1.frames got.2).data)

def access (pool : Pool) : Access → Option (Pool × Option PageData)
  | .write page contents now =>
    some (writePageContents pool page contents now, none)
  | .read page now =>
    some ((readPageContents pool page now).1, some (readPageContents pool page now).2)
  | .flush i => some (flushPage pool i, none)

def written : Access → Option (PageNumber × PageData)
  | .write page contents _ => some (page, contents)
  | .read _ _ => none
  | .flush _ => none

/-- What was last written to a page is in its frame or, unless that is dirty, in the file. -/
structure Current (pool : Pool) (latest : PageNumber → Option PageData) :
    Prop where
  unique : ∀ {i j}, 0 ≤ (pool.frames i).pageId →
    (pool.frames i).pageId = (pool.frames j).pageId → i = j
  dirty_page : ∀ {i}, (pool.frames i).dirty → ∃ page : PageNumber, (pool.frames i).pageId = page
  resident : ∀ {i} {page : PageNumber} {contents},
    (pool.frames i).pageId = page → latest page = some contents → (pool.frames i).data = contents
  stored : ∀ {page : PageNumber} {contents}, latest page = some contents →
    (∀ i, (pool.frames i).pageId = page → (pool.frames i).dirty = false) →
      Holds pool.file page contents

namespace Current

theorem createBufferPool (malloced : FrameIndex → PageData) (file : File) :
    Current (BufferPool.createBufferPool malloced file) fun _ => none := by
  constructor <;> simp [BufferPool.createBufferPool]

section

variable (current : Current pool latest)
include current

theorem congr {other : Pool} (file_eq : other.file = pool.file)
    (pageId_eq : ∀ i, (other.frames i).pageId = (pool.frames i).pageId)
    (data_eq : ∀ i, (other.frames i).data = (pool.frames i).data)
    (dirty_eq : ∀ i, (other.frames i).dirty = (pool.frames i).dirty) : Current other latest := by
  constructor
  · intro i j
    rw [pageId_eq, pageId_eq]
    exact current.unique
  · intro i
    rw [pageId_eq, dirty_eq]
    exact current.dirty_page
  · intro i page contents
    rw [pageId_eq, data_eq]
    exact current.resident
  · intro page contents isLatest clean
    rw [file_eq]
    refine current.stored isLatest fun i holdsPage => ?_
    rw [← dirty_eq]
    exact clean i ((pageId_eq i).trans holdsPage)

variable (i : FrameIndex)

theorem releasePage : Current (BufferPool.releasePage pool i) latest :=
  current.congr rfl (field_update BufferFrame.pageId (by rfl))
    (field_update BufferFrame.data (by rfl)) (field_update BufferFrame.dirty (by rfl))

theorem pinPage (now : Int) : Current (BufferPool.pinPage pool i now) latest :=
  current.congr rfl (field_update BufferFrame.pageId (by rfl))
    (field_update BufferFrame.data (by rfl)) (field_update BufferFrame.dirty (by rfl))

theorem holds_evictPage {contents : PageData} (isLatest : latest page = some contents)
    (clean : ∀ j, j ≠ i → (pool.frames j).pageId = page → (pool.frames j).dirty = false) :
    Holds (evictPage pool i).file page contents := by
  by_cases dirty : (pool.frames i).dirty
  · obtain ⟨victim, victimEq⟩ := current.dirty_page dirty
    rw [evictPage, if_pos dirty]
    show Holds (write (lseek pool.file (pageOffset (pool.frames i).pageId))
      (pool.frames i).data) page contents
    rw [victimEq, pageOffset_natCast]
    by_cases same : page = victim
    · subst same
      rw [current.resident victimEq isLatest]
      exact holds_write pool.file page contents
    · have different : (page : Nat) ≠ victim := fun equal => same (Fin.ext equal)
      refine Holds.write_of_ne ?_ different _
      refine current.stored isLatest fun j holdsPage => clean j ?_ holdsPage
      rintro rfl
      rw [victimEq] at holdsPage
      exact different (by exact_mod_cast holdsPage.symm)
  · rw [evictPage, if_neg dirty]
    refine current.stored isLatest fun j holdsPage => ?_
    by_cases same : j = i
    · subst same
      exact Bool.eq_false_iff.mpr dirty
    · exact clean j same holdsPage

theorem loadPage (absent : Absent pool page) (i : FrameIndex) (now : Int) :
    Current (BufferPool.loadPage (evictPage pool i) i page now) latest := by
  have frame_of_ne : ∀ j, j ≠ i →
      (BufferPool.loadPage (evictPage pool i) i page now).frames j = pool.frames j := by
    intro j different
    simp [BufferPool.loadPage, different]
  have frame_pageId :
      ((BufferPool.loadPage (evictPage pool i) i page now).frames i).pageId = page := by
    simp [BufferPool.loadPage]
  constructor
  · intro j k nonneg same
    by_cases first : j = i
    · by_cases second : k = i
      · rw [first, second]
      · rw [first, frame_pageId, frame_of_ne k second] at same
        exact absurd same.symm (absent k)
    · by_cases second : k = i
      · rw [second, frame_pageId, frame_of_ne j first] at same
        exact absurd same (absent j)
      · rw [frame_of_ne j first] at nonneg
        rw [frame_of_ne j first, frame_of_ne k second] at same
        exact current.unique nonneg same
  · intro j dirty
    by_cases loaded : j = i
    · subst loaded
      simp [BufferPool.loadPage] at dirty
    · rw [frame_of_ne j loaded] at dirty ⊢
      exact current.dirty_page dirty
  · intro j other contents holdsPage isLatest
    by_cases loaded : j = i
    · subst loaded
      rw [frame_pageId] at holdsPage
      have same : page = other := Fin.ext (by exact_mod_cast holdsPage)
      subst same
      have held := current.holds_evictPage j isLatest
        fun k _ holdsPage => absurd holdsPage (absent k)
      simp only [BufferPool.loadPage, update_self, pageOffset_natCast]
      exact held.readInto_lseek _
    · rw [frame_of_ne j loaded] at holdsPage ⊢
      exact current.resident holdsPage isLatest
  · intro other contents isLatest clean
    simp only [BufferPool.loadPage, holds_afterRead, holds_lseek]
    refine current.holds_evictPage i isLatest fun j different holdsPage => ?_
    have unchanged := frame_of_ne j different
    rw [← unchanged] at holdsPage ⊢
    exact clean j holdsPage

theorem getPage (page : PageNumber) (now : Int) :
    Current (BufferPool.getPage pool page now).1 latest := by
  rcases getPage_cases pool page now with ⟨i, -, outcome⟩ | ⟨absent, outcome⟩
  · rw [outcome]
    exact current.pinPage i now
  · rw [outcome]
    exact current.loadPage absent _ now

theorem flushPage : Current (BufferPool.flushPage pool i) latest := by
  constructor
  · intro j k
    rw [pageId_flushPage, pageId_flushPage]
    exact current.unique
  · intro j dirty
    rw [dirty_flushPage, Bool.and_eq_true] at dirty
    rw [pageId_flushPage]
    exact current.dirty_page dirty.1
  · intro j page contents
    rw [pageId_flushPage, data_flushPage]
    exact current.resident
  · intro page contents isLatest clean
    rw [file_flushPage]
    refine current.holds_evictPage i isLatest fun j different holdsPage => ?_
    have flushed := clean j ((pageId_flushPage pool i j).trans holdsPage)
    rw [dirty_flushPage] at flushed
    simpa [different] using flushed

theorem overwrite {i : FrameIndex} (holdsPage : (pool.frames i).pageId = page)
    (contents : PageData) :
    Current (markDirty (modify pool i fun k => some (contents k)) i)
      (update latest page (some contents)) := by
  have frame_of_ne : ∀ j, j ≠ i →
      (markDirty (modify pool i fun k => some (contents k)) i).frames j = pool.frames j := by
    intro j different
    simp [markDirty, modify, different]
  have frame_written : (markDirty (modify pool i fun k => some (contents k)) i).frames i =
        { pool.frames i with data := contents, dirty := true } := by
    simp [markDirty, modify]
  have pageId_eq : ∀ j, ((markDirty (modify pool i fun k => some (contents k)) i).frames j).pageId =
        (pool.frames j).pageId := by
    intro j
    calc
      _ = ((modify pool i fun k => some (contents k)).frames j).pageId :=
        field_update BufferFrame.pageId (by rfl) j
      _ = (pool.frames j).pageId := field_update BufferFrame.pageId (by rfl) j
  constructor
  · intro j k
    rw [pageId_eq, pageId_eq]
    exact current.unique
  · intro j dirty
    rw [pageId_eq]
    by_cases same : j = i
    · subst same
      exact ⟨page, holdsPage⟩
    · rw [frame_of_ne j same] at dirty
      exact current.dirty_page dirty
  · intro j other newContents holdsOther isLatest
    rw [pageId_eq] at holdsOther
    by_cases same : j = i
    · subst same
      rw [holdsPage] at holdsOther
      have pageEq : page = other := Fin.ext (by exact_mod_cast holdsOther)
      subst pageEq
      rw [update_self, Option.some.injEq] at isLatest
      rw [frame_written]
      exact isLatest
    · have different : other ≠ page := by
        rintro rfl
        exact same (current.unique (by omega) (holdsOther.trans holdsPage.symm))
      rw [update_of_ne different] at isLatest
      rw [frame_of_ne j same]
      exact current.resident holdsOther isLatest
  · intro other newContents isLatest clean
    by_cases same : other = page
    · subst same
      have dirty := clean i ((pageId_eq i).trans holdsPage)
      rw [frame_written] at dirty
      cases dirty
    · rw [update_of_ne same] at isLatest
      refine current.stored isLatest fun j holdsOther => ?_
      have different : j ≠ i := by
        rintro rfl
        rw [holdsPage] at holdsOther
        exact same (Fin.ext (by exact_mod_cast holdsOther.symm))
      have unchanged := frame_of_ne j different
      rw [← unchanged] at holdsOther ⊢
      exact clean j holdsOther

end

end Current

theorem current_access {next : Pool} {past : List Access} {accessed : Access}
    {out : Option PageData} (current : Current pool (latestWrite written past))
    (stepEq : access pool accessed = some (next, out)) :
    Current next (latestWrite written (past ++ [accessed])) := by
  cases accessed with
  | write page contents now =>
    cases stepEq
    rw [latestWrite_concat_of_some (by rfl)]
    exact ((current.getPage page now).overwrite
      (pageId_getPage pool page now) contents).releasePage _
  | read page now =>
    cases stepEq
    rw [latestWrite_concat_of_none (by rfl)]
    exact (current.getPage page now).releasePage _
  | flush i =>
    cases stepEq
    rw [latestWrite_concat_of_none (by rfl)]
    exact current.flushPage i

theorem current_flushDirty (indices : List FrameIndex) (current : Current pool latest) :
    Current (indices.foldl flushDirty pool) latest ∧
      ∀ i, ((indices.foldl flushDirty pool).frames i).dirty =
        ((pool.frames i).dirty && decide (i ∉ indices)) := by
  induction indices generalizing pool with
  | nil => simpa using current
  | cons first indices ih =>
    have flushed : flushDirty pool first = flushPage pool first := by
      unfold flushDirty flushPage
      split <;> rfl
    rw [List.foldl_cons, flushed]
    obtain ⟨kept, clean⟩ := ih (current.flushPage first)
    refine ⟨kept, fun i => ?_⟩
    rw [clean, dirty_flushPage]
    by_cases same : i = first <;> simp [same]

theorem Current.holds_destroyBufferPool (current : Current pool latest) {contents : PageData}
    (isLatest : latest page = some contents) : Holds (destroyBufferPool pool) page contents := by
  obtain ⟨kept, clean⟩ := current_flushDirty (List.finRange bufferPoolSize) current
  refine kept.stored isLatest fun i _ => ?_
  rw [clean]
  simp

theorem access_total (pool : Pool) (accessed : Access) :
    ∃ next out, access pool accessed = some (next, out) := by
  cases accessed <;> exact ⟨_, _, rfl⟩

/-- A read returns the data last written, and `destroy_buffer_pool` leaves it in the file. -/
theorem no_write_is_lost (malloced : FrameIndex → PageData) (file : File) (accesses : List Access) :
    ∃ finish, Reaches access (createBufferPool malloced file) accesses finish ∧
      (∀ i j, 0 ≤ (finish.frames i).pageId →
        (finish.frames i).pageId = (finish.frames j).pageId → i = j) ∧
      (∀ page contents, latestWrite written accesses page = some contents →
        (∀ now, ∃ next, access finish (.read page now) = some (next, some contents)) ∧
        Holds (destroyBufferPool finish) page contents) := by
  obtain ⟨finish, outs, runEq⟩ := exists_run access_total (createBufferPool malloced file) accesses
  have reached : Reaches access (createBufferPool malloced file) accesses finish := ⟨outs, runEq⟩
  have initially : Current (createBufferPool malloced file)
      (latestWrite written []) := Current.createBufferPool malloced file
  have current := reached.history (fun past pool => Current pool (latestWrite written past))
      (fun current stepEq => current_access current stepEq) initially
  refine ⟨finish, reached, fun i j => current.unique, ?_⟩
  intro page contents isLatest
  refine ⟨fun now => ⟨(readPageContents finish page now).1, ?_⟩,
    current.holds_destroyBufferPool isLatest⟩
  rw [← (current.getPage page now).resident (pageId_getPage finish page now) isLatest]
  rfl

end BitsAndBytes.BufferPool
