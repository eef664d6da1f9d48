import BitsAndBytes.OperationRuns
import BitsAndBytes.PosixFile
import BitsAndBytes.SignedInt
import Mathlib.Data.List.FinRange

/-! # The buffer pool of `whyNotUseOS.c` -/

namespace BitsAndBytes.BufferPool

open OperationRuns PosixFile SignedInt Function List

def pageSize : Nat := 4096

def bufferPoolSize : Nat := 10

abbrev PageData := Fin pageSize → UInt8

abbrev FrameIndex := Fin bufferPoolSize

@[ext]
structure BufferFrame where
  pageId : Int
  data : PageData
  dirty : Bool
  pinCount : Int
  lastAccess : Int

/-- Reads of the file may be short, and its writes succeed in full. -/
@[ext]
structure Pool where
  frames : FrameIndex → BufferFrame
  file : File

def createBufferPool (malloced : FrameIndex → PageData) (file : File) : Pool where
  frames := fun i => ⟨-1, malloced i, false, 0, 0⟩
  file := file

def firstFrame : FrameIndex := ⟨0, by decide⟩

def olderFrame (pool : Pool) (lru : FrameIndex × Int) (i : FrameIndex) : FrameIndex × Int :=
  if (pool.frames i).pinCount = 0 ∧ (pool.frames i).lastAccess < lru.2 then
    (i, (pool.frames i).lastAccess)
  else
    lru

def findLruPage (pool : Pool) : FrameIndex :=
  ((finRange bufferPoolSize).tail.foldl (olderFrame pool)
    (firstFrame, (pool.frames firstFrame).lastAccess)).1

def pageOffset (pageId : Int) : Int :=
  wrapped (pageId * pageSize)

def writePage (pool : Pool) (i : FrameIndex) : Pool :=
  { pool with
    file := write (lseek pool.file (pageOffset (pool.frames i).pageId))
      (pool.frames i).data }

def loadPage (pool : Pool) (i : FrameIndex) (pageId now : Int) : Pool :=
  { pool with
    file := afterRead (lseek pool.file (pageOffset pageId)) pageSize
    frames := update pool.frames i
      { pageId := pageId
        data := readInto (lseek pool.file (pageOffset pageId)) (pool.frames i).data
        dirty := false
        pinCount := 1
        lastAccess := now } }

def findPage (pool : Pool) (pageId : Int) : Option FrameIndex :=
  (finRange bufferPoolSize).find? fun i => (pool.frames i).pageId == pageId

def pinPage (pool : Pool) (i : FrameIndex) (now : Int) : Pool :=
  { pool with
    frames := update pool.frames i
      { pool.frames i with
        pinCount := wrapped ((pool.frames i).pinCount + 1)
        lastAccess := now } }

def evictPage (pool : Pool) (i : FrameIndex) : Pool :=
  if (pool.frames i).dirty then writePage pool i else pool

def getPage (pool : Pool) (pageId now : Int) : Pool × FrameIndex :=
  match findPage pool pageId with
  | some i => (pinPage pool i now, i)
  | none =>
    let victim := findLruPage pool
    (loadPage (evictPage pool victim) victim pageId now, victim)

def releasePage (pool : Pool) (i : FrameIndex) : Pool :=
  { pool with
    frames := update pool.frames i
      { pool.frames i with
        pinCount := wrapped ((pool.frames i).pinCount - 1) } }

def markDirty (pool : Pool) (i : FrameIndex) : Pool :=
  { pool with
    frames := update pool.frames i { pool.frames i with dirty := true } }

def flushPage (pool : Pool) (i : FrameIndex) : Pool :=
  if (pool.frames i).dirty then
    { writePage pool i with
      frames := update pool.frames i
        { pool.frames i with dirty := false } }
  else
    pool

def flushDirty (pool : Pool) (i : FrameIndex) : Pool :=
  if (pool.frames i).dirty then flushPage pool i else pool

def destroyBufferPool (pool : Pool) : File :=
  ((finRange bufferPoolSize).foldl flushDirty pool).file

def modify (pool : Pool) (i : FrameIndex)
    (stored : Fin pageSize → Option UInt8) : Pool :=
  { pool with
    frames := update pool.frames i
      { pool.frames i with
        data := fun k => (stored k).getD ((pool.frames i).data k) } }

inductive Call
  | getPage (pageId now : Int)
  | releasePage (i : FrameIndex)
  | markDirty (i : FrameIndex)
  | flushPage (i : FrameIndex)
  | modify (i : FrameIndex) (stored : Fin pageSize → Option UInt8)

def step (pool : Pool) : Call → Option (Pool × Option FrameIndex)
  | .getPage pageId now =>
    some ((getPage pool pageId now).1, some (getPage pool pageId now).2)
  | .releasePage i => some (releasePage pool i, none)
  | .markDirty i => some (markDirty pool i, none)
  | .flushPage i => some (flushPage pool i, none)
  | .modify i stored => some (modify pool i stored, none)

/-- The pages whose offset is an `int`. -/
abbrev PageNumber := Fin (2 ^ 19)

variable {pool : Pool} {pageId : Int} {i : FrameIndex}

theorem pageOffset_natCast (page : PageNumber) :
    pageOffset page = ((page * pageSize : Nat) : Int) := by
  simp only [pageOffset, pageSize, wrapped, Int.bmod]
  omega

theorem step_total (pool : Pool) (call : Call) : ∃ next out, step pool call = some (next, out) := by
  cases call <;> exact ⟨_, _, rfl⟩

def Absent (pool : Pool) (pageId : Int) : Prop :=
  ∀ i, (pool.frames i).pageId ≠ pageId

theorem findPage_eq_none : findPage pool pageId = none ↔ Absent pool pageId := by
  simp [findPage, Absent]

theorem getPage_of_findPage (found : findPage pool pageId = some i) (now : Int) :
    getPage pool pageId now = (pinPage pool i now, i) := by
  rw [getPage, found]

theorem getPage_of_absent (absent : Absent pool pageId) (now : Int) : getPage pool pageId now =
      (loadPage (evictPage pool (findLruPage pool)) (findLruPage pool) pageId now,
        findLruPage pool) := by
  rw [getPage, findPage_eq_none.mpr absent]

theorem getPage_cases (pool : Pool) (pageId now : Int) :
    (∃ i, (pool.frames i).pageId = pageId ∧ getPage pool pageId now = (pinPage pool i now, i)) ∨
      (Absent pool pageId ∧ getPage pool pageId now =
          (loadPage (evictPage pool (findLruPage pool)) (findLruPage pool) pageId now,
            findLruPage pool)) := by
  cases found : findPage pool pageId with
  | some i => exact .inl ⟨i, by simpa using find?_some found, getPage_of_findPage found now⟩
  | none =>
    have absent := findPage_eq_none.mp found
    exact .inr ⟨absent, getPage_of_absent absent now⟩

theorem pageId_getPage (pool : Pool) (pageId now : Int) :
    ((getPage pool pageId now).1.frames (getPage pool pageId now).2).pageId = pageId := by
  rcases getPage_cases pool pageId now with ⟨i, holdsPage, outcome⟩ | ⟨-, outcome⟩
  · rw [outcome]
    simpa [pinPage] using holdsPage
  · rw [outcome]
    simp [loadPage]

theorem field_update {Value : Type*} (field : BufferFrame → Value)
    {frames : FrameIndex → BufferFrame} {frame : BufferFrame}
    (kept : field frame = field (frames i)) (j : FrameIndex) :
    field (update frames i frame j) = field (frames j) := by
  by_cases same : j = i
  · subst same
    rwa [update_self]
  · rw [update_of_ne same]

theorem frames_flushPage (pool : Pool) (i : FrameIndex) :
    (flushPage pool i).frames = update pool.frames i { pool.frames i with dirty := false } := by
  by_cases dirty : (pool.frames i).dirty
  · rw [flushPage, if_pos dirty]
  · have clean : { pool.frames i with dirty := false } = pool.frames i := by
      rw [← Bool.eq_false_iff.mpr dirty]
    rw [flushPage, if_neg dirty, clean, update_eq_self]

theorem pageId_flushPage (pool : Pool) (i j : FrameIndex) :
    ((flushPage pool i).frames j).pageId = (pool.frames j).pageId := by
  rw [frames_flushPage]
  exact field_update BufferFrame.pageId (by rfl) j

theorem data_flushPage (pool : Pool) (i j : FrameIndex) :
    ((flushPage pool i).frames j).data = (pool.frames j).data := by
  rw [frames_flushPage]
  exact field_update BufferFrame.data (by rfl) j

theorem dirty_flushPage (pool : Pool) (i j : FrameIndex) :
    ((flushPage pool i).frames j).dirty = ((pool.frames j).dirty && decide (j ≠ i)) := by
  rw [frames_flushPage]
  by_cases same : j = i
  · subst same
    simp
  · simp [same]

theorem file_flushPage (pool : Pool) (i : FrameIndex) :
    (flushPage pool i).file = (evictPage pool i).file := by
  unfold flushPage evictPage
  split <;> rfl

@[simp]
theorem frames_evictPage (pool : Pool) (i : FrameIndex) :
    (evictPage pool i).frames = pool.frames := by
  unfold evictPage
  split <;> rfl

end BitsAndBytes.BufferPool
