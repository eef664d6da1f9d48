import BitsAndBytes.OperationRuns
import BitsAndBytes.SelectionSort
import Mathlib.Algebra.Ring.Nat

/-! # The prefetching cache of `prefetching.c` -/

namespace BitsAndBytes.Prefetching

open OperationRuns SelectionSort Function List

def arraySize : Nat := 10000

instance : NeZero arraySize := ⟨by decide⟩

def cacheSize : Nat := 100

def prefetchDistance : Nat := 10

structure Cache where
  data : Nat → Int
  tags : Nat → Int
  lru : Nat → Int

structure State where
  cache : Cache
  prefetchStride : Int
  lastAddress : Int

structure Moment where
  time : Int
  outside : Int

def initCache (cache : Cache) : Cache :=
  { cache with
    tags := fun i => if i < cacheSize then -1 else cache.tags i
    lru := fun i => if i < cacheSize then 0 else cache.lru i }

def findInCache (cache : Cache) (address : Int) : Option Nat :=
  (range cacheSize).find? fun i => cache.tags i = address

def findLru (cache : Cache) : Nat :=
  (range' 1 (cacheSize - 1)).foldl (fun lruIndex i =>
    if cache.lru i < cache.lru lruIndex then i else lruIndex) 0

def updateLru (cache : Cache) (index : Nat) (time : Int) : Cache :=
  { cache with lru := update cache.lru index time }

def InRange (address : Int) : Prop :=
  0 ≤ address ∧ address < arraySize

instance (address : Int) : Decidable (InRange address) :=
  inferInstanceAs (Decidable (_ ∧ _))

def readMemory (memory : Int → Int) (address : Int) (moment : Moment) : Int :=
  if InRange address then memory address else moment.outside

def bringToCache (memory : Int → Int) (cache : Cache) (address : Int) (moment : Moment) :
    Cache :=
  let index := findLru cache
  updateLru
    { cache with
      data := update cache.data index (readMemory memory address moment)
      tags := update cache.tags index address }
    index moment.time

def prefetch (memory : Int → Int) (state : State) (address : Int) (moment : Moment) :
    State × Option Int :=
  let prefetchAddress := address + state.prefetchStride
  if prefetchAddress < arraySize ∧ findInCache state.cache prefetchAddress = none then
    ({ state with cache := bringToCache memory state.cache prefetchAddress moment },
      some prefetchAddress)
  else
    (state, none)

def prefetchLoop (memory : Int → Int) (state : State) (address : Int)
    (moments : Nat → Moment) : Nat → State × List Int
  | 0 => (state, [])
  | i + 1 =>
    let done := prefetchLoop memory state address moments i
    let prefetched := prefetch memory done.1
      (address + (i + 1 : Nat) * done.1.prefetchStride) (moments (i + 1))
    (prefetched.1, done.2 ++ prefetched.2.toList)

structure Outcome where
  value : Int
  reads : List Int

def followStride (memory : Int → Int) (state : State) (address : Int)
    (moments : Nat → Moment) : State × List Int :=
  if state.lastAddress ≠ -1 then
    let newStride := address - state.lastAddress
    if newStride = state.prefetchStride then
      prefetchLoop memory state address moments prefetchDistance
    else
      ({ state with prefetchStride := newStride }, [])
  else
    (state, [])

def accessMemory (memory : Int → Int) (state : State) (address : Int)
    (moments : Nat → Moment) : State × Outcome :=
  match findInCache state.cache address with
  | some cacheIndex =>
    ({ state with cache := updateLru state.cache cacheIndex (moments 0).time },
      ⟨state.cache.data cacheIndex, []⟩)
  | none =>
    let brought := { state with cache := bringToCache memory state.cache address (moments 0) }
    let followed := followStride memory brought address moments
    ({ followed.1 with lastAddress := address },
      ⟨readMemory memory address (moments 0), address :: followed.2⟩)

structure Access where
  address : Fin arraySize
  moments : Nat → Moment

def step (memory : Int → Int) (state : State) (access : Access) : Option (State × Outcome) :=
  some (accessMemory memory state (access.address : Nat) access.moments)

def start (cache : Cache) : State :=
  ⟨initCache cache, 0, -1⟩

theorem inRange_address (access : Access) : InRange (access.address : Nat) :=
  ⟨Int.natCast_nonneg _, Int.ofNat_lt.mpr access.address.isLt⟩

variable {cache : Cache} {address : Int} {state : State}

theorem findInCache_eq_some {slot : Nat} (found : findInCache cache address = some slot) :
    slot < cacheSize ∧ cache.tags slot = address :=
  ⟨mem_range.mp (mem_of_find?_eq_some found), by simpa using find?_some found⟩

theorem findInCache_eq_none :
    findInCache cache address = none ↔ ∀ slot < cacheSize, cache.tags slot ≠ address := by
  simp [findInCache, find?_eq_none]

theorem bringToCache_cases (memory : Int → Int) (cache : Cache) (address : Int)
    (moment : Moment) (slot : Nat) :
    slot = findLru cache ∧ (bringToCache memory cache address moment).tags slot = address ∧
        (bringToCache memory cache address moment).data slot = readMemory memory address moment ∨
      slot ≠ findLru cache ∧
        (bringToCache memory cache address moment).tags slot = cache.tags slot ∧
          (bringToCache memory cache address moment).data slot = cache.data slot := by
  by_cases same : slot = findLru cache
  · subst same
    exact .inl ⟨rfl, update_self .., update_self ..⟩
  · exact .inr ⟨same, update_of_ne same .., update_of_ne same ..⟩

/-- No address is cached twice, and cached data is that of the memory. -/
structure Coherent (memory : Int → Int) (cache : Cache) : Prop where
  distinct : ∀ {first second}, first < cacheSize → second < cacheSize →
    cache.tags first ≠ -1 → cache.tags first = cache.tags second → first = second
  holds : ∀ {slot}, slot < cacheSize → InRange (cache.tags slot) →
    cache.data slot = memory (cache.tags slot)

namespace Coherent

variable {memory : Int → Int} {cache : Cache} {address : Int} {moments : Nat → Moment}

theorem initCache (memory : Int → Int) (cache : Cache) : Coherent memory (initCache cache) := by
  have empty : ∀ {slot}, slot < cacheSize → (Prefetching.initCache cache).tags slot = -1 :=
    fun slotLt => if_pos slotLt
  constructor
  · intro first second firstLt _ occupied _
    exact absurd (empty firstLt) occupied
  · intro slot slotLt inRange
    rw [empty slotLt] at inRange
    exact absurd inRange (by decide)

theorem bringToCache (coherent : Coherent memory cache)
    (missed : findInCache cache address = none) (moment : Moment) :
    Coherent memory (bringToCache memory cache address moment) := by
  have absent := findInCache_eq_none.mp missed
  constructor
  · intro first second firstLt secondLt occupied same
    rcases bringToCache_cases memory cache address moment first with
      ⟨rfl, firstTag, -⟩ | ⟨-, firstTag, -⟩ <;>
    rcases bringToCache_cases memory cache address moment second with
      ⟨rfl, secondTag, -⟩ | ⟨-, secondTag, -⟩
    · rfl
    · rw [firstTag, secondTag] at same
      exact absurd same.symm (absent second secondLt)
    · rw [firstTag, secondTag] at same
      exact absurd same (absent first firstLt)
    · rw [firstTag] at occupied same
      rw [secondTag] at same
      exact coherent.distinct firstLt secondLt occupied same
  · intro slot slotLt inRange
    rcases bringToCache_cases memory cache address moment slot with
      ⟨-, tag, data⟩ | ⟨-, tag, data⟩
    · rw [tag] at inRange ⊢
      rw [data, readMemory, if_pos inRange]
    · rw [tag] at inRange ⊢
      rw [data]
      exact coherent.holds slotLt inRange

theorem prefetchLoop (coherent : Coherent memory state.cache) (count : Nat) :
    Coherent memory (prefetchLoop memory state address moments count).1.cache := by
  induction count with
  | zero => exact coherent
  | succ count ih =>
    rw [Prefetching.prefetchLoop, prefetch]
    split
    · rename_i absent
      exact ih.bringToCache absent.2 _
    · exact ih

theorem followStride (state : State) (coherent : Coherent memory state.cache) :
    Coherent memory (followStride memory state address moments).1.cache := by
  rw [Prefetching.followStride]
  dsimp only
  split
  · split
    · exact coherent.prefetchLoop prefetchDistance
    · exact coherent
  · exact coherent

theorem accessMemory (coherent : Coherent memory state.cache) (inRange : InRange address)
    (moments : Nat → Moment) :
    Coherent memory (accessMemory memory state address moments).1.cache ∧
      (accessMemory memory state address moments).2.value = memory address := by
  rw [Prefetching.accessMemory]
  split
  · rename_i slot found
    obtain ⟨slotLt, tag⟩ := findInCache_eq_some found
    refine ⟨⟨coherent.distinct, coherent.holds⟩, ?_⟩
    rw [← tag] at inRange
    have held := coherent.holds slotLt inRange
    rwa [tag] at held
  · rename_i missed
    have brought := coherent.bringToCache missed (moments 0)
    exact ⟨followStride ⟨_, state.prefetchStride, state.lastAddress⟩ brought, if_pos inRange⟩

theorem step {next : State} {access : Access} {outcome : Outcome}
    (coherent : Coherent memory state.cache)
    (stepEq : step memory state access = some (next, outcome)) :
    Coherent memory next.cache ∧ outcome.value = memory (access.address : Nat) := by
  rw [Prefetching.step, Option.some.injEq] at stepEq
  have accessed := coherent.accessMemory (inRange_address access) access.moments
  rwa [stepEq] at accessed

end Coherent

theorem total (memory : Int → Int) (state : State) (access : Access) :
    ∃ next outcome, step memory state access = some (next, outcome) := ⟨_, _, rfl⟩

theorem coherent_of_run {memory : Int → Int} {finish : State} {accesses : List Access}
    {outcomes : List Outcome} (coherent : Coherent memory state.cache)
    (runEq : run (step memory) state accesses = some (finish, outcomes)) :
    Coherent memory finish.cache ∧ outcomes.map Outcome.value =
      accesses.map fun access => memory (access.address : Nat) := by
  induction accesses generalizing state outcomes with
  | nil =>
    obtain ⟨rfl, rfl⟩ := runEq
    exact ⟨coherent, rfl⟩
  | cons access accesses ih =>
    obtain ⟨next, outcome, rest, stepEq, restEq, rfl⟩ := run_cons_eq_some.mp runEq
    obtain ⟨kept, value⟩ := coherent.step stepEq
    obtain ⟨last, values⟩ := ih kept restEq
    exact ⟨last, by rw [map_cons, map_cons, value, values]⟩

/-- Each access returns the word of its address, and no address is in two slots. -/
theorem accesses_return_main_memory (memory : Int → Int) (cache : Cache)
    (accesses : List Access) :
    ∃ finish outcomes, run (step memory) (start cache) accesses = some (finish, outcomes) ∧
      outcomes.map Outcome.value = accesses.map (fun access => memory (access.address : Nat)) ∧
      (∀ first < cacheSize, ∀ second < cacheSize, 0 ≤ finish.cache.tags first →
        finish.cache.tags first = finish.cache.tags second → first = second) ∧
      ∀ slot < cacheSize, InRange (finish.cache.tags slot) →
        finish.cache.data slot = memory (finish.cache.tags slot) := by
  obtain ⟨finish, outcomes, runEq⟩ := exists_run (total memory) (start cache) accesses
  obtain ⟨coherent, returned⟩ := coherent_of_run (Coherent.initCache memory cache) runEq
  refine ⟨finish, outcomes, runEq, returned, ?_, ?_⟩
  · intro first firstLt second secondLt nonneg
    exact coherent.distinct firstLt secondLt (by omega)
  · intro slot slotLt
    exact coherent.holds slotLt

end BitsAndBytes.Prefetching
