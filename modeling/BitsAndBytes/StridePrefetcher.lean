import BitsAndBytes.OperationRuns
import BitsAndBytes.SignedInt
import BitsAndBytes.TrailingRuns

/-! # The stride prefetcher of `stridePrefetcher.c` -/

namespace BitsAndBytes.StridePrefetcher

open OperationRuns TrailingRuns List Function

def tableSize : UInt64 := 16

def confidenceThreshold : Int := 3

def maxPrefetchDistance : Nat := 4

inductive EntryState
  | initial
  | steady
  | noPrediction
deriving DecidableEq, Repr

structure PrefetchEntry where
  baseAddress : UInt64
  stride : Int64
  lastAddress : UInt64
  confidence : Int
  state : EntryState

abbrev PrefetchTable := Nat → PrefetchEntry

def hashAddress (address : UInt64) : UInt64 :=
  (address >>> 6) &&& (tableSize - 1)

def increment (confidence overflowed : Int) : Int :=
  if confidence = SignedInt.intMax then overflowed else confidence + 1

def updateEntry (entry : PrefetchEntry) (address : UInt64) (overflowed : Int) :
    PrefetchEntry :=
  if entry.baseAddress = 0 then
    { entry with baseAddress := address, lastAddress := address, state := .initial }
  else
    let currentStride := (address - entry.lastAddress).toInt64
    if currentStride = entry.stride then
      let confidence := increment entry.confidence overflowed
      { entry with
        confidence := confidence
        state := if confidenceThreshold ≤ confidence then .steady else entry.state
        lastAddress := address }
    else
      { entry with
        stride := currentStride, confidence := 1, state := .initial, lastAddress := address }

def updatePrefetchEntry (table : PrefetchTable) (address : UInt64) (overflowed : Int) :
    PrefetchTable :=
  let index := (hashAddress address).toNat
  update table index (updateEntry (table index) address overflowed)

def handleMemoryAccess (table : PrefetchTable) (address : UInt64) (overflowed : Int) :
    PrefetchTable × List UInt64 :=
  let table := updatePrefetchEntry table address overflowed
  let entry := table (hashAddress address).toNat
  (table,
    if entry.state = .steady then
      (range' 1 maxPrefetchDistance).map fun i =>
        address + (entry.stride * Int64.ofNat i).toUInt64
    else
      [])

structure Access where
  address : UInt64
  nonzero : address ≠ 0
  overflowed : Int

def step (table : PrefetchTable) (access : Access) : Option (PrefetchTable × List UInt64) :=
  some (handleMemoryAccess table access.address access.overflowed)

def start : PrefetchTable :=
  fun _ => ⟨0, 0, 0, 0, .initial⟩

/-- The entry describes the addresses since it was made. -/
structure Tracks (entry : PrefetchEntry) (addresses : List UInt64) : Prop where
  base : entry.baseAddress = 0 ↔ addresses = []
  last : ∀ last ∈ addresses.getLast?, entry.lastAddress = last
  stride : differences addresses ≠ [] → 0 < trailing entry.stride.toUInt64 (differences addresses)
  steady : entry.state = .steady ↔ 3 ≤ trailing entry.stride.toUInt64 (differences addresses)
  counted : entry.state ≠ .steady →
    entry.confidence = trailing entry.stride.toUInt64 (differences addresses)

variable {last : UInt64} {table next : PrefetchTable} {prefetched : List UInt64}

theorem tracks_start (index : Nat) : Tracks (start index) [] := by
  refine ⟨by simp [start], by simp, ?_, ?_, ?_⟩ <;> simp [start, differences]

section

variable {entry : PrefetchEntry} {addresses : List UInt64} {address : UInt64}

theorem Tracks.first (tracks : Tracks entry addresses) (unused : entry.baseAddress = 0)
    (nonzero : address ≠ 0) :
    Tracks { entry with baseAddress := address, lastAddress := address, state := .initial }
      (addresses ++ [address]) := by
  obtain rfl := tracks.base.mp unused
  have single : differences ([] ++ [address]) = [] := rfl
  have notSteady : entry.state ≠ .steady := by
    rw [Ne, tracks.steady]
    simp [differences]
  have counted := tracks.counted notSteady
  refine ⟨by simp [nonzero], by simp, ?_, ?_, ?_⟩
  · rw [single]
    exact absurd rfl
  · rw [single, trailing_nil]
    simp
  · rw [single]
    exact fun _ => counted

theorem Tracks.repeated {front : List UInt64} (tracks : Tracks entry (front ++ [last]))
    (same : address - last = entry.stride.toUInt64) (overflowed : Int) :
    Tracks
      { entry with
        confidence := increment entry.confidence overflowed
        state := if confidenceThreshold ≤ increment entry.confidence overflowed then .steady
          else entry.state
        lastAddress := address }
      (front ++ [last] ++ [address]) := by
  have longer : trailing entry.stride.toUInt64 (differences (front ++ [last] ++ [address])) =
      trailing entry.stride.toUInt64 (differences (front ++ [last])) + 1 := by
    rw [differences_concat, same, trailing_concat_self]
  have base : entry.baseAddress ≠ 0 := by
    rw [Ne, tracks.base]
    simp
  have counting : entry.state ≠ .steady → increment entry.confidence overflowed =
      trailing entry.stride.toUInt64 (differences (front ++ [last])) + 1 := by
    intro notSteady
    have few := mt tracks.steady.mpr notSteady
    rw [increment, tracks.counted notSteady, if_neg (by unfold SignedInt.intMax; omega)]
  have kept : ∀ {confident : Prop} [Decidable confident], entry.state = .steady →
      (if confident then .steady else entry.state) = EntryState.steady := by
    intro confident _ steady
    rw [steady, ite_self]
  refine ⟨by simp [base], by simp, fun _ => ?_, ?_, fun notSteady => ?_⟩
  · rw [longer]
    exact Nat.succ_pos _
  · rw [longer]
    by_cases steady : entry.state = .steady
    · exact iff_of_true (kept steady) (Nat.le_succ_of_le (tracks.steady.mp steady))
    · dsimp only
      rw [counting steady, confidenceThreshold]
      split
      · exact iff_of_true rfl (by omega)
      · exact iff_of_false steady (by omega)
  · rw [longer]
    exact counting (mt kept notSteady)

theorem Tracks.changed {front : List UInt64} (tracks : Tracks entry (front ++ [last]))
    (different : address - last ≠ entry.stride.toUInt64) :
    Tracks
      { entry with
        stride := (address - last).toInt64, confidence := 1, state := .initial
        lastAddress := address }
      (front ++ [last] ++ [address]) := by
  have extended := differences_concat front last address
  have once : trailing (address - last) (differences (front ++ [last] ++ [address])) = 1 := by
    rw [extended, trailing_concat_self]
    by_cases none : differences (front ++ [last]) = []
    · rw [none, trailing_nil]
    · rw [trailing_eq_zero_of_ne (tracks.stride none) different]
  have base : entry.baseAddress ≠ 0 := by
    rw [Ne, tracks.base]
    simp
  refine ⟨by simp [base], by simp, ?_, ?_, ?_⟩ <;> rw [UInt64.toUInt64_toInt64, once] <;> simp

theorem Tracks.update (tracks : Tracks entry addresses) (nonzero : address ≠ 0)
    (overflowed : Int) :
    Tracks (updateEntry entry address overflowed) (addresses ++ [address]) := by
  rw [updateEntry]
  split
  · rename_i unused
    exact tracks.first unused nonzero
  · rename_i used
    rcases eq_nil_or_concat addresses with rfl | ⟨front, last, rfl⟩
    · exact absurd (tracks.base.mpr rfl) used
    rw [concat_eq_append] at tracks ⊢
    have lastAddress : entry.lastAddress = last := tracks.last last (by simp)
    rw [lastAddress]
    dsimp only
    split
    · rename_i same
      refine tracks.repeated ?_ overflowed
      rw [← same, UInt64.toUInt64_toInt64]
    · rename_i different
      refine tracks.changed fun same => different ?_
      rw [same, Int64.toInt64_toUInt64]

end

def stream (index : Nat) (accesses : List Access) : List UInt64 :=
  (accesses.map Access.address).filter fun address => (hashAddress address).toNat = index

theorem stream_concat (index : Nat) (accesses : List Access) (access : Access) :
    stream index (accesses ++ [access]) =
      if (hashAddress access.address).toNat = index then
        stream index accesses ++ [access.address]
      else stream index accesses := by
  simp only [stream, map_append, map_cons, map_nil, filter_append]
  split <;> simp [*]

theorem tracks_step {access : Access} {accesses : List Access}
    (tracks : ∀ index, Tracks (table index) (stream index accesses))
    (stepEq : step table access = some (next, prefetched)) (index : Nat) :
    Tracks (next index) (stream index (accesses ++ [access])) := by
  rw [step, Option.some.injEq, handleMemoryAccess, Prod.mk.injEq] at stepEq
  rw [← stepEq.1, updatePrefetchEntry, stream_concat]
  by_cases here : (hashAddress access.address).toNat = index
  · subst here
    rw [if_pos rfl, update_self]
    exact (tracks _).update access.nonzero access.overflowed
  · rw [if_neg here, update_of_ne (Ne.symm here)]
    exact tracks index

def EndsWithStride (stride : UInt64) (addresses : List UInt64) : Prop :=
  replicate 3 stride <:+ differences addresses

theorem Tracks.endsWithStride_iff {entry : PrefetchEntry} {addresses : List UInt64}
    (tracks : Tracks entry addresses) {stride : UInt64} :
    EndsWithStride stride addresses ↔ entry.state = .steady ∧ stride = entry.stride.toUInt64 := by
  rw [EndsWithStride, replicate_suffix_iff, tracks.steady]
  constructor
  · intro ends
    have some : differences addresses ≠ [] := by
      intro none
      rw [none, trailing_nil] at ends
      omega
    have same : stride = entry.stride.toUInt64 := by
      by_contra different
      rw [trailing_eq_zero_of_ne (tracks.stride some) different] at ends
      omega
    exact ⟨same ▸ ends, same⟩
  · rintro ⟨steady, rfl⟩
    exact steady

def addressesAhead (address stride : UInt64) : List UInt64 :=
  (range' 1 maxPrefetchDistance).map fun i => address + UInt64.ofNat i * stride

theorem prefetched_of_step {access : Access}
    (stepEq : step table access = some (next, prefetched)) :
    prefetched =
      if (next (hashAddress access.address).toNat).state = .steady then
        addressesAhead access.address (next (hashAddress access.address).toNat).stride.toUInt64
      else [] := by
  have scaled : ∀ (stride : Int64) (i : Nat),
      (stride * Int64.ofNat i).toUInt64 = UInt64.ofNat i * stride.toUInt64 := by
    intro stride i
    rw [Int64.toUInt64_mul, UInt64.mul_comm]
    rfl
  obtain ⟨rfl, rfl⟩ := stepEq
  simp only [addressesAhead, scaled]

/-- An entry is steady exactly when the last three differences of its addresses are equal. -/
theorem steady_iff_three_equal_differences (accesses : List Access) :
    ∃ table issued, run step start accesses = some (table, issued) ∧
      (∀ index, (table index).state = .steady ↔
        ∃ stride, EndsWithStride stride (stream index accesses)) ∧
      ∀ access, ∃ next prefetched, step table access = some (next, prefetched) ∧
        ((next (hashAddress access.address).toNat).state ≠ .steady → prefetched = []) ∧
        ((next (hashAddress access.address).toNat).state = .steady → ∃ stride, EndsWithStride stride
              (stream (hashAddress access.address).toNat (accesses ++ [access])) ∧
            prefetched = addressesAhead access.address stride) := by
  obtain ⟨table, issued, runEq⟩ := exists_run (fun _ _ => ⟨_, _, rfl⟩) start accesses
  have tracks : ∀ index, Tracks (table index) (stream index accesses) := by
    have reached : Reaches step start accesses table := ⟨issued, runEq⟩
    have initially : ∀ index, Tracks (start index) (stream index []) := tracks_start
    exact reached.history (fun past table => ∀ index, Tracks (table index) (stream index past))
      tracks_step initially
  refine ⟨table, issued, runEq, fun index => ?_, fun access => ?_⟩
  · simp only [(tracks index).endsWithStride_iff, exists_and_left, exists_eq, and_true]
  · obtain ⟨next, prefetched, stepEq⟩ : ∃ next prefetched,
        step table access = some (next, prefetched) :=
        ⟨_, _, rfl⟩
    have nextTracks := tracks_step tracks stepEq (hashAddress access.address).toNat
    have issues := prefetched_of_step stepEq
    refine ⟨next, prefetched, stepEq, fun notSteady => ?_, fun steady => ?_⟩
    · rw [issues, if_neg notSteady]
    · rw [if_pos steady] at issues
      exact ⟨_, nextTracks.endsWithStride_iff.mpr ⟨steady, rfl⟩, issues⟩

end BitsAndBytes.StridePrefetcher
