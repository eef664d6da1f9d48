import BitsAndBytes.BubbleSort
import BitsAndBytes.OperationRuns
import BitsAndBytes.SignedInt
import Mathlib.Algebra.BigOperators.Group.List.Basic
import Mathlib.Algebra.Ring.Int.Defs

/-! # The schedulers of `schedulingAlgorithmMemoryController.c` -/

namespace BitsAndBytes.SchedulingAlgorithms

open OperationRuns BubbleSort SignedInt List Option

def numBanks : Nat := 8

def batchSize : Nat := 4

structure Bank where
  bankId : Int
  requestCount : Int
  isMarked : Bool
deriving DecidableEq, Repr

def Bank.serve (bank : Bank) : Bank :=
  { bank with requestCount := bank.requestCount - 1 }

def Bank.serveHit (bank : Bank) : Bank :=
  { bank.serve with isMarked := false }

def Bank.hasRequests (bank : Bank) : Bool :=
  0 < bank.requestCount

def serveFirst (kind : Bank → Bool) (serve : Bank → Bank) : List Bank → Option (Bank × List Bank)
  | [] => none
  | bank :: banks =>
    if kind bank then
      some (bank, serve bank :: banks)
    else
      (serveFirst kind serve banks).map fun served => (served.1, bank :: served.2)

def frFcfsScheduleRequest (banks : List Bank) : Option (List Bank × List Int) :=
  match serveFirst Bank.isMarked Bank.serveHit banks with
  | some (bank, after) =>
    (checked (bank.requestCount - 1)).map fun _ => (after, [bank.bankId])
  | none =>
    match serveFirst Bank.hasRequests Bank.serve banks with
    | some (bank, after) =>
      (checked (bank.requestCount - 1)).map fun _ => (after, [bank.bankId])
    | none => some (banks, [])

def serveBatch : List Bank → List Bank × List Int
  | [] => ([], [])
  | bank :: batch =>
    let rest := serveBatch batch
    if bank.isMarked then
      (bank.serveHit :: rest.1, bank.bankId :: rest.2)
    else if bank.hasRequests then
      (bank.serve :: rest.1, bank.bankId :: rest.2)
    else
      (bank :: rest.1, rest.2)

def parBsScheduleRequest (banks : List Bank) : Option (List Int) :=
  let batch := banks.filter Bank.hasRequests
  if batch.length ≤ batchSize then
    some (serveBatch
      (bubbleSort (fun bank other => bank.requestCount < other.requestCount) batch)).2
  else
    none

structure State where
  banks : List Bank
  arrivals : Nat
  scheduled : Nat
deriving DecidableEq, Repr

inductive Event
  | arrive (bank : Fin numBanks)
  | mark (bank : Fin numBanks)
  | frFcfs
  | parBs
deriving DecidableEq, Repr

def step (state : State) : Event → Option (State × List Int)
  | .arrive index =>
    (state.banks[index]?.bind fun bank => checked (bank.requestCount + 1)).map fun _ =>
      ({ state with
        banks := state.banks.modify index fun bank =>
          { bank with requestCount := bank.requestCount + 1 }
        arrivals := state.arrivals + 1 }, [])
  | .mark index =>
    some ({ state with
      banks := state.banks.modify index fun bank => { bank with isMarked := true } }, [])
  | .frFcfs =>
    (frFcfsScheduleRequest state.banks).map fun served =>
      ({ state with
        banks := served.1
        scheduled := state.scheduled + served.2.length }, served.2)
  | .parBs =>
    (parBsScheduleRequest state.banks).map fun reported =>
      ({ state with scheduled := state.scheduled + reported.length }, reported)

def start : State where
  banks := (range numBanks).map fun index => ⟨index, 0, false⟩
  arrivals := 0
  scheduled := 0

def totalRequests (banks : List Bank) : Int :=
  (banks.map Bank.requestCount).sum

/-- No count is negative, and they sum up to the arrivals less the requests scheduled. -/
def Conserved (state : State) : Prop :=
  (∀ bank ∈ state.banks, 0 ≤ bank.requestCount) ∧
    totalRequests state.banks = state.arrivals - state.scheduled

/-- The bank of an arrival has room for it in its `int`, FR-FCFS finds no marked bank without
requests first, and PAR-BS finds no requests. -/
def Harmless (state : State) : Event → Prop
  | .arrive index => ∀ bank, state.banks[index]? = some bank → bank.requestCount < intMax
  | .mark _ => True
  | .frFcfs => ∀ bank, state.banks.find? Bank.isMarked = some bank → 0 < bank.requestCount
  | .parBs => ∀ bank ∈ state.banks, bank.requestCount ≤ 0

section

variable {kind : Bank → Bool} {serve : Bank → Bank} {banks after : List Bank} {bank : Bank}

theorem serveFirst_eq_some (served : serveFirst kind serve banks = some (bank, after)) :
    banks.find? kind = some bank ∧ ∃ before rest, banks = before ++ bank :: rest ∧
      after = before ++ serve bank :: rest := by
  induction banks generalizing after with
  | nil => cases served
  | cons first banks ih =>
    rw [serveFirst] at served
    split at served
    · rename_i isFirst
      cases served
      exact ⟨find?_cons_of_pos isFirst, [], banks, rfl, rfl⟩
    · rename_i notFirst
      obtain ⟨later, laterServed, same⟩ := map_eq_some_iff.mp served
      obtain ⟨rfl, rfl⟩ := same
      obtain ⟨found, before, rest, rfl, afterwards⟩ := ih laterServed
      refine ⟨?_, first :: before, rest, rfl, by rw [afterwards]; rfl⟩
      rw [find?_cons_of_neg notFirst]
      exact found

theorem serveFirst_eq_none : serveFirst kind serve banks = none ↔ banks.find? kind = none := by
  induction banks with
  | nil => exact ⟨fun _ => rfl, fun _ => rfl⟩
  | cons first banks ih =>
    rw [serveFirst]
    split
    · rename_i isFirst
      rw [find?_cons_of_pos isFirst]
      exact ⟨nofun, nofun⟩
    · rename_i notFirst
      rw [find?_cons_of_neg notFirst, map_eq_none_iff, ih]

@[simp]
theorem totalRequests_append (first second : List Bank) :
    totalRequests (first ++ second) = totalRequests first + totalRequests second := by
  simp [totalRequests]

@[simp]
theorem totalRequests_cons (bank : Bank) (banks : List Bank) :
    totalRequests (bank :: banks) = bank.requestCount + totalRequests banks := by
  simp [totalRequests]

/-- One request of the bank is taken, and the other banks are unchanged. -/
structure Serves (banks after : List Bank) (bank : Bank) : Prop where
  total : totalRequests after = totalRequests banks - 1
  length_eq : after.length = banks.length
  counts : ∀ other ∈ after, other ∈ banks ∨ other.requestCount = bank.requestCount - 1
  taken : ∃ other ∈ after, other.requestCount = bank.requestCount - 1

theorem serves_serveFirst (takes : ∀ bank, (serve bank).requestCount = bank.requestCount - 1)
    (served : serveFirst kind serve banks = some (bank, after)) : Serves banks after bank := by
  obtain ⟨-, before, rest, rfl, rfl⟩ := serveFirst_eq_some served
  refine ⟨?_, by simp, fun other member => ?_, serve bank, by simp, takes bank⟩
  · simp only [totalRequests_append, totalRequests_cons, takes]
    omega
  · simp only [mem_append, mem_cons] at member ⊢
    rcases member with early | rfl | late
    · exact .inl (.inl early)
    · exact .inr (takes bank)
    · exact .inl (.inr (.inr late))

theorem frFcfsScheduleRequest_cases (banks : List Bank) :
    (∃ bank after, frFcfsScheduleRequest banks =
          (checked (bank.requestCount - 1)).map (fun _ => (after, [bank.bankId])) ∧
        bank ∈ banks ∧ Serves banks after bank ∧ (banks.find? Bank.isMarked = some bank ∨
            banks.find? Bank.isMarked = none ∧ 0 < bank.requestCount)) ∨
      frFcfsScheduleRequest banks = some (banks, []) ∧ banks.find? Bank.isMarked = none := by
  rw [frFcfsScheduleRequest]
  split
  · rename_i bank after served
    have found := (serveFirst_eq_some served).1
    exact .inl ⟨bank, after, rfl, mem_of_find?_eq_some found,
      serves_serveFirst (fun _ => rfl) served, .inl found⟩
  · rename_i unmarked
    have noMark := serveFirst_eq_none.mp unmarked
    split
    · rename_i bank after served
      have found := (serveFirst_eq_some served).1
      have has := find?_some found
      exact .inl ⟨bank, after, rfl, mem_of_find?_eq_some found,
        serves_serveFirst (fun _ => rfl) served, .inr ⟨noMark, of_decide_eq_true has⟩⟩
    · exact .inr ⟨rfl, noMark⟩

theorem length_serveBatch (batch : List Bank) (busy : ∀ bank ∈ batch, bank.hasRequests) :
    (serveBatch batch).2.length = batch.length := by
  induction batch with
  | nil => rfl
  | cons bank batch ih =>
    have rest := ih fun other member => busy other (mem_cons_of_mem bank member)
    rw [serveBatch]
    simp only [busy bank mem_cons_self, if_true]
    split <;> exact congrArg (· + 1) rest

theorem length_parBsScheduleRequest {reported : List Int}
    (scheduled : parBsScheduleRequest banks = some reported) :
    reported.length = (banks.filter Bank.hasRequests).length := by
  simp only [parBsScheduleRequest] at scheduled
  split at scheduled
  · cases scheduled
    have sorted := bubbleSort_perm (fun bank other : Bank =>
      decide (bank.requestCount < other.requestCount)) (banks.filter Bank.hasRequests)
    rw [length_serveBatch _ fun bank member =>
      (mem_filter.mp (sorted.mem_iff.mp member)).2, sorted.length_eq]
  · cases scheduled

end

/-- Requests are conserved, and the eight counts are values of type `int`. -/
structure Sound (state : State) : Prop where
  conserved : Conserved state
  length_eq : state.banks.length = numBanks
  le_intMax : ∀ bank ∈ state.banks, bank.requestCount ≤ intMax

section

variable {state next : State} {event : Event} {reported : List Int} {index : Nat}

theorem totalRequests_arrive (banks : List Bank) (inside : index < banks.length) :
    totalRequests (banks.modify index fun bank =>
      { bank with requestCount := bank.requestCount + 1 }) = totalRequests banks + 1 := by
  induction banks generalizing index with
  | nil => cases inside
  | cons bank banks ih =>
    cases index with
    | zero =>
      simp only [modify_zero_cons, totalRequests_cons]
      omega
    | succ index =>
      simp only [modify_succ_cons, totalRequests_cons, ih (Nat.lt_of_succ_lt_succ inside)]
      omega

theorem totalRequests_mark (banks : List Bank) (index : Nat) :
    totalRequests (banks.modify index fun bank => { bank with isMarked := true }) =
      totalRequests banks := by
  induction banks generalizing index with
  | nil => cases index <;> rfl
  | cons bank banks ih =>
    cases index with
    | zero => simp only [modify_zero_cons, totalRequests_cons]
    | succ index => simp only [modify_succ_cons, totalRequests_cons, ih]

theorem mem_of_mem_modify {change : Bank → Bank} {banks : List Bank} {bank : Bank}
    (member : bank ∈ banks.modify index change) :
    bank ∈ banks ∨ ∃ before, banks[index]? = some before ∧ bank = change before := by
  obtain ⟨position, inside, rfl⟩ := mem_iff_getElem.mp member
  rw [length_modify] at inside
  rw [getElem_modify]
  split
  · rename_i same
    subst same
    exact .inr ⟨banks[index], getElem?_eq_getElem inside, rfl⟩
  · exact .inl (getElem_mem inside)

section

variable (sound : Sound state)
include sound

theorem Sound.arrive {bank : Fin numBanks} (harmless : Harmless state (.arrive bank)) :
    ∃ next reported, SchedulingAlgorithms.step state (.arrive bank) = some (next, reported) ∧
      Sound next := by
  obtain ⟨⟨nonneg, total⟩, length, le_intMax⟩ := sound
  have inside : bank.val < state.banks.length := by
    rw [length]
    exact bank.isLt
  have found : state.banks[bank]? = some state.banks[bank.val] := getElem?_eq_getElem inside
  have room := harmless _ found
  have isNonneg := nonneg _ (getElem_mem inside)
  rw [SchedulingAlgorithms.step, found, bind_some,
    checked_eq_some_iff.mpr ⟨rfl, by unfold intMin; omega, by omega⟩]
  refine ⟨_, _, rfl, ⟨fun other member => ?_, ?_⟩, (length_modify ..).trans length,
    fun other member => ?_⟩
  · rcases mem_of_mem_modify member with before | ⟨before, isBefore, rfl⟩
    · exact nonneg other before
    · cases found.symm.trans isBefore
      simp only
      omega
  · simp only [totalRequests_arrive _ inside]
    omega
  · rcases mem_of_mem_modify member with before | ⟨before, isBefore, rfl⟩
    · exact le_intMax other before
    · cases found.symm.trans isBefore
      simp only
      omega

theorem Sound.frFcfs (harmless : Harmless state .frFcfs) :
    ∃ next reported, SchedulingAlgorithms.step state .frFcfs = some (next, reported) ∧
      Sound next := by
  obtain ⟨⟨nonneg, total⟩, length, le_intMax⟩ := sound
  rw [SchedulingAlgorithms.step]
  rcases frFcfsScheduleRequest_cases state.banks with
    ⟨bank, after, served, member, serves, kind⟩ | ⟨nothing, -⟩
  · have positive : 0 < bank.requestCount := by
      rcases kind with marked | ⟨-, positive⟩
      · exact harmless bank marked
      · exact positive
    have isInt := le_intMax bank member
    rw [served, checked_eq_some_iff.mpr ⟨rfl, by unfold intMin; omega, by omega⟩]
    refine ⟨_, _, rfl, ⟨fun other isAfter => ?_, ?_⟩, serves.length_eq.trans length,
      fun other isAfter => ?_⟩
    · rcases serves.counts other isAfter with before | taken
      · exact nonneg other before
      · omega
    · simp only [serves.total, length_singleton]
      omega
    · rcases serves.counts other isAfter with before | taken
      · exact le_intMax other before
      · omega
  · rw [nothing]
    exact ⟨_, _, rfl, ⟨nonneg, total⟩, length, le_intMax⟩

theorem Sound.step (harmless : Harmless state event) :
    ∃ next reported, SchedulingAlgorithms.step state event = some (next, reported) ∧
      Sound next := by
  cases event with
  | arrive index => exact sound.arrive harmless
  | frFcfs => exact sound.frFcfs harmless
  | mark index =>
    obtain ⟨⟨nonneg, total⟩, length, le_intMax⟩ := sound
    have same : ∀ bank ∈ state.banks.modify index fun bank => { bank with isMarked := true },
        ∃ before ∈ state.banks, bank.requestCount = before.requestCount := by
      intro bank member
      rcases mem_of_mem_modify member with before | ⟨before, isBefore, rfl⟩
      · exact ⟨bank, before, rfl⟩
      · exact ⟨before, mem_of_getElem? isBefore, rfl⟩
    refine ⟨_, _, rfl, ⟨fun bank member => ?_, ?_⟩, (length_modify ..).trans length,
      fun bank member => ?_⟩
    · obtain ⟨before, isBefore, count⟩ := same bank member
      exact count ▸ nonneg before isBefore
    · simpa only [totalRequests_mark] using total
    · obtain ⟨before, isBefore, count⟩ := same bank member
      exact count ▸ le_intMax before isBefore
  | parBs =>
    have idle : state.banks.filter Bank.hasRequests = [] := by
      rw [filter_eq_nil_iff]
      intro bank member has
      exact absurd (of_decide_eq_true has) (Int.not_lt.mpr (harmless bank member))
    have nothing : parBsScheduleRequest state.banks = some [] := by
      simp only [parBsScheduleRequest, idle]
      rfl
    exact ⟨_, _, by rw [SchedulingAlgorithms.step, nothing]; rfl, sound.conserved,
      sound.length_eq, sound.le_intMax⟩

theorem Sound.breaks (harmful : ¬ Harmless state event)
    (stepEq : SchedulingAlgorithms.step state event = some (next, reported)) :
    ¬ Conserved next := by
  obtain ⟨⟨nonneg, total⟩, -, -⟩ := sound
  rintro ⟨nextNonneg, nextTotal⟩
  cases event with
  | mark index => exact harmful trivial
  | arrive index =>
    simp only [Harmless, not_forall] at harmful
    obtain ⟨bank, found, full⟩ := harmful
    obtain ⟨count, isCount, -⟩ := map_eq_some_iff.mp stepEq
    rw [found, bind_some, checked_eq_some_iff] at isCount
    omega
  | frFcfs =>
    obtain ⟨⟨after, reports⟩, served, same⟩ := map_eq_some_iff.mp stepEq
    cases same
    simp only [Harmless, not_forall] at harmful
    obtain ⟨bank, marked, notPositive⟩ := harmful
    rcases frFcfsScheduleRequest_cases state.banks with
      ⟨other, after', servedEq, -, serves, first | ⟨unmarked, -⟩⟩ | ⟨-, unmarked⟩
    · cases first.symm.trans marked
      obtain ⟨count, -, isAfter⟩ := map_eq_some_iff.mp (servedEq.symm.trans served)
      cases isAfter
      obtain ⟨other, member, taken⟩ := serves.taken
      have := nextNonneg other member
      omega
    · cases unmarked.symm.trans marked
    · cases unmarked.symm.trans marked
  | parBs =>
    simp only [Harmless, not_forall] at harmful
    obtain ⟨bank, member, notIdle⟩ := harmful
    obtain ⟨report, scheduled, same⟩ := map_eq_some_iff.mp stepEq
    cases same
    have isBusy : bank ∈ state.banks.filter Bank.hasRequests :=
      mem_filter.mpr ⟨member, decide_eq_true (Int.not_le.mp notIdle)⟩
    have positive := length_pos_of_mem isBusy
    rw [← length_parBsScheduleRequest scheduled] at positive
    simp only [total] at nextTotal
    omega

end

end

/-- Requests are conserved exactly if no count overflows, FR-FCFS meets no empty marked bank and
PAR-BS no request. -/
theorem conserved_iff_harmless (events : List Event) :
    (∀ initialEvents, initialEvents <+: events → ∃ state,
        Reaches step start initialEvents state ∧ Conserved state) ↔
      Respects step Harmless start events :=
  returns_always_iff_respects Sound Conserved Sound.conserved
    (fun sound harmless => sound.step harmless)
    (fun sound harmful stepEq => sound.breaks harmful stepEq) 
    ⟨⟨by decide, by decide⟩, rfl, by decide⟩ events

theorem request_scheduled_and_kept : ∃ state, Reaches step start
        [.arrive ⟨0, by decide⟩, .mark ⟨0, by decide⟩, .arrive ⟨0, by decide⟩,
          .mark ⟨0, by decide⟩, .arrive ⟨0, by decide⟩, .mark ⟨0, by decide⟩,
          .arrive ⟨0, by decide⟩, .mark ⟨0, by decide⟩, .frFcfs, .parBs] state ∧
      ¬ Conserved state := by
  refine ⟨_, ⟨_, rfl⟩, fun conserved => ?_⟩
  exact absurd conserved.2 (by decide)

end BitsAndBytes.SchedulingAlgorithms
