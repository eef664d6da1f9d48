import BitsAndBytes.OperationRuns
import Mathlib.Algebra.BigOperators.Group.Finset.Piecewise

/-! # Threads that interleave their steps -/

namespace BitsAndBytes.Interleaving

open Function Option Finset

variable {Thread Shared Point : Type*}

@[ext]
structure Config (Thread Shared Point : Type*) where
  shared : Shared
  points : Thread → Point

section

/-- Exactly `count` threads have the property. -/
def Counts (holds : Thread → Prop) (count : Int) : Prop :=
  ∃ members : Finset Thread, (∀ t, t ∈ members ↔ holds t) ∧ (members.card : Int) = count

variable {holds after : Thread → Prop} {count : Int} {t : Thread}

theorem counts_zero (nowhere : ∀ t, ¬ holds t) : Counts holds 0 := ⟨∅, by simpa using nowhere, rfl⟩

namespace Counts

section

variable (counts : Counts holds count)
include counts

theorem congr (same : ∀ t, after t ↔ holds t) : Counts after count := by
  obtain ⟨members, isMember, card⟩ := counts
  exact ⟨members, fun t => (isMember t).trans (same t).symm, card⟩

theorem nonneg : 0 ≤ count := by
  obtain ⟨members, -, rfl⟩ := counts
  exact Int.natCast_nonneg _

theorem pos (here : holds t) : 0 < count := by
  obtain ⟨members, isMember, rfl⟩ := counts
  exact_mod_cast card_pos.mpr ⟨t, (isMember t).mpr here⟩

theorem exists_of_pos (positive : 0 < count) : ∃ t, holds t := by
  obtain ⟨members, isMember, rfl⟩ := counts
  obtain ⟨t, member⟩ := card_pos.mp (by exact_mod_cast positive)
  exact ⟨t, (isMember t).mp member⟩

theorem eq_zero (nowhere : ∀ t, ¬ holds t) : count = 0 := by
  by_contra notZero
  have nonneg := counts.nonneg
  obtain ⟨t, here⟩ := counts.exists_of_pos (by omega)
  exact nowhere t here

end

theorem le_of_imp {fewer : Int} (less : Counts after fewer) (counts : Counts holds count)
    (implies : ∀ t, after t → holds t) : fewer ≤ count := by
  obtain ⟨some, isSome, rfl⟩ := less
  obtain ⟨members, isMember, rfl⟩ := counts
  have within : some ⊆ members := fun t member =>
    (isMember t).mpr (implies t ((isSome t).mp member))
  exact_mod_cast card_le_card within

theorem unique (counts : Counts holds count) (one : count ≤ 1) {s : Thread}
    (first : holds s) (second : holds t) : s = t := by
  obtain ⟨members, isMember, rfl⟩ := counts
  exact card_le_one.mp (by exact_mod_cast one) s ((isMember s).mpr first) t
    ((isMember t).mpr second)

section

variable {flag : Prop} [Decidable flag]

theorem flag_iff (counts : Counts holds (if flag then 1 else 0)) : flag ↔ ∃ t, holds t := by
  constructor
  · intro isSet
    rw [if_pos isSet] at counts
    exact counts.exists_of_pos Int.zero_lt_one
  · rintro ⟨t, here⟩
    by_contra notSet
    rw [if_neg notSet] at counts
    exact Int.lt_irrefl 0 (counts.pos here)

theorem unique_of_flag (counts : Counts holds (if flag then 1 else 0)) {s : Thread}
    (first : holds s) (second : holds t) : s = t := counts.unique (by split <;> omega) first second

end

theorem exists_other (counts : Counts holds count) (here : holds t)
    (notOne : count ≠ 1) : ∃ s, s ≠ t ∧ holds s := by
  obtain ⟨members, isMember, rfl⟩ := counts
  by_contra noOther
  push Not at noOther
  have only : members = {t} := by
    ext s
    rw [isMember, mem_singleton]
    constructor
    · intro there
      by_contra different
      exact noOther s different there
    · rintro rfl
      exact here
  rw [only] at notOne
  exact notOne rfl

variable [DecidableEq Thread]

theorem enter (counts : Counts holds count) (before : ¬ holds t) (now : after t)
    (others : ∀ s, s ≠ t → (after s ↔ holds s)) : Counts after (count + 1) := by
  obtain ⟨members, isMember, rfl⟩ := counts
  refine ⟨insert t members, fun s => ?_, ?_⟩
  · by_cases same : s = t
    · subst same
      simpa using now
    · rw [mem_insert, others s same, ← isMember]
      simp [same]
  · have fresh : t ∉ members := fun member => before ((isMember t).mp member)
    rw [card_insert_of_notMem fresh]
    omega

theorem leave (counts : Counts holds count) (before : holds t) (now : ¬ after t)
    (others : ∀ s, s ≠ t → (after s ↔ holds s)) : Counts after (count - 1) := by
  have positive := counts.pos before
  obtain ⟨members, isMember, rfl⟩ := counts
  refine ⟨members.erase t, fun s => ?_, ?_⟩
  · by_cases same : s = t
    · subst same
      simpa using now
    · rw [mem_erase, others s same, ← isMember]
      simp [same]
  · rw [card_erase_of_mem ((isMember t).mpr before)]
    omega

end Counts

variable [DecidableEq Thread] {points : Thread → Point} {counted : Point → Prop} {next : Point}

section

variable (counts : Counts (fun s => counted (points s)) count)
include counts

theorem Counts.update_same (same : counted next ↔ counted (points t)) :
    Counts (fun s => counted (update points t next s)) count := by
  refine counts.congr fun s => ?_
  by_cases moved : s = t
  · subst moved
    simpa using same
  · simp [moved]

theorem Counts.update_enter (before : ¬ counted (points t)) (now : counted next) :
    Counts (fun s => counted (update points t next s)) (count + 1) :=
  counts.enter before (by simpa using now) fun s other => by simp [other]

theorem Counts.update_leave (before : counted (points t)) (now : ¬ counted next) :
    Counts (fun s => counted (update points t next s)) (count - 1) :=
  counts.leave before (by simpa using now) fun s other => by simp [other]

end

theorem Counts.update (counted : Point → Prop) [DecidablePred counted]
    (counts : Counts (fun s => counted (points s)) count) :
    Counts (fun s => counted (update points t next s))
      (count + (if counted next then 1 else 0) -
        if counted (points t) then 1 else 0) := by
  by_cases before : counted (points t)
  · by_cases now : counted next
    · simpa [before, now] using counts.update_same (iff_of_true now before)
    · simpa [before, now] using counts.update_leave before now
  · by_cases now : counted next
    · simpa [before, now] using counts.update_enter before now
    · simpa [before, now] using counts.update_same (iff_of_false now before)

theorem sum_update [Fintype Thread] (contribution : Thread → Point → Int)
    (points : Thread → Point) (t : Thread) (next : Point) :
    ∑ s, contribution s (update points t next s) =
      (∑ s, contribution s (points s)) + (contribution t next - contribution t (points t)) := by
  have moved := funext (apply_update contribution points t next)
  rw [moved, sum_update_of_mem (mem_univ t), sum_eq_add_sum_sdiff_singleton_of_mem (mem_univ t)
      fun s => contribution s (points s)]
  omega

end

section

/-- The owner of a mutex is the thread inside. -/
def Locks (inside : Point → Prop) (points : Thread → Point)
    (owner : Option Thread) : Prop :=
  ∀ t, inside (points t) ↔ owner = some t

variable {inside : Point → Prop} {points : Thread → Point}
  {owner : Option Thread} {s t : Thread} {next : Point}

namespace Locks

theorem unique (locks : Locks inside points owner) (first : inside (points s))
    (second : inside (points t)) : s = t := by
  have owned := (locks s).mp first
  rw [(locks t).mp second, some.injEq] at owned
  exact owned.symm

variable [DecidableEq Thread]

theorem acquire (locks : Locks inside points none) (now : inside next) :
    Locks inside (update points t next) (some t) := by
  intro s
  by_cases same : s = t
  · subst same
    simpa using now
  · have outside : ¬ inside (points s) := by simp [locks s]
    simp [same, outside, Ne.symm same]

theorem release (locks : Locks inside points owner) (before : inside (points t))
    (now : ¬ inside next) : Locks inside (update points t next) none := by
  intro s
  by_cases same : s = t
  · subst same
    simpa using now
  · have outside : ¬ inside (points s) := fun there => same (locks.unique there before)
    simp [same, outside]

theorem keep (locks : Locks inside points owner) (same : inside next ↔ inside (points t)) :
    Locks inside (update points t next) owner := by
  intro s
  by_cases moved : s = t
  · subst moved
    simpa using same.trans (locks s)
  · simpa [moved] using locks s

end Locks

end

section

variable [DecidableEq Thread]

def signal (waiting : Finset Thread) : Option Thread → Option (Finset Thread)
  | none => if waiting = ∅ then some ∅ else none
  | some woken => if woken ∈ waiting then some (waiting.erase woken) else none

theorem signal_cases {waiting rest : Finset Thread} {woken : Option Thread}
    (signalled : signal waiting woken = some rest) :
    rest = ∅ ∧ waiting = ∅ ∨ ∃ t ∈ waiting, rest = waiting.erase t := by
  cases woken with
  | none =>
    rw [signal, ite_none_right_eq_some] at signalled
    obtain ⟨none, ⟨⟩⟩ := signalled
    exact .inl ⟨rfl, none⟩
  | some t =>
    rw [signal, ite_none_right_eq_some] at signalled
    obtain ⟨waits, ⟨⟩⟩ := signalled
    exact .inr ⟨t, waits, rfl⟩

end

end BitsAndBytes.Interleaving
