import Mathlib.Data.List.Induction
import Mathlib.Data.List.Sort
import Mathlib.Order.Bounds.Basic

/-! # Selecting the first of the least values -/

namespace BitsAndBytes.SelectionSort

open List

variable {Value Key : Type*} [LinearOrder Key]

def keepLeast (key : Value → Key) (best : Option Value) (value : Value) : Option Value :=
  match best with
  | none => some value
  | some least => if key value < key least then some value else some least

def firstLeast (accepts : Value → Bool) (key : Value → Key) (values : List Value) : Option Value :=
  values.foldl (fun best value => if accepts value then keepLeast key best value else best) none

/-- The first of the accepted values with the least key. -/
structure IsFirstLeast (accepts : Value → Bool) (key : Value → Key) (before : List Value)
    (value : Value) (after : List Value) : Prop where
  accepted : accepts value
  lt_before : ∀ other ∈ before, accepts other → key value < key other
  le_after : ∀ other ∈ after, accepts other → key value ≤ key other

variable {accepts : Value → Bool} {key : Value → Key} {before after values : List Value}
  {value : Value}

theorem IsFirstLeast.le {other : Value} (isFirst : IsFirstLeast accepts key before value after)
    (member : other ∈ before ++ value :: after) (accepted : accepts other) :
    key value ≤ key other := by
  rcases mem_append.mp member with early | late
  · exact (isFirst.lt_before other early accepted).le
  · rcases mem_cons.mp late with rfl | later
    · exact le_rfl
    · exact isFirst.le_after other later accepted

theorem firstLeast_concat (values : List Value) (value : Value) :
    firstLeast accepts key (values ++ [value]) =
      if accepts value then keepLeast key (firstLeast accepts key values) value
      else firstLeast accepts key values := by
  simp [firstLeast, foldl_append]

theorem firstLeast_cases (accepts : Value → Bool) (key : Value → Key) (values : List Value) :
    firstLeast accepts key values = none ∧ (∀ value ∈ values, accepts value = false) ∨
      ∃ before value after, firstLeast accepts key values = some value ∧
        values = before ++ value :: after ∧ IsFirstLeast accepts key before value after := by
  induction values using reverseRecOn with
  | nil => exact .inl ⟨rfl, nofun⟩
  | append_singleton values last ih =>
    rw [firstLeast_concat]
    cases accepted : accepts last with
    | false =>
      rcases ih with ⟨nothing, rejected⟩ | ⟨before, value, after, found, rfl, isFirst⟩
      · refine .inl ⟨nothing, fun value member => ?_⟩
        rcases mem_append.mp member with early | late
        · exact rejected value early
        · rwa [mem_singleton.mp late]
      · refine .inr ⟨before, value, after ++ [last], found, by simp,
          isFirst.accepted, isFirst.lt_before, fun other member isAccepted => ?_⟩
        rcases mem_append.mp member with early | late
        · exact isFirst.le_after other early isAccepted
        · rw [mem_singleton.mp late, accepted] at isAccepted
          cases isAccepted
    | true =>
      rw [if_pos rfl]
      rcases ih with ⟨nothing, rejected⟩ | ⟨before, value, after, found, rfl, isFirst⟩
      · refine .inr ⟨values, last, [], by rw [nothing]; rfl, rfl, accepted,
          fun other member isAccepted => ?_, nofun⟩
        rw [rejected other member] at isAccepted
        cases isAccepted
      · rw [found, keepLeast]
        split
        · rename_i less
          refine .inr ⟨_, last, [], rfl, rfl, accepted, fun other member isAccepted => ?_, nofun⟩
          exact less.trans_le (isFirst.le member isAccepted)
        · rename_i notLess
          refine .inr ⟨before, value, after ++ [last], rfl, by simp,
            isFirst.accepted, isFirst.lt_before, fun other member isAccepted => ?_⟩
          rcases mem_append.mp member with early | late
          · exact isFirst.le_after other early isAccepted
          · rw [mem_singleton.mp late]
            exact not_lt.mp notLess

theorem firstLeast_eq_none_iff :
    firstLeast accepts key values = none ↔ ∀ value ∈ values, accepts value = false := by
  rcases firstLeast_cases accepts key values with
    ⟨nothing, rejected⟩ | ⟨before, value, after, found, rfl, isFirst⟩
  · exact iff_of_true nothing rejected
  · refine iff_of_false (by simp [found]) fun rejected => ?_
    have isRejected := rejected value (by simp)
    rw [isFirst.accepted] at isRejected
    cases isRejected

theorem firstLeast_const (accepts : Value → Bool) (constant : Key) (values : List Value) :
    firstLeast accepts (fun _ => constant) values = values.find? accepts := by
  rcases firstLeast_cases accepts (fun _ => constant) values with
    ⟨nothing, rejected⟩ | ⟨before, value, after, found, rfl, isFirst⟩
  · rw [nothing, eq_comm, find?_eq_none]
    intro value member
    rw [rejected value member]
    exact Bool.false_ne_true
  · rw [found, eq_comm, find?_eq_some_iff_append]
    refine ⟨isFirst.accepted, before, after, rfl, fun other member => ?_⟩
    have notAccepted : accepts other ≠ true := fun accepted =>
      lt_irrefl constant (isFirst.lt_before other member accepted)
    simpa using notAccepted

theorem firstLeast_cons (key : Value → Key) (first : Value) (values : List Value) :
    firstLeast (fun _ => true) key (first :: values) = some (values.foldl (fun least value =>
        if key value < key least then value else least) first) := by
  have keep : ∀ least value, keepLeast key (some least) value =
      some (if key value < key least then value else least) := by
    intro least value
    rw [keepLeast]
    split <;> rfl
  suffices scan : ∀ least, values.foldl (fun best value =>
      if true then keepLeast key best value else best) (some least) =
        some (values.foldl (fun least value =>
          if key value < key least then value else least) least) from scan first
  induction values with
  | nil => exact fun _ => rfl
  | cons value values ih =>
    intro least
    rw [foldl_cons, foldl_cons, if_pos rfl, keep]
    exact ih _

theorem isLeast_of_firstLeast [LinearOrder Value] (increasing : values.Pairwise (· < ·))
    (found : firstLeast accepts key values = some value) :
    IsLeast {candidate | candidate ∈ values ∧ accepts candidate ∧
      ∀ other ∈ values, accepts other → key candidate ≤ key other} value := by
  rcases firstLeast_cases accepts key values with
    ⟨nothing, -⟩ | ⟨before, least, after, foundLeast, rfl, isFirst⟩
  · rw [nothing] at found
    cases found
  · rw [foundLeast, Option.some.injEq] at found
    subst found
    refine ⟨⟨by simp, isFirst.accepted, fun other => isFirst.le⟩, ?_⟩
    rintro candidate ⟨member, accepted, isLeast⟩
    rcases mem_append.mp member with early | late
    · have less := isFirst.lt_before candidate early accepted
      exact absurd (isLeast least (by simp) isFirst.accepted) less.not_ge
    · rcases mem_cons.mp late with rfl | later
      · exact le_rfl
      · have behind := (pairwise_append.mp increasing).2.1
        exact ((pairwise_cons.mp behind).1 candidate later).le

theorem isLeast_scan (key : Nat → Key) (count : Nat) :
    IsLeast {index | index < count + 1 ∧ ∀ other < count + 1, key index ≤ key other}
      ((range' 1 count).foldl (fun least index =>
        if key index < key least then index else least) 0) := by
  have indices : range (count + 1) = 0 :: range' 1 count := by
    rw [range_eq_range', range'_succ]
  have found := firstLeast_cons key 0 (range' 1 count)
  rw [← indices] at found
  have least := isLeast_of_firstLeast pairwise_lt_range found
  simpa only [mem_range, true_and, forall_const] using least

section

variable {Measure : Type*} {measure : Value → Measure} {better : Measure → Measure → Bool}
  {keyOf : Measure → Key} {seed : Measure}

def keepBetter (accepts : Value → Bool) (measure : Value → Measure)
    (better : Measure → Measure → Bool) (best : Measure × Option Value) (value : Value) :
    Measure × Option Value :=
  if accepts value then
    if better (measure value) best.1 then (measure value, some value) else best
  else best

def KeptMeasure (measure : Value → Measure) (better : Measure → Measure → Bool)
    (seed : Measure) (best : Measure × Option Value) : Prop :=
  best = (seed, none) ∨ ∃ value, best = (measure value, some value) ∧ better (measure value) seed

section

variable (agrees : ∀ first second, better first second = decide (keyOf first < keyOf second))
include agrees

theorem keepBetter_spec
    {best : Measure × Option Value} (kept : KeptMeasure measure better seed best)
    (value : Value) :
    KeptMeasure measure better seed (keepBetter accepts measure better best value) ∧
      (keepBetter accepts measure better best value).2 =
        if accepts value && better (measure value) seed then
          keepLeast (fun value => keyOf (measure value)) best.2 value
        else best.2 := by
  cases accepted : accepts value with
  | false => simpa [keepBetter, accepted] using kept
  | true =>
    rcases kept with rfl | ⟨least, rfl, beats⟩
    · cases beatsSeed : better (measure value) seed with
      | false => simp [keepBetter, accepted, beatsSeed, KeptMeasure]
      | true =>
        refine ⟨.inr ⟨value, ?_, beatsSeed⟩, ?_⟩
        · simp [keepBetter, accepted, beatsSeed]
        · simp [keepBetter, accepted, beatsSeed, keepLeast]
    · cases beatsLeast : better (measure value) (measure least) with
      | false =>
        have notLess : ¬ keyOf (measure value) < keyOf (measure least) := by
          simpa [agrees] using beatsLeast
        refine ⟨.inr ⟨least, ?_, beats⟩, ?_⟩
        · simp [keepBetter, accepted, beatsLeast]
        · simp [keepBetter, accepted, beatsLeast, keepLeast, notLess]
      | true =>
        have less : keyOf (measure value) < keyOf (measure least) := by
          simpa [agrees] using beatsLeast
        have beatsSeed : better (measure value) seed := by
          rw [agrees, decide_eq_true_eq] at beats ⊢
          exact less.trans beats
        refine ⟨.inr ⟨value, ?_, beatsSeed⟩, ?_⟩
        · simp [keepBetter, accepted, beatsLeast]
        · simp [keepBetter, accepted, beatsLeast, beatsSeed, keepLeast, less]

theorem foldl_keepBetter (values : List Value) :
    (values.foldl (keepBetter accepts measure better) (seed, none)).2 =
      firstLeast (fun value => accepts value && better (measure value) seed)
        (fun value => keyOf (measure value)) values := by
  suffices scan : ∀ best, KeptMeasure measure better seed best →
      (values.foldl (keepBetter accepts measure better) best).2 = values.foldl (fun best value =>
          if accepts value && better (measure value) seed then
            keepLeast (fun value => keyOf (measure value)) best value
          else best) best.2 from scan (seed, none) (.inl rfl)
  induction values with
  | nil => exact fun _ _ => rfl
  | cons value values ih =>
    intro best kept
    obtain ⟨keptNext, same⟩ := keepBetter_spec agrees kept value
    rw [foldl_cons, foldl_cons, ih _ keptNext, same]

end

end

theorem firstLeast_zipIdx_cases (accepts : Value → Bool) (key : Value → Key) (values : List Value) :
    firstLeast (fun entry => accepts entry.1) (fun entry => key entry.1) values.zipIdx = none ∧
        (∀ value ∈ values, accepts value = false) ∨
      ∃ before value after,
        firstLeast (fun entry => accepts entry.1) (fun entry => key entry.1) values.zipIdx =
            some (value, before.length) ∧
          values = before ++ value :: after ∧ IsFirstLeast accepts key before value after := by
  rcases firstLeast_cases (fun entry : Value × Nat => accepts entry.1)
    (fun entry => key entry.1) values.zipIdx with ⟨nothing, rejected⟩ |
      ⟨beforeEntries, entry, afterEntries, found, split, isFirst⟩
  · refine .inl ⟨nothing, fun value member => ?_⟩
    obtain ⟨index, inside, rfl⟩ := mem_iff_getElem.mp member
    exact rejected (values[index], index) (mk_mem_zipIdx_iff_getElem?.mpr
      (getElem?_eq_getElem inside))
  · obtain ⟨before, rest, rfl, rfl, restSplit⟩ := zipIdx_eq_append_iff.mp split
    obtain ⟨value, after, rfl, rfl, rfl⟩ := zipIdx_eq_cons_iff.mp restSplit.symm
    refine .inr ⟨before, value, after, by simpa using found, rfl, isFirst.accepted, ?_, ?_⟩
    · intro other member
      obtain ⟨index, inside, rfl⟩ := mem_iff_getElem.mp member
      exact isFirst.lt_before (before[index], index) (mk_mem_zipIdx_iff_getElem?.mpr
        (getElem?_eq_getElem inside))
    · intro other member
      obtain ⟨index, inside, rfl⟩ := mem_iff_getElem.mp member
      refine isFirst.le_after (after[index], 0 + before.length + 1 + index) ?_
      exact mk_add_mem_zipIdx_iff_getElem?.mpr (getElem?_eq_getElem inside)

theorem IsFirstLeast.insertionSort_filter (isFirst : IsFirstLeast accepts key before value after) :
    ((before ++ value :: after).filter accepts).insertionSort
        (fun first second => key first ≤ key second) =
      value :: ((before ++ after).filter accepts).insertionSort
        fun first second => key first ≤ key second := by
  obtain ⟨accepted, lt_before, le_after⟩ := isFirst
  induction before with
  | nil =>
    rw [nil_append, filter_cons_of_pos accepted, insertionSort_cons_of_forall_rel]
    · rfl
    · intro other member
      obtain ⟨isAfter, isAccepted⟩ := mem_filter.mp member
      exact le_after other isAfter isAccepted
  | cons first before ih =>
    have sorted := ih fun other member => lt_before other (mem_cons_of_mem first member)
    rw [cons_append, cons_append]
    cases isAccepted : accepts first with
    | false =>
      have rejected : ¬ accepts first := by simp [isAccepted]
      rw [filter_cons_of_neg rejected, filter_cons_of_neg rejected]
      exact sorted
    | true =>
      rw [filter_cons_of_pos isAccepted, filter_cons_of_pos isAccepted,
        insertionSort_cons, insertionSort_cons, sorted]
      exact orderedInsert_of_not_le _ _
        (not_le.mpr (lt_before first mem_cons_self isAccepted))

end BitsAndBytes.SelectionSort
