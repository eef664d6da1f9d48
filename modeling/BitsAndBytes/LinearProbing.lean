import Mathlib.Order.Interval.Finset.Nat

/-! # Open addressing with linear probing -/

namespace BitsAndBytes.LinearProbing

open Function Finset

variable {Key : Type*} {capacity slot steps : Nat}

def probe (capacity : Nat) (stop : Nat → Bool) : Nat → Nat → Option Nat
  | 0, _ => none
  | bound + 1, slot =>
    if stop slot then some slot
    else probe capacity stop bound ((slot + 1) % capacity)

def distance (capacity start slot : Nat) : Nat :=
  (slot + (capacity - start)) % capacity

variable {start empty : Nat} {key : Key}

theorem distance_lt (nonempty : 0 < capacity) :
    distance capacity start slot < capacity := Nat.mod_lt _ nonempty

theorem add_distance_mod (startLt : start < capacity) (slotLt : slot < capacity) :
    (start + distance capacity start slot) % capacity = slot := by
  rw [distance, Nat.add_mod_mod]
  have total : start + (slot + (capacity - start)) = slot + capacity := by omega
  rw [total, Nat.add_mod_right, Nat.mod_eq_of_lt slotLt]

theorem distance_add_mod (startLt : start < capacity) (stepsLt : steps < capacity) :
    distance capacity start ((start + steps) % capacity) = steps := by
  rw [distance, Nat.mod_add_mod]
  have total : start + steps + (capacity - start) = steps + capacity := by omega
  rw [total, Nat.add_mod_right, Nat.mod_eq_of_lt stepsLt]

theorem probe_eq_of_first {stop : Nat → Bool} {bound : Nat} (startLt : start < capacity)
    (stepsLt : steps < bound) (stops : stop ((start + steps) % capacity))
    (earlier : ∀ passed < steps, stop ((start + passed) % capacity) = false) :
    probe capacity stop bound start = some ((start + steps) % capacity) := by
  induction steps generalizing start bound with
  | zero =>
    cases bound with
    | zero => omega
    | succ bound =>
      rw [Nat.add_zero, Nat.mod_eq_of_lt startLt] at stops
      rw [probe, if_pos stops, Nat.add_zero, Nat.mod_eq_of_lt startLt]
  | succ steps ih =>
    cases bound with
    | zero => omega
    | succ bound =>
      have passes := earlier 0 (by omega)
      rw [Nat.add_zero, Nat.mod_eq_of_lt startLt] at passes
      have shift : ∀ more, ((start + 1) % capacity + more) % capacity =
          (start + (more + 1)) % capacity := by
        intro more
        rw [Nat.mod_add_mod]
        congr 1
        omega
      rw [probe, if_neg (by simp [passes])]
      rw [← shift steps] at stops ⊢
      apply ih (Nat.mod_lt _ (by omega)) (by omega) stops
      intro passed passedLt
      rw [shift]
      exact earlier (passed + 1) (by omega)

theorem exists_first_of_stop (stop : Nat → Bool) (startLt : start < capacity)
    (slotLt : slot < capacity) (stops : stop slot) :
    ∃ steps, steps ≤ distance capacity start slot ∧
      probe capacity stop capacity start = some ((start + steps) % capacity) ∧
        stop ((start + steps) % capacity) ∧
          ∀ passed < steps, stop ((start + passed) % capacity) = false := by
  have stopsAt : ∃ steps, stop ((start + steps) % capacity) :=
    ⟨_, by rw [add_distance_mod startLt slotLt]; exact stops⟩
  have atMost : Nat.find stopsAt ≤ distance capacity start slot := by
    apply Nat.find_min'
    rw [add_distance_mod startLt slotLt]
    exact stops
  have first : ∀ passed < Nat.find stopsAt, stop ((start + passed) % capacity) = false := by
    intro passed passedLt
    simpa using Nat.find_min stopsAt passedLt
  refine ⟨Nat.find stopsAt, atMost, ?_, Nat.find_spec stopsAt, first⟩
  apply probe_eq_of_first startLt _ (Nat.find_spec stopsAt) first
  exact lt_of_le_of_lt atMost (distance_lt (by omega))

/-- No empty slot lies between the hashed slot of a key and the slot that holds it. -/
def Chained (capacity : Nat) (hash : Key → Nat) (keyAt : Nat → Option Key) :
    Prop :=
  ∀ slot < capacity, ∀ key, keyAt slot = some key → ∀ passed < distance capacity (hash key) slot,
      keyAt ((hash key + passed) % capacity) ≠ none

def Unique (capacity : Nat) (keyAt : Nat → Option Key) : Prop :=
  ∀ first < capacity, ∀ second < capacity, ∀ key,
    keyAt first = some key → keyAt second = some key → first = second

/-- The search for the key in `other` passes over `slot`. -/
def Crosses (capacity : Nat) (hash : Key → Nat) (keyAt : Nat → Option Key)
    (slot other : Nat) : Prop :=
  ∃ key, keyAt other = some key ∧
    distance capacity (hash key) slot < distance capacity (hash key) other

variable {hash : Key → Nat} {keyAt : Nat → Option Key}

theorem exists_empty {owners : Nat} (owner : Nat → Nat)
    (owned : ∀ slot < capacity, keyAt slot ≠ none → owner slot < owners)
    (different : ∀ first < capacity, ∀ second < capacity, keyAt first ≠ none → keyAt second ≠ none →
        owner first = owner second → first = second)
    (fewer : owners < capacity) : ∃ slot < capacity, keyAt slot = none := by
  by_contra full
  push Not at full
  have atMost : (range capacity).card ≤ (range owners).card := by
    apply card_le_card_of_injOn owner
    · intro slot member
      have slotLt := mem_range.mp member
      exact mem_coe.mpr (mem_range.mpr (owned slot slotLt (full slot slotLt)))
    · intro first firstMem second secondMem same
      have firstLt := mem_range.mp firstMem
      have secondLt := mem_range.mp secondMem
      exact different first firstLt second secondLt (full first firstLt)
        (full second secondLt) same
  simp only [card_range] at atMost
  omega

section

variable [DecidableEq Key]

def seeks (keyAt : Nat → Option Key) (key : Key) (slot : Nat) : Bool :=
  decide (keyAt slot = none ∨ keyAt slot = some key)

variable (hashLt : ∀ key, hash key < capacity)
include hashLt

theorem probe_of_stored (chained : Chained capacity hash keyAt) (unique : Unique capacity keyAt)
    (slotLt : slot < capacity) (stored : keyAt slot = some key) :
    probe capacity (seeks keyAt key) capacity (hash key) = some slot := by
  have nonempty : 0 < capacity := by omega
  have arrives := add_distance_mod (hashLt key) slotLt
  rw [← arrives]
  apply probe_eq_of_first (hashLt key) (distance_lt nonempty)
  · rw [arrives]
    simp [seeks, stored]
  · intro passed passedLt
    have occupied := chained slot slotLt key stored passed passedLt
    have notHere : keyAt ((hash key + passed) % capacity) ≠ some key := by
      intro also
      have same := unique _ (Nat.mod_lt _ nonempty) slot slotLt key also stored
      have steps := distance_add_mod (hashLt key) (lt_trans passedLt (distance_lt nonempty))
      rw [same] at steps
      omega
    simp [seeks, occupied, notHere]

theorem probe_of_absent (emptyLt : empty < capacity) (isEmpty : keyAt empty = none)
    (absent : ∀ slot < capacity, keyAt slot ≠ some key) :
    ∃ slot, probe capacity (seeks keyAt key) capacity (hash key) = some slot ∧
      keyAt slot = none := by
  have stopsEmpty : seeks keyAt key empty := by simp [seeks, isEmpty]
  obtain ⟨steps, -, found, stops, -⟩ := exists_first_of_stop _ (hashLt key) emptyLt stopsEmpty
  refine ⟨_, found, ?_⟩
  have nonempty : 0 < capacity := by omega
  have notHere := absent ((hash key + steps) % capacity) (Nat.mod_lt _ nonempty)
  simpa [seeks, notHere] using stops

theorem probe_of_crossed (unique : Unique capacity keyAt) (slotLt : slot < capacity)
    (emptyLt : empty < capacity) (stored : keyAt slot = some key) (isEmpty : keyAt empty = none)
    (crossed : distance capacity (hash key) empty < distance capacity (hash key) slot) :
    ∃ last, probe capacity (seeks keyAt key) capacity (hash key) = some last ∧
      keyAt last = none := by
  have stopsEmpty : seeks keyAt key empty := by simp [seeks, isEmpty]
  obtain ⟨steps, atMost, found, stops, -⟩ := exists_first_of_stop _ (hashLt key) emptyLt stopsEmpty
  refine ⟨_, found, ?_⟩
  have nonempty : 0 < capacity := by omega
  have notHere : keyAt ((hash key + steps) % capacity) ≠ some key := by
    intro also
    have same := unique _ (Nat.mod_lt _ nonempty) slot slotLt key also stored
    have stepsLt := lt_of_le_of_lt atMost (distance_lt nonempty)
    have reached := distance_add_mod (hashLt key) stepsLt
    rw [same] at reached
    omega
  simpa [seeks, notHere] using stops

end

theorem Chained.insert (chained : Chained capacity hash keyAt) (hashLt : ∀ key, hash key < capacity)
    (stepsLt : steps < capacity)
    (occupied : ∀ passed < steps, keyAt ((hash key + passed) % capacity) ≠ none) :
    Chained capacity hash (update keyAt ((hash key + steps) % capacity) (some key)) := by
  intro slot slotLt other stored passed passedLt
  by_cases target : (hash other + passed) % capacity = (hash key + steps) % capacity
  · rw [target, update_self]
    simp
  · rw [update_of_ne target]
    by_cases here : slot = (hash key + steps) % capacity
    · subst here
      rw [update_self] at stored
      cases stored
      rw [distance_add_mod (hashLt key) stepsLt] at passedLt
      exact occupied passed passedLt
    · rw [update_of_ne here] at stored
      exact chained slot slotLt other stored passed passedLt

theorem Chained.erase (chained : Chained capacity hash keyAt) (hashLt : ∀ key, hash key < capacity)
    (uncrossed : ∀ other < capacity, other ≠ slot → ¬ Crosses capacity hash keyAt slot other) :
    Chained capacity hash (update keyAt slot none) := by
  intro other otherLt key stored passed passedLt
  have different : other ≠ slot := by
    rintro rfl
    simp at stored
  rw [update_of_ne different] at stored
  have passedElsewhere : (hash key + passed) % capacity ≠ slot := by
    intro arrives
    apply uncrossed other otherLt different
    refine ⟨key, stored, ?_⟩
    rw [← arrives, distance_add_mod (hashLt key) (lt_trans passedLt (distance_lt (by omega)))]
    exact passedLt
  rw [update_of_ne passedElsewhere]
  exact chained other otherLt key stored passed passedLt

/-- No chain crosses the slot, or the new key fills it again. -/
def ReplacesSafely (capacity : Nat) (hash : Key → Nat)
    (keyAt : Nat → Option Key) (slot : Nat) (key : Key) : Prop :=
  (∀ other < capacity, other ≠ slot → ¬ Crosses capacity hash keyAt slot other) ∨
    ∀ passed < distance capacity (hash key) slot, keyAt ((hash key + passed) % capacity) ≠ none

section

variable {key : Key} (hashLt : ∀ key, hash key < capacity) (slotLt : slot < capacity)
  (stepsLt : steps < capacity)
  (isEmpty : update keyAt slot none ((hash key + steps) % capacity) = none)
  (occupied : ∀ passed < steps, update keyAt slot none ((hash key + passed) % capacity) ≠ none)
include hashLt slotLt stepsLt isEmpty occupied

theorem steps_eq_distance_of_reached (reached : ∀ passed < distance capacity (hash key) slot,
      keyAt ((hash key + passed) % capacity) ≠ none) :
    steps = distance capacity (hash key) slot := by
  have arrives := add_distance_mod (hashLt key) slotLt
  apply le_antisymm
  · by_contra past
    apply occupied (distance capacity (hash key) slot) (by omega)
    rw [arrives, update_self]
  · by_contra before
    have elsewhere : (hash key + steps) % capacity ≠ slot := by
      intro here
      have steps_eq := distance_add_mod (hashLt key) stepsLt
      rw [here] at steps_eq
      omega
    rw [update_of_ne elsewhere] at isEmpty
    exact reached steps (by omega) isEmpty

theorem Chained.replace (chained : Chained capacity hash keyAt)
    (safe : ReplacesSafely capacity hash keyAt slot key) :
    Chained capacity hash (update (update keyAt slot none)
      ((hash key + steps) % capacity) (some key)) := by
  rcases safe with uncrossed | reached
  · exact (chained.erase hashLt uncrossed).insert hashLt stepsLt occupied
  · have steps_eq := steps_eq_distance_of_reached hashLt slotLt stepsLt isEmpty occupied reached
    have filled := chained.insert hashLt (distance_lt (by omega)) reached
    rw [add_distance_mod (hashLt key) slotLt] at filled
    rw [steps_eq, add_distance_mod (hashLt key) slotLt, update_idem]
    exact filled

omit slotLt in
theorem exists_crossed_of_not_replacesSafely
    (unsafely : ¬ ReplacesSafely capacity hash keyAt slot key) :
    ∃ other < capacity, ∃ lost, update (update keyAt slot none)
          ((hash key + steps) % capacity) (some key) other = some lost ∧
        update (update keyAt slot none)
            ((hash key + steps) % capacity) (some key) slot = none ∧
          distance capacity (hash lost) slot < distance capacity (hash lost) other := by
  simp only [ReplacesSafely, not_or, not_forall, not_not] at unsafely
  obtain ⟨⟨other, otherLt, different, lost, stored, crosses⟩, passed, passedLt, gap⟩ := unsafely
  have gapElsewhere : (hash key + passed) % capacity ≠ slot := by
    intro here
    have passed_eq := distance_add_mod (hashLt key) (lt_trans passedLt (distance_lt (by omega)))
    rw [here] at passed_eq
    omega
  have atMost : steps ≤ passed := by
    by_contra past
    apply occupied passed (by omega)
    rw [update_of_ne gapElsewhere]
    exact gap
  have targetElsewhere : slot ≠ (hash key + steps) % capacity := by
    intro here
    have steps_eq := distance_add_mod (hashLt key) stepsLt
    rw [← here] at steps_eq
    omega
  have otherElsewhere : other ≠ (hash key + steps) % capacity := by
    intro here
    rw [← here, update_of_ne different, stored] at isEmpty
    cases isEmpty
  refine ⟨other, otherLt, lost, ?_, ?_, crosses⟩
  · rw [update_of_ne otherElsewhere, update_of_ne different]
    exact stored
  · rw [update_of_ne targetElsewhere, update_self]

end

end BitsAndBytes.LinearProbing
