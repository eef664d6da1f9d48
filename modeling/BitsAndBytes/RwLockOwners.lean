import BitsAndBytes.RwLockSafety

/-! # Who unlocks `write_lock` -/

namespace BitsAndBytes.RwLock

open Interleaving OperationRuns Function List

variable {Thread : Type*}

/-- The next step of the thread unlocks `write_lock`. -/
def UnlocksWrite (config : Config Thread (Lock Thread) Point) (t : Thread) : Prop :=
  config.points t = .unlockLast ∨ config.points t = .writing

/-- A reader that has locked `write_lock` decrements `read_count` only from 1. -/
def OwnerLeavesLast (config : Config Thread (Lock Thread) Point) (t : Thread) :
    Prop :=
  config.points t = .decrement → config.shared.writeLock = some t → config.shared.readCount = 1

/-- While readers hold `write_lock`, its owner is one of them. -/
def OwnedByReader (config : Config Thread (Lock Thread) Point) : Prop :=
  ∀ t, holdsForReaders config.shared.readCount (config.points t) →
    ∃ owner, config.shared.writeLock = some owner ∧
      holdsForReaders config.shared.readCount (config.points owner)

variable {config : Config Thread (Lock Thread) Point} {lock : Lock Thread}
  {t : Thread} {point : Point}

theorem owner_of_unlocksWrite (sound : Sound config) (owned : OwnedByReader config)
    (unlocks : UnlocksWrite config t) : config.shared.writeLock = some t := by
  rcases unlocks with last | writes
  · obtain ⟨owner, ownerEq, ownerHolds⟩ := owned t (by simp [last, holdsForReaders])
    rw [← sound.eq_of_unlockLast last ownerHolds]
    exact ownerEq
  · exact sound.writer writes

variable [DecidableEq Thread]

instance (config : Config Thread (Lock Thread) Point) (t : Thread) :
    Decidable (OwnerLeavesLast config t) :=
  inferInstanceAs (Decidable (_ → _ → _))

theorem ownedByReader_of_moves (sound : Sound config) (owned : OwnedByReader config)
    (leavesLast : OwnerLeavesLast config t)
    (moved : Moves t config.shared (config.points t) lock point) :
    OwnedByReader ⟨lock, update config.points t point⟩ := by
  intro s held
  by_cases locking : config.points t = .lockFirst
  · rw [locking] at moved
    cases moved with
    | lockFirst free => exact ⟨t, rfl, by simp [holdsForReaders]⟩
  obtain ⟨r, before⟩ := sound.holds_before moved locking held
  obtain ⟨owner, ownerEq, ownerHolds⟩ := owned r before
  by_cases same : owner = t
  · subst same
    generalize pointEq : config.points owner = previous at moved
    cases moved with
    | enter | reading | isLast => exact ⟨owner, ownerEq, by simp [holdsForReaders]⟩
    | decrement =>
      have one := leavesLast pointEq ownerEq
      exact ⟨owner, ownerEq, by simp [holdsForReaders, one]⟩
    | notLast notZero =>
      rw [pointEq] at ownerHolds
      exact absurd ownerHolds notZero
    | unlockLast =>
      by_cases mine : s = owner
      · subst mine
        simp [holdsForReaders] at held
      · simp only [update_of_ne mine] at held
        exact absurd (sound.eq_of_unlockLast pointEq held) mine
    | _ => simp [pointEq, holdsForReaders] at ownerHolds
  · have stays : holdsForReaders lock.readCount (update config.points t point owner) := by
      rw [update_of_ne same]
      by_cases inside : insideCounter (config.points owner)
      · rw [readCount_of_moves sound.counter moved same inside]
        exact ownerHolds
      · rw [eq_reading_of_holdsForReaders ownerHolds inside]
        trivial
    refine ⟨owner, ?_, stays⟩
    generalize pointEq : config.points t = previous at moved
    cases moved with
    | lockFirst => exact absurd pointEq locking
    | writeLock free => simp [free] at ownerEq
    | unlockLast => exact absurd (sound.eq_of_unlockLast pointEq ownerHolds) same
    | writing => exact absurd pointEq (sound.not_writing ownerHolds)
    | _ => exact ownerEq

/-- If the reader that locked `write_lock` leaves last, every unlock is its owner's. -/
theorem unlocks_by_owner_of_owner_leaving_last (role : Thread → Role)
    (schedule : List Thread)
    (leavesLast : Respects step OwnerLeavesLast (start role) schedule)
    (config : Config Thread (Lock Thread) Point)
    (reached : Reaches step (start role) schedule config) {t : Thread}
    (unlocks : UnlocksWrite config t) : config.shared.writeLock = some t := by
  have initially : OwnedByReader (start role) := by
    intro t held
    cases roleEq : role t <;> simp [start, roleEq, Role.start, holdsForReaders] at held
  have kept : Sound config ∧ OwnedByReader config := by
    refine reached.guardedInvariant
      (fun config => Sound config ∧ OwnedByReader config) ?_ leavesLast
      ⟨sound_start role, initially⟩
    intro config t next out inv leaves stepEq
    obtain ⟨lock, point, moved, rfl⟩ := moves_of_step stepEq
    exact ⟨inv.1.moves moved, ownedByReader_of_moves inv.1 inv.2 leaves moved⟩
  exact owner_of_unlocksWrite kept.1 kept.2 unlocks

def firstLeavesLast : List Bool :=
  replicate 5 false ++ replicate 8 true ++ replicate 3 false

theorem unlocks_by_owner_of_two_readers : ∃ config : Config Bool (Lock Bool) Point,
      Reaches step (start fun _ => .reader) firstLeavesLast config ∧
        UnlocksWrite config false ∧ config.shared.writeLock = some false := by
  refine ⟨_, ⟨_, rfl⟩, .inl rfl, ?_⟩
  exact unlocks_by_owner_of_owner_leaving_last (fun _ => .reader) firstLeavesLast (by decide) _
    ⟨_, rfl⟩ (.inl rfl)

theorem second_reader_unlocks_for_first :
    ¬ ∀ (schedule : List (Fin 2)) (config : Config (Fin 2) (Lock (Fin 2)) Point),
      Reaches step (start fun _ => .reader) schedule config →
        ∀ t, UnlocksWrite config t → config.shared.writeLock = some t := by
  intro always
  have wrong := always (replicate 5 0 ++ replicate 4 1 ++
    replicate 4 0 ++ replicate 3 1) _ ⟨_, rfl⟩ 1 (.inl rfl)
  exact absurd wrong (by decide)

end BitsAndBytes.RwLock
