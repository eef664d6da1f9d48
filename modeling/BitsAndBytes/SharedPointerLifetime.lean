import BitsAndBytes.SharedPointer

/-! # The lifetime of a shared pointer -/

namespace BitsAndBytes.SharedPointer

open Interleaving OperationRuns Function List

variable {Thread : Type*}

def Call.givesUp : Call Thread → Bool
  | inc _ => false
  | dec => true

namespace Point

def adds : Point Thread → Bool
  | test call | lock call | fetch call => !call.givesUp
  | _ => false

def givesUp : Point Thread → Bool
  | test call | lock call | fetch call => call.givesUp
  | _ => false

def inside : Point Thread → Bool
  | fetch _ | unlock | unlockLast => true
  | _ => false

def finishing : Point Thread → Bool
  | unlockLast | delete | freeCount | destroyMutex | freePointer => true
  | _ => false

def deleted : Point Thread → Bool
  | freeCount | destroyMutex | freePointer => true
  | _ => false

theorem idle_or_finishing {point : Point Thread} (notAdding : point.adds = false)
    (notGiving : point.givesUp = false) (notUnlocking : point ≠ .unlock) :
    point = .idle ∨ point.finishing := by
  cases point with
  | idle => exact .inl rfl
  | unlock => exact absurd rfl notUnlocking
  | test call | lock call | fetch call =>
    rw [adds, Bool.not_eq_false'] at notAdding
    rw [givesUp, notAdding] at notGiving
    cases notGiving
  | _ => exact .inr rfl

end Point

/-- Nobody owns a reference or is about to give one up. -/
def Unreferenced (config : Config Thread (Pointer Thread) (Point Thread)) : Prop :=
  config.shared.owners = 0 ∧ ∀ t, (config.points t).givesUp = false

/-- An increment does not make `ref_count` wrap around. -/
def CountFits (config : Config Thread (Pointer Thread) (Point Thread)) : Op Thread → Prop
  | .call _ _ => True
  | .thread t => ∀ receiver, config.points t = .fetch (.inc receiver) →
      config.shared.refCount + 1 < sizeModulus

instance [Fintype Thread] [DecidableEq Thread]
    (config : Config Thread (Pointer Thread) (Point Thread)) :
    ∀ op, Decidable (CountFits config op)
  | .call _ _ => .isTrue trivial
  | .thread t => inferInstanceAs (Decidable (∀ _, config.points t = _ → _))

/-- The count is the number of references that are owned or not yet subtracted. -/
structure Counted (config : Config Thread (Pointer Thread) (Point Thread)) : Prop where
  mutex : Locks (fun point => point.inside) config.points config.shared.mutex
  references : Counts (fun t => (config.points t).givesUp)
    (config.shared.refCount - config.shared.owners.card)
  fits : config.shared.refCount < sizeModulus
  owner : ∀ {t}, (config.points t).adds → t ∈ config.shared.owners
  unlocked : config.shared.refCount = 0 → ∀ t, config.points t ≠ .unlock
  finishing : Counts (fun t => (config.points t).finishing)
    ((if config.shared.refCount = 0 then 1 else 0) -
      if config.shared.freed then 1 else 0)
  deleted : Counts (fun t => (config.points t).deleted)
    (config.shared.deleterCalls - if config.shared.freed then 1 else 0)

theorem one_lt_sizeModulus : 1 < sizeModulus :=
  Nat.one_lt_two_pow (by decide)

theorem fetchAdd_of_fits {count : Nat} (fits : count + 1 < sizeModulus) :
    fetchAdd count = count + 1 :=
  Nat.mod_eq_of_lt fits

theorem counted_start (creator : Thread) : Counted (start creator) where
  mutex := fun t => by simp [start, createShared, Point.inside]
  references := counts_zero fun _ => nofun
  fits := one_lt_sizeModulus
  owner := nofun
  unlocked := nofun
  finishing := counts_zero fun _ => nofun
  deleted := counts_zero fun _ => nofun

namespace Counted

variable {config next : Config Thread (Pointer Thread) (Point Thread)} {t : Thread}
  {pointer : Pointer Thread} {point : Point Thread}

variable (counted : Counted config)
include counted

theorem refCount_pos (uses : t ∈ config.shared.owners ∨ (config.points t).givesUp) :
    0 < config.shared.refCount := by
  have nonneg := counted.references.nonneg
  rcases uses with owns | gives
  · have := Multiset.card_pos_iff_exists_mem.mpr ⟨t, owns⟩
    omega
  · have := counted.references.pos gives
    omega

theorem of_refCount_zero (zero : config.shared.refCount = 0) : Unreferenced config ∧
      ∀ t, config.points t = .idle ∨ (config.points t).finishing := by
  have notUsed : ∀ t, ¬ (t ∈ config.shared.owners ∨ (config.points t).givesUp) :=
    fun t uses => absurd zero (counted.refCount_pos uses).ne'
  have notOwned : ∀ t, t ∉ config.shared.owners := fun t owns => notUsed t (.inl owns)
  have notGiven : ∀ t, (config.points t).givesUp = false :=
    fun t => Bool.eq_false_iff.mpr fun gives => notUsed t (.inr gives)
  refine ⟨⟨Multiset.eq_zero_of_forall_notMem notOwned, notGiven⟩, fun t => ?_⟩
  have notAdding : (config.points t).adds = false :=
    Bool.eq_false_iff.mpr fun adds => notOwned t (counted.owner adds)
  exact Point.idle_or_finishing notAdding (notGiven t) (counted.unlocked zero t)

theorem of_finishing (finishes : (config.points t).finishing) :
    config.shared.refCount = 0 ∧ config.shared.freed = false := by
  have positive := counted.finishing.pos finishes
  refine ⟨?_, ?_⟩
  · by_contra notZero
    split at positive <;> omega
  · by_contra isFreed
    rw [Bool.not_eq_false] at isFreed
    split at positive <;> omega

theorem refCount_of_freed (freed : config.shared.freed) : config.shared.refCount = 0 := by
  have nonneg := counted.finishing.nonneg
  by_contra notZero
  rw [if_neg notZero, if_pos freed] at nonneg
  omega

theorem fetchSub_of_givesUp (gives : (config.points t).givesUp) :
    fetchSub config.shared.refCount = config.shared.refCount - 1 := by
  have positive := counted.refCount_pos (.inr gives)
  have fits := counted.fits
  have wraps : config.shared.refCount + (sizeModulus - 1) =
      config.shared.refCount - 1 + sizeModulus := by omega
  rw [fetchSub, wraps, Nat.add_mod_right, Nat.mod_eq_of_lt (by omega)]

theorem deleterCalls_le_one : config.shared.deleterCalls ≤ 1 := by
  have fewer := counted.deleted.le_of_imp counted.finishing fun t isDeleted => by
    generalize config.points t = point at isDeleted ⊢
    cases point <;> first | rfl | cases isDeleted
  split at fewer <;> omega

theorem freed_of_idle (noOwner : config.shared.owners = 0)
    (allIdle : ∀ t, config.points t = .idle) :
    config.shared.freed := by
  have noReference := counted.references.eq_zero fun t => by
    rw [allIdle]
    exact nofun
  have noFinisher := counted.finishing.eq_zero fun t => by
    rw [allIdle]
    exact nofun
  rw [noOwner, Multiset.card_zero] at noReference
  rw [if_pos (by omega)] at noFinisher
  by_contra notFreed
  rw [if_neg notFreed] at noFinisher
  cases noFinisher

variable [DecidableEq Thread]

section

variable (moved : Moves t config.shared (config.points t) pointer point)
include moved

theorem mutex_of_moves :
    Locks (fun point => point.inside) (update config.points t point)
      pointer.mutex := by
  have locks := counted.mutex
  generalize before : config.points t = previous at moved
  cases moved with
  | lock free => exact Locks.acquire (free ▸ locks) rfl
  | unlock | unlockLast => exact locks.release (by rw [before]; rfl) nofun
  | _ => exact locks.keep (by rw [before]; exact Iff.rfl)

theorem references_of_moves (noWrap : CountFits config (.thread t)) :
    (pointer.refCount - pointer.owners.card : Int) =
      (config.shared.refCount - config.shared.owners.card) + (if point.givesUp then 1 else 0) -
          if (config.points t).givesUp then 1 else 0 := by
  have subtracted := counted.fetchSub_of_givesUp (t := t)
  have positive := counted.refCount_pos (t := t)
  rw [CountFits] at noWrap
  generalize config.points t = previous at moved noWrap subtracted positive
  cases moved with
  | test | lock => exact (Int.add_sub_cancel _ _).symm
  | beginDec owns =>
    have someOwner := Multiset.card_pos_iff_exists_mem.mpr ⟨t, owns⟩
    simp only [Point.givesUp, Call.givesUp, Multiset.card_erase_of_mem owns,
      Nat.pred_eq_sub_one, if_true, Bool.false_eq_true, if_false]
    omega
  | fetchAdd =>
    have added := fetchAdd_of_fits (noWrap _ rfl)
    simp only [Point.givesUp, Call.givesUp, added, Multiset.card_cons, Bool.false_eq_true, if_false]
    omega
  | fetchLast =>
    simp only [Point.givesUp, Call.givesUp, subtracted rfl, if_true, Bool.false_eq_true, if_false]
    omega
  | fetchSub =>
    have := positive (.inr rfl)
    simp only [Point.givesUp, Call.givesUp, subtracted rfl, if_true, Bool.false_eq_true, if_false]
    omega
  | _ => simp [Point.givesUp, Call.givesUp]

theorem owner_of_moves {s : Thread}
    (adds : (update config.points t point s).adds) : s ∈ pointer.owners := by
  by_cases mine : s = t
  · subst mine
    rw [update_self] at adds
    have here := counted.owner (t := s)
    generalize config.points s = previous at moved here
    cases moved with
    | beginInc owns => exact owns
    | test | lock => exact here adds
    | _ => cases adds
  · rw [update_of_ne mine] at adds
    have owned := counted.owner adds
    generalize config.points t = previous at moved
    cases moved with
    | beginDec => exact (Multiset.mem_erase_of_ne mine).mpr owned
    | fetchAdd => exact Multiset.mem_cons_of_mem owned
    | _ => exact owned

theorem unlocked_of_moves (noWrap : CountFits config (.thread t)) (zero : pointer.refCount = 0)
    (s : Thread) : update config.points t point s ≠ .unlock := by
  have unlocked := counted.unlocked
  have locks := counted.mutex
  have subtracted := counted.fetchSub_of_givesUp (t := t)
  have positive := counted.refCount_pos (t := t)
  have keeps : config.shared.refCount = 0 → point ≠ .unlock →
      update config.points t point s ≠ .unlock := by
    intro before notHere
    by_cases mine : s = t
    · subst mine
      rwa [update_self]
    · rw [update_of_ne mine]
      exact unlocked before s
  rw [CountFits] at noWrap
  generalize before : config.points t = previous at moved noWrap subtracted positive
  cases moved with
  | fetchAdd =>
    have added := fetchAdd_of_fits (noWrap _ rfl)
    simp only [added] at zero
    omega
  | fetchLast one =>
    intro there
    have mine : s = t := by
      by_contra other
      rw [update_of_ne other] at there
      exact other (locks.unique (by rw [there]; rfl) (by rw [before]; rfl))
    subst mine
    rw [update_self] at there
    cases there
  | fetchSub notOne =>
    have := positive (.inr rfl)
    simp only [subtracted rfl] at zero
    omega
  | _ => exact keeps zero nofun

theorem fits_of_moves : pointer.refCount < sizeModulus := by
  have fits := counted.fits
  have positive : 0 < sizeModulus := Nat.zero_lt_of_lt one_lt_sizeModulus
  generalize config.points t = previous at moved
  cases moved with
  | fetchAdd | fetchLast | fetchSub => exact Nat.mod_lt _ positive
  | _ => exact fits

theorem finishing_of_moves (noWrap : CountFits config (.thread t)) :
    ((if pointer.refCount = 0 then 1 else 0) -
        if pointer.freed then 1 else 0 : Int) =
      ((if config.shared.refCount = 0 then 1 else 0) -
          if config.shared.freed then 1 else 0) +
        (if point.finishing then 1 else 0) -
          if (config.points t).finishing then 1 else 0 := by
  have subtracted := counted.fetchSub_of_givesUp (t := t)
  have positive := counted.refCount_pos (t := t)
  have owner := counted.owner (t := t)
  have notFreed := counted.of_finishing (t := t)
  rw [CountFits] at noWrap
  generalize config.points t = previous at moved noWrap subtracted positive owner notFreed
  cases moved with
  | fetchAdd =>
    have added := fetchAdd_of_fits (noWrap _ rfl)
    have before := (positive (.inl (owner rfl))).ne'
    simp [Point.finishing, added, before]
  | fetchLast one =>
    have before : config.shared.refCount ≠ 0 := by omega
    have after : fetchSub config.shared.refCount = 0 := by rw [subtracted rfl, one]
    simp only [Point.finishing, if_pos after, if_neg before, if_true, Bool.false_eq_true, if_false]
    omega
  | fetchSub notOne =>
    have before := (positive (.inr rfl)).ne'
    have after : config.shared.refCount - 1 ≠ 0 := by omega
    simp only [Point.finishing, subtracted rfl, before, after]
    simp
  | freePointer => simp [Point.finishing, (notFreed rfl).2]
  | _ => simp [Point.finishing]

theorem deleted_of_moves :
    (pointer.deleterCalls - if pointer.freed then 1 else 0 : Int) =
      (config.shared.deleterCalls - if config.shared.freed then 1 else 0) +
        (if point.deleted then 1 else 0) -
          if (config.points t).deleted then 1 else 0 := by
  have notFreed := counted.of_finishing (t := t)
  generalize config.points t = previous at moved notFreed
  cases moved with
  | delete =>
    simp [Point.deleted]
    omega
  | freePointer => simp [Point.deleted, (notFreed rfl).2]
  | _ => simp [Point.deleted]

end

theorem step {op : Op Thread} {out : Unit} (fits : CountFits config op)
    (stepEq : SharedPointer.step config op = some (next, out)) : Counted next := by
  obtain ⟨pointer, point, moved, rfl⟩ := step_cases stepEq
  have noWrap : CountFits config (.thread op.actor) := by
    cases op with
    | call t call =>
      intro receiver there
      rw [SharedPointer.step, Option.ite_none_right_eq_some] at stepEq
      cases stepEq.1.symm.trans there
    | thread t => exact fits
  exact
    { mutex := counted.mutex_of_moves moved
      references := by
        rw [counted.references_of_moves moved noWrap]
        exact counted.references.update fun point : Point Thread => point.givesUp
      fits := counted.fits_of_moves moved
      owner := counted.owner_of_moves moved
      unlocked := counted.unlocked_of_moves moved noWrap
      finishing := by
        rw [counted.finishing_of_moves moved noWrap]
        exact counted.finishing.update fun point : Point Thread => point.finishing
      deleted := by
        rw [counted.deleted_of_moves moved]
        exact counted.deleted.update fun point : Point Thread => point.deleted }

theorem stopped_of_freed (freed : config.shared.freed) (op : Op Thread) :
    SharedPointer.step config op = none := by
  obtain ⟨⟨noOwner, -⟩, places⟩ := counted.of_refCount_zero (counted.refCount_of_freed freed)
  have allIdle : ∀ t, config.points t = .idle := by
    intro t
    refine (places t).resolve_right fun finishes => ?_
    have notFreed := (counted.of_finishing finishes).2
    rw [freed] at notFreed
    cases notFreed
  have noneOwns : ∀ t, t ∉ config.shared.owners := fun t => noOwner ▸ Multiset.notMem_zero t
  cases op with
  | call t call =>
    rw [SharedPointer.step, if_pos (allIdle t)]
    cases call with
    | inc receiver | dec => rw [begin, if_neg (noneOwns t)]; rfl
  | thread t =>
    rw [SharedPointer.step, allIdle t]
    rfl

end Counted

/-- Unless the count wraps, the deleter is called once, when no reference remains. -/
theorem deleted_once_when_unreferenced [DecidableEq Thread] (creator : Thread)
    (schedule : List (Op Thread)) (config : Config Thread (Pointer Thread) (Point Thread))
    (reached : Reaches step (start creator) schedule config)
    (fits : Respects step CountFits (start creator) schedule) :
    config.shared.deleterCalls ≤ 1 ∧
    (∀ t, config.points t = .delete → Unreferenced config) ∧
    (config.shared.owners = 0 → (∀ t, config.points t = .idle) → config.shared.deleterCalls = 1) ∧
    (config.shared.freed → ∀ op, step config op = none) := by
  have counted : Counted config :=
    reached.guardedInvariant Counted (fun counted fits stepEq => counted.step fits stepEq)
      fits (counted_start creator)
  refine ⟨counted.deleterCalls_le_one, ?_, ?_, counted.stopped_of_freed⟩
  · intro t there
    have finishes : (config.points t).finishing := by
      rw [there]
      rfl
    exact (counted.of_refCount_zero (counted.of_finishing finishes).1).1
  · intro noOwner allIdle
    have deleted := counted.deleted.eq_zero fun t => by
      rw [allIdle]
      exact nofun
    rw [if_pos (counted.freed_of_idle noOwner allIdle)] at deleted
    omega

def shareAndDrop : List (Op Bool) :=
  .call false (.inc true) :: replicate 4 (.thread false) ++
    [.call false .dec, .call true .dec, .thread false, .thread true] ++
      replicate 3 (.thread false) ++ replicate 7 (.thread true)

theorem deleted_after_last_of_two_references :
    ∃ config, Reaches step (start false) shareAndDrop config ∧ config.shared.deleterCalls = 1 := by
  refine ⟨_, ⟨_, rfl⟩, ?_⟩
  exact (deleted_once_when_unreferenced false shareAndDrop _ ⟨_, rfl⟩ (by decide)).2.2.1
    (by decide) (by decide)

section

def resting (refCount : Nat) (owners : Multiset Unit) :
    Config Unit (Pointer Unit) (Point Unit) where
  shared := ⟨none, refCount, 0, false, owners⟩
  points := fun _ => .idle

def incCall : List (Op Unit) :=
  .call () (.inc ()) :: replicate 4 (.thread ())

def decCall : List (Op Unit) :=
  .call () .dec :: replicate 5 (.thread ())

theorem reaches_inc (refCount : Nat) {owners : Multiset Unit} (owns : () ∈ owners) :
    Reaches step (resting refCount owners) incCall
      (resting (fetchAdd refCount) (() ::ₘ owners)) := by
  have begins : begin () (resting refCount owners).shared (.inc ()) =
      some (resting refCount owners).shared := if_pos owns
  refine reaches_cons.mpr
    ⟨⟨(resting refCount owners).shared, fun _ => .test (.inc ())⟩, (), ?_, ⟨_, rfl⟩⟩
  rw [step, if_pos (by rfl), begins]
  rfl

theorem reaches_delete {owners : Multiset Unit} (owns : () ∈ owners) :
    Reaches step (resting 1 owners) decCall
      ⟨⟨none, fetchSub 1, 1, false, owners.erase ()⟩, fun _ => .freeCount⟩ := by
  have begins : begin () (resting 1 owners).shared .dec =
      some ⟨none, 1, 0, false, owners.erase ()⟩ := if_pos owns
  refine reaches_cons.mpr
    ⟨⟨⟨none, 1, 0, false, owners.erase ()⟩, fun _ => .test .dec⟩, (), ?_, ⟨_, rfl⟩⟩
  rw [step, if_pos (by rfl), begins]
  rfl

theorem reaches_incs (count : Nat) : Reaches step (start ()) (replicate count incCall).flatten
      (resting ((count + 1) % sizeModulus) (Multiset.replicate (count + 1) ())) := by
  induction count with
  | zero =>
    exact reaches_nil.mpr rfl
  | succ count ih =>
    have owns : () ∈ Multiset.replicate (count + 1) () :=
      Multiset.mem_replicate.mpr ⟨Nat.succ_ne_zero count, rfl⟩
    have counted : fetchAdd ((count + 1) % sizeModulus) = (count + 1 + 1) % sizeModulus :=
      Nat.mod_add_mod _ _ _
    have last := reaches_inc ((count + 1) % sizeModulus) owns
    rw [counted, ← Multiset.replicate_succ] at last
    rw [replicate_succ', flatten_append, flatten_singleton, reaches_append]
    exact ⟨_, ih, last⟩

theorem deleter_called_with_references : ∃ config, Reaches step (start ())
        ((replicate sizeModulus incCall).flatten ++ decCall) config ∧
      config.shared.deleterCalls = 1 ∧ config.shared.owners.card = sizeModulus := by
  have owns : () ∈ Multiset.replicate (sizeModulus + 1) () :=
    Multiset.mem_replicate.mpr ⟨Nat.succ_ne_zero _, rfl⟩
  have incs := reaches_incs sizeModulus
  refine ⟨_, reaches_append.mpr ⟨_, incs, reaches_delete owns⟩, rfl, ?_⟩
  rw [Multiset.card_erase_of_mem owns, Multiset.card_replicate]
  rfl

end

end BitsAndBytes.SharedPointer
