import BitsAndBytes.CommandScheduling
import Mathlib.Data.Prod.Lex
import Mathlib.Order.WellFounded

/-! # Termination of the loop of `schedule_commands` -/

namespace BitsAndBytes.CommandScheduling

open OperationRuns Function List

variable {cmd : Command} {banks : Fin numBanks → BankState} {last state : State}

def Command.isPrecharge (cmd : Command) : Bool :=
  cmd.type = .precharge

/-- The first command misses, and no precharge will close the row that is open in its bank. -/
def Hopeless (state : State) : Prop :=
  ∃ cmd rest, state.queue.contents queueSize = cmd :: rest ∧ cmd.isAccess ∧
    (state.banks cmd.bank).isOpen ∧ (state.banks cmd.bank).openRow ≠ cmd.row ∧
      (∀ other ∈ rest, other.isPrecharge → other.bank ≠ cmd.bank) ∧ state.queue.size ≠ queueSize

def unprepared (isOpen : Fin numBanks → Bool) : List Command → Nat
  | [] => 0
  | cmd :: commands =>
    match cmd.type with
    | .activate => unprepared (update isOpen cmd.bank true) commands
    | .read | .write =>
      (if isOpen cmd.bank then 0 else 1) + unprepared isOpen commands
    | .precharge => unprepared isOpen commands

theorem unprepared_access (isAccess : cmd.isAccess) (isOpen : Fin numBanks → Bool)
    (commands : List Command) :
    unprepared isOpen (cmd :: commands) =
      (if isOpen cmd.bank then 0 else 1) + unprepared isOpen commands := by
  obtain ⟨type, bank, row, column⟩ := cmd
  cases type with
  | activate | precharge => cases isAccess
  | read => rfl
  | write => rfl

theorem unprepared_activate (cmd : Command) (isOpen : Fin numBanks → Bool)
    (commands : List Command) :
    unprepared isOpen (activateCommand cmd :: commands) =
      unprepared (update isOpen cmd.bank true) commands := rfl

theorem unprepared_append_activate (isOpen : Fin numBanks → Bool) (commands : List Command)
    (cmd : Command) :
    unprepared isOpen (commands ++ [activateCommand cmd]) = unprepared isOpen commands := by
  induction commands generalizing isOpen with
  | nil => rfl
  | cons first commands ih =>
    rw [cons_append, unprepared, unprepared]
    cases first.type <;> simp only [ih]

theorem unprepared_append_access (isOpen : Fin numBanks → Bool) (commands : List Command)
    (isAccess : cmd.isAccess) :
    unprepared isOpen (commands ++ [activateCommand cmd, cmd]) = unprepared isOpen commands := by
  induction commands generalizing isOpen with
  | nil =>
    rw [nil_append, unprepared_activate, unprepared_access isAccess, update_self]
    rfl
  | cons first commands ih =>
    rw [cons_append, unprepared, unprepared]
    cases first.type <;> simp only [ih]

theorem unprepared_putBack (isOpen : Fin numBanks → Bool) (rest : List Command)
    (isAccess : cmd.isAccess) :
    unprepared isOpen (putBack rest cmd) = unprepared isOpen rest := by
  rw [putBack]
  split
  · exact unprepared_append_activate isOpen rest cmd
  · exact unprepared_append_access isOpen rest isAccess

def weight (banks : Fin numBanks → BankState) (commands : List Command) : Nat :=
  commands.length + (accesses commands).length +
    2 * unprepared (fun bank => (banks bank).isOpen) commands

def rank (state : State) : ℕ ×ₗ ℕ :=
  let commands := state.queue.contents queueSize
  toLex (commands.countP Command.isPrecharge,
    if commands.countP Command.isPrecharge = 0 then weight state.banks commands
    else commands.findIdx Command.isPrecharge)

theorem isOpen_banksAfter_activate (isActivate : cmd.type = .activate) :
    (fun bank => (banksAfter banks cmd bank).isOpen) =
      update (fun bank => (banks bank).isOpen) cmd.bank true := by
  funext bank
  rw [banksAfter, isActivate]
  by_cases mine : bank = cmd.bank
  · subst mine
    rw [update_self]
    split
    · assumption
    · simp only [update_self]
  · rw [update_of_ne mine]
    split
    · rfl
    · simp only [update_of_ne mine]

theorem isPrecharge_of_isAccess (isAccess : cmd.isAccess) : cmd.isPrecharge = false := by
  obtain ⟨type, bank, row, column⟩ := cmd
  cases type with
  | activate => rfl
  | read => rfl
  | write => rfl
  | precharge => cases isAccess

theorem exists_putBack_eq (rest : List Command) (isAccess : cmd.isAccess) :
    ∃ extra, putBack rest cmd = rest ++ extra ∧ ∀ other ∈ extra, other.isPrecharge = false := by
  have activation : (activateCommand cmd).isPrecharge = false := rfl
  rw [putBack]
  split
  · exact ⟨[activateCommand cmd], rfl, by simp [activation]⟩
  · exact ⟨[activateCommand cmd, cmd], rfl, by simp [activation, isPrecharge_of_isAccess isAccess]⟩

section

variable {next : State} {rest extra : List Command}

theorem rank_lt_of_weight_lt (contents : state.queue.contents queueSize = cmd :: rest)
    (nextContents : next.queue.contents queueSize = rest ++ extra)
    (notPrecharge : cmd.isPrecharge = false)
    (extraNot : ∀ other ∈ extra, other.isPrecharge = false)
    (lighter : (∀ other ∈ rest, other.isPrecharge = false) →
      weight next.banks (rest ++ extra) < weight state.banks (cmd :: rest)) :
    rank next < rank state := by
  have extraCount : extra.countP Command.isPrecharge = 0 :=
    countP_eq_zero.mpr fun other member => by simp [extraNot other member]
  rw [rank, rank, contents, nextContents, Prod.Lex.toLex_lt_toLex, countP_append,
    extraCount, countP_cons_of_neg (by simp [notPrecharge]), Nat.add_zero]
  refine .inr ⟨rfl, ?_⟩
  split
  · rename_i none
    refine lighter fun other member => ?_
    simpa using countP_eq_zero.mp none other member
  · rename_i some
    have inside : rest.findIdx Command.isPrecharge < rest.length := by
      rw [findIdx_lt_length]
      exact countP_pos_iff.mp (Nat.pos_of_ne_zero some)
    rw [findIdx_append, if_pos inside, findIdx_cons, notPrecharge]
    exact Nat.lt_succ_self _

theorem weight_putBack_lt (isAccess : cmd.isAccess)
    (closedOrFull : (banks cmd.bank).isOpen = false ∨ (rest.length : Int) + 1 = queueSize) :
    weight banks (putBack rest cmd) < weight banks (cmd :: rest) := by
  rw [weight, weight, unprepared_putBack _ rest isAccess, unprepared_access isAccess,
    accesses_cons_of_isAccess isAccess, accesses_putBack isAccess, putBack]
  by_cases full : (rest.length : Int) + 1 = queueSize
  · simp only [if_pos full, length_append, length_cons, length_nil]
    omega
  · rw [closedOrFull.resolve_right full, if_neg Bool.false_ne_true]
    simp only [if_neg full, length_append, length_cons, length_nil]
    omega

theorem rank_lt (valid : state.queue.Valid queueSize) (iteration : Iteration state next)
    (hope : ¬ Hopeless state) : rank next < rank state := by
  cases iteration with
  | @perform cmd rest contents isAccess hit nextContents banks _ =>
    refine rank_lt_of_weight_lt contents (nextContents.trans (append_nil rest).symm)
      (isPrecharge_of_isAccess isAccess) nofun fun _ => ?_
    rw [append_nil, banks, weight, weight, unprepared_access isAccess,
      accesses_cons_of_isAccess isAccess, length_cons, length_cons]
    omega
  | @miss cmd rest contents isAccess missed nextContents banks _ =>
    obtain ⟨extra, putBackEq, extraNot⟩ := exists_putBack_eq rest isAccess
    refine rank_lt_of_weight_lt contents (nextContents.trans putBackEq)
      (isPrecharge_of_isAccess isAccess) extraNot fun noPrecharge => ?_
    rw [← putBackEq, banks]
    refine weight_putBack_lt isAccess ?_
    cases isOpen : (state.banks cmd.bank).isOpen with
    | false => exact .inl rfl
    | true =>
      right
      by_contra hasRoom
      refine hope ⟨cmd, rest, contents, isAccess, isOpen, ?_,
        fun other member isPrecharge => ?_, ?_⟩
      · rwa [isHit, isOpen, Bool.true_and, decide_eq_false_iff_not] at missed
      · rw [noPrecharge other member] at isPrecharge
        cases isPrecharge
      · rwa [← valid.length_contents, contents, length_cons, Nat.cast_add, Nat.cast_one]
  | @other cmd rest contents notAccess nextContents banks _ =>
    cases isType : cmd.type with
    | activate =>
      refine rank_lt_of_weight_lt contents (nextContents.trans (append_nil rest).symm)
        (by rw [Command.isPrecharge, isType]; rfl) nofun fun _ => ?_
      have sameAccesses : accesses (cmd :: rest) = accesses rest :=
        filter_cons_of_neg (by simp [notAccess])
      rw [append_nil, banks, weight, weight, isOpen_banksAfter_activate isType,
        unprepared, isType, sameAccesses, length_cons]
      simp only
      omega
    | read | write => simp [Command.isAccess, isType] at notAccess
    | precharge =>
      have isPrecharge : cmd.isPrecharge := by rw [Command.isPrecharge, isType]; rfl
      rw [rank, rank, contents, nextContents, Prod.Lex.toLex_lt_toLex,
        countP_cons_of_pos isPrecharge]
      exact .inl (Nat.lt_succ_self _)

end

theorem exists_end_of_hope (state : State) (valid : state.queue.Valid queueSize)
    (hope : ∀ n reached, Reaches step state (replicate n ()) reached → ¬ Hopeless reached) :
    ∃ n last, Reaches step state (replicate n ()) last ∧ last.queue.size = 0 := by
  induction bound : rank state using WellFoundedLT.induction generalizing state with
  | _ bound ih =>
    by_cases empty : state.queue.contents queueSize = []
    · exact ⟨0, state, reaches_nil.mpr rfl, valid.contents_eq_nil_iff.mp empty⟩
    · obtain ⟨next, stepEq, nextValid, iteration⟩ := exists_iteration valid empty
      have lower := rank_lt valid iteration (hope 0 state (reaches_nil.mpr rfl))
      obtain ⟨n, last, reached, done⟩ := ih (rank next) (bound ▸ lower) next nextValid
        (fun n reached fromNext => hope (n + 1) reached
          (reaches_cons.mpr ⟨next, (), stepEq, fromNext⟩)) rfl
      exact ⟨n + 1, last, reaches_cons.mpr ⟨next, (), stepEq, reached⟩, done⟩

/-- The command waits for a row that is never opened. -/
structure Waiting (cmd : Command) (state : State) : Prop where
  valid : state.queue.Valid queueSize
  isAccess : cmd.isAccess
  isOpen : (state.banks cmd.bank).isOpen
  openRow_ne : (state.banks cmd.bank).openRow ≠ cmd.row
  noPrecharge : ∀ other ∈ state.queue.contents queueSize, other.isPrecharge → other.bank ≠ cmd.bank
  queued : (∃ rest, state.queue.contents queueSize = cmd :: rest ∧ state.queue.size ≠ queueSize) ∨
    ∃ before after, state.queue.contents queueSize = before ++ activateCommand cmd :: cmd :: after

section

variable {next : State}

theorem Hopeless.waiting (hopeless : Hopeless state) (valid : state.queue.Valid queueSize) :
    ∃ cmd, Waiting cmd state := by
  obtain ⟨cmd, rest, contents, isAccess, isOpen, openRow_ne, noPrecharge, notFull⟩ := hopeless
  refine ⟨cmd, valid, isAccess, isOpen, openRow_ne, fun other member isPrecharge => ?_,
    .inl ⟨rest, contents, notFull⟩⟩
  rw [contents] at member
  rcases mem_cons.mp member with rfl | later
  · rw [isPrecharge_of_isAccess isAccess] at isPrecharge
    cases isPrecharge
  · exact noPrecharge other later isPrecharge

theorem banksAfter_of_isOpen {other : Command} {bank : Fin numBanks}
    (isOpen : (banks bank).isOpen)
    (noPrecharge : other.isPrecharge → other.bank ≠ bank) :
    banksAfter banks other bank = banks bank := by
  rw [banksAfter]
  cases isType : other.type with
  | read => rfl
  | write => rfl
  | activate =>
    split
    · rfl
    · rename_i closed
      refine update_of_ne ?_ _ _
      rintro rfl
      exact closed isOpen
  | precharge =>
    split
    · refine update_of_ne (noPrecharge ?_).symm _ _
      rw [Command.isPrecharge, isType]
      rfl
    · rfl

theorem Iteration.exists_extra (iteration : Iteration state next) :
    ∃ first rest extra, state.queue.contents queueSize = first :: rest ∧
      next.queue.contents queueSize = rest ++ extra ∧ (∀ other ∈ extra, other.isPrecharge = false) ∧
          (first.isAccess = false → extra = []) ∧ next.banks = banksAfter state.banks first := by
  cases iteration with
  | @perform first rest contents isAccess hit nextContents banks _ =>
    exact ⟨first, rest, [], contents, nextContents.trans (append_nil rest).symm, nofun,
      fun _ => rfl, banks.trans (banksAfter_of_isAccess isAccess).symm⟩
  | @miss first rest contents isAccess missed nextContents banks _ =>
    obtain ⟨extra, putBackEq, extraNot⟩ := exists_putBack_eq rest isAccess
    refine ⟨first, rest, extra, contents, nextContents.trans putBackEq, extraNot,
      fun notAccess => ?_, banks.trans (banksAfter_of_isAccess isAccess).symm⟩
    rw [isAccess] at notAccess
    cases notAccess
  | @other first rest contents notAccess nextContents banks _ =>
    exact ⟨first, rest, [], contents, nextContents.trans (append_nil rest).symm, nofun,
      fun _ => rfl, banks⟩

theorem Waiting.step (waiting : Waiting cmd state) (nextValid : next.queue.Valid queueSize)
    (iteration : Iteration state next) : Waiting cmd next := by
  obtain ⟨valid, isAccess, isOpen, openRow_ne, noPrecharge, queued⟩ := waiting
  have length := valid.length_contents
  have nextLength := nextValid.length_contents
  have size_le := valid.size_le
  obtain ⟨first, rest, extra, contents, nextContents, extraNot, extraNil, banks⟩ :=
    iteration.exists_extra
  have sameBank : next.banks cmd.bank = state.banks cmd.bank := by
    rw [banks]
    exact banksAfter_of_isOpen isOpen (noPrecharge first (contents ▸ mem_cons_self))
  refine ⟨nextValid, isAccess, sameBank ▸ isOpen, sameBank ▸ openRow_ne,
    fun other member isPrecharge => ?_, ?_⟩
  · rw [nextContents] at member
    rcases mem_append.mp member with early | late
    · exact noPrecharge other (contents ▸ mem_cons_of_mem first early) isPrecharge
    · rw [extraNot other late] at isPrecharge
      cases isPrecharge
  · rcases queued with ⟨others, front, notFull⟩ | ⟨before, after, split⟩
    · have missed : isHit state.banks cmd = false := by
        rw [isHit, isOpen, Bool.true_and, decide_eq_false openRow_ne]
      have putBackEq := (iteration.contents_of_miss front isAccess missed).1
      rw [front, length_cons, Nat.cast_add, Nat.cast_one] at length
      rw [putBack, if_neg (length ▸ notFull)] at putBackEq
      exact .inr ⟨others, [], putBackEq⟩
    · cases before with
      | nil =>
        cases contents.symm.trans split
        rw [extraNil rfl, append_nil] at nextContents
        refine .inl ⟨after, nextContents, ?_⟩
        rw [contents, length_cons] at length
        rw [nextContents] at nextLength
        omega
      | cons _ before =>
        cases contents.symm.trans split
        exact .inr ⟨before, after ++ extra, by simp [nextContents]⟩

theorem Waiting.size_ne_zero (waiting : Waiting cmd state) : state.queue.size ≠ 0 := by
  intro empty
  have nothing := waiting.valid.contents_eq_nil_iff.mpr empty
  rcases waiting.queued with ⟨rest, front, -⟩ | ⟨before, after, split⟩
  · cases nothing.symm.trans front
  · exact cons_ne_nil _ _ (append_eq_nil_iff.mp (split.symm.trans nothing)).2

theorem Hopeless.size_ne_zero (hopeless : Hopeless state)
    (valid : state.queue.Valid queueSize) {n : Nat}
    (reached : Reaches step state (replicate n ()) last) : last.queue.size ≠ 0 := by
  obtain ⟨cmd, waiting⟩ := hopeless.waiting valid
  refine (reached.invariant (Waiting cmd) ?_ waiting).size_ne_zero
  intro state op next out waiting stepEq
  obtain ⟨nextValid, iteration⟩ := iteration_of_step waiting.valid stepEq
  exact waiting.step nextValid iteration

end

theorem valid_of_reaches {ops : List Unit} (valid : state.queue.Valid queueSize)
    (reached : Reaches step state ops last) : last.queue.Valid queueSize :=
  reached.invariant (fun state => state.queue.Valid queueSize)
    (fun valid stepEq => (iteration_of_step valid stepEq).1) valid

theorem no_end_of_hopeless {reached : State} {m n : Nat} (valid : state.queue.Valid queueSize)
    (hopeless : Hopeless reached) (toReached : Reaches step state (replicate m ()) reached)
    (toLast : Reaches step state (replicate n ()) last) : last.queue.size ≠ 0 := by
  rcases Nat.lt_or_ge n m with earlier | later
  · obtain ⟨more, rfl⟩ := Nat.exists_eq_add_of_lt earlier
    rw [Nat.add_assoc, replicate_add, reaches_append] at toReached
    obtain ⟨middle, toMiddle, fromMiddle⟩ := toReached
    rw [toMiddle.unique toLast] at fromMiddle
    obtain ⟨next, out, stepEq, -⟩ := reaches_cons.mp fromMiddle
    intro empty
    exact step_ne_some_of_empty empty stepEq
  · obtain ⟨more, rfl⟩ := Nat.exists_eq_add_of_le later
    rw [replicate_add, reaches_append] at toLast
    obtain ⟨middle, toMiddle, fromMiddle⟩ := toLast
    rw [toMiddle.unique toReached] at fromMiddle
    exact hopeless.size_ne_zero (valid_of_reaches valid toReached) fromMiddle

/-- The loop of `schedule_commands` ends exactly if it comes to no hopeless state. -/
theorem loop_ends_iff_never_hopeless (state : State) (valid : state.queue.Valid queueSize) :
    (∃ n last, Reaches step state (replicate n ()) last ∧ last.queue.size = 0) ↔
      ∀ n reached, Reaches step state (replicate n ()) reached → ¬ Hopeless reached := by
  constructor
  · rintro ⟨n, last, toLast, empty⟩ m reached toReached hopeless
    exact no_end_of_hopeless valid hopeless toReached toLast empty
  · exact exists_end_of_hope state valid

theorem single_read_ends : ∃ state, state = start (fun _ => someRead) (fun _ => 0) [someRead] ∧
      state.queue.Valid queueSize ∧
      (∀ n reached, Reaches step state (replicate n ()) reached → ¬ Hopeless reached) ∧
        ∃ n last, Reaches step state (replicate n ()) last ∧ last.queue.size = 0 := by
  have valid := (orderly_start (fun _ => someRead) (fun _ => 0)
    (show (([someRead].length : Nat) : Int) ≤ queueSize by decide)).valid
  have never : ∀ n reached, Reaches step (start (fun _ => someRead) (fun _ => 0) [someRead])
      (replicate n ()) reached → ¬ Hopeless reached := by
    rintro n reached toReached ⟨cmd, rest, contents, isAccess, isOpen, openRow_ne, -, -⟩
    match n, toReached with
    | 0, toReached | 1, toReached =>
      obtain rfl := toReached.unique ⟨_, rfl⟩
      exact Bool.false_ne_true isOpen
    | 2, toReached =>
      obtain rfl := toReached.unique ⟨_, rfl⟩
      cases contents
      exact openRow_ne rfl
    | 3, toReached =>
      obtain rfl := toReached.unique ⟨_, rfl⟩
      cases contents
    | n + 4, ⟨_, runEq⟩ => cases runEq
  exact ⟨_, rfl, valid, never, (loop_ends_iff_never_hopeless _ valid).mpr never⟩

def otherRead : Command :=
  { someRead with row := 2000, column := 60 }

theorem two_rows_never_end :
    ¬ ∃ n last, Reaches step (start (fun _ => someRead) (fun _ => 0) [someRead, otherRead])
      (replicate n ()) last ∧ last.queue.size = 0 := by
  rintro ⟨n, last, toLast, empty⟩
  have valid := (orderly_start (fun _ => someRead) (fun _ => 0)
    (show (([someRead, otherRead].length : Nat) : Int) ≤ queueSize by decide)).valid
  have toReached : ∃ reached, Reaches step
      (start (fun _ => someRead) (fun _ => 0) [someRead, otherRead])
        (replicate 5 ()) reached ∧ Hopeless reached := by
    refine ⟨_, ⟨_, rfl⟩, otherRead, [], rfl, rfl, rfl, by decide, nofun, by decide⟩
  obtain ⟨reached, toReached, hopeless⟩ := toReached
  exact no_end_of_hopeless valid hopeless toReached toLast empty

end BitsAndBytes.CommandScheduling
