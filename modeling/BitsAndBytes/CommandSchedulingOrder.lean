import BitsAndBytes.CommandSchedulingTermination

/-! # The order in which `schedule_commands` performs reads and writes -/

namespace BitsAndBytes.CommandScheduling

open OperationRuns Function List

abbrev Numbered := Command × Nat

structure NumberedState where
  queue : List Numbered
  banks : Fin numBanks → BankState
  performed : List Numbered

def putBackNumbered (rest : List Numbered) (cmd : Numbered) : List Numbered :=
  if (rest.length : Int) + 1 = queueSize then
    rest ++ [(activateCommand cmd.1, cmd.2)]
  else
    rest ++ [(activateCommand cmd.1, cmd.2), cmd]

def numberedStep (state : NumberedState) (_ : Unit) : Option (NumberedState × Unit) :=
  match state.queue with
  | [] => none
  | cmd :: rest =>
    if cmd.1.isAccess then
      if isHit state.banks cmd.1 then
        some ({ state with queue := rest, performed := state.performed ++ [cmd] }, ())
      else
        some ({ state with queue := putBackNumbered rest cmd }, ())
    else
      some ({ state with queue := rest, banks := banksAfter state.banks cmd.1 }, ())

def numberedStart (rows : Fin numBanks → UInt32) (accepted : List Command) : NumberedState where
  queue := accepted.zipIdx
  banks := fun bank => ⟨false, rows bank⟩
  performed := []

structure Represents (state : State) (numbered : NumberedState) : Prop where
  valid : state.queue.Valid queueSize
  contents : state.queue.contents queueSize = numbered.queue.map Prod.fst
  banks : state.banks = numbered.banks
  performed : state.performed = numbered.performed.map Prod.fst

def numberedAccesses (commands : List Numbered) : List Numbered :=
  commands.filter fun cmd => cmd.1.isAccess

def SameAddress (cmd other : Command) : Prop :=
  cmd.bank = other.bank ∧ cmd.row = other.row ∧ cmd.column = other.column

/-- Two accesses of one address are in the order of their numbers. -/
def Ordered (earlier later : Numbered) : Prop :=
  SameAddress earlier.1 later.1 → earlier.2 < later.2

/-- Accesses of one address were performed in their order. -/
def InOrder (performed : List Numbered) : Prop :=
  performed.Pairwise Ordered

instance (cmd other : Command) : Decidable (SameAddress cmd other) :=
  inferInstanceAs (Decidable (_ ∧ _ ∧ _))

/-- The banks, the size of the queue and the activations put back, during the first pass. -/
structure Pass where
  banks : Fin numBanks → BankState
  size : Int
  activations : List Command

def Pass.next (pass : Pass) (cmd : Command) : Pass :=
  if cmd.isAccess then
    if isHit pass.banks cmd then
      { pass with size := pass.size - 1 }
    else
      { pass with
        size := if pass.size = queueSize then queueSize else pass.size + 1
        activations := pass.activations ++ [activateCommand cmd] }
  else
    { pass with banks := banksAfter pass.banks cmd, size := pass.size - 1 }

section

variable (rows : Fin numBanks → UInt32) (accepted : List Command)

/-- The first pass when it comes to the command with the given index. -/
def passBefore (index : Nat) : Pass :=
  (accepted.take index).foldl Pass.next ⟨fun bank => ⟨false, rows bank⟩, accepted.length, []⟩

/-- The access finds its row open in the first pass. -/
def hitsAtOnce (cmd : Numbered) : Bool :=
  cmd.1.isAccess && isHit (passBefore rows accepted cmd.2).banks cmd.1

/-- The access finds its row closed in the first pass, and there is room to put it back. -/
def waits (cmd : Numbered) : Bool :=
  cmd.1.isAccess && !isHit (passBefore rows accepted cmd.2).banks cmd.1 &&
    decide ((passBefore rows accepted cmd.2).size ≠ queueSize)

/-- The rows that are open after the first pass or opened by the activations put back in it. -/
def rowsOpened : Fin numBanks → BankState :=
  (passBefore rows accepted accepted.length).activations.foldl banksAfter
    (passBefore rows accepted accepted.length).banks

/-- No access that is put back, with a row that is opened later, is followed by one of the same
address that finds the row open in the first pass. -/
def NoneOvertaken : Prop :=
  ∀ earlier ∈ accepted.zipIdx, ∀ later ∈ accepted.zipIdx, earlier.2 < later.2 →
    SameAddress earlier.1 later.1 → waits rows accepted earlier →
      isHit (rowsOpened rows accepted) earlier.1 → hitsAtOnce rows accepted later = false

/-- The first pass has come to the command with index `count` and has put `back` behind the
rest. -/
structure FirstPass (count : Nat) (state : NumberedState) (back : List Numbered) : Prop where
  queue_eq : state.queue = accepted.zipIdx.drop count ++ back
  banks_eq : state.banks = (passBefore rows accepted count).banks
  size_eq : (state.queue.length : Int) = (passBefore rows accepted count).size
  activations_eq : ∀ banks, (back.map Prod.fst).foldl banksAfter banks =
    (passBefore rows accepted count).activations.foldl banksAfter banks
  prepared : unprepared (fun _ => false) (back.map Prod.fst) = 0
  noPrecharge : ∀ cmd ∈ back, cmd.1.isPrecharge = false
  performed_eq : state.performed = (accepted.zipIdx.take count).filter (hitsAtOnce rows accepted)
  back_eq : numberedAccesses back = (accepted.zipIdx.take count).filter (waits rows accepted)

end

variable {rows : Fin numBanks → UInt32} {accepted : List Command} {count : Nat} {cmd : Numbered}
  {out : Unit} {banks opened : Fin numBanks → BankState} {state : NumberedState}
  {back rest : List Numbered}

theorem numberedAccesses_cons_of_isAccess (isAccess : cmd.1.isAccess)
    (commands : List Numbered) :
    numberedAccesses (cmd :: commands) = cmd :: numberedAccesses commands := by
  simp [numberedAccesses, isAccess]

theorem numberedAccesses_cons_of_not (notAccess : cmd.1.isAccess = false)
    (commands : List Numbered) :
    numberedAccesses (cmd :: commands) = numberedAccesses commands := by
  simp [numberedAccesses, notAccess]

theorem map_putBackNumbered (rest : List Numbered) (cmd : Numbered) :
    (putBackNumbered rest cmd).map Prod.fst = putBack (rest.map Prod.fst) cmd.1 := by
  rw [putBackNumbered, putBack, length_map]
  split <;> simp

theorem exists_putBackNumbered_eq (rest : List Numbered) (isAccess : cmd.1.isAccess) :
    ∃ extra, putBackNumbered rest cmd = rest ++ extra ∧
      (∀ other ∈ extra, other.1.isPrecharge = false) ∧
      numberedAccesses extra = (if (rest.length : Int) + 1 = queueSize then [] else [cmd]) ∧
      (extra.length : Int) = (if (rest.length : Int) + 1 = queueSize then 1 else 2) ∧
      (∀ isOpen commands, unprepared isOpen (commands ++ extra.map Prod.fst) =
        unprepared isOpen commands) ∧
      ∀ banks, (extra.map Prod.fst).foldl banksAfter banks =
        banksAfter banks (activateCommand cmd.1) := by
  have activation : (activateCommand cmd.1).isAccess = false ∧
      (activateCommand cmd.1).isPrecharge = false := ⟨rfl, rfl⟩
  rw [putBackNumbered]
  split
  · refine ⟨[(activateCommand cmd.1, cmd.2)], rfl, by simp [activation], ?_, rfl,
      fun _ _ => unprepared_append_activate _ _ cmd.1, fun _ => rfl⟩
    rw [numberedAccesses_cons_of_not activation.1]
    rfl
  · refine ⟨[(activateCommand cmd.1, cmd.2), cmd], rfl,
      by simp [activation, isPrecharge_of_isAccess isAccess], ?_, rfl,
      fun _ _ => unprepared_append_access _ _ isAccess, fun banks => ?_⟩
    · rw [numberedAccesses_cons_of_not activation.1, numberedAccesses_cons_of_isAccess isAccess]
      rfl
    · exact banksAfter_of_isAccess isAccess

theorem Represents.exists_step {state : State} {numbered : NumberedState}
    (represents : Represents state numbered) (notEmpty : numbered.queue ≠ []) :
    ∃ next numberedNext, CommandScheduling.step state () = some (next, ()) ∧
      numberedStep numbered () = some (numberedNext, ()) ∧ Represents next numberedNext := by
  obtain ⟨valid, contents, banks, performed⟩ := represents
  obtain ⟨next, stepEq, nextValid, iteration⟩ := exists_iteration valid
    (by rwa [contents, Ne, map_eq_nil_iff])
  refine ⟨next, ?_⟩
  obtain ⟨queue, numberedBanks, numberedPerformed⟩ := numbered
  subst banks
  cases iteration with
  | perform front isAccess hit nextContents nextBanks nextPerformed =>
    obtain ⟨cmd, rest, rfl, rfl, rfl⟩ := map_eq_cons_iff.mp (contents.symm.trans front)
    refine ⟨⟨rest, state.banks, numberedPerformed ++ [cmd]⟩, stepEq, ?_, nextValid, nextContents,
      nextBanks, ?_⟩
    · simp only [numberedStep, isAccess, hit, if_true]
    · rw [nextPerformed, performed, map_append]
      rfl
  | miss front isAccess missed nextContents nextBanks nextPerformed =>
    obtain ⟨cmd, rest, rfl, rfl, rfl⟩ := map_eq_cons_iff.mp (contents.symm.trans front)
    refine ⟨⟨putBackNumbered rest cmd, state.banks, numberedPerformed⟩, stepEq, ?_, nextValid, ?_,
      nextBanks, nextPerformed.trans performed⟩
    · simp only [numberedStep, isAccess, missed, if_true, if_neg Bool.false_ne_true]
    · rw [nextContents, map_putBackNumbered]
  | other front notAccess nextContents nextBanks nextPerformed =>
    obtain ⟨cmd, rest, rfl, rfl, rfl⟩ := map_eq_cons_iff.mp (contents.symm.trans front)
    refine ⟨⟨rest, banksAfter state.banks cmd.1, numberedPerformed⟩, stepEq, ?_, nextValid,
      nextContents, nextBanks, nextPerformed.trans performed⟩
    simp only [numberedStep, notAccess, if_neg Bool.false_ne_true]

theorem Represents.step {state next : State} {numbered : NumberedState}
    (represents : Represents state numbered)
    (stepEq : CommandScheduling.step state () = some (next, out)) :
    ∃ numberedNext numberedOut, numberedStep numbered () = some (numberedNext, numberedOut) ∧
      Represents next numberedNext := by
  have notEmpty : numbered.queue ≠ [] := by
    intro nothing
    refine step_ne_some_of_empty (represents.valid.contents_eq_nil_iff.mp ?_) stepEq
    rw [represents.contents, nothing, map_nil]
  obtain ⟨other, numberedNext, otherEq, numberedEq, kept⟩ := represents.exists_step notEmpty
  cases otherEq.symm.trans stepEq
  exact ⟨numberedNext, (), numberedEq, kept⟩

theorem Represents.step_of_numbered {state : State} {numbered numberedNext : NumberedState}
    (represents : Represents state numbered)
    (stepEq : numberedStep numbered () = some (numberedNext, out)) :
    ∃ next stateOut, CommandScheduling.step state () = some (next, stateOut) ∧
      Represents next numberedNext := by
  have notEmpty : numbered.queue ≠ [] := by
    intro nothing
    rw [numberedStep, nothing] at stepEq
    cases stepEq
  obtain ⟨next, other, nextEq, otherEq, kept⟩ := represents.exists_step notEmpty
  cases otherEq.symm.trans stepEq
  exact ⟨next, (), nextEq, kept⟩

theorem represents_start (commands : Int → Command) (rows : Fin numBanks → UInt32)
    {accepted : List Command} (fits : accepted.length ≤ queueSize) :
    Represents (start commands rows accepted) (numberedStart rows accepted) := by
  obtain ⟨valid, contents⟩ := contents_foldl (valid_init commands) accepted
    (by simpa [initCommandQueue, RingQueue.empty] using fits)
  exact ⟨valid, by rw [start, contents, numberedStart, zipIdx_map_fst]; rfl, rfl, rfl⟩

theorem firstPass_start : FirstPass rows accepted 0 (numberedStart rows accepted) [] :=
  ⟨(append_nil _).symm, rfl, by simp [numberedStart, passBefore], fun _ => rfl, rfl, nofun, rfl,
    rfl⟩

section

variable (pass : FirstPass rows accepted count state back)
  (taken : accepted.zipIdx.take (count + 1) = accepted.zipIdx.take count ++ [cmd])
  (queue : state.queue = cmd :: (accepted.zipIdx.drop (count + 1) ++ back))
  (passEq : passBefore rows accepted (count + 1) = (passBefore rows accepted count).next cmd.1)
include pass taken queue passEq

theorem FirstPass.step_of_hit (number : cmd.2 = count) (isAccess : cmd.1.isAccess)
    (hit : isHit state.banks cmd.1) :
    FirstPass rows accepted (count + 1)
      ⟨accepted.zipIdx.drop (count + 1) ++ back, state.banks, state.performed ++ [cmd]⟩ back := by
  obtain ⟨-, banks_eq, size_eq, activations_eq, prepared, noPrecharge, performed_eq, back_eq⟩ :=
    pass
  have hitBefore : isHit (passBefore rows accepted count).banks cmd.1 := banks_eq ▸ hit
  rw [Pass.next, if_pos isAccess, if_pos hitBefore] at passEq
  rw [queue, length_cons] at size_eq
  refine ⟨rfl, by rw [passEq, banks_eq], ?_, by rwa [passEq], prepared, noPrecharge, ?_, ?_⟩
  · rw [passEq, ← size_eq]
    simp
  · rw [taken, filter_append, ← performed_eq]
    simp [hitsAtOnce, number, isAccess, hitBefore]
  · rw [taken, filter_append, ← back_eq]
    simp [waits, number, hitBefore]

theorem FirstPass.step_of_miss (number : cmd.2 = count) (isAccess : cmd.1.isAccess)
    (missed : isHit state.banks cmd.1 = false) :
    ∃ longer, FirstPass rows accepted (count + 1)
      ⟨putBackNumbered (accepted.zipIdx.drop (count + 1) ++ back) cmd, state.banks,
        state.performed⟩ longer := by
  obtain ⟨-, banks_eq, size_eq, activations_eq, prepared, noPrecharge, performed_eq, back_eq⟩ :=
    pass
  have missedBefore : isHit (passBefore rows accepted count).banks cmd.1 = false :=
    banks_eq ▸ missed
  rw [Pass.next, if_pos isAccess, if_neg (by simp [missedBefore])] at passEq
  rw [queue, length_cons, Nat.cast_add, Nat.cast_one] at size_eq
  obtain ⟨extra, putBackEq, extraNot, extraAccesses, extraLength, samePrepared, extraBanks⟩ :=
    exists_putBackNumbered_eq (accepted.zipIdx.drop (count + 1) ++ back) isAccess
  rw [size_eq] at extraAccesses extraLength
  refine ⟨back ++ extra, by rw [putBackEq, append_assoc], by rw [passEq, banks_eq], ?_,
    fun banks => ?_, by rw [map_append, samePrepared, prepared], fun other member => ?_, ?_, ?_⟩
  · rw [putBackEq, passEq, length_append, Nat.cast_add, extraLength]
    simp only
    split <;> omega
  · rw [passEq, map_append, foldl_append, extraBanks, activations_eq, foldl_append]
    rfl
  · exact (mem_append.mp member).elim (noPrecharge other) (extraNot other)
  · rw [taken, filter_append, ← performed_eq]
    simp [hitsAtOnce, number, missedBefore]
  · rw [taken, filter_append, ← back_eq, numberedAccesses, filter_append]
    rw [← numberedAccesses, ← numberedAccesses, extraAccesses]
    by_cases full : (passBefore rows accepted count).size = queueSize
    · simp [waits, number, full]
    · simp [waits, number, full, isAccess, missedBefore]

theorem FirstPass.step_of_other (notAccess : cmd.1.isAccess = false) :
    FirstPass rows accepted (count + 1) ⟨accepted.zipIdx.drop (count + 1) ++ back,
      banksAfter state.banks cmd.1, state.performed⟩ back := by
  obtain ⟨-, banks_eq, size_eq, activations_eq, prepared, noPrecharge, performed_eq, back_eq⟩ :=
    pass
  rw [Pass.next, if_neg (by simp [notAccess])] at passEq
  rw [queue, length_cons] at size_eq
  refine ⟨rfl, by rw [passEq, banks_eq], ?_, by rwa [passEq], prepared, noPrecharge, ?_, ?_⟩
  · rw [passEq, ← size_eq]
    simp
  · rw [taken, filter_append, ← performed_eq]
    simp [hitsAtOnce, notAccess]
  · rw [taken, filter_append, ← back_eq]
    simp [waits, notAccess]

end

theorem FirstPass.step (pass : FirstPass rows accepted count state back)
    (below : count < accepted.length) :
    ∃ next longer, numberedStep state () = some (next, ()) ∧
      FirstPass rows accepted (count + 1) next longer := by
  have inside : count < accepted.zipIdx.length := by simpa using below
  have isNext : accepted.zipIdx[count] = (accepted[count], count) := by simp
  have taken := take_succ_eq_append_getElem inside
  have queue := pass.queue_eq
  have passEq : passBefore rows accepted (count + 1) =
      (passBefore rows accepted count).next accepted[count] := by
    rw [passBefore, take_succ_eq_append_getElem below, foldl_append]
    rfl
  rw [isNext] at taken
  rw [drop_eq_getElem_cons inside, isNext, cons_append] at queue
  cases isAccess : accepted[count].isAccess with
  | false =>
    refine ⟨_, back, ?_, pass.step_of_other taken queue passEq isAccess⟩
    simp only [numberedStep, queue, isAccess, if_neg Bool.false_ne_true]
  | true =>
    cases hit : isHit state.banks accepted[count] with
    | true =>
      refine ⟨_, back, ?_, pass.step_of_hit taken queue passEq rfl isAccess hit⟩
      simp only [numberedStep, queue, isAccess, hit, if_true]
    | false =>
      obtain ⟨longer, kept⟩ := pass.step_of_miss taken queue passEq rfl isAccess hit
      refine ⟨_, longer, ?_, kept⟩
      simp only [numberedStep, queue, isAccess, hit, if_true, if_neg Bool.false_ne_true]

theorem exists_firstPass (rows : Fin numBanks → UInt32) (bound : count ≤ accepted.length) :
    ∃ state back, Reaches numberedStep (numberedStart rows accepted) (replicate count ())
      state ∧ FirstPass rows accepted count state back := by
  induction count with
  | zero => exact ⟨_, [], reaches_nil.mpr rfl, firstPass_start⟩
  | succ count ih =>
    obtain ⟨state, back, reached, pass⟩ := ih (by omega)
    obtain ⟨next, longer, stepEq, kept⟩ := pass.step bound
    refine ⟨next, longer, ?_, kept⟩
    rw [replicate_succ', reaches_append]
    exact ⟨state, reached, reaches_cons.mpr ⟨next, (), stepEq, reaches_nil.mpr rfl⟩⟩

/-- The accesses of the one row of each bank that is opened. -/
def lateAccesses (opened : Fin numBanks → BankState) (commands : List Numbered) : List Numbered :=
  (numberedAccesses commands).filter fun cmd => isHit opened cmd.1

/-- After the first pass, when `opened` has the rows that are or will be open. -/
structure LaterPass (opened : Fin numBanks → BankState) (state : NumberedState) : Prop where
  noPrecharge : ∀ cmd ∈ state.queue, cmd.1.isPrecharge = false
  prepared : unprepared (fun bank => (state.banks bank).isOpen) (state.queue.map Prod.fst) = 0
  opened_eq : (state.queue.map Prod.fst).foldl banksAfter state.banks = opened

theorem unprepared_mono {isOpen wider : Fin numBanks → Bool}
    (more : ∀ bank, isOpen bank → wider bank) (commands : List Command) :
    unprepared wider commands ≤ unprepared isOpen commands := by
  induction commands generalizing isOpen wider with
  | nil => exact Nat.le_refl 0
  | cons cmd commands ih =>
    have weight : (if wider cmd.bank then 0 else 1) ≤
        if isOpen cmd.bank then 0 else 1 := by
      split
      · exact Nat.zero_le _
      · rename_i closed
        rw [if_neg fun isOpen => closed (more _ isOpen)]
    rw [unprepared, unprepared]
    cases cmd.type with
    | activate =>
      refine ih fun bank isOpen => ?_
      by_cases mine : bank = cmd.bank
      · rw [mine, update_self]
      · rw [update_of_ne mine] at isOpen ⊢
        exact more bank isOpen
    | read | write => exact Nat.add_le_add weight (ih more)
    | precharge => exact ih more

theorem FirstPass.later (pass : FirstPass rows accepted accepted.length state back) :
    state.queue = back ∧ LaterPass (rowsOpened rows accepted) state := by
  obtain ⟨queue, banks_eq, -, activations_eq, prepared, noPrecharge, -, -⟩ := pass
  have isBack : state.queue = back := by
    rw [queue, drop_eq_nil_of_le (by simp), nil_append]
  refine ⟨isBack, isBack ▸ noPrecharge, ?_, ?_⟩
  · rw [isBack]
    refine Nat.le_zero.mp ((unprepared_mono (fun _ isOpen => ?_) _).trans prepared.le)
    exact absurd isOpen Bool.false_ne_true
  · rw [isBack, activations_eq, banks_eq, rowsOpened]

theorem foldl_banksAfter_of_isOpen {bank : Fin numBanks} {commands : List Command}
    (isOpen : (banks bank).isOpen)
    (noPrecharge : ∀ cmd ∈ commands, cmd.isPrecharge = false) :
    commands.foldl banksAfter banks bank = banks bank := by
  induction commands generalizing banks with
  | nil => rfl
  | cons cmd commands ih =>
    have same : banksAfter banks cmd bank = banks bank := by
      refine banksAfter_of_isOpen isOpen fun isPrecharge => ?_
      rw [noPrecharge cmd mem_cons_self] at isPrecharge
      cases isPrecharge
    rw [foldl_cons, ih (same ▸ isOpen) fun other member =>
      noPrecharge other (mem_cons_of_mem cmd member), same]

section

variable (later : LaterPass opened state) (queue : state.queue = cmd :: rest)
include later queue

theorem LaterPass.opened_bank (isAccess : cmd.1.isAccess) :
    (state.banks cmd.1.bank).isOpen ∧ opened cmd.1.bank = state.banks cmd.1.bank := by
  obtain ⟨noPrecharge, prepared, rfl⟩ := later
  rw [queue, map_cons, unprepared_access isAccess] at prepared
  have isOpen : (state.banks cmd.1.bank).isOpen := by
    by_contra closed
    rw [if_neg closed] at prepared
    omega
  refine ⟨isOpen, foldl_banksAfter_of_isOpen isOpen fun other member => ?_⟩
  obtain ⟨numbered, isQueued, rfl⟩ := mem_map.mp member
  exact noPrecharge numbered isQueued

theorem LaterPass.dropAccess (isAccess : cmd.1.isAccess) (performed : List Numbered) :
    LaterPass opened ⟨rest, state.banks, performed⟩ := by
  obtain ⟨noPrecharge, prepared, opened_eq⟩ := later
  rw [queue] at noPrecharge prepared opened_eq
  rw [map_cons, unprepared_access isAccess] at prepared
  rw [map_cons, foldl_cons, banksAfter_of_isAccess isAccess] at opened_eq
  exact ⟨fun other member => noPrecharge other (mem_cons_of_mem cmd member),
    (Nat.add_eq_zero_iff.mp prepared).2, opened_eq⟩

theorem LaterPass.step_of_miss (isAccess : cmd.1.isAccess) {extra : List Numbered}
    (extraNot : ∀ other ∈ extra, other.1.isPrecharge = false)
    (samePrepared : ∀ isOpen commands, unprepared isOpen (commands ++ extra.map Prod.fst) =
      unprepared isOpen commands)
    (extraBanks : ∀ banks, (extra.map Prod.fst).foldl banksAfter banks =
      banksAfter banks (activateCommand cmd.1)) :
    LaterPass opened ⟨rest ++ extra, state.banks, state.performed⟩ := by
  obtain ⟨isOpen, same⟩ := later.opened_bank queue isAccess
  obtain ⟨noPrecharge, prepared, opened_eq⟩ := later.dropAccess queue isAccess []
  refine ⟨fun other member => (mem_append.mp member).elim (noPrecharge other) (extraNot other),
    ?_, ?_⟩
  · rw [map_append, samePrepared, prepared]
  · rw [map_append, foldl_append, opened_eq, extraBanks, banksAfter]
    exact if_pos (same ▸ isOpen)

theorem LaterPass.step_of_other (notAccess : cmd.1.isAccess = false) :
    LaterPass opened ⟨rest, banksAfter state.banks cmd.1, state.performed⟩ := by
  obtain ⟨noPrecharge, prepared, opened_eq⟩ := later
  rw [queue] at noPrecharge prepared opened_eq
  have isActivate : cmd.1.type = .activate := by
    have notPrecharge := noPrecharge cmd mem_cons_self
    cases isType : cmd.1.type with
    | activate => rfl
    | read | write => simp [Command.isAccess, isType] at notAccess
    | precharge => simp [Command.isPrecharge, isType] at notPrecharge
  refine ⟨fun other member => noPrecharge other (mem_cons_of_mem cmd member), ?_, opened_eq⟩
  rw [isOpen_banksAfter_activate isActivate]
  rwa [map_cons, unprepared, isActivate] at prepared

theorem LaterPass.exists_step :
    ∃ next extra, numberedStep state () = some (next, ()) ∧ LaterPass opened next ∧
      next.queue = rest ++ extra ∧ lateAccesses opened extra = [] ∧
        next.performed = state.performed ++ lateAccesses opened [cmd] := by
  cases isAccess : cmd.1.isAccess with
  | false =>
    refine ⟨_, [], ?_, later.step_of_other queue isAccess, (append_nil _).symm, rfl, ?_⟩
    · simp only [numberedStep, queue, isAccess, if_neg Bool.false_ne_true]
    · simp [lateAccesses, numberedAccesses, isAccess]
  | true =>
    obtain ⟨isOpen, same⟩ := later.opened_bank queue isAccess
    have sameHit : isHit state.banks cmd.1 = isHit opened cmd.1 := by
      rw [isHit, isHit, same]
    cases hit : isHit state.banks cmd.1 with
    | true =>
      refine ⟨_, [], ?_, later.dropAccess queue isAccess (state.performed ++ [cmd]),
        (append_nil _).symm, rfl, ?_⟩
      · simp only [numberedStep, queue, isAccess, hit, if_true]
      · simp [lateAccesses, numberedAccesses, isAccess, ← sameHit, hit]
    | false =>
      obtain ⟨extra, putBackEq, extraNot, extraAccesses, -, samePrepared, extraBanks⟩ :=
        exists_putBackNumbered_eq rest isAccess
      refine ⟨_, extra, ?_, later.step_of_miss queue isAccess extraNot samePrepared extraBanks,
        rfl, ?_, ?_⟩
      · simp only [numberedStep, queue, isAccess, hit, if_true, if_neg Bool.false_ne_true,
          putBackEq]
      · rw [lateAccesses, extraAccesses]
        split <;> simp [← sameHit, hit]
      · simp [lateAccesses, numberedAccesses, ← sameHit, hit]

end

theorem lateAccesses_append (first second : List Numbered) : lateAccesses opened (first ++ second) =
      lateAccesses opened first ++ lateAccesses opened second := by
  simp [lateAccesses, numberedAccesses]

theorem LaterPass.plan_step {next : NumberedState} (later : LaterPass opened state)
    (stepEq : numberedStep state () = some (next, out)) :
    LaterPass opened next ∧ next.performed ++ lateAccesses opened next.queue =
      state.performed ++ lateAccesses opened state.queue := by
  cases queue : state.queue with
  | nil =>
    rw [numberedStep, queue] at stepEq
    cases stepEq
  | cons cmd rest =>
    obtain ⟨other, extra, otherEq, kept, nextQueue, noneLate, performed⟩ := later.exists_step queue
    cases otherEq.symm.trans stepEq
    refine ⟨kept, ?_⟩
    rw [performed, nextQueue, lateAccesses_append, noneLate, append_nil, append_assoc,
      ← lateAccesses_append, singleton_append]

theorem LaterPass.exists_reaches (later : LaterPass opened state) (before after : List Numbered)
    (queue : state.queue = before ++ after) :
    ∃ n next, Reaches numberedStep state (replicate n ()) next ∧
      next.performed = state.performed ++ lateAccesses opened before := by
  induction before generalizing state after with
  | nil => exact ⟨0, state, reaches_nil.mpr rfl, (append_nil _).symm⟩
  | cons cmd before ih =>
    obtain ⟨next, extra, stepEq, kept, nextQueue, -, performed⟩ :=
      later.exists_step (queue.trans (cons_append ..))
    obtain ⟨n, last, reached, lastPerformed⟩ := ih kept (after ++ extra)
      (by rw [nextQueue, append_assoc])
    refine ⟨n + 1, last, reaches_cons.mpr ⟨next, (), stepEq, reached⟩, ?_⟩
    rw [lastPerformed, performed, append_assoc, ← lateAccesses_append, singleton_append]

/-- The accesses in the order in which they are performed. -/
def plan (rows : Fin numBanks → UInt32) (accepted : List Command) : List Numbered :=
  accepted.zipIdx.filter (hitsAtOnce rows accepted) ++
    (accepted.zipIdx.filter (waits rows accepted)).filter fun cmd =>
      isHit (rowsOpened rows accepted) cmd.1

theorem pairwise_zipIdx (accepted : List Command) :
    accepted.zipIdx.Pairwise fun earlier later => earlier.2 < later.2 := by
  rw [← pairwise_map (f := Prod.snd) (R := (· < ·)), zipIdx_map_snd]
  exact pairwise_lt_range'

theorem inOrder_of_sublist {performed : List Numbered}
    (sublist : performed.Sublist accepted.zipIdx) : InOrder performed := by
  refine List.Pairwise.imp ?_ ((pairwise_zipIdx accepted).sublist sublist)
  intro earlier later less _
  exact less

theorem inOrder_plan_iff : InOrder (plan rows accepted) ↔ NoneOvertaken rows accepted := by
  rw [plan, InOrder, pairwise_append]
  simp only [mem_filter]
  constructor
  · rintro ⟨-, -, cross⟩ earlier isEarlier later isLater less same isWaiting isOpened
    rw [Bool.eq_false_iff]
    intro hits
    have more := cross later ⟨isLater, hits⟩ earlier ⟨⟨isEarlier, isWaiting⟩, isOpened⟩
      ⟨same.1.symm, same.2.1.symm, same.2.2.symm⟩
    omega
  · intro none
    refine ⟨inOrder_of_sublist filter_sublist,
      inOrder_of_sublist (filter_sublist.trans filter_sublist), ?_⟩
    rintro first ⟨isFirst, hits⟩ second ⟨⟨isSecond, isWaiting⟩, isOpened⟩ same
    rcases Nat.lt_trichotomy first.2 second.2 with less | equal | greater
    · exact less
    · have sameCmd : first = second := by
        rw [mem_zipIdx_iff_getElem?, equal] at isFirst
        rw [mem_zipIdx_iff_getElem?, isFirst, Option.some.injEq] at isSecond
        exact Prod.ext isSecond equal
      rw [waits, ← sameCmd] at isWaiting
      rw [hitsAtOnce, Bool.and_eq_true] at hits
      simp [hits.2] at isWaiting
    · have missed := none second isSecond first isFirst greater
        ⟨same.1.symm, same.2.1.symm, same.2.2.symm⟩ isWaiting isOpened
      rw [missed] at hits
      cases hits

theorem FirstPass.plan_eq (pass : FirstPass rows accepted accepted.length state back) :
    state.performed ++ lateAccesses (rowsOpened rows accepted) state.queue =
      plan rows accepted := by
  have whole : accepted.zipIdx.take accepted.length = accepted.zipIdx :=
    take_of_length_le (by simp)
  rw [pass.later.1, lateAccesses, pass.back_eq, pass.performed_eq, whole, plan]

theorem inOrder_of_reaches (inOrder : InOrder (plan rows accepted)) {n : Nat}
    (reached : Reaches numberedStep (numberedStart rows accepted) (replicate n ()) state) :
    InOrder state.performed := by
  rcases Nat.le_total n accepted.length with early | late
  · obtain ⟨other, back, otherReached, pass⟩ := exists_firstPass rows early
    rw [reached.unique otherReached, pass.performed_eq]
    exact inOrder_of_sublist (filter_sublist.trans (take_sublist _ _))
  · obtain ⟨more, rfl⟩ := Nat.exists_eq_add_of_le late
    obtain ⟨other, back, otherReached, pass⟩ := exists_firstPass rows (le_refl accepted.length)
    rw [replicate_add, reaches_append] at reached
    obtain ⟨middle, toMiddle, fromMiddle⟩ := reached
    rw [toMiddle.unique otherReached] at fromMiddle
    have planned := fromMiddle.invariant (fun state =>
      LaterPass (rowsOpened rows accepted) state ∧
        state.performed ++ lateAccesses (rowsOpened rows accepted) state.queue = plan rows accepted)
      (fun kept stepEq => (kept.1.plan_step stepEq).imp_right fun same => same.trans kept.2)
      ⟨pass.later.2, pass.plan_eq⟩
    rw [← planned.2] at inOrder
    exact (pairwise_append.mp inOrder).1

theorem exists_reaches_plan (rows : Fin numBanks → UInt32) (accepted : List Command) :
    ∃ n numbered, Reaches numberedStep (numberedStart rows accepted) (replicate n ())
      numbered ∧ numbered.performed = plan rows accepted := by
  obtain ⟨state, back, reached, pass⟩ := exists_firstPass rows (le_refl accepted.length)
  obtain ⟨n, last, toLast, performed⟩ :=
    pass.later.2.exists_reaches state.queue [] (append_nil _).symm
  refine ⟨accepted.length + n, last, ?_, performed.trans pass.plan_eq⟩
  rw [replicate_add, reaches_append]
  exact ⟨state, reached, toLast⟩

/-- The accesses of an address are performed in order exactly if none is overtaken in the first
pass by one that finds its row open. -/
theorem performed_in_order_iff_none_overtaken (commands : Int → Command)
    (rows : Fin numBanks → UInt32) (accepted : List Command)
    (fits : accepted.length ≤ queueSize) :
    (∀ n state, Reaches step (start commands rows accepted) (replicate n ()) state →
        ∃ numbered, Reaches numberedStep (numberedStart rows accepted) (replicate n ())
          numbered ∧ Represents state numbered ∧ InOrder numbered.performed) ↔
      NoneOvertaken rows accepted := by
  have represents := represents_start commands rows fits
  rw [← inOrder_plan_iff]
  constructor
  · intro always
    obtain ⟨n, numbered, reached, performed⟩ := exists_reaches_plan rows accepted
    obtain ⟨state, toState, -⟩ :=
      reached.simulated (fun numbered state => Represents state numbered)
      (fun kept stepEq => kept.step_of_numbered stepEq) represents
    obtain ⟨other, otherReached, -, inOrder⟩ := always n state toState
    rwa [← performed, reached.unique otherReached]
  · intro inOrder n state reached
    obtain ⟨numbered, numberedReached, kept⟩ := reached.simulated Represents
      (fun kept stepEq => kept.step stepEq) represents
    exact ⟨numbered, numberedReached, kept, inOrder_of_reaches inOrder numberedReached⟩

def someActivate : Command :=
  activateCommand someRead

def someWrite : Command :=
  { someRead with type := .write }

theorem write_overtakes_read : ∃ state numbered,
      Reaches step (start (fun _ => someRead) (fun _ => 0) [someRead, someActivate, someWrite])
        (replicate 5 ()) state ∧
      Reaches numberedStep (numberedStart (fun _ => 0) [someRead, someActivate, someWrite])
        (replicate 5 ()) numbered ∧
      Represents state numbered ∧ ¬ InOrder numbered.performed := by
  obtain ⟨state, toState⟩ : ∃ state, Reaches step
      (start (fun _ => someRead) (fun _ => 0) [someRead, someActivate, someWrite])
        (replicate 5 ()) state := ⟨_, ⟨_, rfl⟩⟩
  obtain ⟨numbered, toNumbered, represents⟩ := toState.simulated Represents
    (fun represents stepEq => represents.step stepEq)
    (represents_start (fun _ => someRead) (fun _ => 0) (by decide))
  refine ⟨state, numbered, toState, toNumbered, represents, fun inOrder => ?_⟩
  rw [toNumbered.unique ⟨_, rfl⟩] at inOrder
  have less := rel_of_pairwise_cons inOrder mem_cons_self ⟨rfl, rfl, rfl⟩
  exact absurd less (by decide)

theorem write_follows_read :
    ∃ accepted state numbered, accepted = [someActivate, someRead, someActivate, someWrite] ∧
      NoneOvertaken (fun _ => 0) accepted ∧
      Reaches step (start (fun _ => someRead) (fun _ => 0) accepted) (replicate 4 ()) state ∧
        Represents state numbered ∧ InOrder numbered.performed := by
  obtain ⟨state, toState⟩ : ∃ state, Reaches step (start (fun _ => someRead) (fun _ => 0)
      [someActivate, someRead, someActivate, someWrite]) (replicate 4 ()) state :=
    ⟨_, ⟨_, rfl⟩⟩
  have none : NoneOvertaken (fun _ => 0) [someActivate, someRead, someActivate, someWrite] := by
    rw [NoneOvertaken]
    decide
  obtain ⟨numbered, -, represents, inOrder⟩ := (performed_in_order_iff_none_overtaken
    (fun _ => someRead) (fun _ => 0) _ (by decide)).mpr none 4 state toState
  exact ⟨_, state, numbered, rfl, none, toState, represents, inOrder⟩

end BitsAndBytes.CommandScheduling
