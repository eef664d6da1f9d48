import BitsAndBytes.OperationRuns
import BitsAndBytes.SignedInt

/-! # The banks of `SimulatingDRAMTiming.c` -/

namespace BitsAndBytes.DramTiming

open OperationRuns SignedInt List Option Function

def numBanks : Nat := 8

def colsPerRow : Nat := 1024

def tCAS : Nat := 10

def tRAS : Nat := 28

def tRP : Nat := 10

structure BankState where
  openRow : Int
  cycleOpened : Nat
deriving DecidableEq

structure State where
  bankStates : Nat → BankState
  currentCycle : Nat

def initial : State := ⟨fun bank => if bank = 0 then ⟨-1, 0⟩ else ⟨0, 0⟩, 0⟩

def bankOf (address : UInt32) : Nat := address.toNat / colsPerRow % numBanks

def rowOf (address : UInt32) : Nat := address.toNat / colsPerRow / numBanks

/-- `current_cycle += cycles`, which has to be an `int`. -/
def advance (cycle cycles : Nat) : Option Nat :=
  if cycle + cycles ≤ intMax.toNat then some (cycle + cycles) else none

def openRow (bankState : BankState) (cycle row : Nat) : Option (BankState × Nat) :=
  if bankState.openRow ≠ row then do
    let cycle ← if bankState.openRow ≠ -1 then advance cycle tRP else some cycle
    let cycle ← advance cycle tRAS
    some (⟨row, cycle⟩, cycle)
  else
    some (bankState, cycle)

def accessColumn (bankState : BankState) (cycle : Nat) : Option (BankState × Nat) := do
  let cycle ← advance cycle tCAS
  if tRAS ≤ cycle - bankState.cycleOpened then
    let cycle ← advance cycle tRP
    some (⟨-1, bankState.cycleOpened⟩, cycle)
  else
    some (bankState, cycle)

def accessBank (bankState : BankState) (cycle row : Nat) : Option (BankState × Nat) := do
  let (bankState, cycle) ← openRow bankState cycle row
  accessColumn bankState cycle

def memoryAccess (state : State) (address : UInt32) : Option (State × Unit) := do
  let bank := bankOf address
  let (bankState, cycle) ←
    accessBank (state.bankStates bank) state.currentCycle (rowOf address)
  some (⟨update state.bankStates bank bankState, cycle⟩, ())

structure Page where
  row : Nat
  openedAt : Nat

structure Dram where
  pages : Nat → Option Page
  cycle : Nat

namespace Dram

def closed : Dram := ⟨fun _ => none, 0⟩

def openPage (page : Option Page) (cycle row : Nat) : Page × Nat :=
  match page with
  | none => (⟨row, cycle + tRAS⟩, cycle + tRAS)
  | some page =>
    if page.row = row then (page, cycle)
    else (⟨row, cycle + tRP + tRAS⟩, cycle + tRP + tRAS)

def column (page : Page) (cycle : Nat) : Option Page × Nat :=
  let cycle := cycle + tCAS
  if tRAS ≤ cycle - page.openedAt then (none, cycle + tRP) else (some page, cycle)

def accessPage (page : Option Page) (cycle row : Nat) : Option Page × Nat :=
  let (page, cycle) := openPage page cycle row
  column page cycle

def access (dram : Dram) (address : UInt32) : Dram :=
  let accessed := accessPage (dram.pages (bankOf address)) dram.cycle (rowOf address)
  ⟨update dram.pages (bankOf address) accessed.1, accessed.2⟩

end Dram

variable {bankState : BankState} {page : Option Page} {state : State} {dram : Dram}
  {address : UInt32} {cycle row : Nat}

theorem Dram.cycle_le_openPage : cycle ≤ (openPage page cycle row).2 := by
  cases page with
  | none => exact Nat.le_add_right _ _
  | some page =>
    simp only [openPage]
    split <;> omega

theorem Dram.cycle_le_column (page : Page) : cycle ≤ (column page cycle).2 := by
  simp only [column]
  split <;> omega

theorem Dram.cycle_le_foldl (addresses : List UInt32) (dram : Dram) :
    dram.cycle ≤ (addresses.foldl access dram).cycle := by
  induction addresses generalizing dram with
  | nil => exact Nat.le_refl _
  | cons address addresses ih =>
    exact Nat.le_trans (Nat.le_trans cycle_le_openPage (cycle_le_column _))
      (ih (dram.access address))

def Represents (bankState : BankState) : Option Page → Prop
  | none => bankState.openRow = -1
  | some page => bankState.openRow = page.row ∧ bankState.cycleOpened = page.openedAt

variable {cycles next : Nat} {after : BankState}

theorem advance_of_le (fits : cycle + cycles ≤ intMax.toNat) :
    advance cycle cycles = some (cycle + cycles) := if_pos fits

theorem advance_eq_some :
    advance cycle cycles = some next ↔ next = cycle + cycles ∧ next ≤ intMax.toNat := by
  rw [advance, ite_none_right_eq_some, some.injEq]
  omega

theorem Represents.openRow (represents : Represents bankState page)
    (fits : (Dram.openPage page cycle row).2 ≤ intMax.toNat) :
    DramTiming.openRow bankState cycle row =
      some (⟨(Dram.openPage page cycle row).1.row, (Dram.openPage page cycle row).1.openedAt⟩,
        (Dram.openPage page cycle row).2) := by
  obtain ⟨openRow, cycleOpened⟩ := bankState
  cases page with
  | none =>
    cases (show openRow = -1 from represents)
    have differs : (-1 : Int) ≠ row := by omega
    simp only [Dram.openPage] at fits ⊢
    simp [DramTiming.openRow, differs, advance_of_le fits]
  | some page =>
    obtain ⟨rfl, rfl⟩ := represents
    by_cases same : page.row = row
    · subst same
      simp [DramTiming.openRow, Dram.openPage]
    · have differs : (page.row : Int) ≠ row := by omega
      have isOpen : (page.row : Int) ≠ -1 := by omega
      simp only [Dram.openPage, if_neg same] at fits ⊢
      have first : cycle + tRP ≤ intMax.toNat := by omega
      simp [DramTiming.openRow, differs, isOpen, advance_of_le first, advance_of_le fits]

theorem exists_accessColumn {page : Page} (fits : (Dram.column page cycle).2 ≤ intMax.toNat) :
    ∃ after, accessColumn ⟨page.row, page.openedAt⟩ cycle =
        some (after, (Dram.column page cycle).2) ∧ Represents after (Dram.column page cycle).1 := by
  simp only [Dram.column] at fits ⊢
  by_cases precharged : tRAS ≤ cycle + tCAS - page.openedAt
  · simp only [if_pos precharged] at fits ⊢
    have first : cycle + tCAS ≤ intMax.toNat := by omega
    refine ⟨⟨-1, page.openedAt⟩, ?_, rfl⟩
    simp [accessColumn, advance_of_le first, precharged, advance_of_le fits]
  · simp only [if_neg precharged] at fits ⊢
    refine ⟨⟨page.row, page.openedAt⟩, ?_, rfl, rfl⟩
    simp [accessColumn, advance_of_le fits, precharged]

theorem Represents.exists_accessBank (represents : Represents bankState page)
    (fits : (Dram.accessPage page cycle row).2 ≤ intMax.toNat) :
    ∃ after, accessBank bankState cycle row = some (after, (Dram.accessPage page cycle row).2) ∧
      Represents after (Dram.accessPage page cycle row).1 := by
  obtain ⟨after, columnEq, afterRepresents⟩ := exists_accessColumn fits
  refine ⟨after, ?_, afterRepresents⟩
  rw [accessBank, represents.openRow (Nat.le_trans (Dram.cycle_le_column _) fits)]
  exact columnEq

theorem accessColumn_eq_some (accessed : accessColumn bankState cycle = some (after, next)) :
    next ≤ intMax.toNat ∧ (next = cycle + tCAS ∨
      next = cycle + tCAS + tRP ∧ tRAS ≤ cycle + tCAS - bankState.cycleOpened) := by
  obtain ⟨columnCycle, columnEq, accessed⟩ := bind_eq_some_iff.mp accessed
  obtain ⟨rfl, fits⟩ := advance_eq_some.mp columnEq
  split at accessed
  · rename_i precharged
    obtain ⟨prechargedCycle, prechargedEq, accessed⟩ := bind_eq_some_iff.mp accessed
    obtain ⟨rfl, within⟩ := advance_eq_some.mp prechargedEq
    cases accessed
    exact ⟨within, .inr ⟨rfl, precharged⟩⟩
  · cases accessed
    exact ⟨fits, .inl rfl⟩

theorem accessBank_zero_ne (accessed : accessBank ⟨0, 0⟩ cycle row = some (after, next)) :
    next ≠ (Dram.accessPage none cycle row).2 := by
  have reference : (Dram.accessPage none cycle row).2 = cycle + 38 := by
    simp [Dram.accessPage, Dram.openPage, Dram.column, tRAS, tCAS]
  obtain ⟨⟨opened, openedCycle⟩, openedEq, accessed⟩ := bind_eq_some_iff.mp accessed
  have next_eq := (accessColumn_eq_some accessed).2
  simp only [tRAS, tCAS, tRP] at next_eq
  by_cases zero : row = 0
  · subst zero
    cases openedEq
    omega
  · have differs : (0 : Int) ≠ row := by omega
    have opens : openRow ⟨0, 0⟩ cycle row = (advance cycle tRP).bind fun cycle =>
        (advance cycle tRAS).bind fun cycle => some (⟨row, cycle⟩, cycle) := if_pos differs
    rw [opens] at openedEq
    obtain ⟨closedCycle, closedEq, openedEq⟩ := bind_eq_some_iff.mp openedEq
    obtain ⟨rowCycle, rowEq, openedEq⟩ := bind_eq_some_iff.mp openedEq
    cases openedEq
    simp only [advance_eq_some, tRP, tRAS] at closedEq rowEq
    omega

structure Matches (state : State) (dram : Dram) : Prop where
  cycle_eq : state.currentCycle = dram.cycle
  first : Represents (state.bankStates 0) (dram.pages 0)
  untouched : ∀ bank ≠ 0, state.bankStates bank = ⟨0, 0⟩ ∧ dram.pages bank = none

/-- Every prefix of the accesses takes as many cycles as in the memory. -/
def Agrees (state : State) (dram : Dram) (addresses : List UInt32) : Prop :=
  ∀ accessed, accessed <+: addresses → ∃ finish, Reaches memoryAccess state accessed finish ∧
    finish.currentCycle = (accessed.foldl Dram.access dram).cycle

theorem agrees_cons {addresses : List UInt32} (cycle_eq : state.currentCycle = dram.cycle) :
    Agrees state dram (address :: addresses) ↔
      ∃ next, memoryAccess state address = some (next, ()) ∧
        Agrees next (dram.access address) addresses := by
  constructor
  · intro agrees
    obtain ⟨finish, reached, -⟩ := agrees [address] (by simp)
    obtain ⟨next, ⟨⟩, stepEq, -⟩ := reaches_cons.mp reached
    refine ⟨next, stepEq, fun accessed isPrefix => ?_⟩
    obtain ⟨finish, reached, same⟩ :=
      agrees (address :: accessed) (cons_prefix_cons.mpr ⟨rfl, isPrefix⟩)
    obtain ⟨other, ⟨⟩, otherEq, rest⟩ := reaches_cons.mp reached
    cases stepEq.symm.trans otherEq
    exact ⟨finish, rest, same⟩
  · rintro ⟨next, stepEq, agrees⟩ accessed isPrefix
    rcases prefix_cons_iff.mp isPrefix with rfl | ⟨rest, rfl, restPrefix⟩
    · exact ⟨state, reaches_nil.mpr rfl, cycle_eq⟩
    · obtain ⟨finish, reached, same⟩ := agrees rest restPrefix
      exact ⟨finish, reaches_cons.mpr ⟨next, (), stepEq, reached⟩, same⟩

theorem exists_accessBank {next : State} (accessed : memoryAccess state address = some (next, ())) :
    ∃ after, accessBank (state.bankStates (bankOf address)) state.currentCycle (rowOf address) =
      some (after, next.currentCycle) := by
  obtain ⟨⟨after, cycle⟩, accessEq, nextEq⟩ := bind_eq_some_iff.mp accessed
  cases nextEq
  exact ⟨after, accessEq⟩

theorem Matches.bankOf_eq_zero {next : State} (matched : Matches state dram)
    (accessed : DramTiming.memoryAccess state address = some (next, ()))
    (same : next.currentCycle = (dram.access address).cycle) : bankOf address = 0 := by
  by_contra other
  obtain ⟨after, accessEq⟩ := exists_accessBank accessed
  obtain ⟨zeroed, closed⟩ := matched.untouched _ other
  rw [zeroed, matched.cycle_eq] at accessEq
  apply accessBank_zero_ne accessEq
  rw [same, Dram.access, closed]

theorem Matches.memoryAccess (matched : Matches state dram) (first : bankOf address = 0)
    (fits : (dram.access address).cycle ≤ intMax.toNat) :
    ∃ next, DramTiming.memoryAccess state address = some (next, ()) ∧
      Matches next (dram.access address) := by
  simp only [Dram.access, first] at fits
  obtain ⟨after, accessEq, represents⟩ := matched.first.exists_accessBank fits
  refine ⟨⟨update state.bankStates 0 after, _⟩, ?_, rfl, ?_, fun bank other => ?_⟩
  · simp [DramTiming.memoryAccess, first, matched.cycle_eq, accessEq, Dram.access]
  · simpa [Dram.access, first] using represents
  · simpa [Dram.access, first, other] using matched.untouched bank other

theorem agrees_iff (matched : Matches state dram) (fits : dram.cycle ≤ intMax.toNat)
    (addresses : List UInt32) :
    Agrees state dram addresses ↔ (∀ address ∈ addresses, bankOf address = 0) ∧
      (addresses.foldl Dram.access dram).cycle ≤ intMax.toNat := by
  induction addresses generalizing state dram with
  | nil =>
    refine iff_of_true (fun accessed isPrefix => ?_) ⟨nofun, fits⟩
    rw [prefix_nil.mp isPrefix]
    exact ⟨state, reaches_nil.mpr rfl, matched.cycle_eq⟩
  | cons address addresses ih =>
    rw [agrees_cons matched.cycle_eq, forall_mem_cons, foldl_cons]
    constructor
    · rintro ⟨next, stepEq, agrees⟩
      have same : next.currentCycle = (dram.access address).cycle := by
        obtain ⟨finish, reached, same⟩ := agrees [] nil_prefix
        rw [reaches_nil.mp reached] at same
        exact same
      have first := matched.bankOf_eq_zero stepEq same
      have within : (dram.access address).cycle ≤ intMax.toNat := by
        obtain ⟨after, accessEq⟩ := exists_accessBank stepEq
        obtain ⟨opened, -, columnEq⟩ := bind_eq_some_iff.mp accessEq
        rw [← same]
        exact (accessColumn_eq_some columnEq).1
      obtain ⟨other, otherEq, nextMatched⟩ := matched.memoryAccess first within
      cases stepEq.symm.trans otherEq
      obtain ⟨others, total⟩ := (ih nextMatched within).mp agrees
      exact ⟨⟨first, others⟩, total⟩
    · rintro ⟨⟨first, others⟩, total⟩
      have within := Nat.le_trans (Dram.cycle_le_foldl addresses _) total
      obtain ⟨next, stepEq, nextMatched⟩ := matched.memoryAccess first within
      exact ⟨next, stepEq, (ih nextMatched within).mpr ⟨others, total⟩⟩

/-- The cycles are right exactly if all accesses are to the first bank and no `int` overflows. -/
theorem memoryAccess_agrees_iff (addresses : List UInt32) :
    (∀ accessed, accessed <+: addresses → ∃ state, Reaches memoryAccess initial accessed state ∧
      state.currentCycle = (accessed.foldl Dram.access Dram.closed).cycle) ↔
      (∀ address ∈ addresses, bankOf address = 0) ∧
        (addresses.foldl Dram.access Dram.closed).cycle ≤ intMax.toNat := by
  have matched : Matches initial Dram.closed := ⟨rfl, rfl, fun bank other => ⟨if_neg other, rfl⟩⟩
  exact agrees_iff matched (Nat.zero_le _) addresses

theorem first_access_to_second_bank_is_undercharged :
    (∃ state, Reaches memoryAccess initial [1024] state ∧ state.currentCycle = 10) ∧
      ([1024].foldl Dram.access Dram.closed).cycle = 38 :=
  ⟨⟨_, ⟨_, rfl⟩, rfl⟩, rfl⟩

end BitsAndBytes.DramTiming
