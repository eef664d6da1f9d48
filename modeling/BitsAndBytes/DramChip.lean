import BitsAndBytes.OperationRuns
import BitsAndBytes.SignedInt

/-! # The chip of `DRAMtiming.c` -/

namespace BitsAndBytes.DramChip

open OperationRuns SignedInt Function

def tCAS : Int := 14

def tRAS : Int := 32

def tRP : Int := 14

def tRCD : Int := 14

structure DRAMBank where
  activeRow : Int
  isRowActive : Bool
  lastActivationCycle : Int

structure DRAMChip where
  banks : Fin 8 → DRAMBank
  currentCycle : Int

def closedChip : DRAMChip := ⟨fun _ => ⟨0, false, 0⟩, 0⟩

structure Access where
  bank : Fin 8
  row : Int

def openingCycles (bank : DRAMBank) (currentCycle : Int) : Int :=
  (if bank.isRowActive then
    let cyclesSinceActivation := currentCycle - bank.lastActivationCycle
    (if cyclesSinceActivation < tRAS then tRAS - cyclesSinceActivation else 0) + tRP
  else 0) + tRCD

/-- The result is the number of cycles.  Of the sums in `access_dram` the last one is the
largest, so that only this one is checked. -/
def accessDram (chip : DRAMChip) (access : Access) : Option (DRAMChip × Int) :=
  let bank := chip.banks access.bank
  if bank.isRowActive = false ∨ bank.activeRow ≠ access.row then
    let cycles := openingCycles bank chip.currentCycle
    (checked (chip.currentCycle + (cycles + tCAS))).map fun currentCycle =>
      (⟨update chip.banks access.bank ⟨access.row, true, chip.currentCycle + cycles⟩,
        currentCycle⟩, cycles + tCAS)
  else
    (checked (chip.currentCycle + tCAS)).map fun currentCycle =>
      ({ chip with currentCycle }, tCAS)

/-- The row that is active was activated at `cycle` or earlier. -/
def ActivatedBefore (bank : DRAMBank) (cycle : Int) : Prop :=
  bank.isRowActive → bank.lastActivationCycle ≤ cycle

variable {chip next : DRAMChip} {access : Access} {bank : DRAMBank} {cycle cycles : Int}

theorem openingCycles_bounds (before : ActivatedBefore bank cycle) :
    tRCD ≤ openingCycles bank cycle ∧ openingCycles bank cycle ≤ tRAS + tRP + tRCD ∧
      (bank.isRowActive →
        bank.lastActivationCycle + (tRAS + tRP + tRCD) ≤ cycle + openingCycles bank cycle) := by
  unfold openingCycles tRAS tRP tRCD
  split
  next active =>
    have := before active
    simp only
    split <;> omega
  next idle => exact ⟨by omega, by omega, fun active => absurd active idle⟩

/-- What an access does to the cycle and to each bank. -/
theorem accessDram_spec (before : ∀ bank, ActivatedBefore (chip.banks bank) chip.currentCycle)
    (stepEq : accessDram chip access = some (next, cycles)) :
    next.currentCycle = chip.currentCycle + cycles ∧
      tCAS ≤ cycles ∧ cycles ≤ tRAS + tRP + tRCD + tCAS ∧
      ∀ bank, next.banks bank = chip.banks bank ∨
        ActivatedBefore (next.banks bank) next.currentCycle ∧
        ((chip.banks bank).isRowActive → (chip.banks bank).lastActivationCycle +
          (tRAS + tRP + tRCD) ≤ (next.banks bank).lastActivationCycle) := by
  obtain ⟨low, high, later⟩ := openingCycles_bounds (before access.bank)
  have column : 0 < tCAS ∧ 0 < tRAS + tRP + tRCD ∧ 0 < tRCD := by decide
  simp only [accessDram] at stepEq
  split at stepEq <;> obtain ⟨_, checkedEq, ⟨⟩⟩ := Option.map_eq_some_iff.mp stepEq <;>
    obtain ⟨rfl, -⟩ := checked_eq_some_iff.mp checkedEq
  · refine ⟨rfl, by omega, by omega, fun bank => ?_⟩
    by_cases same : bank = access.bank
    · subst same
      simp only [update_self]
      exact .inr ⟨fun _ => by simp only; omega, later⟩
    · exact .inl (update_of_ne same _ _)
  · exact ⟨rfl, by omega, by omega, fun _ => .inl rfl⟩

/-- In every reachable chip an access takes from `tCAS` to `tRAS + tRP + tRCD + tCAS` cycles, and
a bank that opens another row does so at least `tRAS + tRP + tRCD` cycles after the last one. -/
theorem rows_opened_apart (accesses : List Access) (chip : DRAMChip)
    (reached : Reaches accessDram closedChip accesses chip) (access : Access) (next : DRAMChip)
    (cycles : Int) (stepEq : accessDram chip access = some (next, cycles)) :
    next.currentCycle = chip.currentCycle + cycles ∧
      tCAS ≤ cycles ∧ cycles ≤ tRAS + tRP + tRCD + tCAS ∧
      ∀ bank, next.banks bank = chip.banks bank ∨ ((chip.banks bank).isRowActive →
        (chip.banks bank).lastActivationCycle + (tRAS + tRP + tRCD) ≤
          (next.banks bank).lastActivationCycle) := by
  have before : ∀ bank, ActivatedBefore (chip.banks bank) chip.currentCycle := by
    refine reached.invariant (fun chip => ∀ bank, ActivatedBefore (chip.banks bank)
      chip.currentCycle) (fun before stepEq bank => ?_) nofun
    obtain ⟨elapsed, positive, -, banks⟩ := accessDram_spec before stepEq
    rcases banks bank with same | ⟨after, -⟩
    · intro active
      rw [same] at active ⊢
      have := before bank active
      unfold tCAS at positive
      omega
    · exact after
  obtain ⟨elapsed, low, high, banks⟩ := accessDram_spec before stepEq
  exact ⟨elapsed, low, high, fun bank => (banks bank).imp_right And.right⟩

theorem rows_opened_apart_of_conflict :
    ∃ chip next, Reaches accessDram closedChip [⟨0, 0⟩, ⟨0, 0⟩] chip ∧
      accessDram chip ⟨0, 1⟩ = some (next, 46) ∧ next.currentCycle = chip.currentCycle + 46 := by
  have reached : Reaches accessDram closedChip [⟨0, 0⟩, ⟨0, 0⟩] _ := ⟨_, rfl⟩
  exact ⟨_, _, reached, rfl, (rows_opened_apart _ _ reached ⟨0, 1⟩ _ _ rfl).1⟩

end BitsAndBytes.DramChip
