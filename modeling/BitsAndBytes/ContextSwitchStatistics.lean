import BitsAndBytes.ContextSwitch
import BitsAndBytes.TruncatedMean

/-! # The average switch time of `contextSwitchHandler.c` -/

namespace BitsAndBytes.ContextSwitch

open OperationRuns TruncatedMean List

structure Switch where
  prev : Nat
  next : Nat
  interrupt : Interrupt
  different : prev ≠ next

def Interrupt.switchTime (interrupt : Interrupt) : Nat :=
  (interrupt.switchEnd - interrupt.switchStart).toNat

def switchStep (system : System) (switch : Switch) : Option (System × Unit) :=
  (contextSwitch system switch.prev switch.next switch.interrupt).map fun next => (next, ())

def switchTimes (switches : List Switch) : List Nat :=
  switches.map fun switch => switch.interrupt.switchTime

/-- The statistics after switches that took the given times. -/
structure Averages (stats : PerfStats) (times : List Nat) : Prop where
  count : stats.contextSwitches.toNat = times.length
  mean : stats.avgSwitchTime.toNat = (ofValues times).mean

section

variable {stats : PerfStats} {times : List Nat} {interrupt : Interrupt}

theorem Averages.updatePerfStats (averages : Averages stats times) (few : times.length + 1 < 2 ^ 64)
    (fits : (ofValues times).mean * times.length + interrupt.switchTime < 2 ^ 64) :
    ∃ next, ContextSwitch.updatePerfStats stats interrupt = some next ∧
      Averages next (times ++ [interrupt.switchTime]) := by
  obtain ⟨count, mean⟩ := averages
  have one : (1 : UInt64).toNat = 1 := rfl
  have counted : (stats.contextSwitches + 1).toNat = times.length + 1 := by
    rw [UInt64.toNat_add, count, one, Nat.mod_eq_of_lt few]
  have nonzero : stats.contextSwitches + 1 ≠ 0 := by
    intro zero
    rw [zero] at counted
    exact absurd counted (Nat.succ_ne_zero _).symm
  have before : stats.contextSwitches + 1 - 1 = stats.contextSwitches := UInt64.add_sub_cancel _ _
  have product : (stats.avgSwitchTime * stats.contextSwitches).toNat =
      (ofValues times).mean * times.length := by
    rw [UInt64.toNat_mul, count, mean, Nat.mod_eq_of_lt (by omega)]
  have dividend : (stats.avgSwitchTime * stats.contextSwitches +
      (interrupt.switchEnd - interrupt.switchStart)).toNat =
        (ofValues times).mean * times.length + interrupt.switchTime := by
    rw [UInt64.toNat_add, product]
    exact Nat.mod_eq_of_lt fits
  rw [ContextSwitch.updatePerfStats, if_neg nonzero]
  refine ⟨_, rfl, ?_, ?_⟩
  · rw [counted, length_append, length_singleton]
  · rw [mean_concat, before, UInt64.toNat_div, dividend, counted]

theorem Averages.switchStep {system : System} (averages : Averages system.globalStats times)
    (switch : Switch) (few : times.length + 1 < 2 ^ 64)
    (fits : (ofValues times).mean * times.length + switch.interrupt.switchTime < 2 ^ 64) :
    ∃ next, ContextSwitch.switchStep system switch = some (next, ()) ∧
      Averages next.globalStats (times ++ [switch.interrupt.switchTime]) := by
  obtain ⟨stats, updated, nextAverages⟩ := averages.updatePerfStats few fits
  rw [ContextSwitch.switchStep, contextSwitch, updated]
  exact ⟨_, rfl, nextAverages⟩

theorem exists_reaches_averages {system : System}
    (zeroed : system.globalStats = ⟨0, 0, 0⟩) {switches : List Switch} {n : Nat}
    (few : switches.length < 2 ^ 64) (fits : DividendsBelow (2 ^ 64) (switchTimes switches))
    (bound : n ≤ switches.length) :
    ∃ final, Reaches switchStep system (switches.take n) final ∧
      Averages final.globalStats ((switchTimes switches).take n) := by
  have sameLength : (switchTimes switches).length = switches.length := length_map _
  induction n with
  | zero =>
    refine ⟨system, ⟨[], rfl⟩, ?_⟩
    rw [zeroed]
    exact ⟨rfl, rfl⟩
  | succ n ih =>
    obtain ⟨middle, ⟨outs, ran⟩, averages⟩ := ih (by omega)
    have inside : n < (switchTimes switches).length := by omega
    have length : ((switchTimes switches).take n).length = n := length_take_of_le inside.le
    have isTime : (switchTimes switches)[n] = switches[n].interrupt.switchTime := getElem_map _
    have lastFits := fits n inside
    rw [isTime] at lastFits
    rw [take_succ_eq_append_getElem bound, take_succ_eq_append_getElem inside, isTime]
    obtain ⟨final, stepEq, finalAverages⟩ := averages.switchStep switches[n] (by omega)
      (by rwa [length])
    exact ⟨final, ⟨_, run_concat ran stepEq⟩, finalAverages⟩

end

/-- `avg_switch_time` is the mean after every switch exactly if the remainder of the sum of the
times by their number never falls. -/
theorem averages_eq_means_iff (system : System) (zeroed : system.globalStats = ⟨0, 0, 0⟩)
    (switches : List Switch) (few : switches.length < 2 ^ 64)
    (fits : DividendsBelow (2 ^ 64) (switchTimes switches)) :
    (∀ n ≤ switches.length, ∃ final, Reaches switchStep system (switches.take n) final ∧
        final.globalStats.avgSwitchTime.toNat = ((switchTimes switches).take n).sum / n) ↔
      RemaindersGrow (switchTimes switches) := by
  have sameLength : (switchTimes switches).length = switches.length := length_map _
  rw [← means_eq_iff_remaindersGrow, sameLength]
  constructor
  · intro exactly n bound
    obtain ⟨final, reached, average⟩ := exactly n bound
    obtain ⟨other, otherReached, averages⟩ := exists_reaches_averages zeroed few fits bound
    rwa [reached.unique otherReached, averages.mean] at average
  · intro exactly n bound
    obtain ⟨final, reached, averages⟩ := exists_reaches_averages zeroed few fits bound
    exact ⟨final, reached, averages.mean.trans (exactly n bound)⟩

def switchFor (back : Bool) (time : UInt64) : Switch :=
  if back then ⟨1, 0, ⟨0, 0, 0, 0, 0, 0, time⟩, by decide⟩
  else ⟨0, 1, ⟨0, 0, 0, 0, 0, 0, time⟩, by decide⟩

theorem averages_of_three_switches :
    RemaindersGrow [1, 2, 5] ∧ ∃ final, Reaches switchStep (initialized mainStartups)
        [switchFor false 1, switchFor true 2, switchFor false 5] final ∧
      final.globalStats.avgSwitchTime.toNat = (1 + 2 + 5) / 3 := by
  have grow : RemaindersGrow [1, 2, 5] := by
    rw [RemaindersGrow]
    decide
  exact ⟨grow, (averages_eq_means_iff (initialized mainStartups) rfl
    [switchFor false 1, switchFor true 2, switchFor false 5] (by decide)
    (dividendsBelow_of_sum_lt (by decide))).mpr grow 3 le_rfl⟩

theorem average_of_three_switches_too_small : ∃ final, Reaches switchStep (initialized mainStartups)
        [switchFor false 1, switchFor true 2, switchFor false 3] final ∧
      switchTimes [switchFor false 1, switchFor true 2, switchFor false 3] = [1, 2, 3] ∧
      final.globalStats.avgSwitchTime.toNat = 1 ∧ ([1, 2, 3] : List Nat).sum / 3 = 2 :=
  ⟨_, ⟨_, rfl⟩, rfl, rfl, rfl⟩

end BitsAndBytes.ContextSwitch
