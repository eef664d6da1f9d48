import BitsAndBytes.CpuPipeline
import BitsAndBytes.OperationRuns

/-! # Writebacks at the end of the memory -/

namespace BitsAndBytes.Cpu

open OperationRuns Function List Option

def memoryWords : Nat := 256

def writtenBack (cpu : CPUState) : Option Nat :=
  if (cpu.pipeline 4).valid ∧ (cpu.pipeline 4).inst.opcode = opcodeAdd then
    some (cpu.pipeline 4).pc
  else
    none

def cycle (cpu : CPUState) (_ : Unit) : Option (CPUState × Option Nat) :=
  (pipelineCycle cpu).map fun next => (next, writtenBack cpu)

def cycles (count : Nat) (cpu : CPUState) : Option (CPUState × List (Option Nat)) :=
  run cycle cpu (replicate count ())

/-- No instruction is written back twice. -/
def WrittenAtMostOnce (log : List (Option Nat)) : Prop :=
  ∀ address (first second : Nat), log[first]? = some (some address) →
    log[second]? = some (some address) → first = second

def wordIn (count stage : Nat) : Nat :=
  min (count - 1 - stage) (memoryWords - 1)

/-- The stages hold the last instructions that were fetched. -/
structure Holds (memory : Nat → BitVec 8) (count : Nat) (cpu : CPUState) : Prop where
  programCounter_eq : cpu.programCounter = 4 * min count memoryWords
  memory_eq : cpu.memory = memory
  empty : ∀ stage < pipelineStages, count ≤ stage → (cpu.pipeline stage).valid = false
  filled : ∀ stage < pipelineStages, stage < count → (cpu.pipeline stage).valid ∧
      (cpu.pipeline stage).inst = instructionAt memory (wordIn count stage) ∧
      (cpu.pipeline stage).pc = 4 * wordIn count stage

section

variable {memory : Nat → BitVec 8} {count : Nat} {cpu : CPUState}

theorem wordIn_lt (count stage : Nat) : wordIn count stage < memoryWords := by
  unfold wordIn memoryWords
  omega

theorem wordIn_succ_succ (count stage : Nat) :
    wordIn (count + 1) (stage + 1) = wordIn count stage := by
  unfold wordIn
  omega

theorem wordIn_succ_zero (count : Nat) : wordIn (count + 1) 0 = min count (memoryWords - 1) := by
  simp [wordIn]

namespace Holds

section

variable (holds : Holds memory count cpu)
include holds

theorem writtenBack_eq : writtenBack cpu =
      if 4 < count ∧ (instructionAt memory (wordIn count 4)).opcode = opcodeAdd then
        some (4 * wordIn count 4)
      else none := by
  unfold writtenBack
  by_cases started : 4 < count
  · obtain ⟨valid, instEq, pcEq⟩ := holds.filled 4 (by decide) started
    simp only [valid, instEq, pcEq, started, true_and]
  · have invalid := holds.empty 4 (by decide) (by omega)
    simp [invalid, started]

theorem fetched (notFull : count < memoryWords) (registers : Registers) :
    Holds memory (count + 1) { cpu with
      registers := registers
      pipeline := fetchedPipeline cpu.memory count cpu.pipeline
      programCounter := 4 * (count + 1) } := by
  refine ⟨?_, holds.memory_eq, fun stage stageLt later => ?_, fun stage stageLt earlier => ?_⟩
  · simp only
    omega
  · obtain ⟨before, rfl⟩ : ∃ before, stage = before + 1 := ⟨stage - 1, by omega⟩
    simp only [fetchedPipeline_succ cpu.memory count _ stageLt]
    exact holds.empty before (by omega) (by omega)
  · cases stage with
    | zero =>
      have word : wordIn (count + 1) 0 = count := by
        rw [wordIn_succ_zero]
        omega
      simp only [fetchedPipeline_zero, word, holds.memory_eq]
      exact ⟨trivial, trivial, trivial⟩
    | succ stage =>
      simp only [fetchedPipeline_succ cpu.memory count _ stageLt, wordIn_succ_succ]
      exact holds.filled stage (by omega) (by omega)

theorem moved (full : memoryWords ≤ count) (registers : Registers) :
    Holds memory (count + 1) { cpu with
      registers := registers
      pipeline := moveForward (pipelineStages - 1) cpu.pipeline } := by
  have started : pipelineStages < count := lt_of_lt_of_le (by decide) full
  refine ⟨?_, holds.memory_eq, fun stage stageLt later => ?_, fun stage stageLt _ => ?_⟩
  · simp only [holds.programCounter_eq]
    omega
  · omega
  · cases stage with
    | zero =>
      have sameWord : wordIn (count + 1) 0 = wordIn count 0 := by
        rw [wordIn_succ_zero, wordIn]
        omega
      simp only [moveForward_zero, sameWord]
      exact holds.filled 0 stageLt (by omega)
    | succ stage =>
      have moves := moveForward_succ cpu.pipeline (show stage < pipelineStages - 1 by omega)
      simp only [moves, wordIn_succ_succ]
      exact holds.filled stage (by omega) (by omega)

theorem fetchStage (registers : Registers) : Holds memory (count + 1) (Cpu.fetchStage { cpu with
      registers := registers
      pipeline := moveForward (pipelineStages - 1) cpu.pipeline }) := by
  have programCounter_eq := holds.programCounter_eq
  by_cases notFull : count < memoryWords
  · have counter : cpu.programCounter = 4 * count := by omega
    rw [fetchStage_moveForward { cpu with registers := registers } counter notFull]
    exact holds.fetched notFull registers
  · have full : memoryWords ≤ count := Nat.le_of_not_lt notFull
    have atEnd : memorySize - 3 ≤ cpu.programCounter := by
      rw [programCounter_eq, Nat.min_eq_right full]
      decide
    rw [Cpu.fetchStage, if_pos atEnd]
    exact holds.moved full registers

variable (fields : ∀ index < memoryWords, HasRegisters (instructionAt memory index))
include fields

theorem writebackStage :
    ∃ registers, Cpu.writebackStage cpu = some { cpu with registers := registers } := by
  unfold Cpu.writebackStage
  by_cases started : 4 < count
  · obtain ⟨valid, instEq, -⟩ := holds.filled 4 (by decide) started
    have rdLt := (fields (wordIn count 4) (wordIn_lt count 4)).1
    rw [valid, instEq, register_of_lt rdLt]
    by_cases add : (instructionAt memory (wordIn count 4)).opcode = opcodeAdd
    · exact ⟨update cpu.registers ⟨_, rdLt⟩ (cpu.pipeline 4).result, by simp [add]⟩
    · exact ⟨cpu.registers, by simp [add]⟩
  · have invalid := holds.empty 4 (by decide) (by omega)
    exact ⟨cpu.registers, by simp [invalid]⟩

theorem executeStage :
    ∃ next, Cpu.executeStage cpu = some next ∧ Holds memory count next := by
  unfold Cpu.executeStage
  by_cases started : 2 < count
  · obtain ⟨valid, instEq, -⟩ := holds.filled 2 (by decide) started
    obtain ⟨result, executed⟩ := exists_executeResult
      (fields (wordIn count 2) (wordIn_lt count 2)).reads cpu.registers
    simp only [valid, instEq, executed, Bool.not_true, Bool.false_eq_true, if_false,
      map_some, some.injEq]
    refine ⟨_, rfl, holds.programCounter_eq, holds.memory_eq, fun stage stageLt later => ?_,
      fun stage stageLt earlier => ?_⟩
    · have other : stage ≠ 2 := by omega
      simp only [update_of_ne other]
      exact holds.empty stage stageLt later
    · by_cases isThird : stage = 2
      · subst isThird
        simp only [update_self]
        exact ⟨trivial, trivial, (holds.filled 2 stageLt earlier).2.2⟩
      · simp only [update_of_ne isThird]
        exact holds.filled stage stageLt earlier
  · have invalid := holds.empty 2 (by decide) (by omega)
    exact ⟨cpu, by simp [invalid], holds⟩

theorem cycle :
    ∃ next, Cpu.cycle cpu () = some (next, writtenBack cpu) ∧ Holds memory (count + 1) next := by
  obtain ⟨registers, written⟩ := holds.writebackStage fields
  obtain ⟨next, executed, nextHolds⟩ := (holds.fetchStage registers).executeStage fields
  refine ⟨next, ?_, nextHolds⟩
  rw [Cpu.cycle, pipelineCycle, written, bind_some, executed, map_some]

end

end Holds

end

def writebackOf (memory : Nat → BitVec 8) (count : Nat) : Option Nat :=
  if 4 < count ∧ (instructionAt memory (wordIn count 4)).opcode = opcodeAdd then
    some (4 * wordIn count 4)
  else
    none

theorem exists_cycles (memory : Nat → BitVec 8) (initial : Registers)
    (fields : ∀ index < memoryWords, HasRegisters (instructionAt memory index)) (count : Nat) :
    ∃ cpu, cycles count (load memory initial) = some (cpu, (range count).map (writebackOf memory)) ∧
      Holds memory count cpu := by
  induction count with
  | zero => exact ⟨_, rfl, by constructor <;> simp [Cpu.load, initCPU]⟩
  | succ count ih =>
    obtain ⟨cpu, before, holds⟩ := ih
    obtain ⟨next, cycleEq, nextHolds⟩ := holds.cycle fields
    refine ⟨next, ?_, nextHolds⟩
    rw [cycles, replicate_succ', range_succ, map_append, map_singleton]
    rw [holds.writtenBack_eq] at cycleEq
    exact run_concat before cycleEq

theorem getElem?_writebacks {memory : Nat → BitVec 8} {count position address : Nat} :
    ((range count).map (writebackOf memory))[position]? = some (some address) ↔
      position < count ∧ 4 < position ∧ address = 4 * wordIn position 4 ∧
        (instructionAt memory (wordIn position 4)).opcode = opcodeAdd := by
  rw [getElem?_map, map_eq_some_iff]
  constructor
  · rintro ⟨found, inside, written⟩
    obtain ⟨below, rfl⟩ := List.getElem?_eq_some_iff.mp inside
    rw [length_range] at below
    rw [getElem_range, writebackOf, ite_none_right_eq_some] at written
    obtain ⟨⟨started, add⟩, same⟩ := written
    exact ⟨below, started, (some.inj same).symm, add⟩
  · rintro ⟨below, started, rfl, add⟩
    refine ⟨position, getElem?_range below, ?_⟩
    rw [writebackOf, if_pos ⟨started, add⟩]

theorem writtenAtMostOnce_iff (memory : Nat → BitVec 8) (count : Nat) :
    WrittenAtMostOnce ((range count).map (writebackOf memory)) ↔
      count ≤ 261 ∨ (instructionAt memory 255).opcode ≠ opcodeAdd := by
  unfold WrittenAtMostOnce
  simp only [getElem?_writebacks]
  constructor
  · intro once
    by_contra broken
    push Not at broken
    obtain ⟨many, add⟩ := broken
    exact absurd (once 1020 260 261 ⟨by omega, by decide, by decide, add⟩
      ⟨by omega, by decide, by decide, add⟩) (by decide)
  · rintro few address first second ⟨firstLt, firstStarted, rfl, firstAdd⟩
      ⟨secondLt, secondStarted, same, -⟩
    have sameWord : wordIn first 4 = wordIn second 4 := Nat.eq_of_mul_eq_mul_left (by decide) same
    by_cases last : wordIn first 4 = 255
    · rw [last] at firstAdd sameWord
      have bound := few.resolve_right (not_not.mpr firstAdd)
      simp only [wordIn, memoryWords] at last sameWord
      omega
    · simp only [wordIn, memoryWords] at last sameWord
      omega

/-- Words are written back once exactly up to 261 cycles, or if the last is no addition. -/
theorem written_at_most_once_iff (memory : Nat → BitVec 8) (initial : Registers)
    (fields : ∀ index < memoryWords, HasRegisters (instructionAt memory index)) (count : Nat) :
    ∃ cpu log, cycles count (load memory initial) = some (cpu, log) ∧
      (WrittenAtMostOnce log ↔ count ≤ 261 ∨ (instructionAt memory 255).opcode ≠ opcodeAdd) := by
  obtain ⟨cpu, cyclesEq, -⟩ := exists_cycles memory initial fields count
  exact ⟨cpu, _, cyclesEq, writtenAtMostOnce_iff memory count⟩

theorem hasRegisters_zeroed (index : Nat) : HasRegisters (instructionAt (fun _ => 0) index) := by
  simp [HasRegisters, instructionAt, numRegisters]

theorem zeroed_memory_written_at_most_once :
    ∃ cpu log, cycles 8 (load (fun _ => 0) fun _ => 1) = some (cpu, log) ∧
      (WrittenAtMostOnce log ↔ 8 ≤ 261 ∨ (instructionAt (fun _ => 0) 255).opcode ≠ opcodeAdd) :=
  written_at_most_once_iff (fun _ => 0) (fun _ => 1) (fun index _ => hasRegisters_zeroed index) 8

theorem last_word_written_twice :
    (∀ index < memoryWords, HasRegisters (instructionAt (fun _ => 0) index)) ∧
      ∃ cpu log, cycles 262 (load (fun _ => 0) fun _ => 1) = some (cpu, log) ∧
        log[260]? = some (some 1020) ∧ log[261]? = some (some 1020) ∧ ¬ WrittenAtMostOnce log := by
  have fields : ∀ index < memoryWords, HasRegisters (instructionAt (fun _ => 0) index) :=
    fun index _ => hasRegisters_zeroed index
  obtain ⟨cpu, cyclesEq, -⟩ := exists_cycles (fun _ => 0) (fun _ => 1) fields 262
  have first := getElem?_writebacks.mpr
    (show 260 < 262 ∧ 4 < 260 ∧ 1020 = 4 * wordIn 260 4 ∧
      (instructionAt (fun _ => 0) (wordIn 260 4)).opcode = opcodeAdd from by decide)
  have second := getElem?_writebacks.mpr
    (show 261 < 262 ∧ 4 < 261 ∧ 1020 = 4 * wordIn 261 4 ∧
      (instructionAt (fun _ => 0) (wordIn 261 4)).opcode = opcodeAdd from by decide)
  refine ⟨fields, cpu, _, cyclesEq, first, second, fun once => ?_⟩
  exact absurd (once 1020 260 261 first second) (by decide)

end BitsAndBytes.Cpu
