import BitsAndBytes.Cpu

/-! # The pipeline against the instruction set -/

namespace BitsAndBytes.Cpu

open DelayedExecution Function Option

variable {inst : Instruction} {operands : Registers}

def instructionAt (memory : Nat → BitVec 8) (index : Nat) : Instruction :=
  ⟨memory (4 * index), memory (4 * index + 1), memory (4 * index + 2), memory (4 * index + 3)⟩

def instructionWrite (inst : Instruction) (operands : Registers) :
    Option (Fin numRegisters × BitVec 32) :=
  if inst.opcode = opcodeAdd then
    match register inst.rd, register inst.rs, register inst.rt with
    | some rd, some rs, some rt => some (rd, operands rs + operands rt)
    | _, _, _ => none
  else
    none

def programWrite (memory : Nat → BitVec 8) (index : Nat) (operands : Registers) :
    Option (Fin numRegisters × BitVec 32) :=
  instructionWrite (instructionAt memory index) operands

/-- An `ADD` finds both operands in the register file. -/
def ReadsRegisters (inst : Instruction) : Prop :=
  inst.opcode = opcodeAdd → inst.rs.toNat < numRegisters ∧ inst.rt.toNat < numRegisters

/-- An `ADD` has its destination in the register file. -/
def WritesRegister (inst : Instruction) : Prop :=
  inst.opcode = opcodeAdd → inst.rd.toNat < numRegisters

theorem register_of_lt {field : BitVec 8} (below : field.toNat < numRegisters) :
    register field = some ⟨field.toNat, below⟩ := dif_pos below

theorem reads_of_executeResult {registers : Registers} {result : BitVec 32}
    (executed : executeResult inst registers = some result) : ReadsRegisters inst := by
  intro add
  rw [executeResult, if_pos add] at executed
  by_cases rsLt : inst.rs.toNat < numRegisters
  · by_cases rtLt : inst.rt.toNat < numRegisters
    · exact ⟨rsLt, rtLt⟩
    · simp [register, rtLt] at executed
  · simp [register, rsLt] at executed

theorem exists_executeResult (reads : ReadsRegisters inst) (registers : Registers) :
    ∃ result, executeResult inst registers = some result := by
  by_cases add : inst.opcode = opcodeAdd
  · obtain ⟨rsLt, rtLt⟩ := reads add
    rw [executeResult, if_pos add, register_of_lt rsLt, register_of_lt rtLt]
    exact ⟨_, rfl⟩
  · exact ⟨0, if_neg add⟩

theorem instructionWrite_of_executeResult {result : BitVec 32} (add : inst.opcode = opcodeAdd)
    (rdLt : inst.rd.toNat < numRegisters) (executed : executeResult inst operands = some result) :
    instructionWrite inst operands = some (⟨inst.rd.toNat, rdLt⟩, result) := by
  rw [executeResult, if_pos add] at executed
  rw [instructionWrite, if_pos add, register_of_lt rdLt]
  cases rsEq : register inst.rs with
  | none => simp [rsEq] at executed
  | some rs =>
    cases rtEq : register inst.rt with
    | none => simp [rsEq, rtEq] at executed
    | some rt =>
      simp only [rsEq, rtEq, some.injEq] at executed
      simp only [executed]

/-- The CPU after `count` cycles: each stage holds its instruction, and the registers those of the
delayed execution. -/
structure InFlight (memory : Nat → BitVec 8) (initial : Registers) (count : Nat)
    (cpu : CPUState) : Prop where
  programCounter_eq : cpu.programCounter = 4 * count
  memory_eq : cpu.memory = memory
  registers_eq : cpu.registers = delayed 2 (programWrite memory) initial (count - 5)
  empty : ∀ stage < pipelineStages, count ≤ stage → (cpu.pipeline stage).valid = false
  filled : ∀ stage < pipelineStages, stage < count → (cpu.pipeline stage).valid ∧
      (cpu.pipeline stage).inst = instructionAt memory (count - 1 - stage)
  executed : ∀ stage < pipelineStages, stage < count → 2 ≤ stage →
    executeResult (instructionAt memory (count - 1 - stage))
        (delayed 2 (programWrite memory) initial (count - 1 - stage - 2)) =
      some (cpu.pipeline stage).result

namespace InFlight

variable {memory : Nat → BitVec 8} {initial : Registers} {count : Nat} {cpu : CPUState}

theorem writebackStage (inFlight : InFlight memory initial count cpu)
    (writes : 5 ≤ count → WritesRegister (instructionAt memory (count - 5))) :
    Cpu.writebackStage cpu = some { cpu with
      registers := delayed 2 (programWrite memory) initial (count + 1 - 5) } := by
  by_cases full : 5 ≤ count
  · obtain ⟨valid, instEq⟩ := inFlight.filled 4 (by decide) (by omega)
    have result := inFlight.executed 4 (by decide) (by omega) (by omega)
    have index : count - 1 - 4 = count - 5 := by omega
    have next : count + 1 - 5 = count - 5 + 1 := by omega
    rw [index] at instEq result
    rw [next, delayed_succ, ← inFlight.registers_eq]
    by_cases add : (instructionAt memory (count - 5)).opcode = opcodeAdd
    · have rdLt := writes full add
      have write := instructionWrite_of_executeResult add rdLt result
      simp [Cpu.writebackStage, valid, instEq, add, register_of_lt rdLt,
        programWrite, write, commit]
    · simp [Cpu.writebackStage, valid, instEq, add, programWrite, instructionWrite, commit]
  · have invalid := inFlight.empty 4 (by decide) (by omega)
    have same : count + 1 - 5 = count - 5 := by omega
    rw [same, ← inFlight.registers_eq]
    simp [Cpu.writebackStage, invalid]

end InFlight

def fetchedPipeline (memory : Nat → BitVec 8) (count : Nat)
    (pipeline : Nat → PipelineStage) : Nat → PipelineStage :=
  update (moveForward (pipelineStages - 1) pipeline) 0
    { pipeline 0 with
      pc := 4 * count
      inst := instructionAt memory count
      valid := true }

variable (memory : Nat → BitVec 8)

theorem fetchedPipeline_succ (count : Nat) (pipeline : Nat → PipelineStage) {stage : Nat}
    (below : stage + 1 < pipelineStages) :
    fetchedPipeline memory count pipeline (stage + 1) = pipeline stage := by
  rw [fetchedPipeline, update_of_ne (Nat.succ_ne_zero stage), moveForward_succ pipeline (by omega)]

theorem fetchedPipeline_zero (count : Nat) (pipeline : Nat → PipelineStage) :
    fetchedPipeline memory count pipeline 0 = { pipeline 0 with
        pc := 4 * count
        inst := instructionAt memory count
        valid := true } :=
  update_self ..

theorem fetchStage_moveForward (cpu : CPUState) {count : Nat}
    (programCounter_eq : cpu.programCounter = 4 * count) (fits : count < 256) :
    fetchStage
        { cpu with pipeline := moveForward (pipelineStages - 1) cpu.pipeline } =
      { cpu with
        pipeline := fetchedPipeline cpu.memory count cpu.pipeline
        programCounter := 4 * (count + 1) } := by
  have before : ¬ memorySize - 3 ≤ 4 * count := by
    simp only [memorySize]
    omega
  simp only [fetchStage, programCounter_eq, before, if_false, moveForward_zero,
    decodeWord_fetchWord, fetchedPipeline, instructionAt, Nat.mul_succ]

namespace InFlight

variable {memory : Nat → BitVec 8} {initial : Registers} {count : Nat} {cpu : CPUState}

/-! After the next instruction has been fetched, the stages hold the instructions that they
hold at the end of the cycle. -/

section

variable (inFlight : InFlight memory initial count cpu) {stage : Nat}
  (stageLt : stage < pipelineStages)
include inFlight stageLt

theorem fetched_empty (later : count + 1 ≤ stage) :
    (fetchedPipeline memory count cpu.pipeline stage).valid = false := by
  obtain ⟨before, rfl⟩ : ∃ before, stage = before + 1 := ⟨stage - 1, by omega⟩
  rw [fetchedPipeline_succ memory count _ stageLt]
  exact inFlight.empty before (by omega) (by omega)

theorem fetched_filled (earlier : stage < count + 1) :
    (fetchedPipeline memory count cpu.pipeline stage).valid ∧
      (fetchedPipeline memory count cpu.pipeline stage).inst =
        instructionAt memory (count + 1 - 1 - stage) := by
  cases stage with
  | zero => exact ⟨rfl, rfl⟩
  | succ before =>
    have index : count + 1 - 1 - (before + 1) = count - 1 - before := by omega
    rw [fetchedPipeline_succ memory count _ stageLt, index]
    exact inFlight.filled before (by omega) (by omega)

theorem fetched_executed (earlier : stage < count + 1) (late : 3 ≤ stage) :
    executeResult (instructionAt memory (count + 1 - 1 - stage))
        (delayed 2 (programWrite memory) initial (count + 1 - 1 - stage - 2)) =
      some (fetchedPipeline memory count cpu.pipeline stage).result := by
  obtain ⟨before, rfl⟩ : ∃ before, stage = before + 1 := ⟨stage - 1, by omega⟩
  have index : count + 1 - 1 - (before + 1) = count - 1 - before := by omega
  rw [fetchedPipeline_succ memory count _ stageLt, index]
  exact inFlight.executed before (by omega) (by omega) (by omega)

end

section

variable (inFlight : InFlight memory initial count cpu)
include inFlight

theorem pipelineCycle_eq (fits : count < 256)
    (writes : 5 ≤ count → WritesRegister (instructionAt memory (count - 5))) :
    Cpu.pipelineCycle cpu = executeStage
      { cpu with
        registers := delayed 2 (programWrite memory) initial (count + 1 - 5)
        pipeline := fetchedPipeline memory count cpu.pipeline
        programCounter := 4 * (count + 1) } := by
  have fetched := fetchStage_moveForward
    { cpu with
      registers := delayed 2 (programWrite memory) initial (count + 1 - 5) }
    inFlight.programCounter_eq fits
  rw [Cpu.pipelineCycle, inFlight.writebackStage writes, bind_some, fetched]
  simp only [inFlight.memory_eq]

theorem reads_of_pipelineCycle (fits : count < 256)
    (writes : 5 ≤ count → WritesRegister (instructionAt memory (count - 5))) {next : CPUState}
    (cycle : Cpu.pipelineCycle cpu = some next) (started : 2 ≤ count) :
    ReadsRegisters (instructionAt memory (count - 2)) := by
  obtain ⟨valid, instEq⟩ := inFlight.fetched_filled (show 2 < pipelineStages by decide) (by omega)
  have index : count + 1 - 1 - 2 = count - 2 := by omega
  rw [index] at instEq
  rw [inFlight.pipelineCycle_eq fits writes] at cycle
  simp only [executeStage, valid, instEq, Bool.not_true, Bool.false_eq_true, if_false] at cycle
  obtain ⟨result, executed, -⟩ := map_eq_some_iff.mp cycle
  exact reads_of_executeResult executed

theorem pipelineCycle (fits : count < 256)
    (reads : 2 ≤ count → ReadsRegisters (instructionAt memory (count - 2)))
    (writes : 5 ≤ count → WritesRegister (instructionAt memory (count - 5))) :
    ∃ next, Cpu.pipelineCycle cpu = some next ∧ InFlight memory initial (count + 1) next := by
  rw [inFlight.pipelineCycle_eq fits writes]
  have third : 2 < pipelineStages := by decide
  by_cases started : 2 ≤ count
  · obtain ⟨valid, instEq⟩ := inFlight.fetched_filled third (by omega)
    have index : count + 1 - 1 - 2 = count - 2 := by omega
    rw [index] at instEq
    obtain ⟨result, resultEq⟩ := exists_executeResult (reads started)
      (delayed 2 (programWrite memory) initial (count + 1 - 5))
    simp only [executeStage, valid, instEq, resultEq, Bool.not_true,
      Bool.false_eq_true, if_false, map_some, some.injEq]
    refine ⟨_, rfl, rfl, inFlight.memory_eq, rfl, ?_, ?_, ?_⟩
    · intro stage stageLt later
      have other : stage ≠ 2 := by omega
      simp only [update_of_ne other]
      exact inFlight.fetched_empty stageLt later
    · intro stage stageLt earlier
      by_cases isThird : stage = 2
      · subst isThird
        simp only [update_self]
        exact ⟨trivial, by rw [index]⟩
      · simp only [update_of_ne isThird]
        exact inFlight.fetched_filled stageLt earlier
    · intro stage stageLt earlier late
      by_cases isThird : stage = 2
      · subst isThird
        exact resultEq
      · simp only [update_of_ne isThird]
        exact inFlight.fetched_executed stageLt earlier (by omega)
  · have invalid := inFlight.fetched_empty third (by omega)
    simp only [executeStage, invalid, Bool.not_false, if_true, some.injEq]
    exact ⟨_, rfl, rfl, inFlight.memory_eq, rfl, fun _ stageLt => inFlight.fetched_empty stageLt,
      fun _ stageLt => inFlight.fetched_filled stageLt,
      fun stage stageLt earlier late => absurd earlier (by omega)⟩

end

end InFlight

theorem exists_inFlight (initial : Registers) {count : Nat} (fits : count ≤ 256)
    (reads : ∀ index, index + 3 ≤ count → ReadsRegisters (instructionAt memory index))
    (writes : ∀ index, index + 6 ≤ count → WritesRegister (instructionAt memory index)) :
    ∃ cpu, pipelineCycles count (load memory initial) = some cpu ∧
      InFlight memory initial count cpu := by
  induction count with
  | zero => exact ⟨_, rfl, by constructor <;> simp [Cpu.load, initCPU]⟩
  | succ count ih =>
    obtain ⟨cpu, cycles, inFlight⟩ := ih (by omega)
      (fun index bound => reads index (by omega)) (fun index bound => writes index (by omega))
    obtain ⟨next, cycle, last⟩ := inFlight.pipelineCycle (by omega)
      (fun started => reads (count - 2) (by omega)) (fun full => writes (count - 5) (by omega))
    refine ⟨next, ?_, last⟩
    rw [pipelineCycles, cycles, bind_some, cycle]

theorem reads_of_pipelineCycles {initial : Registers} {count : Nat} {last : CPUState}
    (fits : count ≤ 256)
    (writes : ∀ index, index + 6 ≤ count → WritesRegister (instructionAt memory index))
    (cycles : pipelineCycles count (load memory initial) = some last) (index : Nat)
    (bound : index + 3 ≤ count) : ReadsRegisters (instructionAt memory index) := by
  induction count generalizing last index with
  | zero => omega
  | succ count ih =>
    have earlierWrites : ∀ index, index + 6 ≤ count → WritesRegister (instructionAt memory index) :=
      fun index bound => writes index (by omega)
    obtain ⟨cpu, cyclesBefore, cycle⟩ := bind_eq_some_iff.mp cycles
    have reads := fun index bound => ih (by omega) earlierWrites cyclesBefore index bound
    by_cases isLast : index = count - 2
    · obtain ⟨other, otherCycles, inFlight⟩ := exists_inFlight memory initial (by omega) reads
        earlierWrites
      obtain rfl := some.inj (cyclesBefore.symm.trans otherCycles)
      subst isLast
      exact inFlight.reads_of_pipelineCycle (by omega) (fun full => writes (count - 5) (by omega))
        cycle (by omega)
    · exact reads index (by omega)

/-- The three register fields of the instruction are below `NUM_REGISTERS`. -/
def HasRegisters (inst : Instruction) : Prop :=
  inst.rd.toNat < numRegisters ∧ inst.rs.toNat < numRegisters ∧ inst.rt.toNat < numRegisters

instance (inst : Instruction) : Decidable (HasRegisters inst) :=
  inferInstanceAs (Decidable (_ ∧ _ ∧ _))

theorem HasRegisters.reads (fields : HasRegisters inst) : ReadsRegisters inst := fun _ => fields.2

theorem HasRegisters.writes (fields : HasRegisters inst) : WritesRegister inst := fun _ => fields.1

/-- The pipeline is a machine whose results become visible two instructions late. -/
theorem pipeline_delays_results_by_two (memory : Nat → BitVec 8)
    (initial : Registers) (count : Nat) (started : 5 ≤ count) (fits : count ≤ 256)
    (fields : ∀ index < 256, HasRegisters (instructionAt memory index)) :
    ∃ cpu, pipelineCycles count (load memory initial) = some cpu ∧
      cpu.registers = delayed 2 (programWrite memory) initial (count - 5) := by
  obtain ⟨cpu, cycles, inFlight⟩ := exists_inFlight memory initial fits
    (fun index bound => (fields index (by omega)).reads)
    (fun index bound => (fields index (by omega)).writes)
  exact ⟨cpu, cycles, inFlight.registers_eq⟩

theorem pipeline_delays_results_of_zeroed_memory :
    ∃ cpu, pipelineCycles 8 (load (fun _ => 0) fun _ => 1) = some cpu ∧
      cpu.registers = delayed 2 (programWrite fun _ => 0) (fun _ => 1) (8 - 5) :=
  pipeline_delays_results_by_two (fun _ => 0) (fun _ => 1) 8 (by decide) (by decide)
    fun _ _ => by simp [HasRegisters, instructionAt, numRegisters]

theorem map_fst_programWrite (memory : Nat → BitVec 8) (index : Nat) (operands other : Registers) :
    (programWrite memory index operands).map Prod.fst =
      (programWrite memory index other).map Prod.fst := by
  rw [programWrite, programWrite, instructionWrite, instructionWrite]
  split
  · split <;> rfl
  · rfl

/-- The instruction computes the same from the registers two instructions earlier. -/
def Settled (memory : Nat → BitVec 8) (initial : Registers) (index : Nat) : Prop :=
  programWrite memory index (sequential (programWrite memory) initial (index - 2)) =
    programWrite memory index (sequential (programWrite memory) initial index)

theorem exists_pipelineCycles_delayed {initial : Registers} {count n : Nat}
    (fits : count + 5 ≤ 256) (fields : ∀ index < count, HasRegisters (instructionAt memory index))
    (behind : ∀ index, count ≤ index → index < count + 3 →
      ReadsRegisters (instructionAt memory index)) (bound : n ≤ count) :
    ∃ cpu, pipelineCycles (n + 5) (load memory initial) = some cpu ∧
      cpu.registers = delayed 2 (programWrite memory) initial n := by
  have reads : ∀ index, index + 3 ≤ n + 5 → ReadsRegisters (instructionAt memory index) := by
    intro index below
    by_cases within : index < count
    · exact (fields index within).reads
    · exact behind index (by omega) (by omega)
  obtain ⟨cpu, cycles, inFlight⟩ := exists_inFlight memory initial (show n + 5 ≤ 256 by omega)
    reads fun index below => (fields index (by omega)).writes
  exact ⟨cpu, cycles, inFlight.registers_eq⟩

/-- The pipeline computes as the sequential machine, after each number of instructions, exactly if
none of them notices the delay and the three words behind them read registers that exist. -/
theorem pipeline_implements_iff_settled (memory : Nat → BitVec 8)
    (initial : Registers) (count : Nat) (fits : count + pipelineStages ≤ 256)
    (fields : ∀ index < count, HasRegisters (instructionAt memory index)) :
    (∀ n ≤ count, ∃ cpu, pipelineCycles (n + pipelineStages) (load memory initial) = some cpu ∧
        cpu.registers = sequential (programWrite memory) initial n) ↔
      (∀ index < count, Settled memory initial index) ∧ ∀ index, count ≤ index → index < count + 3 →
          ReadsRegisters (instructionAt memory index) := by
  constructor
  · intro agree
    have behind : ∀ index, count ≤ index → index < count + 3 →
        ReadsRegisters (instructionAt memory index) := by
      intro index _ below
      obtain ⟨cpu, cycles, -⟩ := agree count le_rfl
      refine reads_of_pipelineCycles memory fits (fun index below => ?_) cycles index ?_
      · exact (fields index (by simp only [pipelineStages] at below; omega)).writes
      · simp only [pipelineStages]
        omega
    refine ⟨(delayed_eq_sequential_iff (map_fst_programWrite memory) count).mp ?_, behind⟩
    intro n bound
    obtain ⟨cpu, cycles, registers⟩ := agree n bound
    obtain ⟨other, otherCycles, delayedEq⟩ :=
      exists_pipelineCycles_delayed memory fits fields behind bound
    obtain rfl := some.inj (cycles.symm.trans otherCycles)
    exact delayedEq.symm.trans registers
  · rintro ⟨settled, behind⟩ n bound
    obtain ⟨cpu, cycles, delayedEq⟩ :=
      exists_pipelineCycles_delayed memory fits fields behind bound
    refine ⟨cpu, cycles, delayedEq.trans (delayed_eq_sequential fun index below => ?_)⟩
    exact settled index (by omega)

def image (bytes : List (BitVec 8)) (address : Nat) : BitVec 8 :=
  bytes.getD address 0

theorem pipeline_implements_repeated_sum :
    ∃ memory initial cpu, memory = image [0, 1, 2, 3, 0, 1, 2, 3, 0, 5, 6, 7, 0, 4, 1, 1] ∧
      (∀ index < 4, Settled memory initial index) ∧
      pipelineCycles (4 + pipelineStages) (load memory initial) = some cpu ∧
        cpu.registers = sequential (programWrite memory) initial 4 := by
  have settled : ∀ index < 4, Settled (image [0, 1, 2, 3, 0, 1, 2, 3, 0, 5, 6, 7, 0, 4, 1, 1])
      (fun number => BitVec.ofNat 32 number) index := by
    unfold Settled
    decide
  obtain ⟨cpu, cycles, registers⟩ := (pipeline_implements_iff_settled
    (image [0, 1, 2, 3, 0, 1, 2, 3, 0, 5, 6, 7, 0, 4, 1, 1]) (fun number => BitVec.ofNat 32 number)
    4 (by decide) (by decide)).mpr ⟨settled, fun index lower upper _ => by
      interval_cases index <;> decide⟩ 4 le_rfl
  exact ⟨_, _, cpu, rfl, settled, cycles, registers⟩

theorem pipeline_reads_register_before_it_is_written : (∀ index < 2, HasRegisters
        (instructionAt (image [0, 1, 2, 3, 0, 4, 1, 1]) index)) ∧
      ¬ ∃ cpu, pipelineCycles (2 + pipelineStages)
          (load (image [0, 1, 2, 3, 0, 4, 1, 1]) fun number => BitVec.ofNat 32 number) = some cpu ∧
        cpu.registers = sequential (programWrite (image [0, 1, 2, 3, 0, 4, 1, 1]))
          (fun number => BitVec.ofNat 32 number) 2 := by
  refine ⟨by decide, ?_⟩
  rintro ⟨cpu, cycles, registersEq⟩
  have inPipeline : (pipelineCycles (2 + pipelineStages)
      (load (image [0, 1, 2, 3, 0, 4, 1, 1]) fun number => BitVec.ofNat 32 number)).map
        (fun cpu => cpu.registers ⟨4, by decide⟩) = some 2 := by
    decide
  have inSequence : sequential (programWrite (image [0, 1, 2, 3, 0, 4, 1, 1]))
      (fun number => BitVec.ofNat 32 number) 2 ⟨4, by decide⟩ = 10 := by
    decide
  rw [cycles, map_some, registersEq, inSequence] at inPipeline
  exact absurd inPipeline (by decide)

end BitsAndBytes.Cpu
