import BitsAndBytes.DelayedExecution
import Mathlib.Tactic.IntervalCases

/-! # The pipeline of `cpu.c` -/

namespace BitsAndBytes.Cpu

open Function

def memorySize : Nat := 1024

def numRegisters : Nat := 16

def pipelineStages : Nat := 5

def opcodeAdd : BitVec 8 := 0x00

@[ext]
structure Instruction where
  opcode : BitVec 8
  rd : BitVec 8
  rs : BitVec 8
  rt : BitVec 8
deriving DecidableEq, Repr

structure PipelineStage where
  pc : Nat
  inst : Instruction
  result : BitVec 32
  valid : Bool
deriving DecidableEq, Repr

abbrev Registers := Fin numRegisters → BitVec 32

structure CPUState where
  programCounter : Nat
  registers : Registers
  memory : Nat → BitVec 8
  pipeline : Nat → PipelineStage

def initCPU : CPUState where
  programCounter := 0
  registers := fun _ => 0
  memory := fun _ => 0
  pipeline := fun _ => ⟨0, ⟨0, 0, 0, 0⟩, 0, false⟩

def load (memory : Nat → BitVec 8) (registers : Registers) : CPUState :=
  { initCPU with memory := memory, registers := registers }

def fetchWord (memory : Nat → BitVec 8) (pc : Nat) : BitVec 32 :=
  ((memory pc).setWidth 32 <<< 24) ||| ((memory (pc + 1)).setWidth 32 <<< 16) |||
    ((memory (pc + 2)).setWidth 32 <<< 8) ||| (memory (pc + 3)).setWidth 32

def decodeWord (instruction : BitVec 32) : Instruction where
  opcode := ((instruction >>> 24) &&& 0xFF).setWidth 8
  rd := ((instruction >>> 16) &&& 0xFF).setWidth 8
  rs := ((instruction >>> 8) &&& 0xFF).setWidth 8
  rt := (instruction &&& 0xFF).setWidth 8

def fetchStage (cpu : CPUState) : CPUState :=
  if memorySize - 3 ≤ cpu.programCounter then
    cpu
  else
    { cpu with
      pipeline := update cpu.pipeline 0
        { cpu.pipeline 0 with
          pc := cpu.programCounter
          inst := decodeWord (fetchWord cpu.memory cpu.programCounter)
          valid := true }
      programCounter := cpu.programCounter + 4 }

def register (field : BitVec 8) : Option (Fin numRegisters) :=
  if h : field.toNat < numRegisters then some ⟨field.toNat, h⟩ else none

def executeResult (inst : Instruction) (registers : Registers) : Option (BitVec 32) :=
  if inst.opcode = opcodeAdd then
    match register inst.rs, register inst.rt with
    | some rs, some rt => some (registers rs + registers rt)
    | _, _ => none
  else
    some 0

def executeStage (cpu : CPUState) : Option CPUState :=
  if !(cpu.pipeline 2).valid then
    some cpu
  else
    (executeResult (cpu.pipeline 2).inst cpu.registers).map fun result =>
      { cpu with
        pipeline := update cpu.pipeline 2
          { cpu.pipeline 2 with result := result } }

def writebackStage (cpu : CPUState) : Option CPUState :=
  if !(cpu.pipeline 4).valid then
    some cpu
  else if (cpu.pipeline 4).inst.opcode = opcodeAdd then
    (register (cpu.pipeline 4).inst.rd).map fun rd =>
      { cpu with
        registers := update cpu.registers rd (cpu.pipeline 4).result }
  else
    some cpu

def moveForward : Nat → (Nat → PipelineStage) → Nat → PipelineStage
  | 0, pipeline => pipeline
  | i + 1, pipeline => moveForward i (update pipeline (i + 1) (pipeline i))

def pipelineCycle (cpu : CPUState) : Option CPUState :=
  (writebackStage cpu).bind fun cpu =>
    executeStage (fetchStage { cpu with pipeline := moveForward (pipelineStages - 1) cpu.pipeline })

def pipelineCycles : Nat → CPUState → Option CPUState
  | 0, cpu => some cpu
  | count + 1, cpu => (pipelineCycles count cpu).bind pipelineCycle

theorem moveForward_apply (last : Nat) (pipeline : Nat → PipelineStage) (stage : Nat) :
    moveForward last pipeline stage =
      if stage = 0 ∨ last < stage then pipeline stage
      else pipeline (stage - 1) := by
  induction last generalizing pipeline with
  | zero =>
    have untouched : stage = 0 ∨ 0 < stage := by omega
    rw [if_pos untouched]
    rfl
  | succ last ih =>
    rw [moveForward, ih]
    by_cases top : stage = last + 1
    · subst top
      simp
    · have below : stage - 1 ≠ last + 1 ∨ stage = 0 ∨ last < stage := by omega
      by_cases outside : stage = 0 ∨ last < stage
      · have stillOutside : stage = 0 ∨ last + 1 < stage := by omega
        rw [if_pos outside, if_pos stillOutside, update_of_ne top]
      · have stillInside : ¬ (stage = 0 ∨ last + 1 < stage) := by omega
        have before : stage - 1 ≠ last + 1 := by omega
        rw [if_neg outside, if_neg stillInside, update_of_ne before]

theorem moveForward_zero (last : Nat) (pipeline : Nat → PipelineStage) :
    moveForward last pipeline 0 = pipeline 0 := by
  rw [moveForward_apply, if_pos (.inl rfl)]

theorem moveForward_succ (pipeline : Nat → PipelineStage) {last stage : Nat}
    (below : stage < last) : moveForward last pipeline (stage + 1) = pipeline stage := by
  have inside : ¬ (stage + 1 = 0 ∨ last < stage + 1) := by omega
  rw [moveForward_apply, if_neg inside]
  rfl

theorem decodeWord_fetchWord (memory : Nat → BitVec 8) (pc : Nat) :
    decodeWord (fetchWord memory pc) =
      ⟨memory pc, memory (pc + 1), memory (pc + 2), memory (pc + 3)⟩ := by
  apply Instruction.ext <;>
    · ext bit bitLt
      simp only [decodeWord, fetchWord]
      interval_cases bit <;> simp

end BitsAndBytes.Cpu
