import BitsAndBytes.OperationRuns
import Mathlib.Data.BitVec

/-! # Some instructions of x86-64 -/

namespace BitsAndBytes.X86

open OperationRuns Function Option List

inductive Register
  | rax | rbx | rcx | rdx | rsi | rdi | rbp | rsp
  | r8 | r9 | r10 | r11 | r12 | r13 | r14 | r15
deriving DecidableEq, Repr

structure Flags where
  zero : Bool
  sign : Bool
  overflow : Bool
deriving DecidableEq, Repr

inductive Condition
  | e | l | g
deriving DecidableEq, Repr

def Condition.holds : Condition → Flags → Bool
  | .e, flags => flags.zero
  | .l, flags => flags.sign != flags.overflow
  | .g, flags => !flags.zero && flags.sign == flags.overflow

inductive Instruction (Label : Type)
  | label (name : Label)
  | mov (dst src : Register)
  | movImm (dst : Register) (value : BitVec 32)
  | load (dst base index : Register)
  | lea (dst base : Register) (displacement : BitVec 32)
  | xor (dst src : Register)
  | add (dst src : Register)
  | shr (dst : Register)
  | cmp (first second : Register)
  | cmov (condition : Condition) (dst src : Register)
  | jcc (condition : Condition) (target : Label)
  | jmp (target : Label)
  | ret
deriving DecidableEq, Repr

abbrev Memory := BitVec 64 → Option (BitVec 8)

structure State where
  registers : Register → BitVec 64
  flags : Flags
  line : Nat
  memory : Memory

def load32 (memory : Memory) (address : BitVec 64) : Option (BitVec 32) :=
  (memory address).bind fun first =>
    (memory (address + 1)).bind fun second =>
      (memory (address + 2)).bind fun third =>
        (memory (address + 3)).map fun fourth => fourth ++ third ++ second ++ first

namespace State

def get (state : State) (register : Register) : BitVec 32 :=
  (state.registers register).setWidth 32

def set (state : State) (register : Register) (value : BitVec 32) : State :=
  { state with registers := update state.registers register (value.setWidth 64) }

def withFlags (state : State) (flags : Flags) : State :=
  { state with flags := flags }

def jump (state : State) (line : Nat) : State :=
  { state with line := line }

def advance (state : State) : State :=
  state.jump (state.line + 1)

end State

def resultFlags (result : BitVec 32) (overflow : Bool) : Flags :=
  ⟨result == 0, result.msb, overflow⟩

def subFlags (first second : BitVec 32) : Flags :=
  resultFlags (first - second) (first.ssubOverflow second)

variable {Label : Type} [DecidableEq Label]

def lineOf (program : List (Instruction Label)) (name : Label) : Nat :=
  program.idxOf (.label name)

/-- The effect of a line.  A `ret` leaves the program. -/
def execute (program : List (Instruction Label)) (state : State) : Instruction Label → Option State
  | .label _ => some state.advance
  | .mov dst src => some (state.set dst (state.get src)).advance
  | .movImm dst value => some (state.set dst value).advance
  | .load dst base index =>
    (load32 state.memory (state.registers base + state.registers index * 4)).map
      fun value => (state.set dst value).advance
  | .lea dst base displacement => some (state.set dst (state.get base + displacement)).advance
  | .xor dst src =>
    let result := state.get dst ^^^ state.get src
    some ((state.set dst result).withFlags (resultFlags result false)).advance
  | .add dst src =>
    let result := state.get dst + state.get src
    some ((state.set dst result).withFlags
      (resultFlags result ((state.get dst).saddOverflow (state.get src)))).advance
  | .shr dst =>
    let result := state.get dst >>> 1
    some ((state.set dst result).withFlags (resultFlags result (state.get dst).msb)).advance
  | .cmp first second =>
    some (state.withFlags (subFlags (state.get first) (state.get second))).advance
  | .cmov condition dst src =>
    some (state.set dst
      (if condition.holds state.flags then state.get src else state.get dst)).advance
  | .jcc condition target =>
    some (if condition.holds state.flags then state.jump (lineOf program target)
      else state.advance)
  | .jmp target => some (state.jump (lineOf program target))
  | .ret => none

def step (program : List (Instruction Label)) (state : State) (_ : Unit) : Option (State × Unit) :=
  (program[state.line]?).bind fun instruction =>
    (execute program state instruction).map fun next => (next, ())

def Runs (program : List (Instruction Label)) (start finish : State) : Prop :=
  ∃ ticks, Reaches (step program) start ticks finish

/-- The program comes to a `ret` with the value in `eax`. -/
def Returns (program : List (Instruction Label)) (start : State) (value : BitVec 32) : Prop :=
  ∃ finish, Runs program start finish ∧ program[finish.line]? = some .ret ∧ finish.get .rax = value

section

variable (state : State) (register other : Register) (value : BitVec 32)

@[simp]
theorem get_set_self : (state.set register value).get register = value := by
  simp [State.get, State.set]

@[simp]
theorem get_set_of_ne {register other : Register} (different : other ≠ register) :
    (state.set register value).get other = state.get other := by
  simp [State.get, State.set, update_of_ne different]

@[simp]
theorem registers_set_self : (state.set register value).registers register = value.setWidth 64 :=
  update_self ..

@[simp]
theorem registers_set_of_ne {register other : Register} (different : other ≠ register) :
    (state.set register value).registers other = state.registers other := update_of_ne different ..

variable (flags : Flags) (line : Nat)

@[simp]
theorem registers_withFlags : (state.withFlags flags).registers = state.registers := rfl

@[simp]
theorem registers_jump : (state.jump line).registers = state.registers := rfl

@[simp]
theorem registers_advance : state.advance.registers = state.registers := rfl

@[simp]
theorem memory_set : (state.set register value).memory = state.memory := rfl

@[simp]
theorem memory_withFlags : (state.withFlags flags).memory = state.memory := rfl

@[simp]
theorem memory_jump : (state.jump line).memory = state.memory := rfl

@[simp]
theorem memory_advance : state.advance.memory = state.memory := rfl

@[simp]
theorem flags_set : (state.set register value).flags = state.flags := rfl

@[simp]
theorem flags_jump : (state.jump line).flags = state.flags := rfl

@[simp]
theorem flags_advance : state.advance.flags = state.flags := rfl

@[simp]
theorem get_withFlags : (state.withFlags flags).get register = state.get register :=
  rfl

@[simp]
theorem get_jump : (state.jump line).get register = state.get register := rfl

@[simp]
theorem get_advance : state.advance.get register = state.get register := rfl

theorem exists_eq_jump {state : State} {line : Nat} (here : state.line = line) :
    ∃ base : State, state = base.jump line := by
  refine ⟨state, ?_⟩
  rw [← here]
  rfl

end

section

variable (first second : BitVec 32)

theorem holds_e_subFlags : Condition.e.holds (subFlags first second) ↔ first = second := by
  simp [Condition.holds, subFlags, resultFlags, BitVec.sub_eq_iff_eq_add]

theorem sign_sub_ne_overflow :
    (first - second).msb ≠ first.ssubOverflow second ↔ first.toInt < second.toInt := by
  have lowFirst := BitVec.le_toInt first
  have highFirst := @BitVec.toInt_lt 32 first
  have lowSecond := BitVec.le_toInt second
  have highSecond := @BitVec.toInt_lt 32 second
  rw [ne_eq, Bool.eq_iff_iff, BitVec.msb_eq_toInt, BitVec.toInt_sub, BitVec.ssubOverflow, Int.bmod]
  simp only [Bool.or_eq_true, decide_eq_true_eq]
  split
  · omega
  · omega

theorem holds_l_subFlags :
    Condition.l.holds (subFlags first second) ↔ first.toInt < second.toInt := by
  rw [← sign_sub_ne_overflow, Condition.holds, bne_iff_ne]
  rfl

theorem holds_g_subFlags :
    Condition.g.holds (subFlags first second) ↔ second.toInt < first.toInt := by
  have different := holds_e_subFlags first second
  have less := holds_l_subFlags first second
  rw [← BitVec.toInt_inj] at different
  simp only [Condition.holds, bne_iff_ne, ne_eq] at different less
  simp only [Condition.holds, Bool.and_eq_true, Bool.not_eq_true', beq_iff_eq,
    ← Bool.not_eq_true, different]
  rw [← not_iff_not, not_and_or, not_not, less]
  omega

end

variable {program : List (Instruction Label)} {start middle finish : State}
  {value other : BitVec 32}

theorem Runs.trans (first : Runs program start middle) (second : Runs program middle finish) :
    Runs program start finish := by
  obtain ⟨firstTicks, firstRun⟩ := first
  obtain ⟨secondTicks, secondRun⟩ := second
  exact ⟨firstTicks ++ secondTicks, reaches_append.mpr ⟨middle, firstRun, secondRun⟩⟩

theorem finish_eq_of_shorter {ticks otherTicks : List Unit} {otherFinish : State}
    (shorter : ticks.length ≤ otherTicks.length)
    (reached : Reaches (step program) start ticks finish)
    (atReturn : program[finish.line]? = some .ret)
    (otherReached : Reaches (step program) start otherTicks otherFinish) :
    otherFinish = finish := by
  have begins : otherTicks.take ticks.length = ticks :=
    ext_getElem (by simp [shorter]) fun _ _ _ => rfl
  rw [← take_append_drop ticks.length otherTicks, begins, reaches_append] at otherReached
  obtain ⟨middle, first, rest⟩ := otherReached
  rw [first.unique reached] at rest
  generalize otherTicks.drop ticks.length = more at rest
  cases more with
  | nil => exact reaches_nil.mp rest
  | cons tick more =>
    obtain ⟨next, out, stepEq, -⟩ := reaches_cons.mp rest
    simp [step, atReturn, execute] at stepEq

theorem Returns.unique (returns : Returns program start value)
    (alsoReturns : Returns program start other) : value = other := by
  obtain ⟨finish, ⟨ticks, runs⟩, atReturn, rfl⟩ := returns
  obtain ⟨otherFinish, ⟨otherTicks, otherRuns⟩, otherAtReturn, rfl⟩ := alsoReturns
  rcases Nat.le_total ticks.length otherTicks.length with shorter | longer
  · rw [finish_eq_of_shorter shorter runs atReturn otherRuns]
  · rw [finish_eq_of_shorter longer otherRuns otherAtReturn runs]

def loadAddress (program : List (Instruction Label)) (state : State) : Option (BitVec 64) :=
  (program[state.line]?).bind fun
    | .load _ base index => some (state.registers base + state.registers index * 4)
    | _ => none

def LoadsFrom (program : List (Instruction Label)) (start : State) (address : BitVec 64) :
    Prop :=
  ∃ state, Runs program start state ∧ loadAddress program state = some address

/-- The program runs and loads only from allowed addresses. -/
inductive RunsWithin (allowed : Set (BitVec 64)) (program : List (Instruction Label)) :
    State → State → Prop
  | refl (state : State) : RunsWithin allowed program state state
  | step {start next finish : State}
      (loads : ∀ address, loadAddress program start = some address → address ∈ allowed)
      (stepEq : step program start () = some (next, ()))
      (rest : RunsWithin allowed program next finish) : RunsWithin allowed program start finish

def ReturnsWithin (allowed : Set (BitVec 64)) (program : List (Instruction Label))
    (start : State) (value : BitVec 32) : Prop :=
  ∃ finish, RunsWithin allowed program start finish ∧ program[finish.line]? = some .ret ∧
    finish.get .rax = value

section

variable {allowed : Set (BitVec 64)}

theorem RunsWithin.trans (first : RunsWithin allowed program start middle)
    (second : RunsWithin allowed program middle finish) :
    RunsWithin allowed program start finish := by
  induction first with
  | refl => exact second
  | step loads stepEq _ ih => exact .step loads stepEq (ih second)

theorem RunsWithin.runs (within : RunsWithin allowed program start finish) :
    Runs program start finish := by
  induction within with
  | refl => exact ⟨[], reaches_nil.mpr rfl⟩
  | step _ stepEq _ ih =>
    have first := reaches_cons.mpr ⟨_, _, stepEq, reaches_nil.mpr rfl⟩
    exact Runs.trans ⟨_, first⟩ ih

theorem RunsWithin.returnsWithin (within : RunsWithin allowed program start middle)
    (returns : ReturnsWithin allowed program middle value) :
    ReturnsWithin allowed program start value := by
  obtain ⟨finish, rest, atReturn, result⟩ := returns
  exact ⟨finish, within.trans rest, atReturn, result⟩

theorem ReturnsWithin.returns (within : ReturnsWithin allowed program start value) :
    Returns program start value := by
  obtain ⟨finish, runs, atReturn, result⟩ := within
  exact ⟨finish, runs.runs, atReturn, result⟩

theorem ReturnsWithin.mem_of_loadsFrom (within : ReturnsWithin allowed program start value)
    {address : BitVec 64} (loads : LoadsFrom program start address) : address ∈ allowed := by
  obtain ⟨finish, runs, atReturn, -⟩ := within
  induction runs with
  | refl =>
    obtain ⟨state, ⟨ticks, reached⟩, loaded⟩ := loads
    cases ticks with
    | nil =>
      rw [reaches_nil.mp reached, loadAddress, atReturn] at loaded
      cases loaded
    | cons tick ticks =>
      obtain ⟨next, out, stepEq, -⟩ := reaches_cons.mp reached
      simp [X86.step, atReturn, execute] at stepEq
  | step allowedLoads stepEq _ ih =>
    obtain ⟨state, ⟨ticks, reached⟩, loaded⟩ := loads
    cases ticks with
    | nil =>
      rw [reaches_nil.mp reached] at loaded
      exact allowedLoads address loaded
    | cons tick ticks =>
      obtain ⟨next, out, alsoStepEq, rest⟩ := reaches_cons.mp reached
      obtain ⟨rfl, -⟩ := Prod.mk.inj (some.inj (stepEq.symm.trans alsoStepEq))
      exact ih ⟨state, ⟨ticks, rest⟩, loaded⟩ atReturn

theorem runsWithin_of_execute {instruction : Instruction Label}
    (here : program[start.line]? = some instruction)
    (noLoad : loadAddress program start = none)
    (executed : execute program start instruction = some finish) :
    RunsWithin allowed program start finish := by
  refine .step (fun address loaded => ?_) ?_ (.refl finish)
  · rw [noLoad] at loaded
    cases loaded
  · rw [step, here, bind_some, executed, map_some]

section

variable {condition : Condition} {target : Label} {dst base index : Register}

theorem runsWithin_load (here : program[start.line]? = some (.load dst base index))
    (inside : start.registers base + start.registers index * 4 ∈ allowed)
    (loaded : load32 start.memory (start.registers base + start.registers index * 4) = some value) :
    RunsWithin allowed program start (start.set dst value).advance := by
  refine .step (fun address loads => ?_) ?_ (.refl _)
  · rw [loadAddress, here, bind_some, some.injEq] at loads
    rwa [← loads]
  · rw [step, here, bind_some, execute, loaded, map_some, map_some]

theorem runsWithin_jcc_of_holds (here : program[start.line]? = some (.jcc condition target))
    (holds : condition.holds start.flags) :
    RunsWithin allowed program start (start.jump (lineOf program target)) := by
  apply runsWithin_of_execute here
  · rw [loadAddress, here, bind_some]
  · rw [execute, if_pos holds]

theorem runsWithin_jcc_of_not_holds
    (here : program[start.line]? = some (.jcc condition target))
    (fails : ¬ condition.holds start.flags) :
    RunsWithin allowed program start start.advance := by
  apply runsWithin_of_execute here
  · rw [loadAddress, here, bind_some]
  · rw [execute, if_neg fails]

end

end

def Instruction.destination : Instruction Label → Option Register
  | .mov dst _ | .movImm dst _ | .load dst _ _ | .lea dst _ _ | .xor dst _ | .add dst _
  | .shr dst | .cmov _ dst _ => some dst
  | .label _ | .cmp _ _ | .jcc _ _ | .jmp _ | .ret => none

theorem registers_of_execute {register : Register} {instruction : Instruction Label}
    (unwritten : instruction.destination ≠ some register)
    (executed : execute program start instruction = some finish) :
    finish.registers register = start.registers register := by
  cases instruction with
  | load dst base index =>
    obtain ⟨value, -, rfl⟩ := map_eq_some_iff.mp executed
    exact registers_set_of_ne _ _ fun same => unwritten (congrArg some same.symm)
  | jcc condition target =>
    rw [execute, some.injEq] at executed
    rw [← executed]
    split
    · rfl
    · rfl
  | ret => cases executed
  | label | cmp | jmp =>
    cases executed
    rfl
  | mov dst | movImm dst | lea dst | xor dst | add dst | shr dst | cmov _ dst =>
    cases executed
    exact registers_set_of_ne _ _ fun same => unwritten (congrArg some same.symm)

theorem Runs.registers_eq {register : Register}
    (unwritten : ∀ instruction ∈ program, instruction.destination ≠ some register)
    (runs : Runs program start finish) : finish.registers register = start.registers register := by
  obtain ⟨ticks, reached⟩ := runs
  refine reached.invariant (fun state => state.registers register = start.registers register)
    (fun {state op next out} same stepEq => ?_) rfl
  obtain ⟨instruction, here, executedEq⟩ := bind_eq_some_iff.mp stepEq
  obtain ⟨after, executed, pairEq⟩ := map_eq_some_iff.mp executedEq
  obtain ⟨rfl, -⟩ := Prod.mk.inj pairEq
  rw [registers_of_execute (unwritten _ (mem_of_getElem? here)) executed, same]

end BitsAndBytes.X86
