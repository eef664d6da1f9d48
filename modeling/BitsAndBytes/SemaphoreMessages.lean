import BitsAndBytes.CString
import BitsAndBytes.OperationRuns

/-! # The messages of `producer.c` and `consumer.c` -/

namespace BitsAndBytes.SemaphoreMessages

open CString OperationRuns List Option

def maxMessageSize : Nat := 256

def nul : Char := '\x00'

inductive Process
  | producer
  | consumer
deriving DecidableEq, Repr

inductive Stage
  | semWait
  | first
  | second
  | semPost
deriving DecidableEq, Repr

structure Point where
  iteration : Nat
  stage : Stage
deriving DecidableEq, Repr

def Point.Inside (point : Point) : Prop :=
  point.stage ≠ .semWait

@[ext]
structure State where
  semProducer : Nat
  semConsumer : Nat
  message : Nat → Char
  producer : Point
  consumer : Point

def format (iteration : Nat) : List Char :=
  ['M', 'e', 's', 's', 'a', 'g', 'e', ' '] ++ Nat.toDigits 10 iteration

inductive Event
  | silent
  | wrote (content : List Char)
  | printed (content : List Char)
  | read (content : List Char)
deriving DecidableEq, Repr

def produce (iterations : Nat) (state : State) : Option (State × Event) :=
  match state.producer with
  | ⟨i, .semWait⟩ =>
    if i < iterations ∧ 0 < state.semConsumer then
      some ({ state with
        semConsumer := state.semConsumer - 1
        producer := ⟨i, .first⟩ }, .silent)
    else
      none
  | ⟨i, .first⟩ =>
    some ({ state with
      message := snprintf nul maxMessageSize (format i) state.message
      producer := ⟨i, .second⟩ }, .wrote (truncate maxMessageSize (format i)))
  | ⟨i, .second⟩ =>
    some ({ state with producer := ⟨i, .semPost⟩ },
      .printed (text nul maxMessageSize state.message))
  | ⟨i, .semPost⟩ =>
    some ({ state with
      semProducer := state.semProducer + 1
      producer := ⟨i + 1, .semWait⟩ }, .silent)

def consume (iterations : Nat) (state : State) : Option (State × Event) :=
  match state.consumer with
  | ⟨i, .semWait⟩ =>
    if i < iterations ∧ 0 < state.semProducer then
      some ({ state with
        semProducer := state.semProducer - 1
        consumer := ⟨i, .first⟩ }, .silent)
    else
      none
  | ⟨i, .first⟩ =>
    some ({ state with consumer := ⟨i, .second⟩ }, .read (text nul maxMessageSize state.message))
  | ⟨i, .second⟩ =>
    some ({ state with
      message := clear nul maxMessageSize state.message
      consumer := ⟨i, .semPost⟩ }, .silent)
  | ⟨i, .semPost⟩ =>
    some ({ state with
      semConsumer := state.semConsumer + 1
      consumer := ⟨i + 1, .semWait⟩ }, .silent)

def step (iterations : Process → Nat) (state : State) : Process → Option (State × Event)
  | .producer => produce (iterations .producer) state
  | .consumer => consume (iterations .consumer) state

def start (message : Nat → Char) : State :=
  ⟨0, 1, message, ⟨0, .semWait⟩, ⟨0, .semWait⟩⟩

def written (events : List Event) : List (List Char) :=
  events.filterMap fun
    | .wrote content => some content
    | _ => none

def consumed (events : List Event) : List (List Char) :=
  events.filterMap fun
    | .read content => some content
    | _ => none

theorem nul_notMem_format (iteration : Nat) : nul ∉ format iteration := by
  rw [format, mem_append, not_or]
  refine ⟨by decide, fun member => ?_⟩
  have isDigit : nul.isDigit :=
    Nat.isDigit_of_mem_toDigits (b := 10) (by decide) (by decide) member
  exact absurd isDigit (by decide)

def Overwrites (state : State) : Process → Prop
  | .producer => state.producer.stage = .first
  | .consumer => state.consumer.stage = .second

variable {iterations : Process → Nat} {state : State} {process : Process}

theorem overwrites_of_change {next : State} {event : Event}
    (stepEq : step iterations state process = some (next, event))
    (changes : next.message ≠ state.message) : Overwrites state process := by
  obtain ⟨_, _, message, ⟨i, producerStage⟩, ⟨j, consumerStage⟩⟩ := state
  cases process with
  | producer =>
    cases producerStage with
    | first => rfl
    | semWait =>
      simp only [step, produce, ite_none_right_eq_some] at stepEq
      obtain ⟨-, ⟨⟩⟩ := stepEq
      exact absurd rfl changes
    | _ =>
      cases stepEq
      exact absurd rfl changes
  | consumer =>
    cases consumerStage with
    | second => rfl
    | semWait =>
      simp only [step, consume, ite_none_right_eq_some] at stepEq
      obtain ⟨-, ⟨⟩⟩ := stepEq
      exact absurd rfl changes
    | _ =>
      cases stepEq
      exact absurd rfl changes

/-- One semaphore is 1, or one process works on the message. -/
inductive Handover : State → List (List Char) → List (List Char) → Prop
  | toProducer {n message past} : Handover ⟨0, 1, message, ⟨n, .semWait⟩, ⟨n, .semWait⟩⟩ past past
  | writing {n message past} : Handover ⟨0, 0, message, ⟨n, .first⟩, ⟨n, .semWait⟩⟩ past past
  | printing {n message past} : Handover ⟨0, 0, message, ⟨n, .second⟩, ⟨n, .semWait⟩⟩
        (past ++ [text nul maxMessageSize message]) past
  | posting {n message past} : Handover ⟨0, 0, message, ⟨n, .semPost⟩, ⟨n, .semWait⟩⟩
        (past ++ [text nul maxMessageSize message]) past
  | toConsumer {n message past} : Handover ⟨1, 0, message, ⟨n + 1, .semWait⟩, ⟨n, .semWait⟩⟩
        (past ++ [text nul maxMessageSize message]) past
  | reading {n message past} : Handover ⟨0, 0, message, ⟨n + 1, .semWait⟩, ⟨n, .first⟩⟩
        (past ++ [text nul maxMessageSize message]) past
  | clearing {n message past} : Handover ⟨0, 0, message, ⟨n + 1, .semWait⟩, ⟨n, .second⟩⟩ past past
  | returning {n message past} :
      Handover ⟨0, 0, message, ⟨n + 1, .semWait⟩, ⟨n, .semPost⟩⟩ past past

namespace Handover

variable {iterations : Nat} {state next : State} {writes reads : List (List Char)} {event : Event}

variable (handover : Handover state writes reads)
include handover

theorem produce (stepEq : SemaphoreMessages.produce iterations state = some (next, event)) :
    Handover next (writes ++ written [event]) (reads ++ consumed [event]) := by
  cases handover with
  | toProducer =>
    simp only [SemaphoreMessages.produce, ite_none_right_eq_some] at stepEq
    obtain ⟨-, ⟨⟩⟩ := stepEq
    simpa [written, consumed] using writing
  | @writing n message past =>
    cases stepEq
    have stored := text_snprintf (by decide : 0 < maxMessageSize) (nul_notMem_format n) message
    simpa [written, consumed, ← stored] using printing
  | printing =>
    cases stepEq
    simpa [written, consumed] using posting
  | posting =>
    cases stepEq
    simpa [written, consumed] using toConsumer
  | _ => simp [SemaphoreMessages.produce] at stepEq

theorem consume (stepEq : SemaphoreMessages.consume iterations state = some (next, event)) :
    Handover next (writes ++ written [event]) (reads ++ consumed [event]) := by
  cases handover with
  | toConsumer =>
    simp only [SemaphoreMessages.consume, ite_none_right_eq_some] at stepEq
    obtain ⟨-, ⟨⟩⟩ := stepEq
    simpa [written, consumed] using reading
  | reading =>
    cases stepEq
    simpa [written, consumed] using clearing
  | clearing =>
    cases stepEq
    simpa [written, consumed] using returning
  | returning =>
    cases stepEq
    simpa [written, consumed] using toProducer
  | _ => simp [SemaphoreMessages.consume] at stepEq

theorem all_read_of_overwrites (overwrites : Overwrites state process) : reads = writes := by
  cases process with
  | producer =>
    cases handover with
    | writing => rfl
    | _ => cases overwrites
  | consumer =>
    cases handover with
    | clearing => rfl
    | _ => cases overwrites

theorem not_both_inside : ¬ (state.producer.Inside ∧ state.consumer.Inside) := by
  rintro ⟨inProducer, inConsumer⟩
  cases handover <;> first | exact inProducer rfl | exact inConsumer rfl

theorem consumed_isPrefix : reads <+: writes := by
  cases handover <;> first | exact prefix_rfl | exact prefix_append _ _

end Handover

theorem handover_of_run {message : Nat → Char} {schedule : List Process} {events : List Event}
    (runEq : run (step iterations) (start message) schedule = some (state, events)) :
    Handover state (written events) (consumed events) := by
  refine run_results (fun state events => Handover state (written events) (consumed events))
    ?_ runEq .toProducer
  intro state past process next event handover stepEq
  rw [written, consumed, filterMap_append, filterMap_append]
  cases process with
  | producer => exact handover.produce stepEq
  | consumer => exact handover.consume stepEq

/-- In every interleaving the messages are read in order, and none is overwritten unread. -/
theorem messages_read_in_order (iterations : Process → Nat) (message : Nat → Char)
    (schedule : List Process) (state : State) (events : List Event)
    (runEq : run (step iterations) (start message) schedule = some (state, events)) :
    consumed events <+: written events ∧
    (∀ process, Overwrites state process → consumed events = written events) ∧
    (∀ process next event, step iterations state process = some (next, event) →
      next.message ≠ state.message → Overwrites state process) ∧
    ¬ (state.producer.Inside ∧ state.consumer.Inside) := by
  have handover := handover_of_run runEq
  refine ⟨handover.consumed_isPrefix, ?_, ?_, handover.not_both_inside⟩
  · intro process overwrites
    exact handover.all_read_of_overwrites overwrites
  · intro process next event stepEq changes
    exact overwrites_of_change stepEq changes

theorem first_message_read : ∃ state events, run (step fun _ => 1) (start fun _ => nul)
        [.producer, .producer, .producer, .producer, .consumer, .consumer] =
          some (state, events) ∧ consumed events <+: written events ∧ consumed events ≠ [] := by
  refine ⟨_, _, rfl, ?_, nofun⟩
  exact (messages_read_in_order (fun _ => 1) (fun _ => nul)
    [.producer, .producer, .producer, .producer, .consumer, .consumer] _ _ rfl).1

end BitsAndBytes.SemaphoreMessages
