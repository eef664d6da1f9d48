import BitsAndBytes.OperationRuns
import BitsAndBytes.RingQueue
import Mathlib.Data.List.Perm.Basic

/-! # The command scheduler of `commandScheduling.c` -/

namespace BitsAndBytes.CommandScheduling

open OperationRuns Function List

def numBanks : Nat := 4

def queueSize : Int := 16

inductive CommandType
  | activate
  | read
  | write
  | precharge
deriving DecidableEq, Repr

/-- `Command`, with a bank below `NUM_BANKS`. -/
structure Command where
  type : CommandType
  bank : Fin numBanks
  row : UInt32
  column : UInt32
deriving DecidableEq, Repr

abbrev CommandQueue := RingQueue Command

structure BankState where
  isOpen : Bool
  openRow : UInt32
deriving DecidableEq, Repr

def initCommandQueue (commands : Int → Command) : CommandQueue :=
  RingQueue.empty commands

/-- A full queue drops the command. -/
def enqueueCommand (queue : CommandQueue) (cmd : Command) : CommandQueue :=
  queue.push queueSize cmd

def dequeueCommand (queue : CommandQueue) : Option (Command × CommandQueue) :=
  queue.pop queueSize

/-- The lines that `schedule_commands` prints. -/
inductive Line
  | activate (bank : Fin numBanks) (row : UInt32)
  | read (bank : Fin numBanks) (row column : UInt32)
  | write (bank : Fin numBanks) (row column : UInt32)
  | precharge (bank : Fin numBanks)
deriving DecidableEq, Repr

@[ext]
structure State where
  queue : CommandQueue
  banks : Fin numBanks → BankState
  output : List Line

def isHit (banks : Fin numBanks → BankState) (cmd : Command) : Bool :=
  (banks cmd.bank).isOpen && decide ((banks cmd.bank).openRow = cmd.row)

def activateCommand (cmd : Command) : Command :=
  ⟨.activate, cmd.bank, cmd.row, 0⟩

def access (state : State) (cmd : Command) (line : Line) : State :=
  if isHit state.banks cmd then
    { state with output := state.output ++ [line] }
  else
    { state with
      queue := enqueueCommand (enqueueCommand state.queue (activateCommand cmd)) cmd }

def execute (state : State) (cmd : Command) : State :=
  match cmd.type with
  | .activate =>
    if (state.banks cmd.bank).isOpen then
      state
    else
      { state with
        banks := update state.banks cmd.bank ⟨true, cmd.row⟩
        output := state.output ++ [.activate cmd.bank cmd.row] }
  | .read => access state cmd (.read cmd.bank cmd.row cmd.column)
  | .write => access state cmd (.write cmd.bank cmd.row cmd.column)
  | .precharge =>
    if (state.banks cmd.bank).isOpen then
      { state with
        banks := update state.banks cmd.bank
          { state.banks cmd.bank with isOpen := false }
        output := state.output ++ [.precharge cmd.bank] }
    else
      state

def step (state : State) (_ : Unit) : Option (State × Unit) :=
  (dequeueCommand state.queue).map fun taken =>
    (execute { state with queue := taken.2 } taken.1, ())

def start (commands : Int → Command) (rows : Fin numBanks → UInt32)
    (accepted : List Command) : State where
  queue := accepted.foldl enqueueCommand (initCommandQueue commands)
  banks := fun bank => ⟨false, rows bank⟩
  output := []

def Command.isAccess (cmd : Command) : Bool :=
  cmd.type = .read || cmd.type = .write

def Line.command : Line → Option Command
  | read bank row column => some ⟨.read, bank, row, column⟩
  | write bank row column => some ⟨.write, bank, row, column⟩
  | activate _ _ | precharge _ => none

def accesses (commands : List Command) : List Command :=
  commands.filter Command.isAccess

def State.performed (state : State) : List Command :=
  state.output.filterMap Line.command

/-- The accesses that were performed and those that still wait are the accepted ones. -/
def Kept (accepted : List Command) (state : State) : Prop :=
  (state.performed ++ accesses (state.queue.contents queueSize)).Perm (accesses accepted)

/-- An access whose row is closed does not find the queue full. -/
def MissHasRoom (state : State) (_ : Unit) : Prop :=
  ∀ cmd rest, state.queue.contents queueSize = cmd :: rest → cmd.isAccess →
    isHit state.banks cmd = false → state.queue.size ≠ queueSize

def putBack (rest : List Command) (cmd : Command) : List Command :=
  if (rest.length : Int) + 1 = queueSize then
    rest ++ [activateCommand cmd]
  else
    rest ++ [activateCommand cmd, cmd]

def banksAfter (banks : Fin numBanks → BankState) (cmd : Command) : Fin numBanks → BankState :=
  match cmd.type with
  | .activate =>
    if (banks cmd.bank).isOpen then banks
    else update banks cmd.bank ⟨true, cmd.row⟩
  | .read | .write => banks
  | .precharge =>
    if (banks cmd.bank).isOpen then
      update banks cmd.bank { banks cmd.bank with isOpen := false }
    else banks

/-- What an iteration of the loop does, by the command at the front of the queue. -/
inductive Iteration (state next : State) : Prop
  | perform {cmd : Command} {rest : List Command}
      (contents : state.queue.contents queueSize = cmd :: rest) (isAccess : cmd.isAccess)
      (hit : isHit state.banks cmd) (nextContents : next.queue.contents queueSize = rest)
      (banks : next.banks = state.banks)
      (performed : next.performed = state.performed ++ [cmd])
  | miss {cmd : Command} {rest : List Command}
      (contents : state.queue.contents queueSize = cmd :: rest) (isAccess : cmd.isAccess)
      (missed : isHit state.banks cmd = false)
      (nextContents : next.queue.contents queueSize = putBack rest cmd)
      (banks : next.banks = state.banks) (performed : next.performed = state.performed)
  | other {cmd : Command} {rest : List Command}
      (contents : state.queue.contents queueSize = cmd :: rest) (notAccess : cmd.isAccess = false)
      (nextContents : next.queue.contents queueSize = rest)
      (banks : next.banks = banksAfter state.banks cmd)
      (performed : next.performed = state.performed)

theorem valid_init (commands : Int → Command) : (initCommandQueue commands).Valid queueSize :=
  RingQueue.valid_empty (by decide) commands

theorem contents_foldl {queue : CommandQueue} (valid : queue.Valid queueSize)
    (commands : List Command) (fits : queue.size + commands.length ≤ queueSize) :
    (commands.foldl enqueueCommand queue).Valid queueSize ∧
      (commands.foldl enqueueCommand queue).contents queueSize =
        queue.contents queueSize ++ commands := by
  induction commands generalizing queue with
  | nil => exact ⟨valid, (append_nil _).symm⟩
  | cons cmd commands ih =>
    rw [length_cons, Nat.cast_add, Nat.cast_one] at fits
    have notFull : queue.size ≠ queueSize := by omega
    have size := RingQueue.size_push notFull cmd
    obtain ⟨last, contents⟩ := ih (valid.push cmd) (by rw [size]; omega)
    refine ⟨last, ?_⟩
    rw [foldl_cons, enqueueCommand, contents, valid.contents_push notFull, append_assoc,
      singleton_append]

theorem accesses_cons_of_isAccess {cmd : Command} (isAccess : cmd.isAccess)
    (commands : List Command) : accesses (cmd :: commands) = cmd :: accesses commands :=
  filter_cons_of_pos isAccess

section

variable {accepted : List Command} {state next : State} {cmd : Command} {out : Unit}

theorem banks_execute (state : State) (cmd : Command) :
    (execute state cmd).banks = banksAfter state.banks cmd := by
  obtain ⟨type, bank, row, column⟩ := cmd
  have banks_access : ∀ line,
      (access state ⟨type, bank, row, column⟩ line).banks = state.banks := by
    intro line
    rw [access]
    split <;> rfl
  cases type with
  | activate | precharge =>
    simp only [execute, banksAfter]
    split <;> rfl
  | read | write => exact banks_access _

theorem banksAfter_of_isAccess {banks : Fin numBanks → BankState} (isAccess : cmd.isAccess) :
    banksAfter banks cmd = banks := by
  obtain ⟨type, bank, row, column⟩ := cmd
  cases type with
  | activate | precharge => cases isAccess
  | read => rfl
  | write => rfl

theorem performed_access {line : Line} (printed : line.command = some cmd) :
    isHit state.banks cmd ∧ (access state cmd line).queue = state.queue ∧
        (access state cmd line).performed = state.performed ++ [cmd] ∨
      isHit state.banks cmd = false ∧ (access state cmd line).queue =
          enqueueCommand (enqueueCommand state.queue (activateCommand cmd)) cmd ∧
        (access state cmd line).performed = state.performed := by
  cases hit : isHit state.banks cmd with
  | true =>
    rw [access, if_pos hit]
    refine .inl ⟨rfl, rfl, ?_⟩
    simp [State.performed, printed]
  | false =>
    rw [access, if_neg (by rw [hit]; exact Bool.false_ne_true)]
    exact .inr ⟨rfl, rfl, rfl⟩

theorem execute_cases (state : State) (cmd : Command) :
    (cmd.isAccess = false ∧ (execute state cmd).queue = state.queue ∧
        (execute state cmd).performed = state.performed) ∨
      cmd.isAccess ∧ (isHit state.banks cmd ∧ (execute state cmd).queue = state.queue ∧
            (execute state cmd).performed = state.performed ++ [cmd] ∨
          isHit state.banks cmd = false ∧ (execute state cmd).queue =
              enqueueCommand (enqueueCommand state.queue (activateCommand cmd)) cmd ∧
            (execute state cmd).performed = state.performed) := by
  obtain ⟨type, bank, row, column⟩ := cmd
  cases type with
  | activate =>
    left
    simp only [execute]
    split
    · exact ⟨rfl, rfl, rfl⟩
    · exact ⟨rfl, rfl, by simp [State.performed, Line.command]⟩
  | read | write => exact .inr ⟨rfl, performed_access rfl⟩
  | precharge =>
    left
    simp only [execute]
    split
    · exact ⟨rfl, rfl, by simp [State.performed, Line.command]⟩
    · exact ⟨rfl, rfl, rfl⟩

theorem contents_putBack {queue : CommandQueue} (valid : queue.Valid queueSize)
    (notFull : queue.size ≠ queueSize) (cmd : Command) :
    (enqueueCommand (enqueueCommand queue (activateCommand cmd)) cmd).contents queueSize =
      putBack (queue.contents queueSize) cmd := by
  have activated := valid.contents_push notFull (activateCommand cmd)
  have size := RingQueue.size_push notFull (activateCommand cmd)
  rw [putBack, valid.length_contents, enqueueCommand, enqueueCommand]
  split
  · rename_i full
    rw [RingQueue.push_of_full (size.trans full), activated]
  · rename_i hasRoom
    rw [(valid.push _).contents_push (by rwa [size]), activated, append_assoc]
    rfl

theorem exists_iteration (valid : state.queue.Valid queueSize)
    (notEmpty : state.queue.contents queueSize ≠ []) :
    ∃ next, step state () = some (next, ()) ∧ next.queue.Valid queueSize ∧
      Iteration state next := by
  obtain ⟨cmd, rest, dequeues, restValid, contents⟩ := valid.pop fun empty =>
    notEmpty (valid.contents_eq_nil_iff.mpr empty)
  have lengths := congrArg (fun commands => (commands.length : Int)) contents
  simp only [length_cons, Nat.cast_add, Nat.cast_one, valid.length_contents,
    restValid.length_contents] at lengths
  have size_le := valid.size_le
  refine ⟨_, by rw [step, dequeueCommand, dequeues]; rfl, ?_⟩
  have banks := banks_execute { state with queue := rest } cmd
  rcases execute_cases { state with queue := rest } cmd with
    ⟨notAccess, sameQueue, sameOutput⟩ | ⟨isAccess, ⟨hit, sameQueue, printed⟩ |
      ⟨missed, putBack, sameOutput⟩⟩
  · exact ⟨sameQueue ▸ restValid,
      .other contents notAccess (congrArg (RingQueue.contents queueSize) sameQueue) banks
        sameOutput⟩
  · rw [banksAfter_of_isAccess isAccess] at banks
    exact ⟨sameQueue ▸ restValid,
      .perform contents isAccess hit (congrArg (RingQueue.contents queueSize) sameQueue) banks
        printed⟩
  · rw [banksAfter_of_isAccess isAccess] at banks
    refine ⟨putBack ▸ (restValid.push _).push _, .miss contents isAccess missed ?_ banks sameOutput⟩
    rw [putBack]
    exact contents_putBack restValid (by omega) cmd

theorem step_ne_some_of_empty (empty : state.queue.size = 0) :
    step state () ≠ some (next, out) := by
  rw [step, dequeueCommand, RingQueue.pop, if_pos empty]
  exact nofun

theorem iteration_of_step (valid : state.queue.Valid queueSize)
    (stepEq : step state () = some (next, out)) :
    next.queue.Valid queueSize ∧ Iteration state next := by
  obtain ⟨other, otherEq, otherValid, iteration⟩ := exists_iteration valid fun nothing =>
    step_ne_some_of_empty (valid.contents_eq_nil_iff.mp nothing) stepEq
  cases otherEq.symm.trans stepEq
  exact ⟨otherValid, iteration⟩

theorem Iteration.contents_of_miss (iteration : Iteration state next) {rest : List Command}
    (contents : state.queue.contents queueSize = cmd :: rest) (isAccess : cmd.isAccess)
    (missed : isHit state.banks cmd = false) :
    next.queue.contents queueSize = putBack rest cmd ∧ next.performed = state.performed := by
  cases iteration with
  | perform otherContents _ hit _ _ _ =>
    cases contents.symm.trans otherContents
    rw [missed] at hit
    cases hit
  | miss otherContents _ _ nextContents _ performed =>
    cases contents.symm.trans otherContents
    exact ⟨nextContents, performed⟩
  | other otherContents notAccess _ _ _ =>
    cases contents.symm.trans otherContents
    rw [isAccess] at notAccess
    cases notAccess

theorem accesses_putBack {rest : List Command} (isAccess : cmd.isAccess) :
    accesses (putBack rest cmd) =
      accesses rest ++ if (rest.length : Int) + 1 = queueSize then [] else [cmd] := by
  rw [putBack]
  split <;> simp [accesses, isAccess, show (activateCommand cmd).isAccess = false from rfl]

/-- The queue is in order and no access has been lost. -/
structure Orderly (accepted : List Command) (state : State) : Prop where
  valid : state.queue.Valid queueSize
  kept : Kept accepted state

section

variable (orderly : Orderly accepted state)
include orderly

theorem Orderly.size_eq {rest : List Command}
    (contents : state.queue.contents queueSize = cmd :: rest) :
    (rest.length : Int) + 1 = state.queue.size := by
  rw [← orderly.valid.length_contents, contents, length_cons, Nat.cast_add, Nat.cast_one]

theorem Orderly.step (room : MissHasRoom state ())
    (stepEq : CommandScheduling.step state () = some (next, out)) : Orderly accepted next := by
  obtain ⟨nextValid, iteration⟩ := iteration_of_step orderly.valid stepEq
  refine ⟨nextValid, ?_⟩
  have kept := orderly.kept
  rw [Kept] at kept ⊢
  cases iteration with
  | perform contents isAccess _ nextContents _ performed =>
    rw [contents, accesses_cons_of_isAccess isAccess] at kept
    rwa [nextContents, performed, append_assoc, singleton_append]
  | miss contents isAccess missed nextContents _ performed =>
    have notFull := room _ _ contents isAccess missed
    rw [← orderly.size_eq contents] at notFull
    rw [contents, accesses_cons_of_isAccess isAccess] at kept
    rw [nextContents, performed, accesses_putBack isAccess, if_neg notFull]
    exact (List.Perm.append_left _ (perm_append_singleton _ _)).trans kept
  | other contents notAccess nextContents _ performed =>
    rw [contents, accesses, filter_cons_of_neg (by simp [notAccess])] at kept
    rwa [nextContents, performed]

theorem Orderly.loses (noRoom : ¬ MissHasRoom state ()) :
    ∃ next out, CommandScheduling.step state () = some (next, out) ∧ ¬ Kept accepted next := by
  simp only [MissHasRoom, not_forall, ne_eq, Decidable.not_not] at noRoom
  obtain ⟨cmd, rest, contents, isAccess, missed, full⟩ := noRoom
  obtain ⟨next, stepEq, -, iteration⟩ := exists_iteration orderly.valid (by simp [contents])
  obtain ⟨nextContents, performed⟩ := iteration.contents_of_miss contents isAccess missed
  have kept := orderly.kept
  refine ⟨next, (), stepEq, fun keptNext => ?_⟩
  rw [Kept, contents, accesses_cons_of_isAccess isAccess] at kept
  rw [Kept, nextContents, performed, accesses_putBack isAccess,
    if_pos ((orderly.size_eq contents).trans full), append_nil] at keptNext
  have lengths := (keptNext.trans kept.symm).length_eq
  simp only [length_append, length_cons] at lengths
  omega

end

end

theorem orderly_start (commands : Int → Command) (rows : Fin numBanks → UInt32)
    {accepted : List Command} (fits : accepted.length ≤ queueSize) :
    Orderly accepted (start commands rows accepted) := by
  obtain ⟨valid, contents⟩ := contents_foldl (valid_init commands) accepted
    (by simpa [initCommandQueue, RingQueue.empty] using fits)
  refine ⟨valid, ?_⟩
  rw [Kept, start, contents]
  exact List.Perm.refl _

/-- No access is lost if and only if no miss finds the queue full. -/
theorem commands_kept_iff_misses_have_room (commands : Int → Command)
    (rows : Fin numBanks → UInt32) (accepted : List Command)
    (fits : accepted.length ≤ queueSize) (n : Nat) :
    (∀ k ≤ n, ∀ state, Reaches step (start commands rows accepted)
        (replicate k ()) state → Kept accepted state) ↔
      Respects step MissHasRoom (start commands rows accepted) (replicate n ()) := by
  rw [← always_iff_respects (Orderly accepted) (Kept accepted) Orderly.kept
    (fun orderly room stepEq => orderly.step room stepEq)
    (fun orderly noRoom => orderly.loses noRoom) (orderly_start commands rows fits)]
  constructor
  · intro always initialOps isInitial state reached
    obtain ⟨bound, replicated⟩ := prefix_replicate_iff.mp isInitial
    exact always _ bound state (replicated ▸ reached)
  · intro always k bound state reached
    exact always _ (prefix_replicate_iff.mpr ⟨by simpa using bound, by simp⟩) state reached

def someRead : Command :=
  ⟨.read, ⟨0, by decide⟩, 1000, 50⟩

theorem read_lost_by_full_queue : ∃ state, Reaches step
        (start (fun _ => someRead) (fun _ => 0) (replicate 16 someRead)) [()] state ∧
      ¬ Kept (replicate 16 someRead) state := by
  refine ⟨_, ⟨_, rfl⟩, fun kept => ?_⟩
  exact absurd kept.length_eq (by decide)

theorem single_read_kept :
    ∃ state, Reaches step (start (fun _ => someRead) (fun _ => 0) [someRead]) [()] state ∧
      Kept [someRead] state := by
  refine ⟨_, ⟨_, rfl⟩, ?_⟩
  refine (commands_kept_iff_misses_have_room (fun _ => someRead) (fun _ => 0) [someRead]
    (by decide) 1).mpr ⟨?_, fun _ _ _ => trivial⟩ 1 le_rfl _ ⟨_, rfl⟩
  intro _ _ _ _ _
  decide

end BitsAndBytes.CommandScheduling
