import BitsAndBytes.RwLockBuffer
import Mathlib.Algebra.Order.BigOperators.Group.Finset
import Mathlib.Tactic.FinCases

/-! # Where the program of `rwlock_buffer.c` hangs -/

namespace BitsAndBytes.RwLockBuffer

open Interleaving OperationRuns Function List Finset

variable {t : Thread} {malloced : Int → Int} {schedule : List Op}
  {config : Config Thread Shared Point}

/-- Some thread is unfinished, and all unfinished threads wait for a signal. -/
def Stuck (config : Config Thread Shared Point) : Prop :=
  (∃ t, config.points t ≠ .finished) ∧ ∀ t, config.points t ≠ .finished → ∃ call,
      (config.points t).buffer = .inside call .blocked ∧ t ∈ config.shared.bb.waiting call.side

/-- No thread waits or is about to wait. -/
structure Quiet (config : Config Thread Shared Point) : Prop where
  nobody_waits : ∀ side, config.shared.bb.waiting side = ∅
  nobody_about_to : ∀ {t call}, (config.points t).buffer ≠ .inside call .wait

/-- `handle_signal` clears `running` only while no thread waits. -/
def SignalsWhenQuiet (config : Config Thread Shared Point) : Op → Prop
  | .thread _ _ => True
  | .handleSignal => config.shared.running → Quiet config

/-- The iterations of a thread are in range, and its calls are those of its side. -/
def Fits (t : Thread) : Point → Prop
  | .test i => i ≤ numIterations
  | .lock i call _ => i < numIterations ∧ call.side = t.side
  | .exchange i (.inside call _) => i < numIterations ∧ call.side = t.side
  | .exchange _ .idle => False
  | .sleep i => i < numIterations
  | .finished => True

def Point.transfers : Point → Int
  | .test i | .lock i _ _ => i
  | .exchange i (.inside _ .signal) | .exchange i (.inside _ .unlock) => i + 1
  | .exchange i _ => i
  | .sleep i => i + 1
  | .finished => numIterations

def Thread.weight : Thread → Int
  | reader _ => -1
  | writer _ => 1

/-- The buffer holds what the writers have produced and the readers have not consumed. -/
def Balanced (config : Config Thread Shared Point) : Prop :=
  config.shared.bb.count = ∑ t, t.weight * (config.points t).transfers

/-- No signal is lost, and the count is balanced while `running` is set. -/
structure Orderly (config : Config Thread Shared Point) : Prop where
  attended : BoundedBuffer.Attended (bufferView config)
  size_eq : config.shared.bb.size = bufferSize
  fits : ∀ t, Fits t (config.points t)
  balanced : config.shared.running → Balanced config

theorem orderly_start (malloced : Int → Int) : Orderly (start malloced) where
  attended := BoundedBuffer.attended_start malloced (by decide)
  size_eq := rfl
  fits := fun _ => Nat.zero_le _
  balanced := fun _ => by simp [Balanced, start, BoundedBuffer.bbInit, Point.transfers]

section

variable {shared next : Shared} {point nextPoint : Point} {last : Config Thread Shared Point}
  {op : Op} {event : Option Event} {call : BoundedBuffer.Call}

theorem call_eq_of_buffer_moves {running : Bool} {bb other : BoundedBuffer.Buffer Thread}
    {stage : BoundedBuffer.Stage} {within : BoundedBuffer.Point}
    {out : Option BoundedBuffer.Transfer}
    (moved : BoundedBuffer.Moves t running bb (.inside call stage) other within out)
    (inCall : within ≠ .idle) : ∃ nextStage, within = .inside call nextStage := by
  cases moved with
  | unlock => exact absurd rfl inCall
  | _ => exact ⟨_, rfl⟩

theorem Fits.moves (fits : Fits t point)
    (moved : Moves t shared point next nextPoint) : Fits t nextPoint := by
  cases moved with
  | begin more isRunning mine => exact ⟨more, mine⟩
  | finish => trivial
  | locking | unlocked | sleep => exact fits
  | @exchanging _ previous _ _ _ moved within =>
    cases previous with
    | idle => exact fits.elim
    | inside call stage =>
      obtain ⟨nextStage, rfl⟩ := call_eq_of_buffer_moves moved within
      exact fits
  | @exchanged _ previous _ _ moved =>
    cases previous with
    | idle => exact fits.elim
    | inside call stage => exact fits.1

theorem size_eq_of_moves (moved : Moves t shared point next nextPoint) :
    next.bb.size = shared.bb.size := by
  rcases moved.buffer with ⟨bbEq, -⟩ | ⟨out, inBuffer⟩
  · rw [bbEq]
  · exact inBuffer.size_eq

theorem count_transfer (mine : call.side = t.side) (bb : BoundedBuffer.Buffer Thread) :
    (BoundedBuffer.transfer bb call).1.count = bb.count + t.weight := by
  cases t <;> cases call <;> first | rfl | cases mine

theorem count_eq_of_moves (moved : Moves t shared point next nextPoint)
    (isRunning : shared.running) (fits : Fits t point) :
    next.bb.count = shared.bb.count + t.weight * (nextPoint.transfers - point.transfers) := by
  cases moved with
  | finish ended =>
    have last := le_antisymm fits (ended isRunning)
    simp [Point.transfers, last]
  | exchanging moved within =>
    cases moved with
    | giveUp stopped =>
      rw [isRunning] at stopped
      cases stopped
    | wait call | signal call =>
      simp [Point.transfers, (BoundedBuffer.Buffer.sameItems_setWaiting ..).count_eq]
    | transfer call => simp [Point.transfers, count_transfer fits.2]
    | unlock => exact absurd rfl within
    | _ => simp [Point.transfers]
  | exchanged moved =>
    cases moved
    simp [Point.transfers]
  | _ => simp [Point.transfers]

theorem Balanced.moves (balanced : Balanced config)
    (moved : Moves t config.shared (config.points t) next nextPoint)
    (isRunning : config.shared.running) (fits : Fits t (config.points t)) :
    Balanced ⟨next, update config.points t nextPoint⟩ := by
  have change := sum_update (fun s point => s.weight * point.transfers) config.points t nextPoint
  rw [← mul_sub] at change
  rw [Balanced, change, ← balanced]
  exact count_eq_of_moves moved isRunning fits

theorem Quiet.moves (quiet : Quiet config)
    (moved : Moves t config.shared (config.points t) next nextPoint)
    (stopped : config.shared.running = false) :
    Quiet ⟨next, update config.points t nextPoint⟩ where
  nobody_waits := by
    intro side
    rw [eq_empty_iff_forall_notMem]
    intro s waits
    have nobody : s ∉ config.shared.bb.waiting side := by simp [quiet.nobody_waits]
    rcases moved.buffer with ⟨bbEq, -⟩ | ⟨out, inBuffer⟩
    · exact nobody (bbEq ▸ waits)
    · have viewed : BoundedBuffer.Moves t config.shared.running config.shared.bb
          ((bufferView config).points t) next.bb nextPoint.buffer out := inBuffer
      rcases BoundedBuffer.mem_waiting_of_moves viewed waits with
        before | ⟨-, call, -, aboutTo, -⟩
      · exact nobody before
      · exact quiet.nobody_about_to aboutTo
  nobody_about_to := by
    intro s call aboutTo
    by_cases same : s = t
    · subst same
      simp only [update_self] at aboutTo
      rcases moved.buffer with ⟨-, pointEq⟩ | ⟨out, inBuffer⟩
      · exact quiet.nobody_about_to (pointEq ▸ aboutTo)
      · rw [aboutTo, stopped] at inBuffer
        generalize (config.points s).buffer = previous, next.bb = bb at inBuffer
        cases inBuffer with
        | mustWait _ isRunning => cases isRunning
    · simp only [update_of_ne same] at aboutTo
      exact quiet.nobody_about_to aboutTo

theorem Orderly.step (orderly : Orderly config)
    (stepEq : RwLockBuffer.step config op = some (last, event)) : Orderly last := by
  have attended := attended_of_step orderly.attended stepEq
  rcases step_cases stepEq with ⟨t, shared, point, moved, rfl⟩ | ⟨-, rfl⟩
  · refine ⟨attended, (size_eq_of_moves moved).trans orderly.size_eq, ?_, ?_⟩
    · exact (forall_update_iff config.points Fits).mpr
        ⟨(orderly.fits t).moves moved, fun s _ => orderly.fits s⟩
    · intro isRunning
      rw [moved.running_eq] at isRunning
      exact (orderly.balanced isRunning).moves moved isRunning (orderly.fits t)
  · exact ⟨attended, orderly.size_eq, orderly.fits, nofun⟩

theorem quiet_of_step (quiet : config.shared.running = false → Quiet config)
    (guarded : SignalsWhenQuiet config op)
    (stepEq : RwLockBuffer.step config op = some (last, event))
    (stopped : last.shared.running = false) : Quiet last := by
  rcases step_cases stepEq with ⟨t, shared, point, moved, rfl⟩ | ⟨rfl, rfl⟩
  · rw [moved.running_eq] at stopped
    exact (quiet stopped).moves moved stopped
  · have before : Quiet config := by
      cases isRunning : config.shared.running with
      | true => exact guarded isRunning
      | false => exact quiet isRunning
    exact ⟨before.nobody_waits, before.nobody_about_to⟩

end

section

theorem Stuck.nobody_pending (stuck : Stuck config) (side : BoundedBuffer.Side)
    (t : Thread) : ¬ BoundedBuffer.Pending config.shared.bb (bufferView config).points side t := by
  intro pending
  by_cases finished : config.points t = .finished
  · simp [BoundedBuffer.Pending, bufferView, finished, Point.buffer,
      BoundedBuffer.pendingAt] at pending
  · obtain ⟨call, blocked, waits⟩ := stuck.2 t finished
    simp only [BoundedBuffer.Pending, bufferView, blocked, BoundedBuffer.pendingAt] at pending
    exact pending.2 (pending.1 ▸ waits)

theorem Stuck.waits (stuck : Stuck config) (fits : Fits t (config.points t))
    (unfinished : config.points t ≠ .finished) : t ∈ config.shared.bb.waiting t.side := by
  obtain ⟨call, blocked, waits⟩ := stuck.2 t unfinished
  generalize config.points t = point at fits blocked
  cases point with
  | exchange i within =>
    subst blocked
    exact fits.2 ▸ waits
  | _ => cases blocked

theorem Fits.transfers_le {point : Point} (fits : Fits t point) :
    point.transfers ≤ numIterations := by
  cases point with
  | exchange i within =>
    cases within with
    | idle => exact fits.elim
    | inside call stage =>
      have bound := fits.1
      cases stage <;> simp only [Point.transfers] <;> omega
  | _ =>
    simp only [Fits] at fits
    simp only [Point.transfers]
    omega

theorem Orderly.unfinished_reader (orderly : Orderly config)
    (isRunning : config.shared.running) :
    ∃ index, config.points (.reader index) ≠ .finished := by
  by_contra allFinished
  push Not at allFinished
  have bound : ∑ t, t.weight * (config.points t).transfers ≤
      ∑ t : Thread, t.weight * numIterations := by
    refine sum_le_sum fun t _ => ?_
    cases t with
    | reader index => rw [allFinished index, Point.transfers]
    | writer index =>
      have fits := (orderly.fits (.writer index)).transfers_le
      simp only [Thread.weight]
      omega
  have negative : ∑ t : Thread, t.weight * numIterations < 0 := by decide
  have nonneg := orderly.attended.sound.ring.count_nonneg
  have balanced := orderly.balanced isRunning
  rw [Balanced] at balanced
  simp only [bufferView] at nonneg
  omega

theorem Orderly.not_stuck_of_running (orderly : Orderly config)
    (isRunning : config.shared.running) {index : Fin numWriters}
    (unfinished : config.points (.writer index) ≠ .finished) : ¬ Stuck config := by
  intro stuck
  obtain ⟨other, unfinishedReader⟩ := orderly.unfinished_reader isRunning
  have full := orderly.attended.no_room isRunning
    (stuck.waits (orderly.fits _) unfinished) (stuck.nobody_pending _)
  have empty := orderly.attended.no_room isRunning
    (stuck.waits (orderly.fits _) unfinishedReader) (stuck.nobody_pending _)
  simp only [bufferView, Thread.side, BoundedBuffer.Buffer.room, orderly.size_eq,
    bufferSize] at full empty
  omega

end

/-- If `handle_signal` runs while no thread waits, the program is not stuck. -/
theorem not_stuck_of_quiet_signals (malloced : Int → Int) (schedule : List Op)
    (config : Config Thread Shared Point)
    (reached : Reaches step (start malloced) schedule config)
    (signals : Respects step SignalsWhenQuiet (start malloced) schedule)
    (busy : config.shared.running →
      ∃ index, config.points (.writer index) ≠ .finished) : ¬ Stuck config := by
  have quiet := reached.guardedInvariant
    (fun config => config.shared.running = false → Quiet config)
    (fun quiet guarded stepEq => quiet_of_step quiet guarded stepEq) signals nofun
  cases isRunning : config.shared.running with
  | true =>
    obtain ⟨index, unfinished⟩ := busy isRunning
    have orderly := reached.invariant Orderly (fun orderly stepEq => orderly.step stepEq)
      (orderly_start malloced)
    exact orderly.not_stuck_of_running isRunning unfinished
  | false =>
    rintro ⟨⟨t, unfinished⟩, waiting⟩
    obtain ⟨call, -, waits⟩ := waiting t unfinished
    rw [(quiet isRunning).nobody_waits] at waits
    exact notMem_empty t waits

def firstReader : Thread := .reader ⟨0, by decide⟩

def firstWriter : Thread := .writer ⟨0, by decide⟩

def wakeFirstReader : List Op :=
  replicate 14 (.thread firstReader .proceed) ++ .thread firstWriter (.rand 7) ::
    replicate 6 (.thread firstWriter .proceed) ++ [.thread firstWriter (.signal (some firstReader))]

theorem not_stuck_after_late_signal :
    ∃ config, Reaches step (start fun _ => 0) (wakeFirstReader ++ [.handleSignal]) config ∧
      ¬ Stuck config := by
  obtain ⟨woken, wakes, quiet⟩ : ∃ config,
      Reaches step (start fun _ => 0) wakeFirstReader config ∧ Quiet config := by
    refine ⟨_, ⟨_, rfl⟩, fun side => by cases side <;> rfl, ?_⟩
    rintro (index | index) call
    · fin_cases index <;> nofun
    · fin_cases index <;> nofun
  have signals : Respects step SignalsWhenQuiet (start fun _ => 0)
      (wakeFirstReader ++ [.handleSignal]) := by
    refine .append (respects_of_mem _ (by simp [wakeFirstReader, SignalsWhenQuiet])) ?_
    intro config reached
    obtain rfl := wakes.unique reached
    exact ⟨fun _ => quiet, fun _ _ _ => trivial⟩
  exact ⟨_, ⟨_, rfl⟩, not_stuck_of_quiet_signals (fun _ => 0) _ _ ⟨_, rfl⟩ signals nofun⟩

def signalWhileWaiting : List Op :=
  replicate 14 (.thread firstReader .proceed) ++ .handleSignal ::
    ((finRange numReaders).tail.map (fun index => .thread (.reader index) .proceed) ++
      (finRange numWriters).map fun index => .thread (.writer index) .proceed)

theorem stuck_after_signal : ∃ config, Reaches step (start fun _ => 0) signalWhileWaiting config ∧
      Stuck config := by
  refine ⟨_, ⟨_, rfl⟩, ⟨firstReader, by decide⟩, ?_⟩
  intro t unfinished
  cases t with
  | reader index =>
    fin_cases index
    · exact ⟨.bbConsume, rfl, Finset.mem_singleton_self _⟩
    all_goals exact absurd rfl unfinished
  | writer index =>
    fin_cases index
    all_goals exact absurd rfl unfinished

end BitsAndBytes.RwLockBuffer
