import BitsAndBytes.BoundedBufferHistory

/-! # Signals of the bounded buffer -/

namespace BitsAndBytes.BoundedBuffer

open Interleaving OperationRuns Function Finset

variable {Thread : Type*}

def pendingAt (side : Side) (waits : Prop) : Point → Prop
  | .inside call .blocked => call.side = side ∧ ¬ waits
  | .inside call .test | .inside call .check => call.side = side
  | .inside call .transfer => call.side = side
  | .inside call .signal => call.side.other = side
  | .idle | .inside _ .lock | .inside _ .wait | .inside _ .unlock => False

/-- The thread will make a transfer of the side, or signal one. -/
def Pending (bb : Buffer Thread) (points : Thread → Point) (side : Side)
    (t : Thread) : Prop :=
  pendingAt side (t ∈ bb.waiting side) (points t)

/-- If threads of the side wait, others will make, or signal, each transfer that it can make. -/
def Covered (bb : Buffer Thread) (points : Thread → Point) (side : Side) : Prop :=
  (bb.waiting side).Nonempty → ∃ pending : Finset Thread,
    (∀ t ∈ pending, Pending bb points side t) ∧ bb.room side ≤ pending.card

variable {bb : Buffer Thread} {side : Side} {config : Config Thread (Shared Thread) Point}
  {call : Call}

theorem covered_of_no_room {points : Thread → Point} (noRoom : bb.room side ≤ 0) :
    Covered bb points side :=
  fun _ => ⟨∅, by simp, noRoom⟩

theorem room_of_mustWait (noRoom : bb.mustWait side) : bb.room side = 0 := by
  cases side with
  | producers =>
    have full : bb.count = bb.size := of_decide_eq_true noRoom
    simp only [Buffer.room, full, sub_self]
  | consumers => exact of_decide_eq_true noRoom

theorem Side.eq_other_of_ne {other : Side} (different : other ≠ side) : other = side.other := by
  cases side <;> cases other <;> simp_all [Side.other]

theorem room_transfer_self (bb : Buffer Thread) (call : Call) :
    (transfer bb call).1.room call.side = bb.room call.side - 1 := by
  cases call with
  | bbProduce item =>
    simp only [transfer, Call.side, Buffer.room]
    omega
  | bbConsume => rfl

theorem room_transfer_other (bb : Buffer Thread) (call : Call) :
    (transfer bb call).1.room call.side.other = bb.room call.side.other + 1 := by
  cases call with
  | bbProduce item => rfl
  | bbConsume =>
    simp only [transfer, Call.side, Side.other, Buffer.room]
    omega

/-- While `running` is set no signal is lost. -/
structure Attended (config : Config Thread (Shared Thread) Point) : Prop where
  sound : Sound config
  covered : config.shared.running → ∀ side, Covered config.shared.bb config.points side

theorem attended_start (malloced : Int → Int) {size : Int} (positive : 1 ≤ size) :
    Attended (start malloced size : Config Thread (Shared Thread) Point) where
  sound := sound_start malloced positive
  covered := by
    intro _ side nonempty
    cases side <;> exact absurd nonempty not_nonempty_empty

theorem Attended.no_room (attended : Attended config) (isRunning : config.shared.running)
    {t : Thread} (waits : t ∈ config.shared.bb.waiting side)
    (nobody : ∀ s, ¬ Pending config.shared.bb config.points side s) :
    config.shared.bb.room side ≤ 0 := by
  obtain ⟨pending, onTheirWay, enough⟩ := attended.covered isRunning side ⟨t, waits⟩
  have noMember : pending = ∅ :=
    eq_empty_of_forall_notMem fun s member => nobody s (onTheirWay s member)
  rw [noMember] at enough
  exact enough

theorem Attended.handleSignal (attended : Attended config) :
    Attended { config with shared.running := false } where
  sound := attended.sound.handleSignal
  covered := nofun

section

variable [DecidableEq Thread] {t : Thread} {bb next : Buffer Thread}
  {points : Thread → Point} {point : Point} {side : Side}
variable {config : Config Thread (Shared Thread) Point} {out : Option Transfer}

theorem Pending.update_of_ne {s : Thread} (pending : Pending bb points side s)
    (other : s ≠ t) (fewer : s ∈ next.waiting side → s ∈ bb.waiting side) :
    Pending next (Function.update points t point) side s := by
  rw [Pending, Function.update_of_ne other]
  rw [Pending] at pending
  generalize points s = there at pending
  cases there with
  | idle => exact pending
  | inside call stage =>
    cases stage with
    | blocked => exact ⟨pending.1, fun waits => pending.2 (fewer waits)⟩
    | _ => exact pending

theorem Covered.update (covered : Covered bb points side)
    (waiting_eq : next.waiting side = bb.waiting side) (room_eq : next.room side = bb.room side)
    (stays : Pending bb points side t → Pending next (Function.update points t point) side t) :
    Covered next (Function.update points t point) side := by
  intro nonempty
  rw [waiting_eq] at nonempty
  obtain ⟨pending, onTheirWay, enough⟩ := covered nonempty
  refine ⟨pending, fun s member => ?_, room_eq ▸ enough⟩
  by_cases same : s = t
  · subst same
    exact stays (onTheirWay s member)
  · exact (onTheirWay s member).update_of_ne same fun waits => waiting_eq ▸ waits

theorem Covered.transfer (covered : Covered bb points side)
    (there : points t = .inside call .transfer) :
    Covered (BoundedBuffer.transfer bb call).1
      (Function.update points t (.inside call .signal)) side := by
  intro nonempty
  rw [transfer_waiting] at nonempty
  obtain ⟨pending, onTheirWay, enough⟩ := covered nonempty
  have others : ∀ s ∈ pending, s ≠ t → Pending (BoundedBuffer.transfer bb call).1
        (Function.update points t (.inside call .signal)) side s := by
    intro s member other
    exact (onTheirWay s member).update_of_ne other fun waits => by
      rwa [transfer_waiting] at waits
  by_cases mine : side = call.side
  · refine ⟨pending.erase t, fun s member => ?_, ?_⟩
    · exact others s (mem_of_mem_erase member) (ne_of_mem_erase member)
    · rw [mine, room_transfer_self, ← mine]
      have erased := pred_card_le_card_erase (s := pending) (a := t)
      omega
  · have theirs := Side.eq_other_of_ne mine
    have fresh : t ∉ pending := by
      intro member
      have before := onTheirWay t member
      rw [Pending, there] at before
      exact mine before.symm
    refine ⟨insert t pending, fun s member => ?_, ?_⟩
    · by_cases same : s = t
      · subst same
        rw [Pending, update_self]
        exact theirs.symm
      · exact others s (mem_of_mem_insert_of_ne member same) same
    · rw [theirs, room_transfer_other, ← theirs, card_insert_of_notMem fresh]
      omega

theorem Covered.signal {woken : Option Thread} {rest : Finset Thread}
    (covered : Covered bb points side) (there : points t = .inside call .signal)
    (blocked : ∀ {s}, s ∈ bb.waiting side →
      ∃ call : Call, call.side = side ∧ points s = .inside call .blocked)
    (signalled : Interleaving.signal (bb.waiting call.side.other) woken = some rest) :
    Covered (bb.setWaiting rest call.side.other)
      (Function.update points t (.inside call .unlock)) side := by
  have room_eq := (Buffer.sameItems_setWaiting bb rest call.side.other).room_eq side
  by_cases mine : side = call.side.other
  · subst mine
    intro nonempty
    rw [Buffer.waiting_setWaiting, if_pos rfl] at nonempty
    rcases signal_cases signalled with ⟨rfl, -⟩ | ⟨w, waits, rfl⟩
    · exact absurd nonempty not_nonempty_empty
    obtain ⟨pending, onTheirWay, enough⟩ := covered ⟨w, waits⟩
    obtain ⟨wokenCall, sideEq, wPoint⟩ := blocked waits
    have fresh : w ∉ pending.erase t := by
      intro member
      have before := onTheirWay w (mem_of_mem_erase member)
      rw [Pending, wPoint] at before
      exact before.2 waits
    refine ⟨insert w (pending.erase t), fun s member => ?_, ?_⟩
    · by_cases same : s = w
      · subst same
        have other : s ≠ t := by
          rintro rfl
          rw [there] at wPoint
          cases wPoint
        rw [Pending, Function.update_of_ne other, wPoint, Buffer.waiting_setWaiting, if_pos rfl]
        exact ⟨sideEq, notMem_erase s _⟩
      · have before := mem_of_mem_insert_of_ne member same
        refine (onTheirWay s (mem_of_mem_erase before)).update_of_ne
          (ne_of_mem_erase before) fun stillWaits => ?_
        rw [Buffer.waiting_setWaiting, if_pos rfl] at stillWaits
        exact mem_of_mem_erase stillWaits
    · rw [room_eq, card_insert_of_notMem fresh]
      have erased := pred_card_le_card_erase (s := pending) (a := t)
      omega
  · refine covered.update ?_ room_eq ?_
    · rw [Buffer.waiting_setWaiting, if_neg mine]
    · intro before
      rw [Pending, there] at before
      exact absurd before.symm mine

theorem Covered.moves (sound : Sound config) (isRunning : config.shared.running)
    (covered : Covered config.shared.bb config.points side)
    (moved : Moves t config.shared.running config.shared.bb (config.points t) next point out) :
    Covered next (Function.update config.points t point) side := by
  generalize before : config.points t = previous at moved
  have notPending : ∀ {next : Buffer Thread} {point : Point},
      (∀ waits, ¬ pendingAt side waits previous) → Pending config.shared.bb config.points side t →
          Pending next (Function.update config.points t point) side t := by
    intro next point nowhere pending
    rw [Pending, before] at pending
    exact absurd pending (nowhere _)
  have locked_room : ∀ owner, ({ config.shared.bb with mutex := owner } : Buffer Thread).room side =
        config.shared.bb.room side :=
    fun owner => (Buffer.sameItems_mutex config.shared.bb owner).room_eq side
  cases moved with
  | call => exact covered.update rfl rfl (notPending fun _ => id)
  | lock | unlock =>
    exact covered.update (Buffer.waiting_mutex ..) (locked_room _) (notPending fun _ => id)
  | @mustWait call noRoom _ =>
    by_cases mine : side = call.side
    · subst mine
      exact covered_of_no_room (room_of_mustWait noRoom).le
    · exact covered.update rfl rfl (notPending fun _ same => mine same.symm)
  | mayGo | go =>
    refine covered.update rfl rfl fun pending => ?_
    rw [Pending, before] at pending
    rw [Pending, update_self]
    exact pending
  | wait call =>
    by_cases mine : side = call.side
    · subst mine
      have noRoom := room_of_mustWait (sound.waits before)
      apply covered_of_no_room
      cases call <;> exact noRoom.le
    · refine covered.update ?_ ?_ (notPending fun _ => id)
      · rw [Buffer.waiting_mutex, Buffer.waiting_setWaiting, if_neg mine]
      · cases call <;> cases side <;> rfl
  | wake =>
    refine covered.update (Buffer.waiting_mutex ..) (locked_room _) fun pending => ?_
    rw [Pending, before] at pending
    rw [Pending, update_self]
    exact pending.1
  | giveUp stopped =>
    rw [isRunning] at stopped
    cases stopped
  | transfer call => exact covered.transfer before
  | signal call signalled =>
    exact covered.signal before (fun waits => sound.blocked waits) signalled

theorem Attended.moves (attended : Attended config)
    (moved : Moves t config.shared.running config.shared.bb (config.points t) next point out) :
    Attended ⟨⟨next, config.shared.running⟩, Function.update config.points t point⟩ where
  sound := attended.sound.moves moved
  covered := fun isRunning side =>
    (attended.covered isRunning side).moves attended.sound isRunning moved

end

end BitsAndBytes.BoundedBuffer
