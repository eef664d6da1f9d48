import BitsAndBytes.BoundedBuffer
import BitsAndBytes.RingWindow

/-! # What passes through the bounded buffer -/

namespace BitsAndBytes.BoundedBuffer

open Interleaving OperationRuns RingWindow Function List Finset

variable {Thread : Type*}
variable {bb : Buffer Thread} {outs : List (Option Transfer)}

def insideMutex : Point → Prop
  | .inside _ .test | .inside _ .wait | .inside _ .check => True
  | .inside _ .transfer | .inside _ .signal | .inside _ .unlock => True
  | .idle | .inside _ .lock | .inside _ .blocked => False

/-- The indices and the count describe a part of the ring. -/
structure Ring (bb : Buffer Thread) : Prop where
  count_nonneg : 0 ≤ bb.count
  count_le : bb.count ≤ bb.size
  out_nonneg : 0 ≤ bb.outIndex
  out_lt : bb.outIndex < bb.size
  in_eq : bb.inIndex = (bb.outIndex + bb.count) % bb.size

def contents (bb : Buffer Thread) : List Int :=
  window bb.buffer bb.size bb.outIndex bb.count.toNat

/-- Who has the mutex, who waits, and what the tests have found. -/
structure Sound (config : Config Thread (Shared Thread) Point) : Prop where
  mutex : Locks insideMutex config.points config.shared.bb.mutex
  ring : Ring config.shared.bb
  waits : ∀ {t call}, config.points t = .inside call .wait → config.shared.bb.mustWait call.side
  checks : ∀ {t call}, config.points t = .inside call .check →
    config.shared.running → config.shared.bb.mustWait call.side = false
  transfers : ∀ {t call}, config.points t = .inside call .transfer →
    config.shared.bb.mustWait call.side = false
  blocked : ∀ {t side}, t ∈ config.shared.bb.waiting side →
    ∃ call, call.side = side ∧ config.points t = .inside call .blocked

theorem lt_size_of_not_mustWait (ring : Ring bb) (mayGo : bb.mustWait .producers = false) :
    bb.count < bb.size := by
  have bounded := ring.count_le
  have notFull : bb.count ≠ bb.size := of_decide_eq_false mayGo
  omega

theorem pos_of_not_mustWait (ring : Ring bb) (mayGo : bb.mustWait .consumers = false) :
    0 < bb.count := by
  have nonneg := ring.count_nonneg
  have notEmpty : bb.count ≠ 0 := of_decide_eq_false mayGo
  omega

variable {other : Buffer Thread} {call : Call} {s : Thread} {side : Side} {op : Op Thread}
  {size : Int}

theorem Ring.congr (ring : Ring other) (same : Buffer.SameItems bb other) : Ring bb := by
  constructor
  · rw [same.count_eq]
    exact ring.count_nonneg
  · rw [same.count_eq, same.size_eq]
    exact ring.count_le
  · rw [same.outIndex_eq]
    exact ring.out_nonneg
  · rw [same.outIndex_eq, same.size_eq]
    exact ring.out_lt
  · rw [same.inIndex_eq, same.outIndex_eq, same.count_eq, same.size_eq]
    exact ring.in_eq

theorem contents_congr (same : Buffer.SameItems bb other) : contents bb = contents other := by
  rw [contents, contents, same.buffer_eq, same.size_eq, same.outIndex_eq, same.count_eq]

theorem Ring.transfer (ring : Ring bb) (mayGo : bb.mustWait call.side = false) :
    Ring (BoundedBuffer.transfer bb call).1 := by
  have outNonneg := ring.out_nonneg
  have outLt := ring.out_lt
  have nonneg := ring.count_nonneg
  cases call with
  | bbProduce item =>
    have notFull := lt_size_of_not_mustWait ring mayGo
    have inNonneg : 0 ≤ bb.inIndex := by
      rw [ring.in_eq]
      exact Int.emod_nonneg _ (by omega)
    refine ⟨?_, ?_, outNonneg, outLt, ?_⟩
    · simp only [BoundedBuffer.transfer]
      omega
    · simp only [BoundedBuffer.transfer]
      omega
    · simp only [BoundedBuffer.transfer]
      rw [Int.tmod_eq_emod_of_nonneg (by omega), ring.in_eq, Int.emod_add_emod, add_assoc]
  | bbConsume =>
    have notEmpty := pos_of_not_mustWait ring mayGo
    have bounded := ring.count_le
    have nextOut : (bb.outIndex + 1).tmod bb.size =
        (bb.outIndex + 1) % bb.size := Int.tmod_eq_emod_of_nonneg (by omega)
    refine ⟨?_, ?_, ?_, ?_, ?_⟩
    · simp only [BoundedBuffer.transfer]
      omega
    · simp only [BoundedBuffer.transfer]
      omega
    · simp only [BoundedBuffer.transfer, nextOut]
      exact Int.emod_nonneg _ (by omega)
    · simp only [BoundedBuffer.transfer, nextOut]
      exact Int.emod_lt_of_pos _ (by omega)
    · simp only [BoundedBuffer.transfer, nextOut, Int.emod_add_emod]
      rw [ring.in_eq]
      congr 1
      omega

theorem contents_bbProduce (ring : Ring bb) (mayGo : bb.mustWait .producers = false) (item : Int) :
    contents (transfer bb (.bbProduce item)).1 = contents bb ++ [item] :=
  window_push bb.buffer ring.count_nonneg (lt_size_of_not_mustWait ring mayGo) ring.in_eq item

theorem contents_bbConsume (ring : Ring bb) (mayGo : bb.mustWait .consumers = false) :
    contents bb = bb.buffer bb.outIndex :: contents (transfer bb .bbConsume).1 := by
  have outNonneg := ring.out_nonneg
  have nextOut : (bb.outIndex + 1).tmod bb.size =
      (bb.outIndex + 1) % bb.size := Int.tmod_eq_emod_of_nonneg (by omega)
  simp only [contents, transfer, nextOut]
  exact window_pop bb.buffer outNonneg ring.out_lt (pos_of_not_mustWait ring mayGo)

section

variable [DecidableEq Thread] {t : Thread} {running : Bool} {next : Buffer Thread}
  {points : Thread → Point} {point : Point} {out : Option Transfer}

section

variable (locks : Locks insideMutex points bb.mutex)
  (moved : Moves t running bb (points t) next point out)
include locks moved

theorem eq_of_other_inside (other : s ≠ t) (inside : insideMutex (points s)) :
    next = bb ∧ out = none := by
  have owned := (locks s).mp inside
  have outside : ¬ insideMutex (points t) := fun there =>
    other (locks.unique inside there)
  generalize points t = previous at moved outside
  cases moved with
  | call => exact ⟨rfl, rfl⟩
  | lock free | wake _ free => simp [free] at owned
  | _ => simp [insideMutex] at outside

theorem inside_before {there : Point} (after : update points t point s = there)
    (inside : insideMutex there) : s = t ∧ point = there ∨ points s = there ∧ next = bb := by
  by_cases same : s = t
  · subst same
    rw [update_self] at after
    exact .inl ⟨rfl, after⟩
  · rw [update_of_ne same] at after
    exact .inr ⟨after, (eq_of_other_inside locks moved same (after ▸ inside)).1⟩

theorem mutex_of_moves : Locks insideMutex (update points t point) next.mutex := by
  generalize before : points t = previous at moved
  cases moved with
  | lock free | wake _ free => exact Locks.acquire (free ▸ locks) trivial
  | wait | unlock => exact locks.release (by simp [before, insideMutex]) id
  | transfer =>
    rw [transfer_mutex]
    exact locks.keep (by simp [before, insideMutex])
  | signal =>
    rw [Buffer.setWaiting_mutex]
    exact locks.keep (by simp [before, insideMutex])
  | _ => exact locks.keep (by simp [before, insideMutex])

end

theorem mem_waiting_of_moves (moved : Moves t running bb (points t) next point out)
    (waits : s ∈ next.waiting side) :
    s ∈ bb.waiting side ∨ s = t ∧ ∃ call : Call, call.side = side ∧
      points t = .inside call .wait ∧ point = .inside call .blocked := by
  generalize points t = previous at moved
  cases moved with
  | wait call =>
    change s ∈ (bb.setWaiting _ _).waiting side at waits
    rw [Buffer.waiting_setWaiting] at waits
    by_cases mine : side = call.side
    · rw [if_pos mine, mem_insert] at waits
      rcases waits with same | already
      · exact .inr ⟨same, call, mine.symm, rfl, rfl⟩
      · exact .inl (mine ▸ already)
    · rw [if_neg mine] at waits
      exact .inl waits
  | transfer =>
    rw [transfer_waiting] at waits
    exact .inl waits
  | signal call signalled =>
    rw [Buffer.waiting_setWaiting] at waits
    by_cases theirs : side = call.side.other
    · rw [if_pos theirs] at waits
      rcases signal_cases signalled with ⟨rfl, -⟩ | ⟨r, -, rfl⟩
      · simp at waits
      · exact .inl (theirs ▸ mem_of_mem_erase waits)
    · rw [if_neg theirs] at waits
      exact .inl waits
  | _ => exact .inl waits

end

variable {next : Config Thread (Shared Thread) Point}

namespace Sound

variable {config : Config Thread (Shared Thread) Point} {t : Thread} {point : Point}
  {out : Option Transfer}

theorem handleSignal (sound : Sound config) : Sound { config with shared.running := false } :=
  { sound with checks := nofun }

variable [DecidableEq Thread]

section

variable (sound : Sound config)
  (moved : Moves t config.shared.running config.shared.bb (config.points t) bb point out)
include sound moved

theorem ring_of_moves : Ring bb := by
  rcases moved.transfer_or_sameItems with ⟨call, there, rfl, -, -⟩ | ⟨same, -⟩
  · exact sound.ring.transfer (sound.transfers there)
  · exact sound.ring.congr same

theorem waits_of_moves (there : update config.points t point s = .inside call .wait) :
    bb.mustWait call.side := by
  rcases inside_before sound.mutex moved there trivial with
    ⟨rfl, rfl⟩ | ⟨before, rfl⟩
  · generalize config.points s = previous at moved
    cases moved with
    | mustWait noRoom => exact noRoom
  · exact sound.waits before

theorem checks_of_moves (there : update config.points t point s = .inside call .check)
    (isRunning : config.shared.running) : bb.mustWait call.side = false := by
  rcases inside_before sound.mutex moved there trivial with
    ⟨rfl, rfl⟩ | ⟨before, rfl⟩
  · generalize config.points s = previous at moved
    cases moved with
    | mayGo roomOrStopped => exact roomOrStopped isRunning
  · exact sound.checks before isRunning

theorem transfers_of_moves (there : update config.points t point s = .inside call .transfer) :
    bb.mustWait call.side = false := by
  rcases inside_before sound.mutex moved there trivial with
    ⟨rfl, rfl⟩ | ⟨before, rfl⟩
  · generalize before : config.points s = previous at moved
    cases moved with
    | go isRunning => exact sound.checks before isRunning
  · exact sound.transfers before

theorem blocked_of_moves (waits : s ∈ bb.waiting side) :
    ∃ call : Call, call.side = side ∧ update config.points t point s = .inside call .blocked := by
  rcases mem_waiting_of_moves moved waits with before | ⟨rfl, call, sideEq, -, there⟩
  · obtain ⟨call, sideEq, there⟩ := sound.blocked before
    refine ⟨call, sideEq, ?_⟩
    have other : s ≠ t := by
      rintro rfl
      rw [there] at moved
      cases moved with
      | wake woken => exact woken (sideEq ▸ before)
    rw [update_of_ne other]
    exact there
  · exact ⟨call, sideEq, by rw [update_self, there]⟩

theorem moves : Sound ⟨⟨bb, config.shared.running⟩, update config.points t point⟩ where
  mutex := mutex_of_moves sound.mutex moved
  ring := sound.ring_of_moves moved
  waits := sound.waits_of_moves moved
  checks := sound.checks_of_moves moved
  transfers := sound.transfers_of_moves moved
  blocked := sound.blocked_of_moves moved

end

theorem spuriousWakeup (sound : Sound config) (t : Thread) : Sound { config with
      shared.bb.notFull := config.shared.bb.notFull.erase t
      shared.bb.notEmpty := config.shared.bb.notEmpty.erase t } where
  mutex := sound.mutex
  ring := sound.ring.congr ⟨rfl, rfl, rfl, rfl, rfl⟩
  waits := by
    intro s call there
    have before := sound.waits there
    cases call <;> exact before
  checks := by
    intro s call there isRunning
    have before := sound.checks there isRunning
    cases call <;> exact before
  transfers := by
    intro s call there
    have before := sound.transfers there
    cases call <;> exact before
  blocked := by
    intro s side waits
    cases side with
    | producers =>
      have before : s ∈ config.shared.bb.waiting .producers := mem_of_mem_erase waits
      exact sound.blocked before
    | consumers =>
      have before : s ∈ config.shared.bb.waiting .consumers := mem_of_mem_erase waits
      exact sound.blocked before

theorem step (sound : Sound config) (stepEq : BoundedBuffer.step config op = some (next, out)) :
    Sound next := by
  rcases step_cases stepEq with ⟨t, bb, point, moved, rfl⟩ | ⟨t, -, rfl⟩ | ⟨-, rfl⟩
  · exact sound.moves moved
  · exact sound.spuriousWakeup t
  · exact sound.handleSignal

end Sound

theorem sound_start (malloced : Int → Int) (positive : 1 ≤ size) :
    Sound (start malloced size : Config Thread (Shared Thread) Point) where
  mutex := by
    intro t
    simp [start, insideMutex, bbInit]
  ring := by
    refine ⟨le_refl 0, ?_, le_refl 0, ?_, ?_⟩
    · show (0 : Int) ≤ size
      omega
    · show (0 : Int) < size
      omega
    · simp [start, bbInit]
  waits := nofun
  checks := nofun
  transfers := nofun
  blocked := by
    intro t side waits
    cases side <;> simp [start, bbInit, Buffer.waiting] at waits

def storedItems (outs : List (Option Transfer)) : List Int :=
  outs.filterMap fun
    | some (.stored item) => some item
    | _ => none

def takenItems (outs : List (Option Transfer)) : List Int :=
  outs.filterMap fun
    | some (.taken item) => some item
    | _ => none

/-- The items produced are those consumed followed by the contents. -/
def Accounts (bb : Buffer Thread) (outs : List (Option Transfer)) : Prop :=
  storedItems outs = takenItems outs ++ contents bb

theorem Accounts.none {next : Buffer Thread} (accounts : Accounts bb outs)
    (same : Buffer.SameItems next bb) : Accounts next (outs ++ [Option.none]) := by
  rw [Accounts] at accounts ⊢
  rw [contents_congr same]
  simpa [storedItems, takenItems] using accounts

theorem Accounts.transfer (accounts : Accounts bb outs) (ring : Ring bb)
    (mayGo : bb.mustWait call.side = false) :
    Accounts (BoundedBuffer.transfer bb call).1
      (outs ++ [some (BoundedBuffer.transfer bb call).2]) := by
  cases call with
  | bbProduce item =>
    have stored : storedItems (outs ++ [some (.stored item)]) =
        storedItems outs ++ [item] := by simp [storedItems]
    have taken : takenItems (outs ++ [some (.stored item)]) =
        takenItems outs := by simp [takenItems]
    show storedItems (outs ++ [some (.stored item)]) =
      takenItems (outs ++ [some (.stored item)]) ++ _
    rw [stored, taken, accounts, contents_bbProduce ring mayGo, append_assoc]
  | bbConsume =>
    have stored : storedItems
        (outs ++ [some (.taken (bb.buffer bb.outIndex))]) =
          storedItems outs := by simp [storedItems]
    have taken : takenItems (outs ++ [some (.taken (bb.buffer bb.outIndex))]) =
        takenItems outs ++ [bb.buffer bb.outIndex] := by simp [takenItems]
    show storedItems (outs ++ [some (.taken (bb.buffer bb.outIndex))]) =
      takenItems (outs ++ [some (.taken (bb.buffer bb.outIndex))]) ++ _
    rw [stored, taken, accounts, contents_bbConsume ring mayGo, append_assoc]
    rfl

variable {config : Config Thread (Shared Thread) Point}

theorem accounts_step [DecidableEq Thread] {out : Option Transfer} (sound : Sound config)
    (accounts : Accounts config.shared.bb outs) (stepEq : step config op = some (next, out)) :
    Accounts next.shared.bb (outs ++ [out]) := by
  rcases step_cases stepEq with
    ⟨t, bb, point, moved, rfl⟩ | ⟨t, rfl, rfl⟩ | ⟨rfl, rfl⟩
  · rcases moved.transfer_or_sameItems with ⟨call, there, rfl, rfl, -⟩ | ⟨same, rfl⟩
    · exact accounts.transfer sound.ring (sound.transfers there)
    · exact accounts.none same
  · exact accounts.none ⟨rfl, rfl, rfl, rfl, rfl⟩
  · exact accounts.none ⟨rfl, rfl, rfl, rfl, rfl⟩

def Consistent (config : Config Thread (Shared Thread) Point)
    (trace : List (Op Thread × Option Transfer)) : Prop :=
  Sound config ∧ Accounts config.shared.bb (trace.map Prod.snd)

theorem consistent_of_run [DecidableEq Thread] {malloced : Int → Int} (positive : 1 ≤ size)
    {ops : List (Op Thread)} (runEq : run step (start malloced size) ops = some (config, outs)) :
    Sound config ∧ Accounts config.shared.bb outs := by
  have initially : Consistent (start malloced size) ([] : List (Op Thread × Option Transfer)) :=
    ⟨sound_start malloced positive, rfl⟩
  have last : Consistent config ([] ++ ops.zip outs) := by
    refine run_traced Consistent ?_ runEq initially
    intro config trace op next out consistent stepEq
    refine ⟨consistent.1.step stepEq, ?_⟩
    rw [map_append]
    exact accounts_step consistent.1 consistent.2 stepEq
  have outsEq : (ops.zip outs).map Prod.snd = outs := map_snd_zip (length_of_run runEq).ge
  rw [nil_append, Consistent, outsEq] at last
  exact last

/-- In every interleaving the items stored are those taken and those in the buffer, in order. -/
theorem buffer_passes_items_in_order [DecidableEq Thread] (malloced : Int → Int)
    (size : Int) (positive : 1 ≤ size) (ops : List (Op Thread))
    (config : Config Thread (Shared Thread) Point) (outs : List (Option Transfer))
    (runEq : run step (start malloced size) ops = some (config, outs)) :
    storedItems outs = takenItems outs ++ contents config.shared.bb ∧
      0 ≤ config.shared.bb.count ∧ config.shared.bb.count ≤ config.shared.bb.size ∧
        config.shared.bb.inIndex = (config.shared.bb.outIndex + config.shared.bb.count).tmod
            config.shared.bb.size := by
  obtain ⟨sound, accounts⟩ := consistent_of_run positive runEq
  have ring := sound.ring
  have sumNonneg := add_nonneg ring.out_nonneg ring.count_nonneg
  refine ⟨accounts, ring.count_nonneg, ring.count_le, ?_⟩
  rw [Int.tmod_eq_emod_of_nonneg sumNonneg]
  exact ring.in_eq

def exchangeOfFive : List (Op (Fin 2)) :=
  [.thread 1 (.call .bbConsume), .thread 1 .proceed, .thread 1 .proceed,
    .thread 1 .proceed, .thread 0 (.call (.bbProduce 5)), .thread 0 .proceed,
    .thread 0 .proceed, .thread 0 .proceed, .thread 0 .proceed,
    .thread 0 (.signal (some 1)), .thread 0 .proceed, .thread 1 .proceed,
    .thread 1 .proceed, .thread 1 .proceed, .handleSignal, .thread 1 .proceed]

theorem buffer_passes_five_in_order :
    ∃ config outs, run step (start (fun _ => 0) 1) exchangeOfFive =
        some (config, outs) ∧ takenItems outs = [5] ∧
      storedItems outs = takenItems outs ++ contents config.shared.bb ∧ 0 ≤ config.shared.bb.count ∧
          config.shared.bb.count ≤ config.shared.bb.size ∧ config.shared.bb.inIndex =
              (config.shared.bb.outIndex + config.shared.bb.count).tmod
                config.shared.bb.size := by
  refine ⟨_, _, rfl, rfl, ?_⟩
  exact buffer_passes_items_in_order (fun _ => 0) 1 (by decide) exchangeOfFive _ _ rfl

end BitsAndBytes.BoundedBuffer
