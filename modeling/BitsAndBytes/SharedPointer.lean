import BitsAndBytes.Interleaving
import Mathlib.Algebra.Order.Ring.Nat

/-! # The shared pointer of `smartPointer.c` -/

namespace BitsAndBytes.SharedPointer

open Interleaving OperationRuns Option Function

variable {Thread : Type*}

def sizeModulus : Nat := 2 ^ 64

def fetchAdd (count : Nat) : Nat := (count + 1) % sizeModulus

def fetchSub (count : Nat) : Nat := (count + (sizeModulus - 1)) % sizeModulus

@[ext]
structure Pointer (Thread : Type*) where
  mutex : Option Thread
  refCount : Nat
  deleterCalls : Nat
  freed : Bool
  owners : Multiset Thread

def createShared (creator : Thread) : Pointer Thread where
  mutex := none
  refCount := 1
  deleterCalls := 0
  freed := false
  owners := {creator}

inductive Call (Thread : Type*)
  | inc (receiver : Thread)
  | dec
deriving DecidableEq, Repr

inductive Point (Thread : Type*)
  | idle
  | test (call : Call Thread)
  | lock (call : Call Thread)
  | fetch (call : Call Thread)
  | unlock
  | unlockLast
  | delete
  | freeCount
  | destroyMutex
  | freePointer
deriving DecidableEq, Repr

def advance [DecidableEq Thread] (t : Thread) (pointer : Pointer Thread) :
    Point Thread → Option (Pointer Thread × Point Thread)
  | .idle => none
  | .test call => some (pointer, .lock call)
  | .lock call =>
    if pointer.mutex = none then
      some ({ pointer with mutex := some t }, .fetch call)
    else
      none
  | .fetch (.inc receiver) =>
    some ({ pointer with
      refCount := fetchAdd pointer.refCount
      owners := receiver ::ₘ pointer.owners }, .unlock)
  | .fetch .dec =>
    some ({ pointer with refCount := fetchSub pointer.refCount },
      if pointer.refCount = 1 then .unlockLast else .unlock)
  | .unlock => some ({ pointer with mutex := none }, .idle)
  | .unlockLast => some ({ pointer with mutex := none }, .delete)
  | .delete => some ({ pointer with deleterCalls := pointer.deleterCalls + 1 }, .freeCount)
  | .freeCount => some (pointer, .destroyMutex)
  | .destroyMutex => some (pointer, .freePointer)
  | .freePointer => some ({ pointer with freed := true }, .idle)

inductive Op (Thread : Type*)
  | call (t : Thread) (call : Call Thread)
  | thread (t : Thread)

def begin [DecidableEq Thread] (t : Thread) (pointer : Pointer Thread) :
    Call Thread → Option (Pointer Thread)
  | .inc _ => if t ∈ pointer.owners then some pointer else none
  | .dec =>
    if t ∈ pointer.owners then
      some { pointer with owners := pointer.owners.erase t }
    else
      none

def step [DecidableEq Thread] (config : Config Thread (Pointer Thread) (Point Thread)) :
    Op Thread → Option (Config Thread (Pointer Thread) (Point Thread) × Unit)
  | .call t call =>
    if config.points t = .idle then
      (begin t config.shared call).map fun pointer =>
        (⟨pointer, update config.points t (.test call)⟩, ())
    else
      none
  | .thread t =>
    (advance t config.shared (config.points t)).map fun next =>
      (⟨next.1, update config.points t next.2⟩, ())

def start (creator : Thread) : Config Thread (Pointer Thread) (Point Thread) where
  shared := createShared creator
  points := fun _ => .idle

inductive Moves [DecidableEq Thread] (t : Thread) :
    Pointer Thread → Point Thread → Pointer Thread → Point Thread → Prop
  | beginInc {pointer receiver} (owns : t ∈ pointer.owners) :
      Moves t pointer .idle pointer (.test (.inc receiver))
  | beginDec {pointer} (owns : t ∈ pointer.owners) :
      Moves t pointer .idle { pointer with owners := pointer.owners.erase t } (.test .dec)
  | test {pointer call} : Moves t pointer (.test call) pointer (.lock call)
  | lock {pointer call} (free : pointer.mutex = none) :
      Moves t pointer (.lock call) { pointer with mutex := some t } (.fetch call)
  | fetchAdd {pointer receiver} : Moves t pointer (.fetch (.inc receiver))
        { pointer with
          refCount := fetchAdd pointer.refCount
          owners := receiver ::ₘ pointer.owners } .unlock
  | fetchLast {pointer} (one : pointer.refCount = 1) : Moves t pointer (.fetch .dec)
        { pointer with refCount := fetchSub pointer.refCount } .unlockLast
  | fetchSub {pointer} (notOne : pointer.refCount ≠ 1) : Moves t pointer (.fetch .dec)
        { pointer with refCount := fetchSub pointer.refCount } .unlock
  | unlock {pointer} : Moves t pointer .unlock { pointer with mutex := none } .idle
  | unlockLast {pointer} : Moves t pointer .unlockLast { pointer with mutex := none } .delete
  | delete {pointer} : Moves t pointer .delete
        { pointer with deleterCalls := pointer.deleterCalls + 1 } .freeCount
  | freeCount {pointer} : Moves t pointer .freeCount pointer .destroyMutex
  | destroyMutex {pointer} : Moves t pointer .destroyMutex pointer .freePointer
  | freePointer {pointer} : Moves t pointer .freePointer { pointer with freed := true } .idle

section

variable [DecidableEq Thread] {t : Thread} {pointer next : Pointer Thread}

theorem moves_of_advance {point nextPoint : Point Thread}
    (advanced : advance t pointer point = some (next, nextPoint)) :
    Moves t pointer point next nextPoint := by
  cases point with
  | idle => cases advanced
  | lock call =>
    rw [advance, ite_none_right_eq_some] at advanced
    obtain ⟨free, ⟨⟩⟩ := advanced
    exact .lock free
  | fetch call =>
    cases call with
    | inc receiver =>
      cases advanced
      exact .fetchAdd
    | dec =>
      rw [advance] at advanced
      split at advanced <;> cases advanced
      · exact .fetchLast ‹_›
      · exact .fetchSub ‹_›
  | _ =>
    cases advanced
    constructor

theorem moves_of_begin {call : Call Thread} (begins : begin t pointer call = some next) :
    Moves t pointer .idle next (.test call) := by
  cases call with
  | _ =>
    rw [begin, ite_none_right_eq_some] at begins
    obtain ⟨owns, ⟨⟩⟩ := begins
    constructor
    exact owns

def Op.actor : Op Thread → Thread
  | call t _ | thread t => t

theorem step_cases {config next : Config Thread (Pointer Thread) (Point Thread)}
    {op : Op Thread} {out : Unit} (stepEq : step config op = some (next, out)) :
    ∃ pointer point, Moves op.actor config.shared (config.points op.actor) pointer point ∧
        next = ⟨pointer, update config.points op.actor point⟩ := by
  cases op with
  | call t call =>
    rw [step, ite_none_right_eq_some] at stepEq
    obtain ⟨isIdle, mapped⟩ := stepEq
    obtain ⟨pointer, begins, ⟨⟩⟩ := map_eq_some_iff.mp mapped
    exact ⟨pointer, .test call, by rw [Op.actor, isIdle]; exact moves_of_begin begins, rfl⟩
  | thread t =>
    obtain ⟨⟨pointer, point⟩, advanced, ⟨⟩⟩ := map_eq_some_iff.mp stepEq
    exact ⟨pointer, point, moves_of_advance advanced, rfl⟩

end

end BitsAndBytes.SharedPointer
