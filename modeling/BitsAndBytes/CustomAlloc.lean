import BitsAndBytes.ArrayQueue
import BitsAndBytes.OperationRuns

/-! # The allocation table of `customAlloc.c` -/

namespace BitsAndBytes.CustomAlloc

open OperationRuns List Option

def maxAllocations : Nat := 1000

structure AllocationInfo where
  ptr : Option Nat
  size : UInt64
  file : String
  line : Int
deriving DecidableEq, Repr

abbrev Allocations := ArrayQueue AllocationInfo

inductive Message
  | allocated (size : UInt64) (ptr : Option Nat) (file : String) (line : Int)
  | freed (size : UInt64) (ptr : Option Nat) (file : String) (line : Int)
  | unallocated (ptr : Option Nat) (file : String) (line : Int)
deriving DecidableEq, Repr

def debugMalloc (allocations : Allocations) (size : UInt64) (file : String) (line : Int)
    (ptr : Option Nat) : Option (Allocations × Message) :=
  if ptr ≠ none then
    (allocations.push maxAllocations ⟨ptr, size, file, line⟩).map fun pushed =>
      (pushed, .allocated size ptr file line)
  else
    some (allocations, .allocated size ptr file line)

structure Release where
  allocations : Allocations
  passed : List (Option Nat)
  message : Message

def debugFree (allocations : Allocations) (ptr : Option Nat) (file : String) (line : Int) :
    Release :=
  match (range allocations.count).find? fun i => (allocations.cells i).ptr == ptr with
  | some i =>
    { allocations := allocations.removeAt i
      passed := [ptr]
      message := .freed (allocations.cells i).size ptr file line }
  | none =>
    { allocations := allocations
      passed := []
      message := .unallocated ptr file line }

structure Client where
  allocations : Allocations
  live : List AllocationInfo

inductive Call
  | debugMalloc (size : UInt64) (file : String) (line : Int) (answer : Option Nat)
  | debugFree (ptr : Option Nat) (file : String) (line : Int)
deriving DecidableEq, Repr

def Client.IsLive (client : Client) (ptr : Option Nat) : Prop :=
  ptr ∈ client.live.map AllocationInfo.ptr

instance (client : Client) (ptr : Option Nat) : Decidable (client.IsLive ptr) :=
  inferInstanceAs (Decidable (_ ∈ _))

def step (client : Client) : Call → Option (Client × Message)
  | .debugMalloc size file line answer =>
    if client.IsLive answer then
      none
    else
      (debugMalloc client.allocations size file line answer).map fun outcome =>
        (⟨outcome.1,
            if answer ≠ none then ⟨answer, size, file, line⟩ :: client.live
            else client.live⟩,
          outcome.2)
  | .debugFree ptr file line =>
    let release := debugFree client.allocations ptr file line
    some (⟨release.allocations,
        client.live.filter fun block => decide (block.ptr ∉ release.passed)⟩,
      release.message)

def start (cells : Nat → AllocationInfo) : Client :=
  ⟨⟨cells, 0⟩, []⟩

variable {allocations : Allocations} {ptr : Option Nat}

theorem debugFree_of_mem (member : ptr ∈ allocations.contents.map AllocationInfo.ptr)
    (file : String) (line : Int) :
    ∃ i < allocations.count, (allocations.cells i).ptr = ptr ∧ debugFree allocations ptr file line =
        ⟨allocations.removeAt i, [ptr], .freed (allocations.cells i).size ptr file line⟩ := by
  cases found : (range allocations.count).find? fun i =>
      (allocations.cells i).ptr == ptr with
  | none =>
    obtain ⟨block, blockMember, rfl⟩ := mem_map.mp member
    obtain ⟨i, inside, rfl⟩ := mem_map.mp blockMember
    have differs := find?_eq_none.mp found i inside
    simp at differs
  | some i =>
    refine ⟨i, mem_range.mp (mem_of_find?_eq_some found), ?_, ?_⟩
    · simpa using find?_some found
    · rw [debugFree, found]

theorem debugFree_of_not_mem (absent : ptr ∉ allocations.contents.map AllocationInfo.ptr)
    (file : String) (line : Int) :
    debugFree allocations ptr file line = ⟨allocations, [], .unallocated ptr file line⟩ := by
  have notFound : ((range allocations.count).find? fun i =>
      (allocations.cells i).ptr == ptr) = none := by
    rw [find?_eq_none]
    intro i inside same
    refine absent (mem_map.mpr ⟨allocations.cells i, ?_, by simpa using same⟩)
    exact mem_map_of_mem inside
  rw [debugFree, notFound]

/-- The table has one entry for each live block. -/
structure Exact (client : Client) : Prop where
  entries : client.allocations.contents.Perm client.live
  nodup : (client.live.map AllocationInfo.ptr).Nodup
  nonnull : ∀ block ∈ client.live, block.ptr ≠ none

namespace Exact

variable {client : Client} (exact : Exact client)
include exact

theorem isLive_iff : client.IsLive ptr ↔ ptr ∈ client.allocations.contents.map AllocationInfo.ptr :=
  ((exact.entries.map AllocationInfo.ptr).mem_iff).symm

theorem push {pushed : Allocations} {block : AllocationInfo}
    (fresh : ¬ client.IsLive block.ptr) (nonnull : block.ptr ≠ none)
    (pushEq : client.allocations.push maxAllocations block = some pushed) :
    Exact ⟨pushed, block :: client.live⟩ := by
  constructor
  · rw [(ArrayQueue.push_eq_some pushEq).2]
    exact (perm_append_singleton _ _).trans (exact.entries.cons _)
  · rw [map_cons, nodup_cons]
    exact ⟨fresh, exact.nodup⟩
  · intro other member
    rcases mem_cons.mp member with rfl | member
    · exact nonnull
    · exact exact.nonnull other member

theorem remove {i : Nat} (inside : i < client.allocations.count) :
    Exact ⟨client.allocations.removeAt i, client.live.filter fun block =>
      decide (block.ptr ∉ [(client.allocations.cells i).ptr])⟩ := by
  have split := ArrayQueue.contents_perm_removeAt inside
  have different : ∀ block ∈ (client.allocations.removeAt i).contents,
      block.ptr ∉ [(client.allocations.cells i).ptr] := by
    have nodup := ((exact.entries.symm.trans split).map AllocationInfo.ptr).nodup exact.nodup
    rw [map_cons, nodup_cons] at nodup
    intro block member same
    rw [mem_singleton] at same
    exact nodup.1 (mem_map.mpr ⟨block, member, same⟩)
  have others := filter_eq_self.mpr fun block member => decide_eq_true (different block member)
  constructor
  · have kept := (exact.entries.symm.trans split).filter
      fun block => decide (block.ptr ∉ [(client.allocations.cells i).ptr])
    rw [filter_cons_of_neg (by simp), others] at kept
    exact kept.symm
  · exact exact.nodup.sublist (filter_sublist.map _)
  · intro block member
    exact exact.nonnull block (mem_of_mem_filter member)

theorem step {next : Client} {call : Call} {message : Message}
    (stepEq : step client call = some (next, message)) : Exact next := by
  cases call with
  | debugMalloc size file line answer =>
    simp only [CustomAlloc.step, ite_none_left_eq_some, map_eq_some_iff, Prod.mk.injEq] at stepEq
    obtain ⟨fresh, ⟨allocations, printed⟩, allocated, rfl, -⟩ := stepEq
    by_cases nonnull : answer ≠ none
    · simp only [debugMalloc, if_pos nonnull, map_eq_some_iff, Prod.mk.injEq] at allocated ⊢
      obtain ⟨pushed, pushEq, rfl, -⟩ := allocated
      exact exact.push fresh nonnull pushEq
    · simp only [debugMalloc, if_neg nonnull, some.injEq, Prod.mk.injEq] at allocated ⊢
      rw [← allocated.1]
      exact exact
  | debugFree ptr file line =>
    simp only [CustomAlloc.step, some.injEq, Prod.mk.injEq] at stepEq
    rw [← stepEq.1]
    by_cases live : client.IsLive ptr
    · obtain ⟨i, inside, rfl, released⟩ := debugFree_of_mem (exact.isLive_iff.mp live) file line
      rw [released]
      exact exact.remove inside
    · rw [debugFree_of_not_mem (fun member => live (exact.isLive_iff.mpr member))]
      simpa using exact

theorem passed_eq (ptr : Option Nat) (file : String) (line : Int) :
    (debugFree client.allocations ptr file line).passed =
      if client.IsLive ptr then [ptr] else [] := by
  by_cases live : client.IsLive ptr
  · obtain ⟨i, -, -, released⟩ := debugFree_of_mem (exact.isLive_iff.mp live) file line
    rw [released, if_pos live]
  · rw [debugFree_of_not_mem (fun member => live (exact.isLive_iff.mpr member)), if_neg live]

theorem debugMalloc_eq_none_iff (size : UInt64) (file : String) (line : Int) (answer : Option Nat) :
    debugMalloc client.allocations size file line answer = none ↔
      answer ≠ none ∧ maxAllocations ≤ client.live.length := by
  have count : client.live.length = client.allocations.count := by
    rw [← exact.entries.length_eq, ArrayQueue.length_contents]
  rw [count]
  by_cases nonnull : answer ≠ none
  · simp [debugMalloc, nonnull, ArrayQueue.push]
  · simp [debugMalloc, nonnull]

end Exact

/-- The entries below `allocation_count` are the blocks in use, each once. -/
theorem table_holds_live_blocks (cells : Nat → AllocationInfo) (calls : List Call)
    (client : Client) (reached : Reaches step (start cells) calls client) :
    client.allocations.contents.Perm client.live ∧ (client.live.map AllocationInfo.ptr).Nodup ∧
      (∀ ptr file line, (debugFree client.allocations ptr file line).passed =
        if client.IsLive ptr then [ptr] else []) ∧
      ∀ size file line answer, debugMalloc client.allocations size file line answer = none ↔
          answer ≠ none ∧ maxAllocations ≤ client.live.length := by
  have exact : Exact client :=
    reached.invariant Exact (fun exact => exact.step) ⟨.nil, nodup_nil, nofun⟩
  exact ⟨exact.entries, exact.nodup, exact.passed_eq, exact.debugMalloc_eq_none_iff⟩

def mainCalls : List Call :=
  [.debugMalloc 20 "customAlloc.c" 47 (some 4096), .debugFree (some 4096) "customAlloc.c" 48,
    .debugFree (some 4096) "customAlloc.c" 49, .debugMalloc 40 "customAlloc.c" 50 (some 4096)]

theorem table_holds_block_left_by_main :
    ∃ client, Reaches step (start fun _ => ⟨none, 0, "", 0⟩) mainCalls client ∧
      client.live = [⟨some 4096, 40, "customAlloc.c", 50⟩] ∧
        client.allocations.contents.Perm client.live := by
  have reached : Reaches step (start fun _ => ⟨none, 0, "", 0⟩) mainCalls _ := ⟨_, rfl⟩
  exact ⟨_, reached, rfl, (table_holds_live_blocks _ _ _ reached).1⟩

end BitsAndBytes.CustomAlloc
