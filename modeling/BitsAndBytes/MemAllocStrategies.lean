import BitsAndBytes.MemAllocRuns

/-! # The strategies of the pool allocator -/

namespace BitsAndBytes.MemAlloc

open LinkedTraversal BlockTiling OperationRuns SelectionSort Option

def IsFreeBlock (pool : Pool) (offset : Nat) : Prop :=
  ∃ found, blockOffsets pool = some found ∧ offset ∈ found ∧ (pool.block offset).isFree

def Sufficient (pool : Pool) (size : Nat) : Set Nat :=
  {offset | IsFreeBlock pool offset ∧ size ≤ (pool.block offset).size}

def Smallest (pool : Pool) (size : Nat) : Set Nat :=
  {offset ∈ Sufficient pool size |
    ∀ other ∈ Sufficient pool size, (pool.block offset).size ≤ (pool.block other).size}

def Largest (pool : Pool) : Set Nat :=
  {offset | IsFreeBlock pool offset ∧
    ∀ other, IsFreeBlock pool other → (pool.block other).size ≤ (pool.block offset).size}

def preferred (pool : Pool) (size : Nat) : AllocationStrategy → Set Nat
  | .firstFit => Sufficient pool size
  | .bestFit => Smallest pool size
  | .worstFit => Largest pool

section

variable {pool : Pool} {regions : List Region} (tiles : Tiles pool regions)
include tiles

variable {offset size : Nat}

theorem isFreeBlock_iff :
    IsFreeBlock pool offset ↔ offset ∈ offsets regions ∧ (pool.block offset).isFree := by
  simp [IsFreeBlock, tiles.blockOffsets_eq]

theorem mem_sufficient_iff :
    offset ∈ Sufficient pool size ↔ offset ∈ offsets regions ∧ pool.fits size offset := by
  simp [Sufficient, isFreeBlock_iff tiles, Pool.fits, and_assoc]

theorem size_lt_memorySize (member : offset ∈ offsets regions) :
    (pool.block offset).size < memorySize := by
  obtain ⟨placed, isPlaced, rfl⟩ := List.mem_map.mp member
  have within := within_of_mem_place isPlaced
  rw [tiles.extent_eq, Region.span] at within
  rw [(tiles.represents.header_of_mem isPlaced).1]
  simp only [sizeofBlock] at within
  omega

theorem eligible_iff (member : offset ∈ offsets regions) (strategy : AllocationStrategy) :
    eligible pool size strategy offset ↔ pool.fits size offset ∧
      (strategy = .worstFit → 0 < (pool.block offset).size) := by
  have small := size_lt_memorySize tiles member
  cases strategy with
  | firstFit | worstFit => simp [eligible]
  | bestFit =>
    have below : (pool.block offset).size < memorySize + 1 := by omega
    simp [eligible, below]

theorem mem_smallest_iff : offset ∈ Smallest pool size ↔
      offset ∈ offsets regions ∧ eligible pool size .bestFit offset ∧
        ∀ other ∈ offsets regions, eligible pool size .bestFit other →
          rank pool .bestFit offset ≤ rank pool .bestFit other := by
  constructor
  · rintro ⟨sufficient, least⟩
    obtain ⟨member, fits⟩ := (mem_sufficient_iff tiles).mp sufficient
    refine ⟨member, (eligible_iff tiles member .bestFit).mpr ⟨fits, nofun⟩, ?_⟩
    intro other otherMember otherEligible
    have otherFits := fits_of_eligible otherEligible
    exact Int.ofNat_le.mpr (least other ((mem_sufficient_iff tiles).mpr ⟨otherMember, otherFits⟩))
  · rintro ⟨member, isEligible, least⟩
    refine ⟨(mem_sufficient_iff tiles).mpr ⟨member, fits_of_eligible isEligible⟩, ?_⟩
    intro other sufficient
    obtain ⟨otherMember, otherFits⟩ := (mem_sufficient_iff tiles).mp sufficient
    have otherEligible := (eligible_iff tiles otherMember .bestFit).mpr ⟨otherFits, nofun⟩
    exact Int.ofNat_le.mp (least other otherMember otherEligible)

theorem mem_largest_iff {block : Nat} (member : block ∈ offsets regions)
    (isEligible : eligible pool size .worstFit block) :
    offset ∈ Largest pool ↔ offset ∈ offsets regions ∧ eligible pool size .worstFit offset ∧
        ∀ other ∈ offsets regions, eligible pool size .worstFit other →
          rank pool .worstFit offset ≤ rank pool .worstFit other := by
  have eligible_iff_size : ∀ {other}, eligible pool size .worstFit other ↔
      (pool.block other).isFree ∧ size ≤ (pool.block other).size ∧ 0 < (pool.block other).size := by
    simp [eligible, Pool.fits, and_assoc]
  obtain ⟨blockFree, blockFits, blockPositive⟩ := eligible_iff_size.mp isEligible
  constructor
  · rintro ⟨free, largest⟩
    obtain ⟨offsetMember, isFree⟩ := (isFreeBlock_iff tiles).mp free
    have atLeast := largest block ((isFreeBlock_iff tiles).mpr ⟨member, blockFree⟩)
    refine ⟨offsetMember, eligible_iff_size.mpr ⟨isFree, by omega, by omega⟩, ?_⟩
    intro other otherMember otherEligible
    have otherFree := (eligible_iff_size.mp otherEligible).1
    have smaller := largest other ((isFreeBlock_iff tiles).mpr ⟨otherMember, otherFree⟩)
    simp only [rank]
    omega
  · rintro ⟨offsetMember, offsetEligible, least⟩
    obtain ⟨isFree, fits, positive⟩ := eligible_iff_size.mp offsetEligible
    refine ⟨(isFreeBlock_iff tiles).mpr ⟨offsetMember, isFree⟩, ?_⟩
    intro other otherFree
    obtain ⟨otherMember, isOtherFree⟩ := (isFreeBlock_iff tiles).mp otherFree
    by_cases otherFits : size ≤ (pool.block other).size ∧ 0 < (pool.block other).size
    · have smaller := least other otherMember (eligible_iff_size.mpr ⟨isOtherFree, otherFits⟩)
      simp only [rank] at smaller
      omega
    · omega

theorem isLeast_preferred {block : Nat} {strategy : AllocationStrategy}
    (chosen : firstLeast (eligible pool size strategy) (rank pool strategy) (offsets regions) =
      some block) :
    IsLeast (preferred pool size strategy) block := by
  have least := isLeast_of_firstLeast (pairwise_addresses Region.span_pos 0 regions) chosen
  obtain ⟨member, isEligible, -⟩ := least.1
  suffices same : preferred pool size strategy = {candidate | candidate ∈ offsets regions ∧
      eligible pool size strategy candidate ∧ ∀ other ∈ offsets regions,
        eligible pool size strategy other →
          rank pool strategy candidate ≤ rank pool strategy other} by
    rw [same]
    exact least
  ext candidate
  cases strategy with
  | firstFit => simp [preferred, mem_sufficient_iff tiles, eligible, rank]
  | bestFit => exact mem_smallest_iff tiles
  | worstFit => exact mem_largest_iff tiles member isEligible

theorem allocateMemory_cases (size : UInt64) (strategy : AllocationStrategy) :
    allocateMemory pool size strategy = some (pool, none) ∧ (∀ block ∈ offsets regions,
          eligible pool (roundRequest size).toNat strategy block = false) ∨
      ∃ block, allocateMemory pool size strategy =
          some ((splitBlock pool block (roundRequest size).toNat).1, some (block + sizeofBlock)) ∧
        IsLeast (preferred pool (roundRequest size).toNat strategy) block ∧
        block ∈ offsets regions ∧
        eligible pool (roundRequest size).toNat strategy block := by
  have selected := selectBlock_eq_firstLeast tiles (roundRequest size).toNat strategy
  cases chosen : firstLeast (eligible pool (roundRequest size).toNat strategy)
      (rank pool strategy) (offsets regions) with
  | none =>
    refine .inl ⟨?_, firstLeast_eq_none_iff.mp chosen⟩
    simp [allocateMemory, selected, chosen]
  | some block =>
    have least := isLeast_of_firstLeast (pairwise_addresses Region.span_pos 0 regions) chosen
    refine .inr ⟨block, ?_, isLeast_preferred tiles chosen, least.1.1, least.1.2.1⟩
    simp [allocateMemory, selected, chosen]

end

theorem splitBlock_isFree (pool : Pool) (block size : Nat) :
    ((splitBlock pool block size).1.block block).isFree = false := by
  simp only [splitBlock]
  split <;> simp [Pool.setBlock]

/-- An allocation takes the lowest of the blocks that its strategy prefers. -/
theorem allocation_takes_lowest_preferred (pool : Pool) (calls : List Call) (client : Client)
    (reached : Reaches step (start pool) calls client) (size : UInt64)
    (strategy : AllocationStrategy) (next : Pool) (ptr : Nat)
    (returned : allocateMemory client.pool size strategy = some (next, some ptr)) :
    ∃ block, ptr = block + sizeofBlock ∧
      IsLeast (preferred client.pool (roundRequest size).toNat strategy) block ∧
        (next.block block).isFree = false := by
  obtain ⟨regions, invariant⟩ := exists_invariant_of_reaches reached
  rcases allocateMemory_cases invariant.tiles size strategy with
    ⟨refused, -⟩ | ⟨block, granted, isLeast, -⟩
  · simp [refused] at returned
  · rw [granted, some.injEq, Prod.mk.injEq, some.injEq] at returned
    obtain ⟨rfl, rfl⟩ := returned
    exact ⟨block, rfl, isLeast, splitBlock_isFree _ _ _⟩

theorem worst_fit_takes_last_block : ∃ client, Reaches step (start staticPool)
        [.allocate 100 .firstFit, .allocate 200 .firstFit, .free (some 24)] client ∧
      ∃ block, 392 = block + sizeofBlock ∧
        IsLeast (preferred client.pool (roundRequest 50).toNat .worstFit) block := by
  have reached : Reaches step (start staticPool)
      [.allocate 100 .firstFit, .allocate 200 .firstFit, .free (some 24)] _ := ⟨_, rfl⟩
  obtain ⟨block, isBlock, isLeast, -⟩ :=
    allocation_takes_lowest_preferred _ _ _ reached 50 .worstFit _ 392 rfl
  exact ⟨_, reached, block, isBlock, isLeast⟩

def Accepts (pool : Pool) (size : UInt64) (strategy : AllocationStrategy) : Prop :=
  ∃ next ptr, allocateMemory pool size strategy = some (next, some ptr)

def Refuses (pool : Pool) (size : UInt64) (strategy : AllocationStrategy) : Prop :=
  ∃ next, allocateMemory pool size strategy = some (next, none)

section

variable {pool : Pool} {regions : List Region} (tiles : Tiles pool regions) {size : UInt64}
  {strategy : AllocationStrategy}
include tiles

theorem accepts_iff : Accepts pool size strategy ↔ ∃ block ∈ offsets regions,
      eligible pool (roundRequest size).toNat strategy block := by
  rcases allocateMemory_cases tiles size strategy with
    ⟨refused, noneEligible⟩ | ⟨block, granted, -, member, isEligible⟩
  · refine iff_of_false (by simp [Accepts, refused]) ?_
    rintro ⟨block, member, isEligible⟩
    exact Bool.false_ne_true ((noneEligible block member).symm.trans isEligible)
  · exact iff_of_true ⟨_, _, granted⟩ ⟨block, member, isEligible⟩

theorem refuses_iff : Refuses pool size strategy ↔ ¬ Accepts pool size strategy := by
  rcases allocateMemory_cases tiles size strategy with
    ⟨refused, -⟩ | ⟨block, granted, -⟩
  · exact iff_of_true ⟨pool, refused⟩ (by simp [Accepts, refused])
  · refine iff_of_false (by simp [Refuses, granted]) (not_not_intro ⟨_, _, granted⟩)

theorem accepts_iff_of_ne_worstFit (notWorst : strategy ≠ .worstFit) :
    Accepts pool size strategy ↔ ∃ block, block ∈ Sufficient pool (roundRequest size).toNat := by
  simp only [accepts_iff tiles, mem_sufficient_iff tiles]
  refine exists_congr fun block => and_congr_right fun member => ?_
  simp [eligible_iff tiles member, notWorst]

theorem accepts_worstFit_iff :
    Accepts pool size .worstFit ↔ ∃ block ∈ Sufficient pool (roundRequest size).toNat,
      0 < (pool.block block).size := by
  simp only [accepts_iff tiles, mem_sufficient_iff tiles, and_assoc]
  refine exists_congr fun block => and_congr_right fun member => ?_
  simp [eligible_iff tiles member]

end

/-- The strategies agree on success, unless a request rounds to 0 and all free blocks are empty. -/
theorem strategies_agree_iff (pool : Pool) (calls : List Call) (client : Client)
    (reached : Reaches step (start pool) calls client) (size : UInt64) :
    ((∀ strategy, Refuses client.pool size strategy) ∨
        ∀ strategy, Accepts client.pool size strategy) ↔
      (roundRequest size = 0 → (∃ block, IsFreeBlock client.pool block) →
        ∃ block, IsFreeBlock client.pool block ∧ 0 < (client.pool.block block).size) := by
  obtain ⟨regions, invariant⟩ := exists_invariant_of_reaches reached
  have tiles := invariant.tiles
  constructor
  · rintro agree isZero ⟨free, isFree⟩
    have sufficient : free ∈ Sufficient client.pool (roundRequest size).toNat :=
      ⟨isFree, by simp [isZero]⟩
    have accepted : Accepts client.pool size .firstFit :=
      (accepts_iff_of_ne_worstFit tiles (by decide)).mpr ⟨free, sufficient⟩
    rcases agree with allRefuse | allAccept
    · exact absurd accepted ((refuses_iff tiles).mp (allRefuse .firstFit))
    · obtain ⟨block, ⟨blockFree, -⟩, positive⟩ :=
        (accepts_worstFit_iff tiles).mp (allAccept .worstFit)
      exact ⟨block, blockFree, positive⟩
  · intro notOnlyEmpty
    by_cases served : ∃ block, block ∈ Sufficient client.pool (roundRequest size).toNat
    · have notEmpty : ∃ block ∈ Sufficient client.pool (roundRequest size).toNat,
          0 < (client.pool.block block).size := by
        by_cases isZero : roundRequest size = 0
        · obtain ⟨block, blockFree, -⟩ := served
          obtain ⟨large, isFree, positive⟩ := notOnlyEmpty isZero ⟨block, blockFree⟩
          exact ⟨large, ⟨isFree, by simp [isZero]⟩, positive⟩
        · obtain ⟨block, sufficient⟩ := served
          have requested : 0 < (roundRequest size).toNat := by
            rw [Nat.pos_iff_ne_zero]
            exact fun same => isZero (UInt64.toNat_inj.mp same)
          exact ⟨block, sufficient, requested.trans_le sufficient.2⟩
      refine .inr fun strategy => ?_
      by_cases isWorst : strategy = .worstFit
      · rw [isWorst]
        exact (accepts_worstFit_iff tiles).mpr notEmpty
      · exact (accepts_iff_of_ne_worstFit tiles isWorst).mpr served
    · refine .inl fun strategy => (refuses_iff tiles).mpr fun accepted => served ?_
      by_cases isWorst : strategy = .worstFit
      · rw [isWorst, accepts_worstFit_iff tiles] at accepted
        obtain ⟨block, sufficient, -⟩ := accepted
        exact ⟨block, sufficient⟩
      · exact (accepts_iff_of_ne_worstFit tiles isWorst).mp accepted

theorem strategies_agree_on_hundred_bytes :
    (∀ strategy, Refuses (start staticPool).pool 100 strategy) ∨
      ∀ strategy, Accepts (start staticPool).pool 100 strategy := by
  have reached : Reaches step (start staticPool) [] (start staticPool) := reaches_nil.mpr rfl
  refine (strategies_agree_iff _ _ _ reached 100).mpr fun isZero => ?_
  exact absurd isZero (by decide)

theorem worst_fit_refuses_empty_block : ∃ client, Reaches step (start staticPool)
        [.allocate 0 .firstFit, .allocate 976 .firstFit, .free (some 24)] client ∧
      Accepts client.pool 0 .firstFit ∧ Refuses client.pool 0 .worstFit :=
  ⟨_, ⟨_, rfl⟩, ⟨_, _, rfl⟩, ⟨_, rfl⟩⟩

end BitsAndBytes.MemAlloc
