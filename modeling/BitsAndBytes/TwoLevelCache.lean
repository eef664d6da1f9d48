import BitsAndBytes.ByteMemory
import BitsAndBytes.OperationRuns

/-! # The caches of `Two-Level-Cache-System.c` -/

namespace BitsAndBytes.TwoLevelCache

open OperationRuns Option Function

def l1CacheSize : UInt32 := 64

def l2CacheSize : UInt32 := 256

def mainMemorySize : UInt32 := 8192

def blockSize : UInt32 := 8

abbrev Block := Fin 8 → UInt8

structure CacheLine where
  tag : UInt32
  data : Block
  valid : Bool

structure State where
  l1Cache : Nat → CacheLine
  l2Cache : Nat → CacheLine
  l1Hits : UInt32
  l2Hits : UInt32
  l2Misses : UInt32

def calculateTag (address cacheSize : UInt32) : UInt32 :=
  address / blockSize / cacheSize

def calculateIndex (address cacheSize : UInt32) : UInt32 :=
  address / blockSize % cacheSize

def checkCache (cache : Nat → CacheLine) (cacheSize address : UInt32) : Option Block :=
  let line := cache (calculateIndex address cacheSize).toNat
  if line.valid ∧ line.tag = calculateTag address cacheSize then
    some line.data
  else
    none

def updateCache (cache : Nat → CacheLine) (cacheSize address : UInt32) (data : Block) :
    Nat → CacheLine :=
  update cache (calculateIndex address cacheSize).toNat
    ⟨calculateTag address cacheSize, data, true⟩

def blockStart (address : UInt32) : UInt32 :=
  address &&& ~~~(blockSize - 1)

def copyBlock (memory : Nat → UInt8) (start : Nat) : Block :=
  fun offset => memory (start + offset)

inductive Served
  | l1Cache (data : Block)
  | l2Cache (data : Block)
  | mainMemory (data : Block)
  | outOfBounds

def Served.block : Served → Option Block
  | l1Cache data | l2Cache data | mainMemory data => some data
  | outOfBounds => none

def memoryAccess (memory : Nat → UInt8) (state : State) (address : UInt32) : State × Served :=
  match checkCache state.l1Cache l1CacheSize address with
  | some data => ({ state with l1Hits := state.l1Hits + 1 }, .l1Cache data)
  | none =>
    match checkCache state.l2Cache l2CacheSize address with
    | some data =>
      ({ state with
          l2Hits := state.l2Hits + 1
          l1Cache := updateCache state.l1Cache l1CacheSize address data },
        .l2Cache data)
    | none =>
      if blockStart address + blockSize ≤ mainMemorySize then
        let data := copyBlock memory (blockStart address).toNat
        ({ state with
            l2Misses := state.l2Misses + 1
            l2Cache := updateCache state.l2Cache l2CacheSize address data
            l1Cache := updateCache state.l1Cache l1CacheSize address data },
          .mainMemory data)
      else
        ({ state with l2Misses := state.l2Misses + 1 }, .outOfBounds)

def step (memory : Nat → UInt8) (state : State) (address : UInt32) : Option (State × Served) :=
  some (memoryAccess memory state address)

def invalidate (cache : Nat → CacheLine) (cacheSize : UInt32) : Nat → CacheLine :=
  fun index =>
    if index < cacheSize.toNat then { cache index with valid := false } else cache index

def start (state : State) : State :=
  { state with
    l1Cache := invalidate state.l1Cache l1CacheSize
    l2Cache := invalidate state.l2Cache l2CacheSize }

def blockOf (address : UInt32) : Nat :=
  address.toNat / 8

def memoryBlock (memory : Nat → UInt8) (block : Nat) : Block :=
  copyBlock memory (block * 8)

def InMemory (block : Nat) : Prop :=
  (block + 1) * 8 ≤ mainMemorySize.toNat

def Holds (cache : Nat → CacheLine) (cacheSize : UInt32) (block : Nat) (data : Block) :
    Prop :=
  let line := cache (block % cacheSize.toNat)
  line.valid ∧ line.tag.toNat = block / cacheSize.toNat ∧ line.data = data

theorem toNat_calculateTag (address cacheSize : UInt32) :
    (calculateTag address cacheSize).toNat = blockOf address / cacheSize.toNat := by
  rfl

theorem toNat_calculateIndex (address cacheSize : UInt32) :
    (calculateIndex address cacheSize).toNat = blockOf address % cacheSize.toNat := by
  rfl

theorem toNat_blockStart (address : UInt32) : (blockStart address).toNat = blockOf address * 8 := by
  exact ByteMemory.and_mask 29 3 address.toNat_lt

section

variable {cache : Nat → CacheLine} {cacheSize address : UInt32} {block : Nat} {data other : Block}

theorem checkCache_eq_some : checkCache cache cacheSize address = some data ↔
      Holds cache cacheSize (blockOf address) data := by
  simp only [checkCache, Holds, ite_none_right_eq_some, some.injEq, and_assoc,
    ← UInt32.toNat_inj, toNat_calculateTag, toNat_calculateIndex]

theorem checkCache_eq_none : checkCache cache cacheSize address = none ↔
      ∀ data, ¬ Holds cache cacheSize (blockOf address) data := by
  simp only [eq_none_iff_forall_ne_some, ne_eq, checkCache_eq_some]

theorem holds_updateCache : Holds (updateCache cache cacheSize address data) cacheSize block other ↔
      block = blockOf address ∧ other = data ∨
        block % cacheSize.toNat ≠ blockOf address % cacheSize.toNat ∧
          Holds cache cacheSize block other := by
  rw [updateCache, toNat_calculateIndex]
  by_cases sameLine : block % cacheSize.toNat = blockOf address % cacheSize.toNat
  · rw [Holds, sameLine, update_self, toNat_calculateTag]
    constructor
    · rintro ⟨-, sameTag, rfl⟩
      refine .inl ⟨?_, rfl⟩
      rw [← Nat.div_add_mod block, ← sameTag, sameLine, Nat.div_add_mod]
    · rintro (⟨rfl, rfl⟩ | ⟨otherLine, -⟩)
      · exact ⟨rfl, rfl, rfl⟩
      · exact absurd rfl otherLine
  · rw [Holds, update_of_ne sameLine]
    constructor
    · exact fun holds => .inr ⟨sameLine, holds⟩
    · rintro (⟨rfl, -⟩ | ⟨-, holds⟩)
      · exact absurd rfl sameLine
      · exact holds

theorem not_holds_invalidate (positive : 0 < cacheSize.toNat) :
    ¬ Holds (invalidate cache cacheSize) cacheSize block data := by
  rintro ⟨valid, -⟩
  rw [invalidate, if_pos (Nat.mod_lt block positive)] at valid
  cases valid

theorem holds_of_valid {index : Nat} (indexLt : index < cacheSize.toNat)
    (valid : (cache index).valid) :
    Holds cache cacheSize ((cache index).tag.toNat * cacheSize.toNat + index)
      (cache index).data := by
  have line : ((cache index).tag.toNat * cacheSize.toNat + index) % cacheSize.toNat = index := by
    rw [Nat.mul_add_mod_self_right, Nat.mod_eq_of_lt indexLt]
  have tag : ((cache index).tag.toNat * cacheSize.toNat + index) / cacheSize.toNat =
      (cache index).tag.toNat := by
    rw [Nat.mul_comm, Nat.mul_add_div (Nat.zero_lt_of_lt indexLt), Nat.div_eq_of_lt indexLt,
      Nat.add_zero]
  rw [Holds, line, tag]
  exact ⟨valid, rfl, rfl⟩

end

section

variable {memory : Nat → UInt8} {state next : State} {address : UInt32} {served : Served}

/-- What `memory_access` does: a hit in one of the caches, a load, or a rejection. -/
inductive Accesses (memory : Nat → UInt8) (state : State) (address : UInt32) :
    State → Served → Prop
  | l1Hit {data hits} (held : Holds state.l1Cache l1CacheSize (blockOf address) data) :
      Accesses memory state address { state with l1Hits := hits } (.l1Cache data)
  | l2Hit {data hits} (held : Holds state.l2Cache l2CacheSize (blockOf address) data) :
      Accesses memory state address
        { state with
          l2Hits := hits
          l1Cache := updateCache state.l1Cache l1CacheSize address data } (.l2Cache data)
  | load {misses} (fits : blockStart address + blockSize ≤ mainMemorySize) :
      Accesses memory state address
        { state with
          l2Misses := misses
          l2Cache := updateCache state.l2Cache l2CacheSize address
            (memoryBlock memory (blockOf address))
          l1Cache := updateCache state.l1Cache l1CacheSize address
            (memoryBlock memory (blockOf address)) }
        (.mainMemory (memoryBlock memory (blockOf address)))
  | reject {misses} : Accesses memory state address { state with l2Misses := misses } .outOfBounds

theorem accesses_of_step (stepEq : step memory state address = some (next, served)) :
    Accesses memory state address next served := by
  rw [step, some.injEq, memoryAccess] at stepEq
  split at stepEq
  · rename_i hit
    cases stepEq
    exact .l1Hit (checkCache_eq_some.mp hit)
  · split at stepEq
    · rename_i hit
      cases stepEq
      exact .l2Hit (checkCache_eq_some.mp hit)
    · split at stepEq
      · rename_i fits
        rw [toNat_blockStart] at stepEq
        cases stepEq
        exact .load fits
      · cases stepEq
        exact .reject

theorem inMemory_of_fits (noWrap : address < 0xFFFFFFF8)
    (fits : blockStart address + blockSize ≤ mainMemorySize) : InMemory (blockOf address) := by
  have below : address.toNat < 0xFFFFFFF8 := UInt32.lt_iff_toNat_lt.mp noWrap
  have inside := UInt32.le_iff_toNat_le.mp fits
  have size : blockSize.toNat = 8 := rfl
  rw [UInt32.toNat_add, toNat_blockStart, size] at inside
  have same : (blockOf address * 8 + 8) % 2 ^ 32 = (blockOf address + 1) * 8 := by
    simp only [blockOf]
    omega
  rwa [same] at inside

theorem fits_of_wrap (wraps : ¬ address < 0xFFFFFFF8) :
    blockStart address + blockSize ≤ mainMemorySize := by
  have above : ¬ address.toNat < 0xFFFFFFF8 := fun less =>
    wraps (UInt32.lt_iff_toNat_lt.mpr less)
  have below := address.toNat_lt
  have size : blockSize.toNat = 8 := rfl
  apply UInt32.le_iff_toNat_le.mpr
  rw [UInt32.toNat_add, toNat_blockStart, size]
  have wrapped : (blockOf address * 8 + 8) % 2 ^ 32 = 0 := by
    simp only [blockOf]
    omega
  rw [wrapped]
  exact Nat.zero_le _

/-- Cached blocks are those of the memory, and the second cache has all of the first. -/
structure Coherent (memory : Nat → UInt8) (state : State) : Prop where
  l1 : ∀ {block data}, Holds state.l1Cache l1CacheSize block data →
    InMemory block ∧ data = memoryBlock memory block
  l2 : ∀ {block data}, Holds state.l2Cache l2CacheSize block data →
    InMemory block ∧ data = memoryBlock memory block
  included : ∀ {block data}, Holds state.l1Cache l1CacheSize block data →
    Holds state.l2Cache l2CacheSize block data

theorem coherent_start (memory : Nat → UInt8) (state : State) : Coherent memory (start state) where
  l1 holds := absurd holds (not_holds_invalidate (by decide))
  l2 holds := absurd holds (not_holds_invalidate (by decide))
  included holds := absurd holds (not_holds_invalidate (by decide))

namespace Coherent

theorem holds_of_update {cache : Nat → CacheLine} {cacheSize : UInt32}
    (coherent : ∀ {block data}, Holds cache cacheSize block data →
      InMemory block ∧ data = memoryBlock memory block)
    {loaded : Block} (inMemory : InMemory (blockOf address))
    (isBlock : loaded = memoryBlock memory (blockOf address)) {block : Nat} {data : Block}
    (holds : Holds (updateCache cache cacheSize address loaded) cacheSize block data) :
    InMemory block ∧ data = memoryBlock memory block := by
  rcases holds_updateCache.mp holds with ⟨rfl, rfl⟩ | ⟨-, before⟩
  · exact ⟨inMemory, isBlock⟩
  · exact coherent before

theorem line_ne {first second : Nat}
    (otherLine : first % l1CacheSize.toNat ≠ second % l1CacheSize.toNat) :
    first % l2CacheSize.toNat ≠ second % l2CacheSize.toNat := by
  intro sameLine
  have l1Size : l1CacheSize.toNat = 64 := rfl
  have l2Size : l2CacheSize.toNat = 256 := rfl
  rw [l1Size] at otherLine
  rw [l2Size] at sameLine
  omega

theorem accesses (coherent : Coherent memory state) (noWrap : address < 0xFFFFFFF8)
    (accessed : Accesses memory state address next served) : Coherent memory next := by
  obtain ⟨l1, l2, included⟩ := coherent
  cases accessed with
  | l1Hit | reject => exact ⟨l1, l2, included⟩
  | l2Hit held =>
    obtain ⟨inMemory, isBlock⟩ := l2 held
    refine ⟨holds_of_update l1 inMemory isBlock, l2, fun holds => ?_⟩
    rcases holds_updateCache.mp holds with ⟨rfl, rfl⟩ | ⟨-, before⟩
    · exact held
    · exact included before
  | load fits =>
    have inMemory := inMemory_of_fits noWrap fits
    refine ⟨holds_of_update l1 inMemory rfl, holds_of_update l2 inMemory rfl, fun holds => ?_⟩
    rcases holds_updateCache.mp holds with ⟨rfl, rfl⟩ | ⟨otherLine, before⟩
    · exact holds_updateCache.mpr (.inl ⟨rfl, rfl⟩)
    · exact holds_updateCache.mpr (.inr ⟨line_ne otherLine, included before⟩)

end Coherent

theorem coherent_of_reaches {addresses : List UInt32} {initial : State}
    (noWrap : ∀ address ∈ addresses, address < 0xFFFFFFF8)
    (reached : Reaches (step memory) (start initial) addresses state) : Coherent memory state := by
  refine reached.guardedInvariant (Coherent memory) ?_
    (respects_of_mem (start initial) fun op member _ => noWrap op member)
    (coherent_start memory initial)
  intro state address next served coherent below stepEq
  exact coherent.accesses below (accesses_of_step stepEq)

end

def emptyCaches : State where
  l1Cache := fun _ => ⟨0, fun _ => 0, false⟩
  l2Cache := fun _ => ⟨0, fun _ => 0, false⟩
  l1Hits := 0
  l2Hits := 0
  l2Misses := 0

def mainAccesses : List UInt32 :=
  [0x100, 0x101, 0x200, 0x100]

/-- Every valid block of the first cache is in the second, with the same data. -/
theorem l1_included_in_l2 (memory : Nat → UInt8) (initial : State)
    (addresses : List UInt32) (noWrap : ∀ address ∈ addresses, address < 0xFFFFFFF8) (state : State)
    (reached : Reaches (step memory) (start initial) addresses state) :
    ∀ index < l1CacheSize.toNat, (state.l1Cache index).valid → Holds state.l2Cache l2CacheSize
        ((state.l1Cache index).tag.toNat * l1CacheSize.toNat + index)
        (state.l1Cache index).data := by
  intro index indexLt valid
  exact (coherent_of_reaches noWrap reached).included (holds_of_valid indexLt valid)

theorem main_accesses_included :
    ∃ state, Reaches (step UInt8.ofNat) (start emptyCaches) mainAccesses state ∧
      Holds state.l2Cache l2CacheSize 32 (state.l1Cache 32).data := by
  refine ⟨_, ⟨_, rfl⟩, ?_⟩
  exact l1_included_in_l2 UInt8.ofNat emptyCaches mainAccesses (by simp [mainAccesses]) _
    ⟨_, rfl⟩ 32 (by decide) rfl

/-- Nothing outside of `main_memory` is copied or cached. -/
structure StaysInside (state : State) (address : UInt32) (next : State) (served : Served) :
    Prop where
  copied : ∀ data, served = .mainMemory data → InMemory (blockOf address)
  kept : ¬ InMemory (blockOf address) →
    next.l1Cache = state.l1Cache ∧ next.l2Cache = state.l2Cache

/-- Outside of memory an access is safe exactly on an L1 hit, or on a miss in both below the top. -/
theorem stays_inside_iff (memory : Nat → UInt8) (state : State) (address : UInt32) :
    StaysInside state address (memoryAccess memory state address).1
        (memoryAccess memory state address).2 ↔
      InMemory (blockOf address) ∨
        (∃ data, Holds state.l1Cache l1CacheSize (blockOf address) data) ∨ address < 0xFFFFFFF8 ∧
            ∀ data, ¬ Holds state.l2Cache l2CacheSize (blockOf address) data := by
  by_cases inMemory : InMemory (blockOf address)
  · exact iff_of_true ⟨fun _ _ => inMemory, absurd inMemory⟩ (.inl inMemory)
  rw [or_iff_right inMemory]
  cases first : checkCache state.l1Cache l1CacheSize address with
  | some data =>
    simp only [memoryAccess, first]
    exact iff_of_true ⟨nofun, fun _ => ⟨rfl, rfl⟩⟩ (.inl ⟨data, checkCache_eq_some.mp first⟩)
  | none =>
    have missed := checkCache_eq_none.mp first
    rw [or_iff_right (not_exists.mpr missed)]
    cases second : checkCache state.l2Cache l2CacheSize address with
    | some data =>
      simp only [memoryAccess, first, second]
      refine iff_of_false (fun inside => ?_) fun absent =>
        absent.2 data (checkCache_eq_some.mp second)
      have loaded : Holds (updateCache state.l1Cache l1CacheSize address data) l1CacheSize
          (blockOf address) data := holds_updateCache.mpr (.inl ⟨rfl, rfl⟩)
      have same : updateCache state.l1Cache l1CacheSize address data = state.l1Cache :=
        (inside.kept inMemory).1
      rw [same] at loaded
      exact missed data loaded
    | none =>
      rw [and_iff_left (checkCache_eq_none.mp second)]
      by_cases noWrap : address < 0xFFFFFFF8
      · have rejected := mt (inMemory_of_fits noWrap) inMemory
        simp only [memoryAccess, first, second, if_neg rejected]
        exact iff_of_true ⟨nofun, fun _ => ⟨rfl, rfl⟩⟩ noWrap
      · simp only [memoryAccess, first, second, if_pos (fits_of_wrap noWrap)]
        exact iff_of_false (fun inside => inMemory (inside.copied _ rfl)) noWrap

theorem last_block_copied_from_outside :
    ∃ data, (memoryAccess UInt8.ofNat (start emptyCaches) 0xFFFFFFF8).2 = .mainMemory data ∧
      ¬ InMemory (blockOf 0xFFFFFFF8) ∧ ¬ StaysInside (start emptyCaches) 0xFFFFFFF8
          (memoryAccess UInt8.ofNat (start emptyCaches) 0xFFFFFFF8).1
          (memoryAccess UInt8.ofNat (start emptyCaches) 0xFFFFFFF8).2 := by
  have outside : ¬ InMemory (blockOf 0xFFFFFFF8) := by
    rw [InMemory]
    decide
  exact ⟨_, rfl, outside, fun inside => outside (inside.copied _ rfl)⟩

end BitsAndBytes.TwoLevelCache
