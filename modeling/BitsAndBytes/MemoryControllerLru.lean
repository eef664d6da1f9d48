import BitsAndBytes.MemoryControllerRefinement
import BitsAndBytes.SelectionSort

/-! # Recency of cache lines -/

namespace BitsAndBytes.MemoryController

open OperationRuns FlatMemory SelectionSort List Function

structure Access where
  address : Fin memorySize
  mode : AccessMode
  data : UInt8
  env : Environment

def Access.tag (access : Access) : Nat :=
  access.address / cacheLineSize

def Access.cacheLine (access : Access) : Nat :=
  access.address / cacheLineSize % numCacheLines

def accessStep (mc : Controller) (access : Access) : Option (Controller × Bool) :=
  (memoryControllerAccess mc access.address access.mode access.data access.env).map fun result =>
    (result.1, (findLine mc access.cacheLine access.tag).isSome)

def recorded (entry : Access × Bool) : Option (Nat × (Access × Bool)) :=
  some (entry.1.tag, entry)

def latestAccess (trace : List (Access × Bool)) : Nat → Option (Access × Bool) :=
  latestWrite recorded trace

def stamp (entry : Access × Bool) : Int :=
  if entry.2 then entry.1.env.clock else entry.1.env.lastUsed

variable {trace : List (Access × Bool)} {mc next : Controller} {way oldest : Nat} {line : CacheLine}
  {byte : UInt8} {hits : List Bool}

theorem latestAccess_append (trace : List (Access × Bool)) (entry : Access × Bool) :
    latestAccess (trace ++ [entry]) = update (latestAccess trace) entry.1.tag (some entry) := by
  have record : recorded entry = some (entry.1.tag, entry) := rfl
  exact latestWrite_concat_of_some record trace

variable {entry other : Access × Bool} {cacheLine first second : Nat} {access : Access} {hit : Bool}
  {accesses : List Access}

theorem mem_of_latestAccess {tag : Nat} (latest : latestAccess trace tag = some entry) :
    entry ∈ trace ∧ entry.1.tag = tag := by
  obtain ⟨found, member, same⟩ := exists_of_latestWrite latest
  rw [recorded, Option.some.injEq, Prod.mk.injEq] at same
  rw [← same.1, ← same.2]
  exact ⟨member, rfl⟩

/-- The access leaves this line, with its stamp, in this way. -/
structure Touches (mc : Controller) (access : Access) (hit : Bool) (next : Controller)
    (way : Nat) (line : CacheLine) : Prop where
  way_lt : way < maxCacheSets
  cache : next.cache = (mc.withLine access.cacheLine way (some line)).cache
  policy : next.replacementPolicy = mc.replacementPolicy
  tag : line.tag = access.tag
  lastUsed : line.lastUsed = stamp (access, hit)
  alone : ∀ {other held}, other ≠ way → mc.cache access.cacheLine other = some held →
    held.tag ≠ access.tag

@[simp]
theorem accessLine_tag (line : CacheLine) (offset : Nat) (mode : AccessMode) (data : UInt8) :
    (accessLine line offset mode data).1.tag = line.tag := by
  cases mode <;> rfl

@[simp]
theorem accessLine_lastUsed (line : CacheLine) (offset : Nat) (mode : AccessMode)
    (data : UInt8) : (accessLine line offset mode data).1.lastUsed = line.lastUsed := by
  cases mode <;> rfl

theorem evictLine_eq_some {freed : Controller} {env : Environment}
    (evicted : evictLine mc cacheLine env = some (way, freed)) :
    way = victimWay mc cacheLine env ∧ freed.cache = mc.cache ∧
      freed.replacementPolicy = mc.replacementPolicy := by
  have reseeded : (reseed mc).cache = mc.cache ∧
      (reseed mc).replacementPolicy = mc.replacementPolicy := by
    rw [reseed]
    split <;> exact ⟨rfl, rfl⟩
  rw [evictLine] at evicted
  split at evicted
  · split at evicted
    · obtain ⟨written, isWritten, ⟨⟩⟩ := Option.map_eq_some_iff.mp evicted
      rw [writeBack, Option.ite_none_right_eq_some] at isWritten
      obtain ⟨-, ⟨⟩⟩ := isWritten
      exact ⟨rfl, reseeded⟩
    · cases evicted
      exact ⟨rfl, reseeded⟩
  · cases evicted

theorem touches_of_hit (placed : Placed mc)
    (found : findLine mc access.cacheLine access.tag = some (way, line))
    (accessEq : memoryControllerAccess mc access.address access.mode access.data access.env =
      some (next, byte)) : ∃ touched, Touches mc access true next way touched := by
  obtain ⟨stored, sameTag⟩ := findLine_eq_some found
  rw [Access.cacheLine, Access.tag] at found
  simp only [memoryControllerAccess, found, Option.some.injEq, Prod.mk.injEq] at accessEq
  obtain ⟨rfl, -⟩ := accessEq
  refine ⟨_, placed.way_lt stored, rfl, rfl, ?_, ?_, ?_⟩
  · rw [accessLine_tag]
    exact sameTag
  · rw [accessLine_lastUsed]
    rfl
  · intro other held otherNe heldStored heldTag
    exact otherNe (placed.distinct heldStored stored (heldTag.trans sameTag.symm))

theorem touches_of_miss (placed : Placed mc)
    (missed : findLine mc access.cacheLine access.tag = none)
    (accessEq : memoryControllerAccess mc access.address access.mode access.data access.env =
      some (next, byte)) : ∃ way touched, Touches mc access false next way touched := by
  have absent : ∀ {other held}, mc.cache access.cacheLine other = some held →
      held.tag ≠ access.tag := by
    intro other held heldStored
    exact findLine_eq_none missed (placed.way_lt heldStored) heldStored
  have filled : ∀ {freed : Controller} {way : Nat}, way < maxCacheSets →
      freed.cache = mc.cache → freed.replacementPolicy = mc.replacementPolicy →
        Touches mc access false (freed.withLine access.cacheLine way
            (some (accessLine (newEntry mc access.address access.env)
              (access.address % cacheLineSize) access.mode access.data).1)) way
          (accessLine (newEntry mc access.address access.env)
            (access.address % cacheLineSize) access.mode access.data).1 := by
    intro freed way wayLt sameCache samePolicy
    refine ⟨wayLt, ?_, samePolicy, ?_, ?_, fun _ => absent⟩
    · simp only [Controller.withLine, sameCache]
    · rw [accessLine_tag]
      rfl
    · rw [accessLine_lastUsed]
      rfl
  rw [Access.cacheLine, Access.tag] at missed
  simp only [memoryControllerAccess, missed] at accessEq
  split at accessEq
  · rename_i way empty
    obtain ⟨rfl, -⟩ := accessEq
    exact ⟨way, _, filled (emptySlot_eq_some empty).1 rfl rfl⟩
  · obtain ⟨⟨way, freed⟩, evicted, freedEq⟩ := Option.map_eq_some_iff.mp accessEq
    obtain ⟨rfl, -⟩ := freedEq
    obtain ⟨rfl, sameCache, samePolicy⟩ := evictLine_eq_some evicted
    exact ⟨_, _, filled (victimWay_lt mc _ _) sameCache samePolicy⟩

theorem exists_touches (placed : Placed mc) (stepEq : accessStep mc access = some (next, hit)) :
    ∃ way line, Touches mc access hit next way line := by
  obtain ⟨⟨result, byte⟩, accessEq, resultEq⟩ := Option.map_eq_some_iff.mp stepEq
  obtain ⟨rfl, rfl⟩ := resultEq
  cases found : findLine mc access.cacheLine access.tag with
  | some hitLine => exact ⟨hitLine.1, touches_of_hit placed found accessEq⟩
  | none => exact touches_of_miss placed found accessEq

/-- `last_used` of each line is the stamp of the latest access to it. -/
structure Stamped (mc : Controller) (trace : List (Access × Bool)) : Prop where
  policy : mc.replacementPolicy = .lru
  placed : Placed mc
  stamped : ∀ {cacheLine way line}, mc.cache cacheLine way = some line →
    ∃ entry, latestAccess trace line.tag = some entry ∧ line.lastUsed = stamp entry

theorem stamped_new (mainMemory : Nat → UInt8) (time : Nat) :
    Stamped (memoryControllerNew mainMemory time) [] := by
  refine ⟨rfl, ⟨?_, ?_, ?_⟩, ?_⟩ <;> simp [memoryControllerNew]

theorem Touches.tag_ne (touches : Touches mc access hit next way line) (placed : Placed mc)
    {otherLine otherWay : Nat} {held : CacheLine}
    (different : ¬ (otherLine = access.cacheLine ∧ otherWay = way))
    (stored : mc.cache otherLine otherWay = some held) : held.tag ≠ access.tag := by
  intro same
  have index := placed.index_of_tag stored
  rw [same] at index
  subst index
  exact touches.alone (fun sameWay => different ⟨rfl, sameWay⟩) stored same

theorem Placed.touched (placed : Placed mc) (touches : Touches mc access hit next way line) :
    Placed next := by
  have index : line.tag % numCacheLines = access.cacheLine := by
    rw [touches.tag]
    rfl
  have put : Placed (mc.withLine access.cacheLine way (some line)) := by
    apply placed.withLine touches.way_lt index
    intro otherLine otherWay held different stored
    rw [touches.tag]
    exact touches.tag_ne placed different stored
  have sameCache := touches.cache
  constructor
  · rw [sameCache]
    exact put.way_lt
  · rw [sameCache]
    exact put.index_of_tag
  · rw [sameCache]
    exact put.distinct

theorem Stamped.step (inv : Stamped mc trace) (stepEq : accessStep mc access = some (next, hit)) :
    Stamped next (trace ++ [(access, hit)]) := by
  obtain ⟨way, line, touches⟩ := exists_touches inv.placed stepEq
  refine ⟨touches.policy.trans inv.policy, inv.placed.touched touches, ?_⟩
  intro otherLine otherWay held stored
  rw [touches.cache] at stored
  rw [latestAccess_append]
  rcases cases_of_withLine stored with ⟨-, -, isLine⟩ | ⟨different, before⟩
  · cases isLine
    rw [touches.tag, update_self]
    exact ⟨_, rfl, touches.lastUsed⟩
  · rw [update_of_ne (touches.tag_ne inv.placed different before)]
    exact inv.stamped before

theorem Stamped.run {mainMemory : Nat → UInt8} {time : Nat}
    (runEq : run accessStep (memoryControllerNew mainMemory time) accesses = some (mc, hits)) :
    Stamped mc (accesses.zip hits) := by
  have traced := run_traced Stamped (fun inv stepEq => inv.step stepEq) runEq
    (stamped_new mainMemory time)
  rwa [nil_append] at traced

theorem isLeast_victimWay (policy : mc.replacementPolicy = .lru) (cacheLine : Nat)
    (env : Environment) :
    IsLeast {way | way < maxCacheSets ∧ ∀ other < maxCacheSets,
      lastUsedIn mc cacheLine way ≤ lastUsedIn mc cacheLine other}
        (victimWay mc cacheLine env) := by
  rw [victimWay, policy]
  exact isLeast_scan (lastUsedIn mc cacheLine) 3

theorem victimWay_eq_iff (policy : mc.replacementPolicy = .lru) (cacheLine : Nat)
    (env : Environment) (wayLt : way < maxCacheSets) :
    victimWay mc cacheLine env = way ↔ ∀ other < maxCacheSets, other ≠ way →
      lastUsedIn mc cacheLine way < lastUsedIn mc cacheLine other ∨
        lastUsedIn mc cacheLine way = lastUsedIn mc cacheLine other ∧ way < other := by
  obtain ⟨⟨victimLt, least⟩, lowest⟩ := isLeast_victimWay policy cacheLine env
  constructor
  · rintro rfl other otherLt different
    rcases (least other otherLt).lt_or_eq with less | equal
    · exact .inl less
    · have alsoLeast := lowest ⟨otherLt, fun third thirdLt => equal ▸ least third thirdLt⟩
      exact .inr ⟨equal, lt_of_le_of_ne alsoLeast different.symm⟩
  · intro precedes
    by_contra different
    rcases precedes _ victimLt different with less | ⟨equal, lower⟩
    · exact less.not_ge (least way wayLt)
    · exact lower.not_ge (lowest ⟨wayLt, fun third thirdLt => equal ▸ least third thirdLt⟩)

structure MissesFullSet (mc : Controller) (access : Access) : Prop where
  missed : findLine mc access.cacheLine access.tag = none
  full : emptySlot mc access.cacheLine = none

def latestIn (trace : List (Access × Bool)) (mc : Controller) (cacheLine way : Nat) :
    Option (Access × Bool) :=
  (mc.cache cacheLine way).bind fun line => latestAccess trace line.tag

/-- The line whose latest access is the longest ago. -/
def IsOldest (trace : List (Access × Bool)) (mc : Controller) (cacheLine way : Nat) : Prop :=
  way < maxCacheSets ∧ ∃ entry, latestIn trace mc cacheLine way = some entry ∧
    ∀ otherWay < maxCacheSets, ∀ other, latestIn trace mc cacheLine otherWay = some other →
      entry.1.env.clock ≤ other.1.env.clock

def Precedes (way : Nat) (entry : Access × Bool) (otherWay : Nat) (other : Access × Bool) :
    Prop :=
  stamp entry < stamp other ∨ stamp entry = stamp other ∧ way < otherWay

/-- Where the oldest line or another one was filled and not used since, the stamps of the two
are in order. -/
def LeftoversInOrder (trace : List (Access × Bool)) (mc : Controller) (cacheLine : Nat) :
    Prop :=
  ∀ ⦃oldest⦄, IsOldest trace mc cacheLine oldest → ∀ ⦃entry way other⦄,
    latestIn trace mc cacheLine oldest = some entry → way ≠ oldest →
      latestIn trace mc cacheLine way = some other → entry.2 = false ∨ other.2 = false →
        Precedes oldest entry way other

theorem latestIn_eq_some (latest : latestIn trace mc cacheLine way = some entry) :
    ∃ line, mc.cache cacheLine way = some line ∧ entry ∈ trace ∧ entry.1.tag = line.tag := by
  obtain ⟨line, stored, isLatest⟩ := Option.bind_eq_some_iff.mp latest
  exact ⟨line, stored, mem_of_latestAccess isLatest⟩

theorem Stamped.lastUsedIn_eq (inv : Stamped mc trace)
    (latest : latestIn trace mc cacheLine way = some entry) :
    lastUsedIn mc cacheLine way = stamp entry := by
  obtain ⟨line, stored, isLatest⟩ := Option.bind_eq_some_iff.mp latest
  obtain ⟨found, foundLatest, lastUsed⟩ := inv.stamped stored
  rw [isLatest, Option.some.injEq] at foundLatest
  subst foundLatest
  rw [lastUsedIn, stored]
  exact lastUsed

theorem Stamped.exists_latestIn (inv : Stamped mc trace) (full : emptySlot mc cacheLine = none)
    (wayLt : way < maxCacheSets) : ∃ entry, latestIn trace mc cacheLine way = some entry := by
  obtain ⟨line, stored⟩ := emptySlot_eq_none full wayLt
  obtain ⟨entry, latest, -⟩ := inv.stamped stored
  refine ⟨entry, ?_⟩
  rw [latestIn, stored]
  exact latest

theorem nodup_clocks {start : Controller} (runEq : run accessStep start accesses = some (mc, hits))
    (increasing : accesses.Pairwise fun first second => first.env.clock < second.env.clock) :
    ((accesses.zip hits).map fun entry => entry.1.env.clock).Nodup := by
  have clocks : (accesses.map fun access => access.env.clock).Nodup := by
    rw [List.Nodup, pairwise_map]
    exact increasing.imp ne_of_lt
  rw [← map_fst_zip (length_of_run runEq).le, map_map] at clocks
  exact clocks

section

variable (inv : Stamped mc trace)
  (distinctClocks : (trace.map fun entry => entry.1.env.clock).Nodup) {cacheLine : Nat}
include inv distinctClocks

theorem Stamped.eq_of_clock_eq (latest : latestIn trace mc cacheLine first = some entry)
    (otherLatest : latestIn trace mc cacheLine second = some other)
    (sameClock : entry.1.env.clock = other.1.env.clock) : first = second := by
  obtain ⟨line, stored, member, tag⟩ := latestIn_eq_some latest
  obtain ⟨otherLine, otherStored, otherMember, otherTag⟩ := latestIn_eq_some otherLatest
  obtain rfl := inj_on_of_nodup_map distinctClocks member otherMember sameClock
  exact inv.placed.distinct stored otherStored (tag.symm.trans otherTag)

theorem IsOldest.clock_lt (isOldest : IsOldest trace mc cacheLine oldest)
    (latest : latestIn trace mc cacheLine oldest = some entry) (different : way ≠ oldest)
    (otherLatest : latestIn trace mc cacheLine way = some other) :
    entry.1.env.clock < other.1.env.clock := by
  obtain ⟨-, first, firstLatest, least⟩ := isOldest
  rw [latest, Option.some.injEq] at firstLatest
  subst firstLatest
  obtain ⟨line, stored, -⟩ := latestIn_eq_some otherLatest
  refine lt_of_le_of_ne (least way (inv.placed.way_lt stored) other otherLatest) ?_
  intro sameClock
  exact different (inv.eq_of_clock_eq distinctClocks otherLatest latest sameClock.symm)

theorem IsOldest.unique (isFirst : IsOldest trace mc cacheLine first)
    (isSecond : IsOldest trace mc cacheLine second) : first = second := by
  obtain ⟨-, entry, latest, -⟩ := id isFirst
  obtain ⟨-, other, otherLatest, -⟩ := id isSecond
  by_contra different
  have earlier := isFirst.clock_lt inv distinctClocks latest (Ne.symm different) otherLatest
  have later := isSecond.clock_lt inv distinctClocks otherLatest different latest
  exact earlier.asymm later

theorem LeftoversInOrder.precedes (inOrder : LeftoversInOrder trace mc cacheLine)
    (isOldest : IsOldest trace mc cacheLine oldest)
    (latest : latestIn trace mc cacheLine oldest = some entry) (different : way ≠ oldest)
    (otherLatest : latestIn trace mc cacheLine way = some other) :
    Precedes oldest entry way other := by
  by_cases fills : entry.2 = false ∨ other.2 = false
  · exact inOrder isOldest latest different otherLatest fills
  · rw [not_or, Bool.not_eq_false, Bool.not_eq_false] at fills
    refine .inl ?_
    rw [stamp, stamp, if_pos fills.1, if_pos fills.2]
    exact isOldest.clock_lt inv distinctClocks latest different otherLatest

end

theorem Stamped.exists_isOldest (inv : Stamped mc trace) (full : emptySlot mc cacheLine = none) :
    ∃ oldest, IsOldest trace mc cacheLine oldest := by
  let clockIn (way : Nat) : Int :=
    (latestIn trace mc cacheLine way).elim 0 fun entry => entry.1.env.clock
  have clockIn_of_latest : ∀ {way entry}, latestIn trace mc cacheLine way = some entry →
      clockIn way = entry.1.env.clock := by
    intro way entry latest
    simp only [clockIn, latest, Option.elim_some]
  obtain ⟨⟨oldestLt, least⟩, -⟩ := isLeast_scan clockIn 3
  obtain ⟨entry, latest⟩ := inv.exists_latestIn full oldestLt
  refine ⟨_, oldestLt, entry, latest, fun way wayLt other otherLatest => ?_⟩
  rw [← clockIn_of_latest latest, ← clockIn_of_latest otherLatest]
  exact least way wayLt

/-- A miss in a full set evicts the oldest line exactly when the leftovers are in order. -/
theorem evicts_oldest_iff (mainMemory : Nat → UInt8) (time : Nat) {accesses : List Access}
    {mc : Controller} {hits : List Bool}
    (runEq : run accessStep (memoryControllerNew mainMemory time) accesses = some (mc, hits))
    (increasing : accesses.Pairwise fun first second => first.env.clock < second.env.clock)
    {access : Access} (misses : MissesFullSet mc access) :
    (∃! oldest, IsOldest (accesses.zip hits) mc access.cacheLine oldest) ∧
      (IsOldest (accesses.zip hits) mc access.cacheLine (victimWay mc access.cacheLine access.env) ↔
        LeftoversInOrder (accesses.zip hits) mc access.cacheLine) := by
  have inv := Stamped.run runEq
  have distinctClocks := nodup_clocks runEq increasing
  obtain ⟨oldest, isOldest⟩ := inv.exists_isOldest misses.full
  refine ⟨⟨oldest, isOldest, fun other isOther =>
    isOther.unique inv distinctClocks isOldest⟩, fun victimOldest => ?_, fun inOrder => ?_⟩
  · intro way isWay entry otherWay other latest different otherLatest _
    obtain rfl := isWay.unique inv distinctClocks victimOldest
    obtain ⟨line, stored, -⟩ := latestIn_eq_some otherLatest
    have precedes := (victimWay_eq_iff inv.policy _ _ isWay.1).mp rfl otherWay
      (inv.placed.way_lt stored) different
    rwa [inv.lastUsedIn_eq latest, inv.lastUsedIn_eq otherLatest] at precedes
  · have chosen : victimWay mc access.cacheLine access.env = oldest := by
      obtain ⟨oldestLt, entry, latest, -⟩ := id isOldest
      refine (victimWay_eq_iff inv.policy _ _ oldestLt).mpr fun way wayLt different => ?_
      obtain ⟨other, otherLatest⟩ := inv.exists_latestIn misses.full wayLt
      rw [inv.lastUsedIn_eq latest, inv.lastUsedIn_eq otherLatest]
      exact inOrder.precedes inv distinctClocks isOldest latest different otherLatest
    rw [chosen]
    exact isOldest

theorem isOldest_of_latest {entries : List (Access × Bool)}
    (latest : (range maxCacheSets).map (latestIn trace mc cacheLine) = entries.map some)
    (found : entries[oldest]? = some entry)
    (least : ∀ other ∈ entries, entry.1.env.clock ≤ other.1.env.clock) :
    IsOldest trace mc cacheLine oldest := by
  have lengths : entries.length = maxCacheSets := by
    rw [← length_map some, ← latest, length_map, length_range]
  have listed : ∀ way < maxCacheSets,
      some (latestIn trace mc cacheLine way) = entries[way]?.map some := by
    intro way wayLt
    rw [← getElem?_map, ← latest, getElem?_map, getElem?_range wayLt, Option.map_some]
  have oldestLt : oldest < maxCacheSets := lengths ▸ (List.getElem?_eq_some_iff.mp found).1
  refine ⟨oldestLt, entry, ?_, fun way wayLt other otherLatest => least other ?_⟩
  · have here := listed oldest oldestLt
    rw [found, Option.map_some, Option.some.injEq] at here
    exact here
  · have here := listed way wayLt
    rw [otherLatest] at here
    obtain ⟨held, isHeld, same⟩ := Option.map_eq_some_iff.mp here.symm
    rw [Option.some.injEq] at same
    exact same ▸ mem_of_getElem? isHeld

def readAt (address : Fin memorySize) (clock : Int) : Access :=
  ⟨address, .read, 0, ⟨clock, 0, 0⟩⟩

def fourFills : List Access :=
  [readAt 64 1, readAt 65600 2, readAt 131136 3, readAt 196672 4]

theorem evicts_oldest_of_four_fills : ∃ mc hits,
    run accessStep (memoryControllerNew (fun _ => 0) 0) fourFills = some (mc, hits) ∧
      MissesFullSet mc (readAt 262208 5) ∧ LeftoversInOrder (fourFills.zip hits) mc 1 ∧
        IsOldest (fourFills.zip hits) mc 1 (victimWay mc 1 (readAt 262208 5).env) := by
  have increasing : fourFills.Pairwise fun first second => first.env.clock < second.env.clock := by
    decide
  obtain ⟨mc, runEq, misses, latest⟩ : ∃ mc,
      run accessStep (memoryControllerNew (fun _ => 0) 0) fourFills =
          some (mc, [false, false, false, false]) ∧
        MissesFullSet mc (readAt 262208 5) ∧ (range maxCacheSets).map
              (latestIn (fourFills.zip [false, false, false, false]) mc 1) =
            (fourFills.zip [false, false, false, false]).map some := ⟨_, rfl, ⟨rfl, rfl⟩, rfl⟩
  have stamps : ∀ entry ∈ fourFills.zip [false, false, false, false], stamp entry = 0 := by decide
  have inOrder : LeftoversInOrder (fourFills.zip [false, false, false, false]) mc 1 := by
    intro oldest isOldest entry way other entryLatest different otherLatest _
    obtain ⟨-, -, member, -⟩ := latestIn_eq_some entryLatest
    obtain ⟨-, -, otherMember, -⟩ := latestIn_eq_some otherLatest
    obtain rfl : oldest = 0 := isOldest.unique (Stamped.run runEq) (nodup_clocks runEq increasing)
      (isOldest_of_latest latest rfl (by decide))
    exact .inr ⟨by rw [stamps _ member, stamps _ otherMember], Nat.pos_of_ne_zero different⟩
  exact ⟨mc, _, runEq, misses, inOrder,
    (evicts_oldest_iff _ _ runEq increasing misses).2.mpr inOrder⟩

def hitBeforeFills : List Access :=
  [readAt 64 1, readAt 64 2, readAt 65600 3, readAt 131136 4, readAt 196672 5]

theorem evicts_line_filled_later : ∃ mc hits,
    run accessStep (memoryControllerNew (fun _ => 0) 0) hitBeforeFills = some (mc, hits) ∧
      hitBeforeFills.Pairwise (fun first second => first.env.clock < second.env.clock) ∧
        MissesFullSet mc (readAt 262208 6) ∧ IsOldest (hitBeforeFills.zip hits) mc 1 0 ∧
          victimWay mc 1 (readAt 262208 6).env = 1 ∧
            ¬ IsOldest (hitBeforeFills.zip hits) mc 1 1 := by
  refine ⟨_, [false, true, false, false, false], rfl, by decide, ⟨rfl, rfl⟩, ?_, rfl, ?_⟩
  · have entries : _ = ([(readAt 64 2, true), (readAt 65600 3, false),
      (readAt 131136 4, false), (readAt 196672 5, false)] : List (Access × Bool)).map some := rfl
    exact isOldest_of_latest entries rfl (by decide)
  · rintro ⟨-, entry, latest, least⟩
    obtain rfl : (readAt 65600 3, false) = entry := Option.some.inj latest
    exact absurd (least 0 (by decide) (readAt 64 2, true) rfl) (by decide)

end BitsAndBytes.MemoryController
