import BitsAndBytes.MemoryController

/-! # The cache against a flat memory -/

namespace BitsAndBytes.MemoryController

open OperationRuns FlatMemory Function List Option

variable {way offset otherLine otherWay : Nat} {mc freed : Controller} {line old : CacheLine}
  {memory : Nat → UInt8} {env : Environment}

/-- Every line is in a way of the set of its tag, and no two lines have the same tag. -/
structure Placed (mc : Controller) : Prop where
  way_lt : ∀ {cacheLine way line}, mc.cache cacheLine way = some line → way < maxCacheSets
  index_of_tag : ∀ {cacheLine way line}, mc.cache cacheLine way = some line →
    line.tag % numCacheLines = cacheLine
  distinct : ∀ {cacheLine first second line other}, mc.cache cacheLine first = some line →
      mc.cache cacheLine second = some other → line.tag = other.tag →
        first = second

/-- The lines and, where no line is dirty, the main memory hold the bytes of `memory`. -/
structure Represents (mc : Controller) (memory : Nat → UInt8) : Prop extends Placed mc where
  cached : ∀ {cacheLine way line}, mc.cache cacheLine way = some line → ∀ offset < cacheLineSize,
      line.data offset = memory (line.tag * cacheLineSize + offset)
  clean : ∀ {cacheLine way line}, mc.cache cacheLine way = some line →
    line.dirty = false → ∀ offset < cacheLineSize,
      mc.mainMemory (line.tag * cacheLineSize + offset) = memory (line.tag * cacheLineSize + offset)
  uncached : ∀ address, (∀ cacheLine way line,
      mc.cache cacheLine way = some line → line.tag ≠ address / cacheLineSize) →
    mc.mainMemory address = memory address

variable {tag cacheLine : Nat} {other : CacheLine}

theorem tag_of_offset (offsetLt : offset < cacheLineSize) :
    (tag * cacheLineSize + offset) / cacheLineSize = tag := by
  rw [Nat.add_comm, Nat.add_mul_div_right _ _ (by decide), Nat.div_eq_of_lt offsetLt, Nat.zero_add]

theorem tag_mul_add_offset (address : Nat) :
    address / cacheLineSize * cacheLineSize + address % cacheLineSize = address :=
  Nat.div_add_mod' address cacheLineSize

theorem withLine_self (mc : Controller) (cacheLine way : Nat)
    (line : Option CacheLine) : (mc.withLine cacheLine way line).cache cacheLine way = line := by
  simp [Controller.withLine]

theorem withLine_of_ne (mc : Controller) (line : Option CacheLine)
    (different : ¬ (otherLine = cacheLine ∧ otherWay = way)) :
    (mc.withLine cacheLine way line).cache otherLine otherWay = mc.cache otherLine otherWay := by
  by_cases sameLine : otherLine = cacheLine
  · subst sameLine
    have otherNe : otherWay ≠ way := fun same => different ⟨rfl, same⟩
    simp [Controller.withLine, update_of_ne otherNe]
  · simp [Controller.withLine, update_of_ne sameLine]

theorem withLine_withLine (mc : Controller) (cacheLine way : Nat)
    (first second : Option CacheLine) :
    (mc.withLine cacheLine way first).withLine cacheLine way second =
      mc.withLine cacheLine way second := by
  simp [Controller.withLine]

theorem cases_of_withLine {pointer : Option CacheLine}
    (stored : (mc.withLine cacheLine way pointer).cache otherLine otherWay = some line) :
    otherLine = cacheLine ∧ otherWay = way ∧ pointer = some line ∨
      ¬ (otherLine = cacheLine ∧ otherWay = way) ∧ mc.cache otherLine otherWay = some line := by
  by_cases same : otherLine = cacheLine ∧ otherWay = way
  · obtain ⟨rfl, rfl⟩ := same
    rw [withLine_self] at stored
    exact .inl ⟨rfl, rfl, stored⟩
  · rw [withLine_of_ne mc pointer same] at stored
    exact .inr ⟨same, stored⟩

namespace Placed

theorem eq_of_tag_eq (placed : Placed mc) (stored : mc.cache cacheLine way = some line)
    (otherStored : mc.cache otherLine otherWay = some other) (same : other.tag = line.tag) :
    otherLine = cacheLine ∧ otherWay = way := by
  have lineIndex := placed.index_of_tag stored
  have otherIndex := placed.index_of_tag otherStored
  rw [same, lineIndex] at otherIndex
  subst otherIndex
  exact ⟨rfl, placed.distinct otherStored stored same⟩

theorem withLine (placed : Placed mc) (wayLt : way < maxCacheSets)
    (index : line.tag % numCacheLines = cacheLine) (alone : ∀ {otherLine otherWay held},
      ¬ (otherLine = cacheLine ∧ otherWay = way) →
        mc.cache otherLine otherWay = some held → held.tag ≠ line.tag) :
    Placed (mc.withLine cacheLine way (some line)) := by
  constructor
  · intro otherLine otherWay other otherStored
    rcases cases_of_withLine otherStored with ⟨rfl, rfl, -⟩ | ⟨-, before⟩
    · exact wayLt
    · exact placed.way_lt before
  · intro otherLine otherWay other otherStored
    rcases cases_of_withLine otherStored with ⟨rfl, rfl, isLine⟩ | ⟨-, before⟩
    · cases isLine
      exact index
    · exact placed.index_of_tag before
  · intro otherLine first second firstLine secondLine firstStored secondStored same
    rcases cases_of_withLine firstStored with
      ⟨rfl, rfl, isFirst⟩ | ⟨firstNe, firstBefore⟩
    · cases isFirst
      rcases cases_of_withLine secondStored with
        ⟨-, rfl, -⟩ | ⟨secondNe, secondBefore⟩
      · rfl
      · exact absurd same.symm (alone secondNe secondBefore)
    · rcases cases_of_withLine secondStored with
        ⟨rfl, rfl, isSecond⟩ | ⟨-, secondBefore⟩
      · cases isSecond
        exact absurd same (alone firstNe firstBefore)
      · exact placed.distinct firstBefore secondBefore same

end Placed

namespace Represents

variable (represents : Represents mc memory)
include represents

theorem tag_ne (stored : mc.cache cacheLine way = some line)
    (otherStored : mc.cache otherLine otherWay = some other)
    (different : ¬ (otherLine = cacheLine ∧ otherWay = way)) : other.tag ≠ line.tag :=
  fun same => different (represents.toPlaced.eq_of_tag_eq stored otherStored same)

section

variable {cacheLine : Nat} {after : Nat → UInt8}
  (bytes : ∀ offset < cacheLineSize, line.data offset = after (line.tag * cacheLineSize + offset))
  (cleanBytes : line.dirty = false → ∀ offset < cacheLineSize,
    mc.mainMemory (line.tag * cacheLineSize + offset) = after (line.tag * cacheLineSize + offset))
include bytes cleanBytes

theorem putLine (wayLt : way < maxCacheSets) (index : line.tag % numCacheLines = cacheLine)
    (alone : ∀ {otherLine otherWay held}, ¬ (otherLine = cacheLine ∧ otherWay = way) →
      mc.cache otherLine otherWay = some held → held.tag ≠ line.tag)
    (replaced : ∀ old, mc.cache cacheLine way = some old → old.tag = line.tag)
    (elsewhere : ∀ address, address / cacheLineSize ≠ line.tag → after address = memory address) :
    Represents (mc.withLine cacheLine way (some line)) after := by
  have others : ∀ {otherLine otherWay held}, ¬ (otherLine = cacheLine ∧ otherWay = way) →
        mc.cache otherLine otherWay = some held → ∀ offset < cacheLineSize,
          after (held.tag * cacheLineSize + offset) =
            memory (held.tag * cacheLineSize + offset) := by
    intro otherLine otherWay held different stored offset offsetLt
    apply elsewhere
    rw [tag_of_offset offsetLt]
    exact alone different stored
  refine ⟨represents.toPlaced.withLine wayLt index alone, ?_, ?_, ?_⟩
  · intro otherLine otherWay other otherStored offset offsetLt
    rcases cases_of_withLine otherStored with ⟨-, -, isLine⟩ | ⟨different, before⟩
    · cases isLine
      exact bytes offset offsetLt
    · rw [others different before offset offsetLt]
      exact represents.cached before offset offsetLt
  · intro otherLine otherWay other otherStored isClean offset offsetLt
    rcases cases_of_withLine otherStored with ⟨-, -, isLine⟩ | ⟨different, before⟩
    · cases isLine
      exact cleanBytes isClean offset offsetLt
    · rw [others different before offset offsetLt]
      exact represents.clean before isClean offset offsetLt
  · intro address absent
    have notHere := absent cacheLine way line (withLine_self mc cacheLine way _)
    rw [elsewhere address (Ne.symm notHere)]
    apply represents.uncached
    intro otherLine otherWay other otherStored
    by_cases same : otherLine = cacheLine ∧ otherWay = way
    · obtain ⟨rfl, rfl⟩ := same
      rw [replaced other otherStored]
      exact notHere
    · exact absent otherLine otherWay other (by rw [withLine_of_ne mc _ same]; exact otherStored)

theorem touch (stored : mc.cache cacheLine way = some old) (sameTag : line.tag = old.tag)
    (elsewhere : ∀ address, address / cacheLineSize ≠ old.tag → after address = memory address) :
    Represents (mc.withLine cacheLine way (some line)) after := by
  have index := represents.index_of_tag stored
  rw [← sameTag] at index elsewhere
  refine represents.putLine bytes cleanBytes (represents.way_lt stored) index ?_ ?_ elsewhere
  · intro otherLine otherWay held different heldStored
    rw [sameTag]
    exact represents.tag_ne stored heldStored different
  · intro replaced replacedStored
    rw [stored, some.injEq] at replacedStored
    rw [← replacedStored, sameTag]

end

theorem mainMemory_of_absent
    (absent : ∀ way held, mc.cache (tag % numCacheLines) way = some held → held.tag ≠ tag)
    (offsetLt : offset < cacheLineSize) :
    mc.mainMemory (tag * cacheLineSize + offset) = memory (tag * cacheLineSize + offset) := by
  apply represents.uncached
  rw [tag_of_offset offsetLt]
  intro cacheLine way held stored sameTag
  have index := represents.index_of_tag stored
  rw [sameTag] at index
  subst index
  exact absent way held stored sameTag

theorem fill (wayLt : way < maxCacheSets) (free : mc.cache (line.tag % numCacheLines) way = none)
    (absent : ∀ other held, mc.cache (line.tag % numCacheLines) other = some held →
      held.tag ≠ line.tag)
    (bytes : ∀ offset < cacheLineSize,
      line.data offset = mc.mainMemory (line.tag * cacheLineSize + offset)) :
    Represents (mc.withLine (line.tag % numCacheLines) way (some line)) memory := by
  refine represents.putLine ?_ ?_ wayLt rfl ?_ ?_ fun _ _ => rfl
  · intro offset offsetLt
    rw [bytes offset offsetLt]
    exact represents.mainMemory_of_absent absent offsetLt
  · intro _ offset offsetLt
    exact represents.mainMemory_of_absent absent offsetLt
  · intro otherLine otherWay held _ stored same
    have otherIndex := represents.index_of_tag stored
    rw [same] at otherIndex
    subst otherIndex
    exact absent otherWay held stored same
  · intro old stored
    rw [free] at stored
    cases stored

theorem drop (stored : mc.cache cacheLine way = some old) (sameCache : freed.cache = mc.cache)
    (copied : ∀ offset < cacheLineSize, freed.mainMemory (old.tag * cacheLineSize + offset) =
      memory (old.tag * cacheLineSize + offset))
    (elsewhere : ∀ address, address / cacheLineSize ≠ old.tag →
      freed.mainMemory address = mc.mainMemory address) :
    Represents (freed.withLine cacheLine way none) memory := by
  have remaining : ∀ {otherLine otherWay other},
      (freed.withLine cacheLine way none).cache otherLine otherWay = some other →
        ¬ (otherLine = cacheLine ∧ otherWay = way) ∧ mc.cache otherLine otherWay = some other := by
    intro otherLine otherWay other otherStored
    rcases cases_of_withLine otherStored with ⟨-, -, isLine⟩ | ⟨different, before⟩
    · cases isLine
    · rw [sameCache] at before
      exact ⟨different, before⟩
  refine ⟨⟨?_, ?_, ?_⟩, ?_, ?_, ?_⟩
  · intro otherLine otherWay other otherStored
    exact represents.way_lt (remaining otherStored).2
  · intro otherLine otherWay other otherStored
    exact represents.index_of_tag (remaining otherStored).2
  · intro otherLine first second firstLine secondLine firstStored secondStored same
    exact represents.distinct (remaining firstStored).2 (remaining secondStored).2 same
  · intro otherLine otherWay other otherStored offset offsetLt
    exact represents.cached (remaining otherStored).2 offset offsetLt
  · intro otherLine otherWay other otherStored isClean offset offsetLt
    obtain ⟨different, before⟩ := remaining otherStored
    rw [← represents.clean before isClean offset offsetLt]
    apply elsewhere
    rw [tag_of_offset offsetLt]
    exact represents.tag_ne stored before different
  · intro address notCached
    by_cases same : address / cacheLineSize = old.tag
    · have bytes := copied (address % cacheLineSize) (Nat.mod_lt _ (by decide))
      rw [← same, tag_mul_add_offset] at bytes
      exact bytes
    · show freed.mainMemory address = memory address
      rw [elsewhere address same]
      apply represents.uncached
      intro otherLine otherWay other otherStored
      by_cases here : otherLine = cacheLine ∧ otherWay = way
      · obtain ⟨rfl, rfl⟩ := here
        rw [stored, some.injEq] at otherStored
        exact otherStored ▸ Ne.symm same
      · apply notCached otherLine otherWay other
        rw [withLine_of_ne freed _ here, sameCache]
        exact otherStored

end Represents

theorem findLine_eq_some (found : findLine mc cacheLine tag = some (way, line)) :
    mc.cache cacheLine way = some line ∧ line.tag = tag := by
  obtain ⟨candidate, -, chosen⟩ := exists_of_findSome?_eq_some found
  cases stored : mc.cache cacheLine candidate with
  | none => simp [stored] at chosen
  | some held =>
    by_cases sameTag : held.tag = tag
    · simp only [stored, sameTag, if_true, some.injEq, Prod.mk.injEq] at chosen
      obtain ⟨rfl, rfl⟩ := chosen
      exact ⟨stored, sameTag⟩
    · simp [stored, sameTag] at chosen

theorem findLine_eq_none (missing : findLine mc cacheLine tag = none) (wayLt : way < maxCacheSets)
    (stored : mc.cache cacheLine way = some line) : line.tag ≠ tag := by
  intro sameTag
  rw [findLine, findSome?_eq_none_iff] at missing
  have skipped := missing way (mem_range.mpr wayLt)
  simp [stored, sameTag] at skipped

theorem emptySlot_eq_some (found : emptySlot mc cacheLine = some way) :
    way < maxCacheSets ∧ mc.cache cacheLine way = none := by
  constructor
  · exact mem_range.mp (mem_of_find?_eq_some found)
  · simpa using find?_some found

theorem emptySlot_eq_none (full : emptySlot mc cacheLine = none) (wayLt : way < maxCacheSets) :
    ∃ line, mc.cache cacheLine way = some line := by
  rw [emptySlot, find?_eq_none] at full
  have occupied := full way (mem_range.mpr wayLt)
  apply ne_none_iff_exists'.mp
  simpa using occupied

theorem victimWay_lt (mc : Controller) (cacheLine : Nat) (env : Environment) :
    victimWay mc cacheLine env < maxCacheSets := by
  cases policy : mc.replacementPolicy with
  | lru =>
    simp only [victimWay, policy, foldl_cons, foldl_nil, maxCacheSets]
    split_ifs <;> omega
  | random =>
    simp only [victimWay, policy]
    exact Nat.mod_lt _ (by decide)

theorem Represents.access (represents : Represents mc memory)
    (stored : mc.cache cacheLine way = some line) (used : Int) (address : Fin memorySize)
    (sameTag : line.tag = address / cacheLineSize) (mode : AccessMode) (data : UInt8)
    (env : Environment) :
    Represents (mc.withLine cacheLine way (some (accessLine
        { line with lastUsed := used } (address % cacheLineSize) mode data).1))
      (store written memory (.access address mode data env)) := by
  cases mode with
  | read =>
    refine represents.touch ?_ ?_ stored rfl fun _ _ => rfl
    · intro offset offsetLt
      exact represents.cached stored offset offsetLt
    · intro isClean offset offsetLt
      exact represents.clean stored isClean offset offsetLt
  | write =>
    refine represents.touch ?_ ?_ stored rfl ?_
    · intro offset offsetLt
      show update line.data (address % cacheLineSize) data offset =
        update memory address data (line.tag * cacheLineSize + offset)
      by_cases same : offset = address % cacheLineSize
      · rw [same, sameTag, tag_mul_add_offset, update_self, update_self]
      · have elsewhere : line.tag * cacheLineSize + offset ≠ address := by
          intro here
          apply same
          rw [← here, Nat.mul_add_mod_of_lt offsetLt]
        rw [update_of_ne same, update_of_ne elsewhere]
        exact represents.cached stored offset offsetLt
    · intro isClean
      cases isClean
    · intro other different
      apply update_of_ne
      rintro rfl
      exact different sameTag.symm

/-- A dirty line that the operation evicts has tag 0. -/
def EvictsSafely (mc : Controller) (op : Operation) : Prop :=
  ∀ address mode data env, op = .access address mode data env → (∀ way < maxCacheSets, ∃ line,
      mc.cache (address / cacheLineSize % numCacheLines) way = some line ∧
        line.tag ≠ address / cacheLineSize) →
      ∀ line, mc.cache (address / cacheLineSize % numCacheLines)
          (victimWay mc (address / cacheLineSize % numCacheLines) env) = some line →
        line.dirty → line.tag = 0

theorem evictsSafely_of_free {address : Fin memorySize} {mode : AccessMode} {data : UInt8}
    (way : Nat) (wayLt : way < maxCacheSets)
    (free : mc.cache (address / cacheLineSize % numCacheLines) way = none) :
    EvictsSafely mc (.access address mode data env) := by
  rintro _ _ _ _ ⟨rfl⟩ full
  obtain ⟨line, stored, -⟩ := full way wayLt
  rw [free] at stored
  cases stored

theorem Represents.evict (represents : Represents mc memory)
    (stored : mc.cache cacheLine (victimWay mc cacheLine env) = some line)
    (safe : line.dirty → line.tag = 0) :
    ∃ freed, evictLine mc cacheLine env =
        some (victimWay mc cacheLine env, freed) ∧ freed.cache = mc.cache ∧
      Represents (freed.withLine cacheLine (victimWay mc cacheLine env) none)
        memory := by
  have sameCache : (reseed mc).cache = mc.cache := by
    unfold reseed
    split <;> rfl
  have sameMemory : (reseed mc).mainMemory = mc.mainMemory := by
    unfold reseed
    split <;> rfl
  by_cases dirty : line.dirty
  · have tagZero := safe dirty
    have index := represents.index_of_tag stored
    rw [tagZero, Nat.zero_mod] at index
    subst index
    have fits : 0 + cacheLineSize ≤ memorySize := by decide
    refine ⟨(reseed mc).withBytes 0 line.data, ?_, sameCache, ?_⟩
    · simp only [evictLine, stored, dirty, if_true, tagZero, Nat.zero_mul,
        Nat.add_zero, writeBack, fits, map_some]
    · refine represents.drop stored ?_ ?_ ?_
      · exact sameCache
      · intro offset offsetLt
        rw [represents.cached stored offset offsetLt |>.symm, tagZero]
        simp [Controller.withBytes, offsetLt]
      · intro address different
        rw [tagZero] at different
        have outside : ¬ address < cacheLineSize := by
          intro inside
          exact different (Nat.div_eq_of_lt inside)
        simp [Controller.withBytes, outside, sameMemory]
  · have isClean : line.dirty = false := by simpa using dirty
    refine ⟨reseed mc, by simp [evictLine, stored, isClean], sameCache, ?_⟩
    apply represents.drop stored sameCache
    · intro offset offsetLt
      rw [sameMemory]
      exact represents.clean stored isClean offset offsetLt
    · intro address _
      rw [sameMemory]

theorem newEntry_data (mc : Controller) (address : Nat) (env : Environment)
    (offset : Nat) :
    (newEntry mc address env).data offset =
      mc.mainMemory (address / cacheLineSize * cacheLineSize + offset) := by
  have base : address - address % cacheLineSize = address / cacheLineSize * cacheLineSize := by
    have split := tag_mul_add_offset address
    omega
  rw [newEntry, base]

theorem Represents.fill_access (represents : Represents freed memory) (wayLt : way < maxCacheSets)
    (address : Fin memorySize)
    (free : freed.cache (address / cacheLineSize % numCacheLines) way = none)
    (absent : ∀ other held, freed.cache (address / cacheLineSize % numCacheLines) other =
      some held → held.tag ≠ address / cacheLineSize)
    (bytes : ∀ offset < cacheLineSize,
      mc.mainMemory (address / cacheLineSize * cacheLineSize + offset) =
        memory (address / cacheLineSize * cacheLineSize + offset))
    (mode : AccessMode) (data : UInt8) (env : Environment) :
    Represents (freed.withLine (address / cacheLineSize % numCacheLines) way
        (some (accessLine (newEntry mc address env) (address % cacheLineSize) mode
          data).1)) (store written memory (.access address mode data env)) := by
  have copied : ∀ offset < cacheLineSize, (newEntry mc address env).data offset =
      freed.mainMemory ((newEntry mc address env).tag * cacheLineSize + offset) := by
    intro offset offsetLt
    rw [newEntry_data, bytes offset offsetLt]
    exact (represents.mainMemory_of_absent absent offsetLt).symm
  have filled := represents.fill wayLt free absent copied
  have accessed := filled.access (withLine_self freed _ way _) env.lastUsed
    address rfl mode data env
  rw [withLine_withLine] at accessed
  exact accessed

theorem answer_of_access {address : Fin memorySize} {mode : AccessMode} {data : UInt8}
    (byte : line.data (address % cacheLineSize) = memory address) :
    (if mode = .read then
        some (accessLine line (address % cacheLineSize) mode data).2
      else none) = (reads (.access address mode data env)).map memory := by
  cases mode with
  | read => simp [accessLine, reads, byte]
  | write => simp [reads]

/-- The operation answers as the flat memory and still represents it. -/
def Matched (mc : Controller) (memory : Nat → UInt8) (op : Operation) : Prop :=
  ∃ next, step mc op = some (next, (reads op).map memory) ∧
    Represents next (store written memory op)

section

variable (represents : Represents mc memory) {address : Fin memorySize}
  (missed : findLine mc (address / cacheLineSize % numCacheLines) (address / cacheLineSize) = none)
include represents missed

theorem absent_of_missed (way : Nat) (held : CacheLine)
    (stored : mc.cache (address / cacheLineSize % numCacheLines) way = some held) :
    held.tag ≠ address / cacheLineSize := findLine_eq_none missed (represents.way_lt stored) stored

theorem newEntry_byte_of_missed (env : Environment) :
    (newEntry mc address env).data (address % cacheLineSize) = memory address := by
  rw [newEntry_data, represents.mainMemory_of_absent
    (absent_of_missed represents missed) (Nat.mod_lt _ (by decide)), tag_mul_add_offset]

theorem step_matched_of_free_way
    (empty : emptySlot mc (address / cacheLineSize % numCacheLines) = some way) (mode : AccessMode)
    (data : UInt8) (env : Environment) : Matched mc memory (.access address mode data env) := by
  have absent := absent_of_missed represents missed
  obtain ⟨wayLt, free⟩ := emptySlot_eq_some empty
  refine ⟨_, ?_, represents.fill_access wayLt address free absent
    (fun offset offsetLt => represents.mainMemory_of_absent absent offsetLt) mode data env⟩
  simp only [step, memoryControllerAccess, missed, empty, map_some]
  congr 2
  exact answer_of_access (newEntry_byte_of_missed represents missed env)

theorem step_matched_of_eviction
    (full : emptySlot mc (address / cacheLineSize % numCacheLines) = none)
    (mode : AccessMode) (data : UInt8) (env : Environment)
    (safe : EvictsSafely mc (.access address mode data env)) :
    Matched mc memory (.access address mode data env) := by
  have absent := absent_of_missed represents missed
  have wayLt := victimWay_lt mc (address / cacheLineSize % numCacheLines) env
  obtain ⟨line, stored⟩ := emptySlot_eq_none full wayLt
  have missesAll : ∀ way < maxCacheSets, ∃ line,
      mc.cache (address / cacheLineSize % numCacheLines) way = some line ∧
        line.tag ≠ address / cacheLineSize := by
    intro way wayLt
    obtain ⟨line, stored⟩ := emptySlot_eq_none full wayLt
    exact ⟨line, stored, absent way line stored⟩
  obtain ⟨freed, evicted, sameCache, dropped⟩ := represents.evict stored
    (safe address mode data env rfl missesAll line stored)
  have stillAbsent : ∀ way held, (freed.withLine (address / cacheLineSize % numCacheLines)
      (victimWay mc (address / cacheLineSize % numCacheLines) env) none).cache
        (address / cacheLineSize % numCacheLines) way = some held →
          held.tag ≠ address / cacheLineSize := by
    intro way held still
    rcases cases_of_withLine still with ⟨-, -, isNone⟩ | ⟨-, before⟩
    · cases isNone
    · rw [sameCache] at before
      exact absent way held before
  have accessed := dropped.fill_access wayLt address
    (withLine_self freed _ _ none) stillAbsent
    (fun offset offsetLt => represents.mainMemory_of_absent absent offsetLt) mode data env
  rw [withLine_withLine] at accessed
  refine ⟨_, ?_, accessed⟩
  simp only [step, memoryControllerAccess, missed, full, evicted, map_some]
  congr 2
  exact answer_of_access (newEntry_byte_of_missed represents missed env)

end

theorem step_matched {op : Operation} (represents : Represents mc memory)
    (safe : EvictsSafely mc op) : Matched mc memory op := by
  cases op with
  | setReplacementPolicy policy =>
    refine ⟨memoryControllerSetReplacementPolicy mc policy, rfl, ?_⟩
    exact { represents with }
  | access address mode data env =>
    cases found : findLine mc (address / cacheLineSize % numCacheLines)
        (address / cacheLineSize) with
    | some hit =>
      obtain ⟨way, line⟩ := hit
      obtain ⟨stored, sameTag⟩ := findLine_eq_some found
      refine ⟨_, ?_, represents.access stored env.clock address sameTag mode data env⟩
      simp only [step, memoryControllerAccess, found, map_some]
      congr 2
      apply answer_of_access
      rw [represents.cached stored _ (Nat.mod_lt _ (by decide)), sameTag, tag_mul_add_offset]
    | none =>
      cases empty : emptySlot mc (address / cacheLineSize % numCacheLines) with
      | some way =>
        exact step_matched_of_free_way represents found empty mode data env
      | none =>
        exact step_matched_of_eviction represents found empty mode data env safe

/-- If no dirty line with a nonzero tag is evicted, reads yield the latest writes. -/
theorem reads_yield_latest_write_of_safe_evictions (mainMemory : Nat → UInt8)
    (time : Nat) (ops : List Operation)
    (safe : Respects step EvictsSafely (memoryControllerNew mainMemory time) ops) :
    ∀ earlier address data env, earlier ++ [.access address .read data env] <+: ops →
        ∃ reached next, Reaches step (memoryControllerNew mainMemory time) earlier reached ∧
            step reached (.access address .read data env) = some (next,
              some ((latestWrite written earlier address).getD (mainMemory address))) := by
  intro earlier address data env within
  exact read_yields_latestWrite written reads Represents
    (fun represents safe => step_matched represents safe) safe
    ⟨⟨nofun, nofun, nofun⟩, nofun, nofun, fun _ _ => rfl⟩ within rfl

def writeAndEvict : List Operation :=
  [.access 0 .write 42 ⟨0, 0, 0⟩, .access 65536 .read 0 ⟨0, 0, 0⟩,
    .access 131072 .read 0 ⟨0, 0, 0⟩, .access 196608 .read 0 ⟨0, 0, 0⟩,
    .access 262144 .read 0 ⟨0, 0, 0⟩, .access 0 .read 0 ⟨0, 0, 0⟩]

theorem reads_yield_latest_write_of_eviction :
    Respects step EvictsSafely (memoryControllerNew (fun _ => 0) 0) writeAndEvict ∧
      ∃ reached next, Reaches step (memoryControllerNew (fun _ => 0) 0)
          (writeAndEvict.take 5) reached ∧
        step reached (.access 0 .read 0 ⟨0, 0, 0⟩) = some (next, some 42) := by
  have safe : Respects step EvictsSafely (memoryControllerNew (fun _ => 0) 0) writeAndEvict := by
    refine .cons (evictsSafely_of_free 0 (by decide) rfl) rfl
      (.cons (evictsSafely_of_free 1 (by decide) rfl) rfl
        (.cons (evictsSafely_of_free 2 (by decide) rfl) rfl
          (.cons (evictsSafely_of_free 3 (by decide) rfl) rfl
            (.cons ?_ rfl (.cons ?_ rfl trivial)))))
    · rintro _ _ _ _ ⟨rfl⟩ - line ⟨rfl⟩ -
      rfl
    · rintro _ _ _ _ ⟨rfl⟩ - line ⟨rfl⟩ dirty
      cases dirty
  exact ⟨safe, reads_yield_latest_write_of_safe_evictions _ _ _ safe _ 0 0 ⟨0, 0, 0⟩ prefix_rfl⟩

theorem written_byte_is_lost_by_eviction : ¬ ∀ earlier address data env,
        earlier ++ [.access address .read data env] <+:
            [.access 64 .write 42 ⟨0, 0, 0⟩, .access 65600 .read 0 ⟨0, 0, 0⟩,
              .access 131136 .read 0 ⟨0, 0, 0⟩, .access 196672 .read 0 ⟨0, 0, 0⟩,
              .access 262208 .read 0 ⟨0, 0, 0⟩, .access 64 .read 0 ⟨0, 0, 0⟩] →
          ∃ reached next, Reaches step (memoryControllerNew (fun _ => 0) 0) earlier reached ∧
              step reached (.access address .read data env) = some (next,
                some ((latestWrite written earlier address).getD 0)) := by
  intro always
  obtain ⟨reached, next, ⟨outs, runEq⟩, stepEq⟩ := always
    [.access 64 .write 42 ⟨0, 0, 0⟩, .access 65600 .read 0 ⟨0, 0, 0⟩,
      .access 131136 .read 0 ⟨0, 0, 0⟩, .access 196672 .read 0 ⟨0, 0, 0⟩,
      .access 262208 .read 0 ⟨0, 0, 0⟩] 64 0 ⟨0, 0, 0⟩ prefix_rfl
  have lost : (run step (memoryControllerNew (fun _ => 0) 0)
      [.access 64 .write 42 ⟨0, 0, 0⟩, .access 65600 .read 0 ⟨0, 0, 0⟩,
        .access 131136 .read 0 ⟨0, 0, 0⟩, .access 196672 .read 0 ⟨0, 0, 0⟩,
        .access 262208 .read 0 ⟨0, 0, 0⟩]).bind (fun last =>
          (step last.1 (.access 64 .read 0 ⟨0, 0, 0⟩)).map Prod.snd) =
        some (some 0) := by
    decide
  rw [runEq, bind_some, stepEq, map_some, some.injEq] at lost
  dsimp only at lost
  exact absurd lost (by decide)

end BitsAndBytes.MemoryController
