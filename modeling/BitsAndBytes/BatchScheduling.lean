import BitsAndBytes.BubbleSort
import BitsAndBytes.RingQueue
import BitsAndBytes.SelectionSort
import Mathlib.Data.List.FinRange
import Mathlib.Data.Prod.Lex
import Mathlib.Tactic.IntervalCases

/-! # The scheduler of `Parallelism-AwareBatchScheduling.c` -/

namespace BitsAndBytes.BatchScheduling

open BubbleSort CheckedArray SelectionSort List Function

def maxQueueSize : Int := 100

def maxBanks : Nat := 8

def maxBatchSize : Nat := 20

/-- `MemoryRequest`, with a bank below `MAX_BANKS`. -/
structure MemoryRequest where
  address : Int
  timestamp : Int
  bank : Fin maxBanks
  isRowBufferHit : Bool
  isMarked : Bool
deriving DecidableEq, Repr

abbrev Queue := RingQueue MemoryRequest

def initQueue (requests : Int → MemoryRequest) : Queue :=
  RingQueue.empty requests

def enqueue (q : Queue) (request : MemoryRequest) : Queue :=
  q.push maxQueueSize request

def dequeue (q : Queue) : Option (MemoryRequest × Queue) :=
  q.pop maxQueueSize

def MemoryRequest.mark (request : MemoryRequest) : MemoryRequest :=
  { request with isMarked := true }

def MemoryRequest.unmark (request : MemoryRequest) : MemoryRequest :=
  { request with isMarked := false }

def formBatch : Nat → Queue → List MemoryRequest × Queue
  | 0, q => ([], q)
  | room + 1, q =>
    match dequeue q with
    | none => ([], q)
    | some (request, rest) =>
      let later := formBatch room rest
      (request.mark :: later.1, later.2)

def bankCount (batch : List MemoryRequest) : Fin maxBanks → Nat :=
  batch.foldl (fun count request =>
    update count request.bank (count request.bank + 1)) fun _ => 0

def rankBanks (batch : List MemoryRequest) : List (Fin maxBanks) :=
  bubbleSort (fun bank other => bankCount batch bank < bankCount batch other)
    (finRange maxBanks)

def rankBanksInArray (batch : List MemoryRequest) (bankRanking : Nat → Fin maxBanks) :
    Option (Nat → Fin maxBanks) := do
  let bankRanking ← (finRange maxBanks).foldlM
    (fun cells (bank : Fin maxBanks) => write maxBanks cells bank bank) bankRanking
  sortInArray (fun bank other => bankCount batch bank < bankCount batch other) maxBanks maxBanks
    bankRanking

abbrev Entry := MemoryRequest × Nat

def keepOldest : Option Entry → Entry → Option Entry :=
  keepLeast fun entry => entry.1.timestamp

def scanEntry (bank : Fin maxBanks) (best : Option Entry × Option Entry) (entry : Entry) :
    Option Entry × Option Entry :=
  if entry.1.bank = bank && entry.1.isMarked then
    (if entry.1.isRowBufferHit then keepOldest best.1 entry else best.1, keepOldest best.2 entry)
  else
    best

def scanBank (batch : List MemoryRequest) (bank : Fin maxBanks) : Option Entry × Option Entry :=
  batch.zipIdx.foldl (scanEntry bank) (none, none)

def take (batch : List MemoryRequest) (entry : Entry) : MemoryRequest × List MemoryRequest :=
  (entry.1.unmark, batch.set entry.2 entry.1.unmark)

def scheduleRequest (batch : List MemoryRequest) :
    List (Fin maxBanks) → Option (MemoryRequest × List MemoryRequest)
  | [] => none
  | bank :: ranking =>
    match scanBank batch bank with
    | (some oldestHit, _) => some (take batch oldestHit)
    | (none, some oldest) => some (take batch oldest)
    | (none, none) => scheduleRequest batch ranking

def scheduleRequests (ranking : List (Fin maxBanks)) :
    Nat → List MemoryRequest → Option (List MemoryRequest)
  | 0, _ => some []
  | count + 1, batch =>
    (scheduleRequest batch ranking).bind fun scheduled =>
      (scheduleRequests ranking count scheduled.2).map fun later => scheduled.1 :: later

def processQueue : Nat → Queue → Option (List MemoryRequest)
  | 0, q => if q.size = 0 then some [] else none
  | batches + 1, q =>
    if q.size = 0 then
      some []
    else
      let formed := formBatch maxBatchSize q
      (scheduleRequests (rankBanks formed.1) formed.1.length formed.1).bind fun processed =>
        (processQueue batches formed.2).map fun later => processed ++ later

def chunks {Value : Type*} (length : Nat) : List Value → List (List Value)
  | [] => []
  | value :: values =>
    (value :: values.take (length - 1)) :: chunks length (values.drop (length - 1))
termination_by values => values.length
decreasing_by
  rw [length_drop, length_cons]
  omega

def priority (ranking : List (Fin maxBanks)) (request : MemoryRequest) : ℕ ×ₗ Bool ×ₗ ℤ :=
  toLex (ranking.idxOf request.bank, toLex (!request.isRowBufferHit, request.timestamp))

def sortChunk (chunk : List MemoryRequest) : List MemoryRequest :=
  chunk.insertionSort fun first second =>
    priority (rankBanks chunk) first ≤ priority (rankBanks chunk) second

section

variable {ranking : List (Fin maxBanks)} {bank : Fin maxBanks} {request other : MemoryRequest}

theorem priority_lt_of_bank (mine : request.bank = bank) (notMine : other.bank ≠ bank) :
    priority (bank :: ranking) request < priority (bank :: ranking) other := by
  left
  rw [mine, idxOf_cons_self, idxOf_cons_ne _ notMine.symm]
  exact Nat.succ_pos _

theorem priority_lt_of_hit (sameBank : request.bank = other.bank)
    (hit : request.isRowBufferHit) (miss : other.isRowBufferHit = false) :
    priority ranking request < priority ranking other := by
  rw [priority, priority, Prod.Lex.toLex_lt_toLex, sameBank, hit, miss]
  refine .inr ⟨rfl, ?_⟩
  rw [Prod.Lex.toLex_lt_toLex]
  exact .inl rfl

theorem priority_lt_iff (sameBank : request.bank = other.bank)
    (sameKind : request.isRowBufferHit = other.isRowBufferHit) :
    priority ranking request < priority ranking other ↔ request.timestamp < other.timestamp := by
  simp [priority, Prod.Lex.toLex_lt_toLex, sameBank, sameKind]

theorem priority_cons_lt_iff (notMine : request.bank ≠ bank) (otherNotMine : other.bank ≠ bank) :
    priority (bank :: ranking) request < priority (bank :: ranking) other ↔
      priority ranking request < priority ranking other := by
  simp only [priority, Prod.Lex.toLex_lt_toLex, idxOf_cons_ne _ notMine.symm,
    idxOf_cons_ne _ otherNotMine.symm, Nat.succ_lt_succ_iff, Nat.succ.injEq]

end

section

variable {batch : List MemoryRequest} {ranking : List (Fin maxBanks)} {bank : Fin maxBanks}

def inBank (bank : Fin maxBanks) (request : MemoryRequest) : Bool :=
  request.bank = bank && request.isMarked

def isHitIn (bank : Fin maxBanks) (request : MemoryRequest) : Bool :=
  inBank bank request && request.isRowBufferHit

variable {request : MemoryRequest} {before after : List MemoryRequest}

theorem inBank_iff : inBank bank request ↔ request.bank = bank ∧ request.isMarked := by
  simp [inBank]

theorem isHitIn_iff : isHitIn bank request ↔
      (request.bank = bank ∧ request.isMarked) ∧ request.isRowBufferHit := by
  simp [isHitIn, inBank]

theorem foldl_scanEntry (bank : Fin maxBanks) (entries : List Entry) (hit oldest : Option Entry) :
    entries.foldl (scanEntry bank) (hit, oldest) = (entries.foldl (fun best entry =>
          if isHitIn bank entry.1 then keepOldest best entry else best) hit,
        entries.foldl (fun best entry =>
          if inBank bank entry.1 then keepOldest best entry else best) oldest) := by
  induction entries generalizing hit oldest with
  | nil => rfl
  | cons entry entries ih =>
    have scanned : scanEntry bank (hit, oldest) entry =
        if inBank bank entry.1 then
          (if entry.1.isRowBufferHit then keepOldest hit entry else hit, keepOldest oldest entry)
        else (hit, oldest) := rfl
    rw [foldl_cons, foldl_cons, foldl_cons, scanned, isHitIn]
    cases inBank bank entry.1 with
    | false => exact ih hit oldest
    | true => exact ih _ _

theorem scanBank_eq (batch : List MemoryRequest) (bank : Fin maxBanks) : scanBank batch bank =
      (firstLeast (fun entry => isHitIn bank entry.1) (fun entry => entry.1.timestamp) batch.zipIdx,
        firstLeast (fun entry => inBank bank entry.1) (fun entry => entry.1.timestamp)
          batch.zipIdx) := foldl_scanEntry bank batch.zipIdx none none

theorem take_append (before after : List MemoryRequest) (request : MemoryRequest) :
    take (before ++ request :: after) (request, before.length) =
      (request.unmark, before ++ request.unmark :: after) := by
  simp [take]

/-- The request that is scheduled is the first of the least by `priority`. -/
structure Chosen (ranking : List (Fin maxBanks)) (batch : List MemoryRequest)
    (before : List MemoryRequest) (request : MemoryRequest) (after : List MemoryRequest) :
    Prop where
  batch_eq : batch = before ++ request :: after
  scheduled : scheduleRequest batch ranking =
    some (request.unmark, before ++ request.unmark :: after)
  isFirst : IsFirstLeast MemoryRequest.isMarked (priority ranking) before request after

theorem isFirstLeast_priority {accepts : MemoryRequest → Bool}
    (isFirst : IsFirstLeast accepts MemoryRequest.timestamp before request after)
    (marked : request.isMarked) (same : ∀ other ∈ before ++ request :: after, accepts other →
      request.bank = other.bank ∧ request.isRowBufferHit = other.isRowBufferHit)
    (lower : ∀ other ∈ before ++ request :: after, other.isMarked → accepts other = false →
      priority ranking request < priority ranking other) :
    IsFirstLeast MemoryRequest.isMarked (priority ranking) before request after := by
  refine ⟨marked, fun other member isMarked => ?_, fun other member isMarked => ?_⟩
  · have inBatch : other ∈ before ++ request :: after := mem_append_left _ member
    cases accepted : accepts other with
    | false => exact lower other inBatch isMarked accepted
    | true =>
      obtain ⟨sameBank, sameKind⟩ := same other inBatch accepted
      exact (priority_lt_iff sameBank sameKind).mpr (isFirst.lt_before other member accepted)
  · have inBatch : other ∈ before ++ request :: after :=
      mem_append_right _ (mem_cons_of_mem request member)
    cases accepted : accepts other with
    | false => exact (lower other inBatch isMarked accepted).le
    | true =>
      obtain ⟨sameBank, sameKind⟩ := same other inBatch accepted
      rw [← not_lt, priority_lt_iff sameBank.symm sameKind.symm]
      exact not_lt.mpr (isFirst.le_after other member accepted)

theorem chosen_of_hit
    (found : firstLeast (fun entry => isHitIn bank entry.1) (fun entry => entry.1.timestamp)
      (before ++ request :: after).zipIdx = some (request, before.length))
    (isFirst : IsFirstLeast (isHitIn bank) MemoryRequest.timestamp before request after) :
    Chosen (bank :: ranking) (before ++ request :: after) before request after := by
  obtain ⟨⟨mine, marked⟩, hit⟩ := isHitIn_iff.mp isFirst.accepted
  refine ⟨rfl, ?_, isFirstLeast_priority isFirst marked ?_ ?_⟩
  · rw [scheduleRequest, scanBank_eq, found]
    exact congrArg some (take_append before after request)
  · intro other member accepted
    obtain ⟨⟨otherMine, -⟩, otherHit⟩ := isHitIn_iff.mp accepted
    exact ⟨mine.trans otherMine.symm, hit.trans otherHit.symm⟩
  · intro other member isMarked rejected
    by_cases otherMine : other.bank = bank
    · rw [isHitIn, inBank_iff.mpr ⟨otherMine, isMarked⟩, Bool.true_and] at rejected
      exact priority_lt_of_hit (mine.trans otherMine.symm) hit rejected
    · exact priority_lt_of_bank mine otherMine

theorem chosen_of_oldest
    (noHit : firstLeast (fun entry => isHitIn bank entry.1) (fun entry => entry.1.timestamp)
      (before ++ request :: after).zipIdx = none)
    (notHit : ∀ other ∈ before ++ request :: after, isHitIn bank other = false)
    (found : firstLeast (fun entry => inBank bank entry.1) (fun entry => entry.1.timestamp)
      (before ++ request :: after).zipIdx = some (request, before.length))
    (isFirst : IsFirstLeast (inBank bank) MemoryRequest.timestamp before request after) :
    Chosen (bank :: ranking) (before ++ request :: after) before request after := by
  obtain ⟨mine, marked⟩ := inBank_iff.mp isFirst.accepted
  have miss : ∀ other ∈ before ++ request :: after, inBank bank other →
      other.isRowBufferHit = false := by
    intro other member accepted
    have notAccepted := notHit other member
    rwa [isHitIn, accepted, Bool.true_and] at notAccepted
  refine ⟨rfl, ?_, isFirstLeast_priority isFirst marked ?_ ?_⟩
  · rw [scheduleRequest, scanBank_eq, noHit, found]
    exact congrArg some (take_append before after request)
  · intro other member accepted
    refine ⟨mine.trans (inBank_iff.mp accepted).1.symm, ?_⟩
    rw [miss other member accepted, miss request (by simp) isFirst.accepted]
  · intro other member isMarked rejected
    refine priority_lt_of_bank mine fun otherMine => ?_
    rw [inBank_iff.mpr ⟨otherMine, isMarked⟩] at rejected
    cases rejected

theorem Chosen.cons (chosen : Chosen ranking batch before request after)
    (nothing : scanBank batch bank = (none, none))
    (notMine : ∀ other ∈ batch, other.isMarked → other.bank ≠ bank) :
    Chosen (bank :: ranking) batch before request after := by
  obtain ⟨rfl, scheduled, isFirst⟩ := chosen
  have requestNot := notMine request (by simp) isFirst.accepted
  refine ⟨rfl, ?_, isFirst.accepted, fun other member marked => ?_, fun other member marked => ?_⟩
  · rw [scheduleRequest, nothing]
    exact scheduled
  · rw [priority_cons_lt_iff requestNot (notMine other (by simp [member]) marked)]
    exact isFirst.lt_before other member marked
  · rw [← not_lt, priority_cons_lt_iff (notMine other (by simp [member]) marked) requestNot, not_lt]
    exact isFirst.le_after other member marked

theorem exists_chosen (ranked : ∀ request ∈ batch, request.isMarked → request.bank ∈ ranking)
    (some_marked : ∃ request ∈ batch, request.isMarked) :
    ∃ before request after, Chosen ranking batch before request after := by
  induction ranking with
  | nil =>
    obtain ⟨request, member, marked⟩ := some_marked
    cases ranked request member marked
  | cons bank ranking ih =>
    rcases firstLeast_zipIdx_cases (isHitIn bank) MemoryRequest.timestamp batch with
      ⟨noHit, notHit⟩ | ⟨before, request, after, found, rfl, isFirst⟩
    · rcases firstLeast_zipIdx_cases (inBank bank) MemoryRequest.timestamp batch with
        ⟨nothing, notIn⟩ | ⟨before, request, after, found, rfl, isFirst⟩
      · have notMine : ∀ request ∈ batch, request.isMarked → request.bank ≠ bank := by
          intro request member marked mine
          have accepted := inBank_iff.mpr ⟨mine, marked⟩
          rw [notIn request member] at accepted
          cases accepted
        obtain ⟨before, request, after, chosen⟩ := ih fun request member marked =>
          (mem_cons.mp (ranked request member marked)).resolve_left
            (notMine request member marked)
        have scan : scanBank batch bank = (none, none) := by rw [scanBank_eq, noHit, nothing]
        exact ⟨before, request, after, chosen.cons scan notMine⟩
      · exact ⟨before, request, after, chosen_of_oldest noHit notHit found isFirst⟩
    · exact ⟨before, request, after, chosen_of_hit found isFirst⟩

end

variable (batch chunk : List MemoryRequest)

theorem filter_marked_unmark (before after : List MemoryRequest) (request : MemoryRequest) :
    (before ++ request.unmark :: after).filter MemoryRequest.isMarked =
      (before ++ after).filter MemoryRequest.isMarked := by
  simp [MemoryRequest.unmark]

theorem scheduleRequests_eq {ranking : List (Fin maxBanks)} (all : ∀ bank, bank ∈ ranking)
    {count : Nat} {batch : List MemoryRequest}
    (pending : (batch.filter MemoryRequest.isMarked).length = count) :
    scheduleRequests ranking count batch =
      some (((batch.filter MemoryRequest.isMarked).insertionSort fun first second =>
        priority ranking first ≤ priority ranking second).map MemoryRequest.unmark) := by
  induction count generalizing batch with
  | zero =>
    rw [length_eq_zero_iff.mp pending]
    rfl
  | succ count ih =>
    have some_marked : ∃ request ∈ batch, request.isMarked := by
      obtain ⟨request, member⟩ := exists_mem_of_length_eq_add_one pending
      exact ⟨request, mem_filter.mp member⟩
    obtain ⟨before, request, after, rfl, scheduled, isFirst⟩ :=
      exists_chosen (fun request _ _ => all request.bank) some_marked
    have fewer : ((before ++ request.unmark :: after).filter
        MemoryRequest.isMarked).length = count := by
      rw [filter_marked_unmark]
      have sorted := congrArg length isFirst.insertionSort_filter
      rw [length_cons, length_insertionSort, length_insertionSort, pending] at sorted
      exact (Nat.succ.inj sorted).symm
    rw [scheduleRequests, scheduled, Option.bind_some, ih fewer, filter_marked_unmark,
      isFirst.insertionSort_filter]
    rfl

theorem perm_rankBanks : (rankBanks batch).Perm (finRange maxBanks) := bubbleSort_perm _ _

theorem rankBanks_mark : rankBanks (chunk.map MemoryRequest.mark) = rankBanks chunk := by
  have counts : bankCount (chunk.map MemoryRequest.mark) = bankCount chunk := by
    rw [bankCount, foldl_map]
    rfl
  rw [rankBanks, counts, rankBanks]

theorem scheduleRequests_mark :
    scheduleRequests (rankBanks (chunk.map MemoryRequest.mark)) chunk.length
        (chunk.map MemoryRequest.mark) =
      some ((sortChunk chunk).map MemoryRequest.unmark) := by
  have allMarked : (chunk.map MemoryRequest.mark).filter MemoryRequest.isMarked =
      chunk.map MemoryRequest.mark := by
    rw [filter_eq_self]
    intro request member
    obtain ⟨before, -, rfl⟩ := mem_map.mp member
    rfl
  have sorted : ((chunk.map MemoryRequest.mark).insertionSort fun first second =>
      priority (rankBanks chunk) first ≤ priority (rankBanks chunk) second) =
        (sortChunk chunk).map MemoryRequest.mark :=
    (map_insertionSort _ _ MemoryRequest.mark chunk fun _ _ _ _ => Iff.rfl).symm
  rw [scheduleRequests_eq (fun _ => (perm_rankBanks _).mem_iff.mpr (mem_finRange _))
      (by rw [allMarked, length_map]), allMarked,
    rankBanks_mark, sorted, map_map]
  rfl

section

variable {q : Queue}

theorem formBatch_spec (valid : q.Valid maxQueueSize) (room : Nat) :
    (formBatch room q).1 = ((q.contents maxQueueSize).take room).map MemoryRequest.mark ∧
      (formBatch room q).2.contents maxQueueSize = (q.contents maxQueueSize).drop room ∧
        (formBatch room q).2.Valid maxQueueSize := by
  induction room generalizing q with
  | zero => exact ⟨rfl, rfl, valid⟩
  | succ room ih =>
    by_cases empty : q.size = 0
    · have nothing : formBatch (room + 1) q = ([], q) := by
        rw [formBatch, dequeue, RingQueue.pop, if_pos empty]
      rw [nothing, valid.contents_eq_nil_iff.mpr empty]
      exact ⟨rfl, rfl, valid⟩
    · obtain ⟨request, rest, taken, restValid, contents⟩ := valid.pop empty
      have formed : formBatch (room + 1) q =
          (request.mark :: (formBatch room rest).1, (formBatch room rest).2) := by
        rw [formBatch, dequeue, taken]
      obtain ⟨batch, left, leftValid⟩ := ih restValid
      rw [formed, contents]
      exact ⟨congrArg (request.mark :: ·) batch, left, leftValid⟩

theorem chunks_eq {Value : Type*} {length : Nat} {values : List Value} (positive : 0 < length)
    (notEmpty : values ≠ []) :
    chunks length values = values.take length :: chunks length (values.drop length) := by
  cases values with
  | nil => exact absurd rfl notEmpty
  | cons value values =>
    obtain ⟨fewer, rfl⟩ : ∃ fewer, length = fewer + 1 := ⟨length - 1, by omega⟩
    rw [chunks, Nat.add_sub_cancel, take_succ_cons, drop_succ_cons]

theorem processQueue_eq (valid : q.Valid maxQueueSize) {batches : Nat} (enough : q.size ≤ batches) :
    processQueue batches q =
      some ((chunks maxBatchSize (q.contents maxQueueSize)).flatMap fun chunk =>
        (sortChunk chunk).map MemoryRequest.unmark) := by
  have length := valid.length_contents
  induction batches generalizing q with
  | zero =>
    have empty : q.size = 0 := by omega
    rw [processQueue, if_pos empty, valid.contents_eq_nil_iff.mpr empty, chunks]
    rfl
  | succ batches ih =>
    by_cases empty : q.size = 0
    · rw [processQueue, if_pos empty, valid.contents_eq_nil_iff.mpr empty, chunks]
      rfl
    · obtain ⟨batch, left, leftValid⟩ := formBatch_spec valid maxBatchSize
      have notEmpty : q.contents maxQueueSize ≠ [] :=
        fun nothing => empty (valid.contents_eq_nil_iff.mp nothing)
      have leftLength := leftValid.length_contents
      rw [left, length_drop] at leftLength
      have later := ih leftValid (by simp only [maxBatchSize] at *; omega)
        leftValid.length_contents
      rw [processQueue, if_neg empty]
      simp only [batch, length_map, scheduleRequests_mark, Option.bind_some, later, left,
        Option.map_some]
      rw [chunks_eq (by decide) notEmpty, flatMap_cons]

theorem flatMap_chunks_perm (requests : List MemoryRequest) :
    ((chunks maxBatchSize requests).flatMap fun chunk =>
      (sortChunk chunk).map MemoryRequest.unmark).Perm (requests.map MemoryRequest.unmark) := by
  induction bound : requests.length using Nat.strong_induction_on generalizing requests with
  | _ bound ih =>
    by_cases empty : requests = []
    · rw [empty, chunks]
      exact .refl _
    · have positive := length_pos_of_ne_nil empty
      have later := ih _ (by rw [length_drop, ← bound]; simp only [maxBatchSize]; omega)
        (requests.drop maxBatchSize) rfl
      rw [chunks_eq (by decide) empty, flatMap_cons]
      conv_rhs => rw [← take_append_drop maxBatchSize requests, map_append]
      exact ((perm_insertionSort _ _).map _).append later

end

/-- Each chunk of the queue is processed in the stable order by rank, hits first, and timestamp. -/
theorem requests_processed_in_stable_order (q : Queue) (valid : q.Valid maxQueueSize)
    (batches : Nat) (enough : q.size ≤ batches) :
    ∃ processed, processQueue batches q = some processed ∧
      (processed = (chunks maxBatchSize (q.contents maxQueueSize)).flatMap fun chunk =>
        (sortChunk chunk).map MemoryRequest.unmark) ∧
      processed.Perm ((q.contents maxQueueSize).map MemoryRequest.unmark) :=
  ⟨_, processQueue_eq valid enough, rfl, flatMap_chunks_perm _⟩

theorem miss_and_hit_processed :
    let q := enqueue (enqueue (initQueue fun _ => ⟨0, 0, ⟨0, by decide⟩, false, false⟩)
      ⟨10, 1, ⟨3, by decide⟩, false, false⟩) ⟨20, 2, ⟨3, by decide⟩, true, false⟩
    ∃ processed, processQueue 2 q = some processed ∧
      processed.Perm ((q.contents maxQueueSize).map MemoryRequest.unmark) := by
  intro q
  have valid : q.Valid maxQueueSize := ((RingQueue.valid_empty (by decide) _).push _).push _
  obtain ⟨processed, processes, -, perm⟩ := requests_processed_in_stable_order q valid 2 (by decide)
  exact ⟨processed, processes, perm⟩

theorem bankCount_eq_countP (bank : Fin maxBanks) :
    bankCount batch bank = batch.countP fun request => request.bank = bank := by
  suffices general : ∀ count : Fin maxBanks → Nat, batch.foldl (fun count request =>
      update count request.bank (count request.bank + 1)) count bank =
        count bank + batch.countP fun request => request.bank = bank by
    rw [bankCount, general, Nat.zero_add]
  induction batch with
  | nil => exact fun count => rfl
  | cons request batch ih =>
    intro count
    rw [foldl_cons, ih, countP_cons]
    by_cases mine : request.bank = bank
    · subst mine
      simp
      omega
    · simp [mine, update_of_ne (Ne.symm mine)]

theorem exists_rankBanksInArray (bankRanking : Nat → Fin maxBanks) :
    ∃ ranked, rankBanksInArray batch bankRanking = some ranked ∧
      Holds ranked (rankBanks batch) := by
  obtain ⟨cells, initialized, holds⟩ : ∃ cells, (finRange maxBanks).foldlM
      (fun cells (bank : Fin maxBanks) => write maxBanks cells bank bank) bankRanking = some cells ∧
        Holds cells (finRange maxBanks) := by
    refine ⟨_, rfl, fun index inside => ?_⟩
    rw [length_finRange, maxBanks] at inside
    interval_cases index <;> rfl
  obtain ⟨ranked, sorted, rankedHolds⟩ := sortInArray_of_holds
    (fun bank other => bankCount batch bank < bankCount batch other) holds length_finRange.le
  exact ⟨ranked, by rw [rankBanksInArray, initialized]; exact sorted, rankedHolds⟩

/-- Banks with more requests come first, and equal ones in the order of their numbers. -/
theorem rankBanks_orders_banks (batch : List MemoryRequest) (bankRanking : Nat → Fin maxBanks) :
    ∃ ranked, rankBanksInArray batch bankRanking = some ranked ∧ Holds ranked (rankBanks batch) ∧
      (rankBanks batch).Perm (finRange maxBanks) ∧
      (rankBanks batch).Pairwise fun bank other =>
        (batch.countP fun request => request.bank = other) <
            (batch.countP fun request => request.bank = bank) ∨
          (batch.countP fun request => request.bank = other) =
            (batch.countP fun request => request.bank = bank) ∧ bank < other := by
  obtain ⟨ranked, rankedEq, holds⟩ := exists_rankBanksInArray batch bankRanking
  refine ⟨ranked, rankedEq, holds, perm_rankBanks batch, ?_⟩
  simp only [← bankCount_eq_countP]
  have sorted : (rankBanks batch).Pairwise fun bank other =>
      ¬ (bankCount batch bank < bankCount batch other : Bool) := by
    refine bubbleSort_sorted (fun _ _ => ?_) (fun _ _ _ => ?_) _
    · simp only [decide_eq_true_eq]
      exact Nat.lt_asymm
    · simp only [decide_eq_true_eq]
      omega
  have stable : (rankBanks batch).Pairwise fun bank other =>
      bankCount batch bank = bankCount batch other → bank < other := by
    refine bubbleSort_pairwise (fun {first second} swapped same => ?_) ?_
    · rw [decide_eq_true_eq] at swapped
      omega
    · refine (pairwise_lt_finRange maxBanks).imp fun before _ => ?_
      exact before
  refine (sorted.and stable).imp fun {bank other} ⟨notLess, inOrder⟩ => ?_
  rw [decide_eq_true_eq] at notLess
  rcases Nat.lt_or_eq_of_le (Nat.le_of_not_lt notLess) with less | same
  · exact .inl less
  · exact .inr ⟨same, inOrder same.symm⟩

end BitsAndBytes.BatchScheduling
