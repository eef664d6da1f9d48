import BitsAndBytes.SchedulingAlgorithms

/-! # The batch of `parBsScheduleRequest` -/

namespace BitsAndBytes.SchedulingAlgorithms

open BubbleSort CheckedArray List Option Function

def fillBatch (batch : Nat → Bank) (count : Nat) : List Bank → Option ((Nat → Bank) × Nat)
  | [] => some (batch, count)
  | bank :: banks =>
    if bank.hasRequests then
      (write batchSize batch count bank).bind fun batch => fillBatch batch (count + 1) banks
    else
      fillBatch batch count banks

def serveInArray : Nat → Nat → (Nat → Bank) → Option (List Int)
  | 0, _, _ => some []
  | count + 1, index, batch => do
      let bank ← read batchSize batch index
      if bank.isMarked then
        let batch ← write batchSize batch index bank.serveHit
        let reported ← serveInArray count (index + 1) batch
        some (bank.bankId :: reported)
      else if bank.hasRequests then
        let batch ← write batchSize batch index bank.serve
        let reported ← serveInArray count (index + 1) batch
        some (bank.bankId :: reported)
      else
        serveInArray count (index + 1) batch

def parBsInArray (batch : Nat → Bank) (banks : List Bank) : Option (List Int) := do
  let (batch, count) ← fillBatch batch 0 banks
  let batch ← sortInArray (fun bank other : Bank => bank.requestCount < other.requestCount)
    batchSize count batch
  serveInArray count 0 batch

section

variable {batch : Nat → Bank} {values : List Bank}

theorem fillBatch_cases (holds : Holds batch values) (fits : values.length ≤ batchSize)
    (banks : List Bank) :
    (batchSize < (values ++ banks.filter Bank.hasRequests).length ∧
        fillBatch batch values.length banks = none) ∨
      (values ++ banks.filter Bank.hasRequests).length ≤ batchSize ∧
        ∃ filled, fillBatch batch values.length banks =
            some (filled, (values ++ banks.filter Bank.hasRequests).length) ∧
          Holds filled (values ++ banks.filter Bank.hasRequests) := by
  induction banks generalizing batch values with
  | nil =>
    rw [filter_nil, append_nil]
    exact .inr ⟨fits, batch, rfl, holds⟩
  | cons bank banks ih =>
    rw [fillBatch]
    split
    · rename_i busy
      rw [filter_cons_of_pos busy, append_cons]
      by_cases inside : values.length < batchSize
      · have lengthNext : (values ++ [bank]).length = values.length + 1 := by simp
        rw [write_of_lt inside, bind_some, ← lengthNext]
        exact ih (holds.concat bank) (by omega)
      · refine .inl ⟨?_, ?_⟩
        · simp only [length_append, length_singleton]
          omega
        · rw [write_of_le (Nat.le_of_not_lt inside), bind_none]
    · rename_i idle
      rw [filter_cons_of_neg idle]
      exact ih holds fits

theorem serveInArray_of_holds (front : List Bank) (holds : Holds batch (front ++ values))
    (fits : front.length + values.length ≤ batchSize) :
    serveInArray values.length front.length batch = some (serveBatch values).2 := by
  induction values generalizing batch front with
  | nil => rfl
  | cons bank values ih =>
    rw [length_cons] at fits ⊢
    have inside : front.length < batchSize := by omega
    have served : ∀ after : Bank, serveInArray values.length (front.length + 1)
        (update batch front.length after) = some (serveBatch values).2 := by
      intro after
      have updated := holds.update after
      rw [append_cons] at updated
      have rest := ih (front ++ [after]) updated (by simp; omega)
      rwa [length_append] at rest
    simp only [serveInArray, holds.read inside, write_of_lt inside, bind_eq_bind,
      bind_some, served, serveBatch]
    split
    · rfl
    · split
      · rfl
      · have kept := served (batch front.length)
        rwa [update_eq_self] at kept

end

theorem parBsInArray_eq (batch : Nat → Bank) (banks : List Bank) :
    parBsInArray batch banks = parBsScheduleRequest banks := by
  unfold parBsInArray parBsScheduleRequest
  rcases fillBatch_cases (holds_nil batch) (Nat.zero_le batchSize) banks with
    ⟨many, failed⟩ | ⟨few, filled, filledEq, filledHolds⟩
  · rw [nil_append] at many
    rw [length_nil] at failed
    simp only [failed, if_neg (Nat.not_le.mpr many), bind_eq_bind, bind_none]
  · rw [nil_append] at few filledEq filledHolds
    rw [length_nil] at filledEq
    obtain ⟨sorted, sortedEq, sortedHolds⟩ := sortInArray_of_holds
      (fun bank other : Bank => bank.requestCount < other.requestCount) filledHolds few
    have length := (bubbleSort_perm (fun bank other : Bank =>
      decide (bank.requestCount < other.requestCount)) (banks.filter Bank.hasRequests)).length_eq
    simp only [filledEq, sortedEq, if_pos few, bind_eq_bind, bind_some]
    generalize bubbleSort (fun bank other : Bank =>
      decide (bank.requestCount < other.requestCount))
        (banks.filter Bank.hasRequests) = ordered at sortedHolds length ⊢
    rw [← length] at few ⊢
    exact serveInArray_of_holds [] sortedHolds (by simpa using few)

/-- The batch is accessed inside exactly if at most `BATCH_SIZE` banks have requests. -/
theorem batch_accesses_inside_iff (batch : Nat → Bank) (banks : List Bank) :
    (∃ reported, parBsInArray batch banks = some reported) ↔
      (banks.filter Bank.hasRequests).length ≤ batchSize := by
  rw [parBsInArray_eq]
  unfold parBsScheduleRequest
  by_cases few : (banks.filter Bank.hasRequests).length ≤ batchSize
  · simp [few]
  · simp [few]

theorem fifth_bank_behind_batch : parBsInArray (fun _ => ⟨0, 0, false⟩)
      ((List.range 5).map fun index => ⟨index, 1, false⟩) = none := by
  decide

end BitsAndBytes.SchedulingAlgorithms
