import BitsAndBytes.RingWindow

/-! # Queues in a ring of cells -/

namespace BitsAndBytes

open RingWindow Function List Option

structure RingQueue (Value : Type*) where
  cells : Int → Value
  front : Int
  rear : Int
  size : Int

namespace RingQueue

variable {Value : Type*}

def empty (cells : Int → Value) : RingQueue Value :=
  ⟨cells, 0, -1, 0⟩

def push (capacity : Int) (queue : RingQueue Value) (value : Value) : RingQueue Value :=
  if queue.size = capacity then
    queue
  else
    { queue with
      cells := update queue.cells ((queue.rear + 1).tmod capacity) value
      rear := (queue.rear + 1).tmod capacity
      size := queue.size + 1 }

def pop (capacity : Int) (queue : RingQueue Value) : Option (Value × RingQueue Value) :=
  if queue.size = 0 then
    none
  else
    some (queue.cells queue.front, { queue with
        front := (queue.front + 1).tmod capacity
        size := queue.size - 1 })

def shift (capacity : Int) : Nat → (Int → Value) → Int → Int → Option (Int → Value)
  | 0, cells, index, rear => if index = rear then some cells else none
  | steps + 1, cells, index, rear =>
    if index = rear then
      some cells
    else
      shift capacity steps
        (update cells index (cells ((index + 1).tmod capacity)))
        ((index + 1).tmod capacity) rear

def remove (capacity : Int) (queue : RingQueue Value) (index : Int) :
    Option (Value × RingQueue Value) :=
  (shift capacity capacity.toNat queue.cells index queue.rear).map fun cells =>
    (queue.cells index, { queue with
        cells := cells
        rear := (queue.rear - 1 + capacity).tmod capacity
        size := queue.size - 1 })

def contents (capacity : Int) (queue : RingQueue Value) : List Value :=
  window queue.cells capacity queue.front queue.size.toNat

/-- The last cell is where the first one and the size say, or at -1 in a new queue. -/
structure Valid (capacity : Int) (queue : RingQueue Value) : Prop where
  front_nonneg : 0 ≤ queue.front
  front_lt : queue.front < capacity
  size_nonneg : 0 ≤ queue.size
  size_le : queue.size ≤ capacity
  rear_eq : queue.rear = (queue.front + queue.size - 1) % capacity ∨
    queue.rear = -1 ∧ queue.front = 0 ∧ queue.size = 0

variable {capacity : Int} {queue : RingQueue Value}

theorem valid_empty (positive : 0 < capacity) (cells : Int → Value) :
    (empty cells).Valid capacity :=
  ⟨Int.le_refl 0, positive, Int.le_refl 0, positive.le, .inr ⟨rfl, rfl, rfl⟩⟩

theorem push_of_full (full : queue.size = capacity) (value : Value) :
    push capacity queue value = queue := if_pos full

theorem size_push (notFull : queue.size ≠ capacity) (value : Value) :
    (push capacity queue value).size = queue.size + 1 := by
  rw [push, if_neg notFull]

theorem tmod_succ_emod (positive : 0 < capacity) (index : Int) :
    (index % capacity + 1).tmod capacity = (index + 1) % capacity := by
  have nonneg := Int.emod_nonneg index positive.ne.symm
  rw [Int.tmod_eq_emod_of_nonneg (by omega), Int.emod_add_emod]

namespace Valid

variable (valid : queue.Valid capacity)
include valid

theorem capacity_pos : 0 < capacity :=
  Int.lt_of_le_of_lt valid.front_nonneg valid.front_lt

theorem length_contents : ((queue.contents capacity).length : Int) = queue.size :=
  length_window_toNat queue.cells capacity queue.front valid.size_nonneg

theorem contents_eq_nil_iff : queue.contents capacity = [] ↔ queue.size = 0 :=
  window_toNat_eq_nil_iff queue.cells capacity queue.front valid.size_nonneg

theorem tmod_rear : (queue.rear + 1).tmod capacity = (queue.front + queue.size) % capacity := by
  rcases valid.rear_eq with rear | ⟨rear, front, size⟩
  · rw [rear, tmod_succ_emod valid.capacity_pos, Int.sub_add_cancel]
  · rw [rear, front, size]
    simp

theorem contents_push (notFull : queue.size ≠ capacity) (value : Value) :
    (push capacity queue value).contents capacity = queue.contents capacity ++ [value] := by
  have size_le := valid.size_le
  rw [push, if_neg notFull]
  exact window_push queue.cells valid.size_nonneg (by omega) valid.tmod_rear value

theorem push (value : Value) : (RingQueue.push capacity queue value).Valid capacity := by
  by_cases full : queue.size = capacity
  · rwa [push_of_full full]
  · have next := valid.tmod_rear
    obtain ⟨front_nonneg, front_lt, size_nonneg, size_le, -⟩ := valid
    rw [RingQueue.push, if_neg full]
    refine ⟨front_nonneg, front_lt, ?_, ?_, .inl ?_⟩
    · simp only
      omega
    · simp only
      omega
    · simp only [next]
      congr 1
      omega

theorem pop (notEmpty : queue.size ≠ 0) :
    ∃ value rest, RingQueue.pop capacity queue = some (value, rest) ∧ rest.Valid capacity ∧
      queue.contents capacity = value :: rest.contents capacity := by
  obtain ⟨front_nonneg, front_lt, size_nonneg, size_le, rear_eq⟩ := valid
  have next : (queue.front + 1).tmod capacity = (queue.front + 1) % capacity :=
    Int.tmod_eq_emod_of_nonneg (by omega)
  refine ⟨_, _, if_neg notEmpty, ⟨?_, ?_, ?_, ?_, .inl ?_⟩, ?_⟩
  · simp only [next]
    exact Int.emod_nonneg _ (by omega)
  · simp only [next]
    exact Int.emod_lt_of_pos _ (by omega)
  · simp only
    omega
  · simp only
    omega
  · rcases rear_eq with rear | ⟨-, -, isEmpty⟩
    · have same : queue.front + 1 + (queue.size - 1) - 1 = queue.front + queue.size - 1 := by
        omega
      simp only [next, Int.add_sub_assoc, Int.emod_add_emod]
      rw [rear, ← same, Int.add_sub_assoc]
    · exact absurd isEmpty notEmpty
  · simp only [contents, next]
    exact window_pop queue.cells front_nonneg front_lt (by omega)

end Valid

theorem shift_spec (front : Int) (cells : Int → Value) (k distance : Nat)
    (fits : ((k + distance : Nat) : Int) < capacity) {steps : Nat}
    (enough : distance ≤ steps) :
    ∃ shifted, shift capacity steps cells ((front + k) % capacity)
        ((front + (k + distance : Nat)) % capacity) = some shifted ∧
      ∀ j < k + distance, shifted ((front + j) % capacity) =
        if j < k then cells ((front + j) % capacity)
        else cells ((front + (j + 1 : Nat)) % capacity) := by
  have positive : 0 < capacity := by omega
  suffices general : ∃ shifted, shift capacity steps cells ((front + k) % capacity)
        ((front + (k + distance : Nat)) % capacity) = some shifted ∧
      ∀ j ≤ k + distance, shifted ((front + j) % capacity) =
        if j < k ∨ j = k + distance then cells ((front + j) % capacity)
        else cells ((front + (j + 1 : Nat)) % capacity) by
    obtain ⟨shifted, shifts, spec⟩ := general
    refine ⟨shifted, shifts, fun j below => ?_⟩
    rw [spec j below.le]
    simp only [Nat.ne_of_lt below, or_false]
  induction distance generalizing k cells steps with
  | zero =>
    refine ⟨cells, ?_, fun j below => ?_⟩
    · cases steps <;> exact if_pos rfl
    · rw [if_pos (by omega)]
  | succ distance ih =>
    obtain ⟨steps, rfl⟩ : ∃ fewer, steps = fewer + 1 := ⟨steps - 1, by omega⟩
    have notRear : (front + k) % capacity ≠ (front + (k + (distance + 1) : Nat)) % capacity :=
      emod_ne_of_lt (by omega) fits
    have next : ((front + k) % capacity + 1).tmod capacity =
        (front + (k + 1 : Nat)) % capacity := by
      rw [tmod_succ_emod positive, Nat.cast_add, Nat.cast_one, Int.add_assoc]
    have untouched : ∀ j, j ≤ k + (distance + 1) → j ≠ k →
        (front + j) % capacity ≠ (front + k) % capacity := by
      intro j below different
      rcases Nat.lt_or_gt_of_ne different with smaller | larger
      · exact emod_ne_of_lt smaller (by omega)
      · exact (emod_ne_of_lt larger (by omega)).symm
    have sum : k + 1 + distance = k + (distance + 1) := by omega
    obtain ⟨shifted, shifts, spec⟩ := ih (update cells ((front + k) % capacity)
      (cells ((front + (k + 1 : Nat)) % capacity))) (k + 1) (sum ▸ fits)
      (Nat.le_of_succ_le_succ enough)
    rw [sum] at shifts spec
    refine ⟨shifted, ?_, fun j below => ?_⟩
    · rw [shift, if_neg notRear, next]
      exact shifts
    · rw [spec j below]
      rcases Nat.lt_trichotomy j k with before | rfl | behind
      · rw [if_pos (by omega), if_pos (by omega), update_of_ne (untouched j below (by omega))]
      · rw [if_pos (by omega), if_neg (by omega), update_self]
      · by_cases isLast : j = k + (distance + 1)
        · rw [if_pos (by omega), if_pos (by omega), update_of_ne (untouched j below (by omega))]
        · rw [if_neg (by omega), if_neg (by omega),
            update_of_ne (untouched (j + 1) (by omega) (by omega))]

theorem getElem_window {cells : Int → Value} {front : Int} {count j : Nat}
    (inside : j < (window cells capacity front count).length) :
    (window cells capacity front count)[j] = cells ((front + j) % capacity) := by
  simp [window]

theorem Valid.remove (valid : queue.Valid capacity) {k : Nat}
    (inside : k < (queue.contents capacity).length) :
    ∃ rest, RingQueue.remove capacity queue ((queue.front + k) % capacity) =
        some ((queue.contents capacity)[k], rest) ∧
      rest.Valid capacity ∧ rest.contents capacity = (queue.contents capacity).eraseIdx k := by
  have length := valid.length_contents
  have positive := valid.capacity_pos
  obtain ⟨front_nonneg, front_lt, size_nonneg, size_le, rear_eq⟩ := valid
  obtain ⟨distance, sizeEq⟩ : ∃ distance : Nat, queue.size = (k + distance : Nat) + 1 :=
    ⟨queue.size.toNat - 1 - k, by omega⟩
  have rear : queue.rear = (queue.front + (k + distance : Nat)) % capacity := by
    rcases rear_eq with rear | ⟨-, -, isEmpty⟩
    · rw [rear, sizeEq]
      congr 1
      omega
    · omega
  have rearNonneg : 0 ≤ queue.rear := rear ▸ Int.emod_nonneg _ positive.ne.symm
  have fits : ((k + distance : Nat) : Int) < capacity := by omega
  obtain ⟨shifted, shifts, spec⟩ := shift_spec queue.front queue.cells k distance fits
    (show distance ≤ capacity.toNat by omega)
  rw [← rear] at shifts
  have newRear : (queue.rear - 1 + capacity).tmod capacity =
      (queue.front + (queue.size - 1) - 1) % capacity := by
    rw [Int.tmod_eq_emod_of_nonneg (by omega), Int.add_emod_right, rear, Int.emod_sub_emod, sizeEq]
    congr 1
    omega
  refine ⟨⟨shifted, queue.front, (queue.rear - 1 + capacity).tmod capacity, queue.size - 1⟩,
    ?_, ⟨front_nonneg, front_lt, ?_, ?_, .inl newRear⟩, ?_⟩
  · simp only [RingQueue.remove, shifts, map_some, contents, getElem_window]
  · simp only
    omega
  · simp only
    omega
  · have fewer : (queue.size - 1).toNat = k + distance := by omega
    have count : queue.size.toNat = k + distance + 1 := by omega
    simp only [contents, fewer, count]
    apply ext_getElem
    · rw [length_eraseIdx_of_lt (by rw [length_window]; omega), length_window,
        length_window, Nat.add_sub_cancel]
    · intro j inside _
      rw [length_window] at inside
      rw [getElem_window, spec j inside, getElem_eraseIdx]
      split <;> rw [getElem_window]

theorem Valid.rear_of_nonneg (valid : queue.Valid capacity) (nonneg : 0 ≤ queue.rear) :
    queue.rear = (queue.front + queue.size - 1) % capacity := by
  rcases valid.rear_eq with rear | ⟨rear, -⟩
  · exact rear
  · omega

theorem Valid.rear_remove (valid : queue.Valid capacity) (notEmpty : queue.size ≠ 0)
    {index : Int} {value : Value} {rest : RingQueue Value}
    (removed : RingQueue.remove capacity queue index = some (value, rest)) : 0 ≤ rest.rear := by
  have positive := valid.capacity_pos
  have rearNonneg : 0 ≤ queue.rear := by
    rcases valid.rear_eq with rear | ⟨-, -, isEmpty⟩
    · exact rear ▸ Int.emod_nonneg _ positive.ne.symm
    · exact absurd isEmpty notEmpty
  obtain ⟨cells, -, same⟩ := map_eq_some_iff.mp removed
  cases same
  exact Int.tmod_nonneg capacity (by omega)

end RingQueue

end BitsAndBytes
