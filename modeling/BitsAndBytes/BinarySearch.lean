import BitsAndBytes.SignedInt
import BitsAndBytes.X86

/-! # The two searches of `binary_search.c` and `binary_search.asm` -/

namespace BitsAndBytes.BinarySearch

open SignedInt X86 List Option

def element (arr : List Int32) (index : Int) : Option Int32 :=
  if 0 ≤ index then arr[index.toNat]? else none

def searchLoop (arr : List Int32) (target : Int) : Nat → Int → Int → Option Int
  | 0, _, _ => none
  | bound + 1, left, right =>
    if left ≤ right then
      (checked (left + right)).bind fun sum =>
        let mid := sum >>> (1 : Nat)
        (element arr mid).bind fun midVal =>
          if midVal.toInt = target then
            some mid
          else if midVal.toInt < target then
            (checked (mid + 1)).bind fun left => searchLoop arr target bound left right
          else
            (checked (mid - 1)).bind fun right => searchLoop arr target bound left right
    else
      some (-1)

def binarySearchC (arr : List Int32) (size target : Int) : Option Int :=
  (checked (size - 1)).bind fun right => searchLoop arr target (size.toNat + 1) 0 right

inductive Label
  | loop | found | notFound
deriving DecidableEq, Repr

def binarySearchAsm : List (Instruction Label) :=
  [.xor .rax .rax, .lea .rcx .rsi (-1),
    .label .loop,
    .cmp .rax .rcx,
    .jcc .g .notFound,
    .mov .r8 .rax,
    .add .r8 .rcx,
    .shr .r8,
    .load .r9 .rdi .r8,
    .cmp .r9 .rdx,
    .jcc .e .found,
    .lea .r10 .r8 1,
    .lea .r11 .r8 (-1),
    .cmov .l .rax .r10,
    .cmov .g .rcx .r11,
    .jmp .loop,
    .label .found,
    .mov .rax .r8,
    .ret,
    .label .notFound,
    .movImm .rax (-1),
    .ret]

/-- The words of the array stand in memory from the address on. -/
def ArrayAt (memory : Memory) (address : BitVec 64) (arr : List Int32) : Prop :=
  ∀ i (inside : i < arr.length),
    load32 memory (address + BitVec.ofNat 64 i * 4) = some arr[i].toBitVec

/-- The state in which `binary_search_asm` is entered. -/
structure Entered (state : State) (arr : List Int32) (size target : Int32) : Prop where
  line : state.line = 0
  array : ArrayAt state.memory (state.registers .rdi) arr
  size : state.get .rsi = size.toBitVec
  target : state.get .rdx = target.toBitVec

/-- The registers hold the array, the target and the ends of the interval. -/
structure Searching (state : State) (arr : List Int32) (target : Int32) (left right : Int) :
    Prop where
  array : ArrayAt state.memory (state.registers .rdi) arr
  target : state.get .rdx = target.toBitVec
  left : state.get .rax = BitVec.ofInt 32 left
  right : state.get .rcx = BitVec.ofInt 32 right

variable {allowed : Set (BitVec 64)} {state : State} {arr : List Int32}
  {size target midVal : Int32} {left right mid : Int}

theorem toInt_ofInt {value : Int} (low : -1 ≤ value) (high : value ≤ 2147483647) :
    (BitVec.ofInt 32 value).toInt = value := by
  rw [BitVec.toInt_ofInt]
  apply Int.bmod_eq_of_le <;> omega

theorem registers_rdi {start finish : State}
    (within : RunsWithin allowed binarySearchAsm start finish) :
    finish.registers .rdi = start.registers .rdi := within.runs.registers_eq (by decide)

theorem Entered.runs (entered : Entered state arr size target) :
    ∃ next, RunsWithin allowed binarySearchAsm state next ∧ next.line = 2 ∧
      Searching next arr target 0 (size.toInt - 1) := by
  obtain ⟨line, array, sizeEq, targetEq⟩ := entered
  obtain ⟨base, rfl⟩ := exists_eq_jump line
  refine ⟨_, (runsWithin_of_execute rfl rfl rfl).trans (runsWithin_of_execute rfl rfl rfl), rfl, ?_,
    ?_, ?_, ?_⟩
  · simpa using array
  · simpa using targetEq
  · simp
  · rw [get_jump] at sizeEq
    simp [sizeEq, Int.sub_eq_add_neg, BitVec.ofInt_add]

namespace Searching

variable (searching : Searching state arr target left right)
include searching

theorem holds_g_iff (leftLow : -1 ≤ left) (leftHigh : left ≤ 2147483647) (rightLow : -1 ≤ right)
    (rightHigh : right ≤ 2147483647) :
    Condition.g.holds (subFlags (state.get .rax) (state.get .rcx)) ↔ right < left := by
  rw [holds_g_subFlags, searching.left, searching.right, toInt_ofInt leftLow leftHigh,
    toInt_ofInt rightLow rightHigh]

theorem exits (line : state.line = 2) (empty : right < left) (rightLow : -1 ≤ right)
    (leftHigh : left ≤ 2147483647) :
    ReturnsWithin allowed binarySearchAsm state (BitVec.ofInt 32 (-1)) := by
  have greater := (searching.holds_g_iff (by omega) leftHigh rightLow (by omega)).mpr empty
  obtain ⟨base, rfl⟩ := exists_eq_jump line
  refine ((runsWithin_of_execute rfl rfl rfl).trans (runsWithin_of_execute rfl rfl
    rfl)).returnsWithin ?_
  refine (runsWithin_jcc_of_holds rfl greater).returnsWithin ?_
  refine ((runsWithin_of_execute rfl rfl rfl).trans (runsWithin_of_execute rfl rfl
    rfl)).returnsWithin ?_
  exact ⟨_, .refl _, rfl, get_set_self ..⟩

theorem entersBody (line : state.line = 2) (nonempty : left ≤ right) (leftLow : -1 ≤ left)
    (rightHigh : right ≤ 2147483647) :
    ∃ next, RunsWithin allowed binarySearchAsm state next ∧ next.line = 5 ∧
      Searching next arr target left right := by
  have notGreater := (searching.holds_g_iff leftLow (by omega) (by omega) rightHigh).not.mpr
    (not_lt.mpr nonempty)
  obtain ⟨base, rfl⟩ := exists_eq_jump line
  refine ⟨_, ((runsWithin_of_execute rfl rfl rfl).trans (runsWithin_of_execute rfl rfl rfl)).trans
    (runsWithin_jcc_of_not_holds rfl notGreater), rfl, ?_⟩
  exact ⟨searching.array, searching.target, searching.left, searching.right⟩

theorem halves {mid : Nat} (line : state.line = 5)
    (halved : (state.get .rax + state.get .rcx) >>> 1 = BitVec.ofNat 32 mid)
    (midLt : mid < 4294967296) :
    ∃ next, RunsWithin allowed binarySearchAsm state next ∧ next.line = 8 ∧
      Searching next arr target left right ∧ next.registers .r8 = BitVec.ofNat 64 mid := by
  have widened : (BitVec.ofNat 32 mid).setWidth 64 = BitVec.ofNat 64 mid := by
    rw [BitVec.setWidth_ofNat_of_le_of_lt (by decide) midLt]
  obtain ⟨base, rfl⟩ := exists_eq_jump line
  refine ⟨_, (runsWithin_of_execute rfl rfl rfl).trans ((runsWithin_of_execute rfl rfl rfl).trans
    (runsWithin_of_execute rfl rfl rfl)), rfl, ⟨?_, ?_, ?_, ?_⟩, ?_⟩
  · simpa using searching.array
  · simpa using searching.target
  · simpa using searching.left
  · simpa using searching.right
  · rw [get_jump, get_jump] at halved
    simp [halved, widened]

theorem compares {mid : Nat} (line : state.line = 8)
    (middle : state.registers .r8 = BitVec.ofNat 64 mid) (read : arr[mid]? = some midVal)
    (inside : state.registers .rdi + BitVec.ofNat 64 mid * 4 ∈ allowed) :
    ∃ next, RunsWithin allowed binarySearchAsm state next ∧ next.line = 10 ∧
      Searching next arr target left right ∧ next.registers .r8 = BitVec.ofNat 64 mid ∧
        next.flags = subFlags midVal.toBitVec target.toBitVec := by
  obtain ⟨isIndex, rfl⟩ := List.getElem?_eq_some_iff.mp read
  have loaded := searching.array mid isIndex
  rw [← middle] at loaded inside
  obtain ⟨base, rfl⟩ := exists_eq_jump line
  refine ⟨_, (runsWithin_load rfl inside loaded).trans (runsWithin_of_execute rfl rfl rfl), rfl,
    ⟨?_, ?_, ?_, ?_⟩,
    ?_, ?_⟩
  · simpa using searching.array
  · simpa using searching.target
  · simpa using searching.left
  · simpa using searching.right
  · simpa using middle
  · have targetEq := searching.target
    show subFlags _ _ = _
    simp [targetEq]

theorem finds {mid : Nat} (line : state.line = 10)
    (middle : state.registers .r8 = BitVec.ofNat 64 mid)
    (flags : state.flags = subFlags midVal.toBitVec target.toBitVec) (equal : midVal = target) :
    ReturnsWithin allowed binarySearchAsm state (BitVec.ofInt 32 mid) := by
  have holds : Condition.e.holds state.flags := by rw [flags, holds_e_subFlags, equal]
  obtain ⟨base, rfl⟩ := exists_eq_jump line
  refine (runsWithin_jcc_of_holds rfl holds).returnsWithin ?_
  refine ((runsWithin_of_execute rfl rfl rfl).trans (runsWithin_of_execute rfl rfl
    rfl)).returnsWithin ?_
  refine ⟨_, .refl _, rfl, ?_⟩
  simp [State.get, middle]

theorem prepares {mid : Nat} (line : state.line = 10)
    (middle : state.registers .r8 = BitVec.ofNat 64 mid)
    (flags : state.flags = subFlags midVal.toBitVec target.toBitVec) (different : midVal ≠ target) :
    ∃ next, RunsWithin allowed binarySearchAsm state next ∧ next.line = 13 ∧
      Searching next arr target left right ∧ next.get .r10 = BitVec.ofInt 32 (mid + 1) ∧
        next.get .r11 = BitVec.ofInt 32 (mid - 1) ∧ next.flags = state.flags := by
  have fails : ¬ Condition.e.holds state.flags := by
    rw [flags, holds_e_subFlags]
    exact fun equal => different (Int32.toBitVec_inj.mp equal)
  obtain ⟨base, rfl⟩ := exists_eq_jump line
  have middleEq : base.get .r8 = BitVec.ofInt 32 mid := by
    rw [registers_jump] at middle
    simp [State.get, middle]
  refine ⟨_, (runsWithin_jcc_of_not_holds rfl fails).trans
    ((runsWithin_of_execute rfl rfl rfl).trans (runsWithin_of_execute rfl rfl rfl)), rfl,
    ⟨?_, ?_, ?_, ?_⟩, ?_, ?_, ?_⟩
  · simpa using searching.array
  · simpa using searching.target
  · simpa using searching.left
  · simpa using searching.right
  · simp [middleEq, BitVec.ofInt_add]
  · simp [middleEq, Int.sub_eq_add_neg, BitVec.ofInt_add]
  · rfl

theorem selects (line : state.line = 13)
    (flags : state.flags = subFlags midVal.toBitVec target.toBitVec) {newLeft newRight : Int}
    (leftEq : (if midVal.toInt < target.toInt then state.get .r10 else state.get .rax) =
      BitVec.ofInt 32 newLeft)
    (rightEq : (if target.toInt < midVal.toInt then state.get .r11 else state.get .rcx) =
      BitVec.ofInt 32 newRight) :
    ∃ next, RunsWithin allowed binarySearchAsm state next ∧ next.line = 2 ∧
      Searching next arr target newLeft newRight := by
  have less := holds_l_subFlags midVal.toBitVec target.toBitVec
  have greater := holds_g_subFlags midVal.toBitVec target.toBitVec
  rw [← flags] at less greater
  obtain ⟨base, rfl⟩ := exists_eq_jump line
  rw [flags_jump] at less greater
  refine ⟨_, (runsWithin_of_execute rfl rfl rfl).trans ((runsWithin_of_execute rfl rfl rfl).trans
    (runsWithin_of_execute rfl rfl rfl)), rfl, ⟨?_, ?_, ?_, ?_⟩⟩
  · simpa using searching.array
  · simpa using searching.target
  · rw [← leftEq]
    by_cases holds : midVal.toInt < target.toInt
    · simp [less.mpr holds, holds]
    · simp [mt less.mp holds, holds]
  · rw [← rightEq]
    by_cases holds : target.toInt < midVal.toInt
    · simp [greater.mpr holds, holds]
    · simp [mt greater.mp holds, holds]

end Searching

theorem halved_sum (leftLow : 0 ≤ left) (rightLow : 0 ≤ right) (leftHigh : left ≤ 2147483646)
    (rightHigh : right ≤ 2147483646) :
    (BitVec.ofInt 32 left + BitVec.ofInt 32 right) >>> 1 =
      BitVec.ofNat 32 ((left + right) / 2).toNat := by
  obtain ⟨low, rfl⟩ := Int.eq_ofNat_of_zero_le leftLow
  obtain ⟨high, rfl⟩ := Int.eq_ofNat_of_zero_le rightLow
  apply BitVec.eq_of_toNat_eq
  simp [BitVec.toNat_ushiftRight, Nat.shiftRight_eq_div_pow]
  omega

theorem read_middle (leftLow : 0 ≤ left) (nonempty : left ≤ right) (inside : right < arr.length) :
    ∃ midVal, arr[((left + right) / 2).toNat]? = some midVal ∧
      element arr ((left + right) / 2) = some midVal := by
  have bound : ((left + right) / 2).toNat < arr.length := by omega
  have nonneg : 0 ≤ (left + right) / 2 := by omega
  exact ⟨arr[((left + right) / 2).toNat], getElem?_eq_getElem bound,
    by rw [element, if_pos nonneg, getElem?_eq_getElem bound]⟩

theorem searchLoop_of_nonempty {bound : Nat} {target : Int} (leftLow : 0 ≤ left)
    (nonempty : left ≤ right) (rightHigh : right ≤ 1073741823)
    (read : element arr ((left + right) / 2) = some midVal) :
    searchLoop arr target (bound + 1) left right =
      if midVal.toInt = target then
        some ((left + right) / 2)
      else if midVal.toInt < target then
        searchLoop arr target bound ((left + right) / 2 + 1) right
      else
        searchLoop arr target bound left ((left + right) / 2 - 1) := by
  have shifted : (left + right) >>> (1 : Nat) = (left + right) / 2 := by
    rw [Int.shiftRight_eq_div_pow]
    rfl
  rw [searchLoop, if_pos nonempty,
    checked_bind (by simp only [intMin]; omega) (by simp only [intMax]; omega), shifted]
  simp only [read, bind_some]
  rw [checked_bind (by simp only [intMin]; omega) (by simp only [intMax]; omega),
    checked_bind (by simp only [intMin]; omega) (by simp only [intMax]; omega)]

theorem Searching.turn (searching : Searching state arr target left right)
    (line : state.line = 2) (leftLow : 0 ≤ left) (nonempty : left ≤ right)
    (rightHigh : right ≤ 2147483646) (read : arr[((left + right) / 2).toNat]? = some midVal)
    (inside : state.registers .rdi + BitVec.ofNat 64 ((left + right) / 2).toNat * 4 ∈ allowed) :
    (midVal = target → ReturnsWithin allowed binarySearchAsm state (BitVec.ofInt 32 ((left + right)
      / 2))) ∧
      (midVal.toInt < target.toInt →
        ∃ next, RunsWithin allowed binarySearchAsm state next ∧ next.line = 2 ∧
        Searching next arr target ((left + right) / 2 + 1) right) ∧
      (target.toInt < midVal.toInt →
        ∃ next, RunsWithin allowed binarySearchAsm state next ∧ next.line = 2 ∧
        Searching next arr target left ((left + right) / 2 - 1)) := by
  have midEq : ((((left + right) / 2).toNat : Nat) : Int) = (left + right) / 2 := by omega
  obtain ⟨body, toBody, bodyLine, inBody⟩ :=
    searching.entersBody line nonempty (by omega) (by omega)
  have halved := halved_sum leftLow (by omega) (by omega) rightHigh
  rw [← inBody.left, ← inBody.right] at halved
  obtain ⟨probe, toProbe, probeLine, inProbe, middle⟩ := inBody.halves bodyLine halved (by omega)
  rw [← registers_rdi (toBody.trans toProbe)] at inside
  obtain ⟨compared, toCompared, comparedLine, inCompared, stillMiddle, flags⟩ :=
    inProbe.compares probeLine middle read inside
  have arrives := (toBody.trans toProbe).trans toCompared
  refine ⟨fun equal => ?_, fun less => ?_, fun greater => ?_⟩
  · rw [← midEq]
    exact arrives.returnsWithin (inCompared.finds comparedLine stillMiddle flags equal)
  · have different : midVal ≠ target := by
      rintro rfl
      omega
    obtain ⟨ready, toReady, readyLine, inReady, candidate, -, sameFlags⟩ :=
      inCompared.prepares comparedLine stillMiddle flags different
    rw [midEq] at candidate
    obtain ⟨next, toNext, nextLine, inNext⟩ :=
      inReady.selects readyLine (sameFlags.trans flags) ((if_pos less).trans candidate)
        ((if_neg less.asymm).trans inReady.right)
    exact ⟨next, (arrives.trans toReady).trans toNext, nextLine, inNext⟩
  · have different : midVal ≠ target := by
      rintro rfl
      omega
    obtain ⟨ready, toReady, readyLine, inReady, -, candidate, sameFlags⟩ :=
      inCompared.prepares comparedLine stillMiddle flags different
    rw [midEq] at candidate
    obtain ⟨next, toNext, nextLine, inNext⟩ := inReady.selects readyLine (sameFlags.trans flags)
        ((if_neg greater.asymm).trans inReady.left) ((if_pos greater).trans candidate)
    exact ⟨next, (arrives.trans toReady).trans toNext, nextLine, inNext⟩

theorem Searching.agree {bound : Nat} (searching : Searching state arr target left right)
    (line : state.line = 2) (leftLow : 0 ≤ left) (ordered : left ≤ right + 1)
    (rightHigh : right ≤ 1073741823) (inside : right < arr.length)
    (enough : right + 1 - left < bound) :
    ∃ value, searchLoop arr target.toInt bound left right = some value ∧
      -1 ≤ value ∧ value ≤ 1073741823 ∧
        ReturnsWithin Set.univ binarySearchAsm state (BitVec.ofInt 32 value) := by
  induction bound generalizing state left right with
  | zero => omega
  | succ bound ih =>
    by_cases nonempty : left ≤ right
    · obtain ⟨midVal, read, elementEq⟩ := read_middle leftLow nonempty inside
      obtain ⟨found, less, greater⟩ :=
        searching.turn line leftLow nonempty (by omega) read (Set.mem_univ _)
      rw [searchLoop_of_nonempty leftLow nonempty rightHigh elementEq]
      by_cases equal : midVal = target
      · refine ⟨(left + right) / 2, ?_, by omega, by omega, found equal⟩
        rw [if_pos (congrArg Int32.toInt equal)]
      · have different : midVal.toInt ≠ target.toInt := fun same =>
          equal (Int32.toInt_inj.mp same)
        rw [if_neg different]
        by_cases smaller : midVal.toInt < target.toInt
        · obtain ⟨next, runs, nextLine, inNext⟩ := less smaller
          obtain ⟨value, loopEq, low, high, returns⟩ := ih inNext nextLine (by omega)
            (by omega) rightHigh inside (by omega)
          rw [if_pos smaller]
          exact ⟨value, loopEq, low, high, runs.returnsWithin returns⟩
        · obtain ⟨next, runs, nextLine, inNext⟩ := greater (by omega)
          obtain ⟨value, loopEq, low, high, returns⟩ := ih inNext nextLine leftLow
            (by omega) (by omega) (by omega) (by omega)
          rw [if_neg smaller]
          exact ⟨value, loopEq, low, high, runs.returnsWithin returns⟩
    · have empty : right < left := by omega
      refine ⟨-1, ?_, le_rfl, by decide, ?_⟩
      · rw [searchLoop, if_neg nonempty]
      · exact searching.exits line empty (by omega) (by omega)

/-- `binary_search_c` returns a value, and `binary_search_asm` returns it and no other. -/
theorem binary_searches_agree (arr : List Int32) (size target : Int32)
    (nonneg : 0 ≤ size.toInt) (small : size.toInt ≤ 1073741824) (fits : size.toInt ≤ arr.length)
    (state : State) (entered : Entered state arr size target) :
    ∃ value : Int32, binarySearchC arr size.toInt target.toInt = some value.toInt ∧
      ∀ word, Returns binarySearchAsm state word ↔ word = value.toBitVec := by
  obtain ⟨head, runs, line, searching⟩ := entered.runs
  obtain ⟨value, loopEq, low, high, returns⟩ := searching.agree line le_rfl (by omega)
    (by omega) (by omega) (by omega : size.toInt - 1 + 1 - 0 < (size.toInt.toNat + 1 : Nat))
  have exact : (Int32.ofInt value).toInt = value := toInt_ofInt low (by omega)
  refine ⟨Int32.ofInt value, ?_, fun word => ⟨fun other => ?_, ?_⟩⟩
  · rw [binarySearchC, checked_bind (by simp only [intMin]; omega) (by simp only [intMax]; omega),
      loopEq, exact]
  · exact other.unique (runs.returnsWithin returns).returns
  · rintro rfl
    exact (runs.returnsWithin returns).returns

def threeNumbers : State where
  registers
    | .rdi => 4096
    | .rsi => 3
    | .rdx => 3
    | _ => 0
  flags := ⟨false, false, false⟩
  line := 0
  memory := fun address =>
    ([5, 0, 0, 0, 3, 0, 0, 0, 8, 0, 0, 0] : List (BitVec 8))[(address - 4096).toNat]?

theorem entered_threeNumbers : Entered threeNumbers [5, 3, 8] 3 3 := by
  refine ⟨rfl, ?_, rfl, rfl⟩
  intro i inside
  match i with
  | 0 => rfl
  | 1 => rfl
  | 2 => rfl

theorem binary_searches_agree_on_three_numbers :
    ∃ value : Int32, binarySearchC [5, 3, 8] 3 3 = some value.toInt ∧ value = 1 ∧
      Returns binarySearchAsm threeNumbers value.toBitVec := by
  obtain ⟨value, searched, returns⟩ := binary_searches_agree [5, 3, 8] 3 3 (by decide)
    (by decide) (by decide) threeNumbers entered_threeNumbers
  have found : binarySearchC [5, 3, 8] (Int32.toInt 3) (Int32.toInt 3) =
      some (Int32.toInt 1) := by decide
  rw [found, some.injEq, Int32.toInt_inj] at searched
  exact ⟨1, by decide, rfl, (returns _).mpr (congrArg Int32.toBitVec searched)⟩

end BitsAndBytes.BinarySearch
