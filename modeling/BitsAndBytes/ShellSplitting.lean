import BitsAndBytes.CheckedArray
import BitsAndBytes.ShellPipeline
import Mathlib.Data.List.TakeWhile

/-! # The splitting of a line by `sh.c` -/

namespace BitsAndBytes.ShellPipeline

open CheckedArray List Option

def maxCmdLength : Nat := 1024

structure Input where
  bytes : List Char
  length_lt : bytes.length < maxCmdLength
  newline_last : '\n' ∉ bytes.dropLast

/-- The string in `input` when the newline has been replaced. -/
def Input.text (input : Input) : List Char :=
  input.bytes.takeWhile fun c => c != '\x00' && c != '\n'

def strtok (delimiter : Char) (text : List Char) : Option (List Char × List Char) :=
  match text.dropWhile (· == delimiter) with
  | [] => none
  | first :: rest =>
    some ((first :: rest).takeWhile (· != delimiter),
      ((first :: rest).dropWhile (· != delimiter)).tail)

abbrev Pointers := Nat → Option (List Char)

def storeTokens (delimiter : Char) : Nat → Pointers → Nat → List Char → Option (Pointers × Nat)
  | 0, _, _, _ => none
  | bound + 1, array, count, text =>
    match strtok delimiter text with
    | none => (write maxArgs array count none).map fun array => (array, count)
    | some (token, rest) =>
      (write maxArgs array count (some token)).bind fun array =>
        storeTokens delimiter bound array (count + 1) rest

def splitCommands (commands : Pointers) (input : List Char) : Option (Pointers × Nat) :=
  storeTokens '|' (input.length + 1) commands 0 input

def splitArgs (args : Pointers) (command : List Char) : Option (Pointers × Nat) :=
  storeTokens ' ' (command.length + 1) args 0 command

def splitLine (commands : Pointers) (args : Nat → Pointers) (input : Input) :
    Option (List Pointers) :=
  if input.text = ['e', 'x', 'i', 't'] then
    some []
  else
    (splitCommands commands input.text).bind fun split =>
      (range split.2).mapM fun i =>
        (split.1 i).bind fun command => (splitArgs (args i) command).map Prod.fst

section

variable {delimiter : Char} {text token rest : List Char}

theorem tokens_nil : tokens delimiter [] = [] := rfl

theorem tokens_cons_self : tokens delimiter (delimiter :: text) = tokens delimiter text := by
  rw [tokens, tokens, splitOn, splitOnP_cons_eq_if_modifyHead, if_pos (beq_self_eq_true _)]
  rfl

theorem tokens_dropWhile : tokens delimiter (text.dropWhile (· == delimiter)) =
    tokens delimiter text := by
  induction text with
  | nil => rfl
  | cons c text ih =>
    by_cases same : c = delimiter
    · rw [dropWhile_cons_of_pos (by simpa using same), ih, same, tokens_cons_self]
    · rw [dropWhile_cons_of_neg (by simpa using same)]

theorem tokens_of_notMem (nonempty : token ≠ []) (whole : delimiter ∉ token) :
    tokens delimiter token = [token] := by
  have single : token.splitOn delimiter = [token] := by
    refine splitOnP_eq_singleton fun c member => ?_
    rw [beq_eq_false_iff_ne]
    rintro rfl
    exact whole member
  rw [tokens, single]
  simp [nonempty]

theorem tokens_append_cons (nonempty : token ≠ []) (whole : delimiter ∉ token) :
    tokens delimiter (token ++ delimiter :: rest) = token :: tokens delimiter rest := by
  have split := splitOnP_append_cons (p := (· == delimiter)) token rest
    (beq_self_eq_true delimiter)
  have single := tokens_of_notMem nonempty whole
  rw [tokens, splitOn] at *
  rw [split, filter_append, single]
  rfl

theorem tokens_of_strtok_eq_none (nothing : strtok delimiter text = none) :
    tokens delimiter text = [] := by
  rw [strtok] at nothing
  split at nothing
  · rename_i empty
    rw [← tokens_dropWhile, empty, tokens_nil]
  · cases nothing

theorem tokens_eq_cons {first : Char} (notDelimiter : first ≠ delimiter) :
    tokens delimiter (first :: text) = (first :: text).takeWhile (· != delimiter) ::
      tokens delimiter ((first :: text).dropWhile (· != delimiter)).tail := by
  have nonempty : (first :: text).takeWhile (· != delimiter) ≠ [] := by
    simp [notDelimiter]
  have whole : delimiter ∉ (first :: text).takeWhile (· != delimiter) := by
    intro member
    simpa using mem_takeWhile_imp member
  have parts := takeWhile_append_dropWhile (p := (· != delimiter)) (l := first :: text)
  cases after : (first :: text).dropWhile (· != delimiter) with
  | nil =>
    rw [after, append_nil] at parts
    rw [tail_nil, tokens_nil, ← tokens_of_notMem nonempty whole, parts]
  | cons last behind =>
    have isDelimiter : last = delimiter := by
      have head := head_dropWhile_not (· != delimiter) (l := first :: text) (by simp [after])
      simpa [after] using head
    rw [after, isDelimiter] at parts
    rw [tail_cons, ← tokens_append_cons nonempty whole, parts]

theorem tokens_of_strtok_eq_some (found : strtok delimiter text = some (token, rest)) :
    tokens delimiter text = token :: tokens delimiter rest ∧ rest.length < text.length := by
  rw [strtok] at found
  split at found
  · cases found
  · rename_i first others start
    obtain ⟨rfl, rfl⟩ := Prod.mk.inj (some.inj found)
    have notDelimiter : first ≠ delimiter := by
      have head := head_dropWhile_not (· == delimiter) (l := text) (by simp [start])
      simpa [start] using head
    have shorter : (first :: others).length ≤ text.length := by
      rw [← start]
      exact (dropWhile_suffix _).length_le
    have rest := (dropWhile_suffix (· != delimiter) (l := first :: others)).length_le
    rw [← tokens_dropWhile, start, tokens_eq_cons notDelimiter, length_tail]
    rw [length_cons] at shorter rest
    exact ⟨rfl, by omega⟩

end

section

variable {delimiter : Char} {bound count : Nat} {array : Pointers} {text : List Char}
  {stored : List (Option (List Char))}

theorem exists_storeTokens (enough : text.length < bound) (holds : Holds array stored)
    (room : stored.length + (tokens delimiter text).length < maxArgs) :
    ∃ result, storeTokens delimiter bound array stored.length text =
        some (result, stored.length + (tokens delimiter text).length) ∧
      Holds result (stored ++ (tokens delimiter text).map some ++ [none]) := by
  induction bound generalizing array stored text with
  | zero => omega
  | succ bound ih =>
    cases found : strtok delimiter text with
    | none =>
      rw [tokens_of_strtok_eq_none found, length_nil, Nat.add_zero] at room ⊢
      refine ⟨Function.update array stored.length none, ?_, ?_⟩
      · rw [storeTokens, found]
        simp only
        rw [write_of_lt room, map_some, Nat.add_zero]
      · rw [map_nil, append_nil]
        exact holds.concat none
    | some split =>
      obtain ⟨token, rest⟩ := split
      obtain ⟨tokensEq, shorter⟩ := tokens_of_strtok_eq_some found
      rw [tokensEq, length_cons] at room ⊢
      have moreRoom : (stored ++ [some token]).length + (tokens delimiter rest).length <
          maxArgs := by
        rw [length_append, length_singleton]
        omega
      obtain ⟨result, storeEq, resultHolds⟩ := ih (by omega) (holds.concat (some token)) moreRoom
      rw [length_append, length_singleton, Nat.add_assoc, Nat.add_comm 1] at storeEq
      refine ⟨result, ?_, ?_⟩
      · rw [storeTokens, found]
        simp only
        rw [write_of_lt (by omega), bind_some, storeEq]
      · rw [append_assoc stored, singleton_append] at resultHolds
        rwa [map_cons]

theorem storeTokens_eq_none (full : maxArgs ≤ count + (tokens delimiter text).length) :
    storeTokens delimiter bound array count text = none := by
  induction bound generalizing array count text with
  | zero => rfl
  | succ bound ih =>
    rw [storeTokens]
    cases found : strtok delimiter text with
    | none =>
      rw [tokens_of_strtok_eq_none found, length_nil, Nat.add_zero] at full
      rw [write_of_le full, map_none]
    | some split =>
      obtain ⟨token, rest⟩ := split
      obtain ⟨tokensEq, -⟩ := tokens_of_strtok_eq_some found
      rw [tokensEq, length_cons] at full
      rw [bind_eq_none_iff]
      intro next _
      exact ih (by omega)

theorem isSome_storeTokens_iff (delimiter : Char) (array : Pointers) (text : List Char) :
    (storeTokens delimiter (text.length + 1) array 0 text).isSome ↔
      (tokens delimiter text).length < maxArgs := by
  rcases Nat.lt_or_ge (tokens delimiter text).length maxArgs with room | full
  · have space : ([] : List (Option (List Char))).length + (tokens delimiter text).length <
        maxArgs := by
      rwa [length_nil, Nat.zero_add]
    obtain ⟨result, storeEq, -⟩ :=
      exists_storeTokens (Nat.lt_succ_self text.length) (holds_nil array) space
    rw [length_nil] at storeEq
    rw [storeEq]
    exact iff_of_true rfl room
  · rw [← Nat.zero_add (tokens delimiter text).length] at full
    rw [storeTokens_eq_none full]
    exact iff_of_false Bool.false_ne_true (by omega)

theorem exists_splitCommands (commands : Pointers) {text : List Char}
    (room : (tokens '|' text).length < maxArgs) :
    ∃ result, splitCommands commands text = some (result, (tokens '|' text).length) ∧
      ∀ i (inside : i < (tokens '|' text).length), result i = some (tokens '|' text)[i] := by
  have space : ([] : List (Option (List Char))).length + (tokens '|' text).length < maxArgs := by
    rwa [length_nil, Nat.zero_add]
  obtain ⟨result, storeEq, holds⟩ :=
    exists_storeTokens (Nat.lt_succ_self text.length) (holds_nil commands) space
  rw [length_nil, Nat.zero_add] at storeEq
  refine ⟨result, storeEq, fun i inside => ?_⟩
  have entry := holds i (by simp; omega)
  rw [entry]
  simp [getElem_append_left, inside]

theorem isSome_mapM_iff {Index Value : Type} (f : Index → Option Value) (indices : List Index) :
    (indices.mapM f).isSome ↔ ∀ i ∈ indices, (f i).isSome := by
  induction indices with
  | nil => simp
  | cons i indices ih =>
    rw [mapM_cons, forall_mem_cons, ← ih]
    cases f i with
    | none => simp
    | some value => cases indices.mapM f <;> simp

end

theorem isSome_bind_splitCommands_iff (commands : Pointers) (args : Nat → Pointers)
    (text : List Char) :
    ((splitCommands commands text).bind fun split => (range split.2).mapM fun i =>
      (split.1 i).bind fun command => (splitArgs (args i) command).map Prod.fst).isSome ↔
      Fits text := by
  rcases Nat.lt_or_ge (tokens '|' text).length maxArgs with room | full
  · obtain ⟨result, splitEq, stored⟩ := exists_splitCommands commands room
    rw [splitEq, bind_some, isSome_mapM_iff, Fits, and_iff_right room]
    constructor
    · intro all command member
      obtain ⟨i, inside, rfl⟩ := getElem_of_mem member
      have split := all i (mem_range.mpr inside)
      simp only [stored i inside, bind_some, isSome_map] at split
      exact (isSome_storeTokens_iff _ _ _).mp split
    · intro all i member
      have inside := mem_range.mp member
      simp only [stored i inside, bind_some, isSome_map]
      exact (isSome_storeTokens_iff _ _ _).mpr (all _ (getElem_mem inside))
  · have overflows : splitCommands commands text = none := by
      exact storeTokens_eq_none (by omega)
    rw [overflows, bind_none, Fits]
    exact iff_of_false Bool.false_ne_true fun fits => absurd fits.1 (Nat.not_lt.mpr full)

/-- All is stored inside exactly if there are fewer than `MAX_ARGS` commands and words. -/
theorem split_line_inside_iff_fits (commands : Pointers) (args : Nat → Pointers)
    (input : Input) : (splitLine commands args input).isSome ↔ Fits input.text := by
  rw [splitLine]
  split
  · rename_i isExit
    rw [isExit]
    exact iff_of_true rfl ⟨by decide, by decide⟩
  · exact isSome_bind_splitCommands_iff commands args input.text

def manyCommands : List Char :=
  'a' :: (replicate 63 ['|', 'a']).flatten

theorem mem_manyCommands {c : Char} (member : c ∈ manyCommands) : c = 'a' ∨ c = '|' := by
  rw [manyCommands, mem_cons, mem_flatten] at member
  rcases member with isLetter | ⟨part, partMember, inPart⟩
  · exact .inl isLetter
  · rw [eq_of_mem_replicate partMember] at inPart
    simpa [or_comm] using inPart

theorem many_commands_outside : ∃ input : Input, input.bytes = manyCommands ∧
      splitLine (fun _ => none) (fun _ _ => none) input = none := by
  have noNewline : '\n' ∉ manyCommands := by
    intro member
    exact absurd (mem_manyCommands member) (by decide)
  refine ⟨⟨manyCommands, by rw [manyCommands]; simp [maxCmdLength], fun member =>
    noNewline (mem_of_mem_dropLast member)⟩, rfl, ?_⟩
  have text : manyCommands.takeWhile (fun c => c != '\x00' && c != '\n') =
      manyCommands := by
    rw [takeWhile_eq_self_iff]
    intro c member
    rcases mem_manyCommands member with rfl | rfl
    · rfl
    · rfl
  have many : (tokens '|' manyCommands).length = 64 := by decide
  have tooMany : ¬ Fits manyCommands := by
    intro fits
    exact absurd fits.1 (by rw [many]; decide)
  rw [splitLine, Input.text, text, if_neg (by decide), ← not_isSome_iff_eq_none,
    isSome_bind_splitCommands_iff]
  exact tooMany

end BitsAndBytes.ShellPipeline
