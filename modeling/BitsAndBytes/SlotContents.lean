import Mathlib.Data.Finset.Card

/-! # The entries of a table of slots -/

namespace BitsAndBytes.SlotContents

open Function List

variable {Entry : Type*}

def contents (capacity : Nat) (entryAt : Nat → Option Entry) : Multiset Entry :=
  (Multiset.range capacity).filterMap entryAt

def others (capacity : Nat) (entryAt : Nat → Option Entry) (slot : Nat) : Multiset Entry :=
  ((Multiset.range capacity).erase slot).filterMap entryAt

variable {capacity slot : Nat} {entryAt : Nat → Option Entry} {entry : Entry}

theorem mem_contents :
    entry ∈ contents capacity entryAt ↔ ∃ slot < capacity, entryAt slot = some entry := by
  simp only [contents, Multiset.mem_filterMap, Multiset.mem_range]

theorem contents_of_entry (slotLt : slot < capacity) (stored : entryAt slot = some entry) :
    contents capacity entryAt = entry ::ₘ others capacity entryAt slot := by
  rw [contents, ← Multiset.cons_erase (Multiset.mem_range.mpr slotLt),
    Multiset.filterMap_cons_some _ _ _ stored, others]

theorem contents_of_empty (slotLt : slot < capacity) (isEmpty : entryAt slot = none) :
    contents capacity entryAt = others capacity entryAt slot := by
  rw [contents, ← Multiset.cons_erase (Multiset.mem_range.mpr slotLt),
    Multiset.filterMap_cons_none _ _ isEmpty, others]

theorem others_update (content : Option Entry) :
    others capacity (update entryAt slot content) slot = others capacity entryAt slot := by
  have unchanged : ((Multiset.range capacity).erase slot).map
        (update entryAt slot content) = ((Multiset.range capacity).erase slot).map entryAt := by
    apply Multiset.map_congr rfl
    intro other member
    have different := ((Multiset.nodup_range capacity).mem_erase_iff.mp member).1
    rw [update_of_ne different]
  have collected := congrArg (Multiset.filterMap id) unchanged
  rwa [Multiset.filterMap_map, Multiset.filterMap_map, id_comp, id_comp] at collected

theorem contents_fill (slotLt : slot < capacity) (isEmpty : entryAt slot = none) :
    contents capacity (update entryAt slot (some entry)) = entry ::ₘ contents capacity entryAt := by
  rw [contents_of_entry slotLt (update_self slot _ entryAt), others_update,
    contents_of_empty slotLt isEmpty]

theorem cons_contents_clear (slotLt : slot < capacity) (stored : entryAt slot = some entry) :
    entry ::ₘ contents capacity (update entryAt slot none) = contents capacity entryAt := by
  rw [contents_of_empty slotLt (update_self slot _ entryAt), others_update,
    contents_of_entry slotLt stored]

theorem contents_vacant (vacant : ∀ slot < capacity, entryAt slot = none) :
    contents capacity entryAt = 0 := by
  apply Multiset.eq_zero_of_forall_notMem
  intro entry member
  obtain ⟨slot, slotLt, stored⟩ := mem_contents.mp member
  rw [vacant slot slotLt] at stored
  cases stored

theorem card_contents : (contents capacity entryAt).card =
      ((range capacity).filter fun slot => (entryAt slot).isSome).length := by
  induction capacity with
  | zero => rfl
  | succ capacity ih =>
    rw [contents] at ih
    rw [contents, Multiset.range_succ, range_succ, filter_append]
    cases stored : entryAt capacity with
    | none => simpa [Multiset.filterMap_cons_none _ _ stored, stored] using ih
    | some entry => simpa [Multiset.filterMap_cons_some _ _ _ stored, stored] using ih

theorem exists_empty_of_card_lt (fewer : (contents capacity entryAt).card < capacity) :
    ∃ slot < capacity, entryAt slot = none := by
  rw [card_contents] at fewer
  have shorter : ((range capacity).filter fun slot => (entryAt slot).isSome).length <
      (range capacity).length := by
    rwa [length_range]
  obtain ⟨slot, member, unoccupied⟩ := length_filter_lt_length_iff_exists.mp shorter
  exact ⟨slot, mem_range.mp member, by simpa using unoccupied⟩

end BitsAndBytes.SlotContents
