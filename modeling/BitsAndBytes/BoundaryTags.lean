import BitsAndBytes.BlockTiling

/-! # Blocks with boundary tags -/

namespace BitsAndBytes.BoundaryTags

open BlockTiling List

variable {Tag : Type*} (size : Tag → Nat) (slot : Nat)

/-- A block at `start` has the tag in its first and in its last slot. -/
structure Carries (read : Nat → Tag) (start : Nat) (tag : Tag) : Prop where
  roomy : 2 * slot ≤ size tag
  header : read start = tag
  footer : read (start + size tag - slot) = tag

/-- Consecutive blocks with these tags. -/
def Tagged (read : Nat → Tag) (start : Nat) (tags : List Tag) : Prop :=
  ∀ placed ∈ place size start tags, Carries size slot read placed.1 placed.2

/-- Writing the tag of one block changes nothing outside of it. -/
structure Rewrites (before after : Nat → Tag) (start : Nat) (tag : Tag) :
    Prop where
  carries : Carries size slot after start tag
  elsewhere : ∀ address, address + slot ≤ start ∨ start + size tag ≤ address →
      after address = before address

variable {size slot} {read other : Nat → Tag} {start : Nat}

@[simp]
theorem tagged_nil : Tagged size slot read start [] := by
  simp [Tagged]

variable {tag : Tag} {tags before group after : List Tag}

@[simp]
theorem tagged_cons : Tagged size slot read start (tag :: tags) ↔
      Carries size slot read start tag ∧ Tagged size slot read (start + size tag) tags := by
  simp [Tagged]

@[simp]
theorem tagged_append {first second : List Tag} : Tagged size slot read start (first ++ second) ↔
      Tagged size slot read start first ∧
        Tagged size slot read (start + extent size first) second := by
  simp only [Tagged, place_append, mem_append]
  constructor
  · intro tagged
    exact ⟨fun placed member => tagged placed (.inl member),
      fun placed member => tagged placed (.inr member)⟩
  · rintro ⟨firstTagged, secondTagged⟩ placed (member | member)
    · exact firstTagged placed member
    · exact secondTagged placed member

theorem Tagged.congr (tagged : Tagged size slot read start tags)
    (same : ∀ address, start ≤ address →
      address + slot ≤ start + extent size tags → other address = read address) :
    Tagged size slot other start tags := by
  intro placed member
  have carries := tagged placed member
  have roomy := carries.roomy
  have within := within_of_mem_place member
  refine ⟨roomy, ?_, ?_⟩
  · rw [same _ (by omega) (by omega)]
    exact carries.header
  · rw [same _ (by omega) (by omega)]
    exact carries.footer

theorem Tagged.roomy (tagged : Tagged size slot read start tags) :
    ∀ tag ∈ tags, 2 * slot ≤ size tag := by
  induction tags generalizing start with
  | nil => simp
  | cons tag tags ih =>
    rw [tagged_cons] at tagged
    rw [forall_mem_cons]
    exact ⟨tagged.1.roomy, ih tagged.2⟩

theorem Tagged.length_le_extent (positive : 0 < slot) (tagged : Tagged size slot read start tags) :
    tags.length ≤ extent size tags := by
  induction tags generalizing start with
  | nil => simp
  | cons tag tags ih =>
    rw [tagged_cons] at tagged
    have roomy := tagged.1.roomy
    have rest := ih tagged.2
    rw [length_cons, extent_cons]
    omega

theorem Rewrites.trans {last : Nat → Tag} {newTag : Tag} (same : size newTag = size tag)
    (first : Rewrites size slot read other start tag)
    (second : Rewrites size slot other last start newTag) :
    Rewrites size slot read last start newTag := by
  refine ⟨second.carries, fun address outside => ?_⟩
  rw [second.elsewhere address outside]
  exact first.elsewhere address (by rwa [← same])

theorem Rewrites.carries_before {prev : Tag}
    (rewrites : Rewrites size slot read other (start + size prev) tag)
    (carries : Carries size slot read start prev) : Carries size slot other start prev := by
  have roomy := carries.roomy
  refine ⟨roomy, ?_, ?_⟩
  · rw [rewrites.elsewhere start (.inl (by omega))]
    exact carries.header
  · rw [rewrites.elsewhere _ (.inl (by omega))]
    exact carries.footer

theorem Tagged.replace (tagged : Tagged size slot read start (before ++ group ++ after))
    (covers : extent size group = size tag)
    (rewrites : Rewrites size slot read other (start + extent size before) tag) :
    Tagged size slot other start (before ++ tag :: after) := by
  rw [tagged_append, tagged_append, extent_append] at tagged
  rw [tagged_append, tagged_cons]
  refine ⟨?_, rewrites.carries, ?_⟩
  · apply tagged.1.1.congr
    intro address _ upper
    exact rewrites.elsewhere address (.inl upper)
  · rw [Nat.add_assoc, ← covers]
    apply tagged.2.congr
    intro address lower _
    exact rewrites.elsewhere address (.inr (by omega))

theorem mem_place_replace {placed : Nat × Tag} (covers : extent size group = size tag)
    (member : placed ∈ place size start (before ++ group ++ after)) :
    placed ∈ place size start (before ++ tag :: after) ∨
      placed ∈ place size (start + extent size before) group := by
  rw [place_append, place_append, mem_append, mem_append] at member
  rw [place_append, place_cons, mem_append, mem_cons]
  rcases member with (member | member) | member
  · exact .inl (.inl member)
  · exact .inr member
  · rw [extent_append, covers, ← Nat.add_assoc] at member
    exact .inl (.inr (.inr member))

end BitsAndBytes.BoundaryTags
