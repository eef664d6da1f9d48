import BitsAndBytes.PageFlush

/-! # Page tables and the TLB -/

namespace BitsAndBytes.PageFlush

open Function List Option

variable {sys : System}

def entryOf (pfn : Nat) : Nat :=
  pfn <<< 12 ||| ptePresent ||| pteWritable ||| pteUser

theorem entryOf_eq (pfn : Nat) : entryOf pfn = pfn * 4096 + 7 := by
  have flags : entryOf pfn = pfn <<< 12 ||| 7 := by
    simp only [entryOf, ptePresent, pteWritable, pteUser, Nat.or_assoc]
    rfl
  rw [flags, ← Nat.shiftLeft_add_eq_or_of_lt (by decide), Nat.shiftLeft_eq]

theorem entryOf_present (pfn : Nat) : entryOf pfn &&& ptePresent ≠ 0 := by
  rw [entryOf_eq, ptePresent, Nat.and_one_is_mod]
  omega

theorem entryOf_shiftRight (pfn : Nat) : entryOf pfn >>> 12 = pfn := by
  rw [entryOf_eq, Nat.shiftRight_eq_div_pow]
  omega

theorem physicalAddress_eq (pfn vaddr : Nat) :
    pfn * pageSize ||| vaddr % pageSize = pfn * pageSize + vaddr % pageSize := by
  have shifted : pfn * pageSize = pfn <<< 12 := by
    rw [Nat.shiftLeft_eq]
    rfl
  rw [shifted, Nat.shiftLeft_add_eq_or_of_lt]
  exact Nat.mod_lt _ (by decide)

theorem frameOf_physicalAddress {pfn : Nat} (pfnLt : pfn < sys.frames) (vaddr : Nat) :
    frameOf (pfn * pageSize ||| vaddr % pageSize) = some pfn := by
  have bounded := sys.memorySize.toNat_lt
  have offsetLt : vaddr % pageSize < pageSize := Nat.mod_lt _ (by decide)
  simp only [System.frames, pageSize] at pfnLt offsetLt
  have obtained : pfn * pageSize + vaddr % pageSize ≠ failed := by
    simp only [pageSize, failed]
    omega
  have quotient : (pfn * pageSize + vaddr % pageSize) / pageSize = pfn := by
    simp only [pageSize]
    omega
  rw [physicalAddress_eq, frameOf, if_neg obtained, quotient]

def frameAt (sys : System) (asid vpn : Nat) : Option Nat :=
  if (sys.processes asid).pageTable vpn &&& ptePresent = 0 then none
  else some ((sys.processes asid).pageTable vpn >>> 12)

/-- Every mapping names a pinned frame of its own, and the TLB agrees with it. -/
structure Sound (sys : System) : Prop where
  frame_lt : ∀ {asid vpn pfn}, frameAt sys asid vpn = some pfn → pfn < sys.frames
  pinned : ∀ {asid vpn pfn}, frameAt sys asid vpn = some pfn → sys.pinCount pfn ≠ 0
  injective : ∀ {asid vpn other otherVpn pfn}, frameAt sys asid vpn = some pfn →
    frameAt sys other otherVpn = some pfn → asid = other ∧ vpn = otherVpn
  tlb_agrees : ∀ i < tlbSize, (sys.tlb i).valid →
    frameAt sys (sys.tlb i).asid (sys.tlb i).vpn = some (sys.tlb i).pfn

theorem sound_initSystem (sys : System) (memorySize : UInt64) :
    Sound (initSystem sys.withZeroedProcesses memorySize) := by
  constructor <;> simp [frameAt, initSystem, System.withZeroedProcesses, ptePresent]

theorem Sound.of_same_mappings {other : System} (sound : Sound sys)
    (mappings : ∀ asid vpn, frameAt other asid vpn = frameAt sys asid vpn)
    (size : other.memorySize = sys.memorySize) (pins : other.pinCount = sys.pinCount)
    (tlb : ∀ i < tlbSize, (other.tlb i).valid →
      frameAt sys (other.tlb i).asid (other.tlb i).vpn = some (other.tlb i).pfn) :
    Sound other := by
  constructor
  · intro asid vpn pfn mapped
    rw [mappings] at mapped
    rw [System.frames, size]
    exact sound.frame_lt mapped
  · intro asid vpn pfn mapped
    rw [mappings] at mapped
    rw [pins]
    exact sound.pinned mapped
  · intro asid vpn otherAsid otherVpn pfn mapped otherMapped
    rw [mappings] at mapped otherMapped
    exact sound.injective mapped otherMapped
  · intro i indexLt valid
    rw [mappings]
    exact tlb i indexLt valid

variable {vpn asid other otherVpn frame : Nat}

theorem frame_of_searchTlb (agrees : ∀ i < tlbSize, (sys.tlb i).valid →
      frameAt sys (sys.tlb i).asid (sys.tlb i).vpn = some (sys.tlb i).pfn) {pfn : Nat}
    (found : searchTlb sys vpn asid = some pfn) : frameAt sys asid vpn = some pfn := by
  obtain ⟨i, member, chosen⟩ := exists_of_findSome?_eq_some found
  by_cases matched : ((sys.tlb i).valid && (sys.tlb i).vpn == vpn && (sys.tlb i).asid == asid)
  · rw [if_pos matched, some.injEq] at chosen
    simp only [Bool.and_eq_true, beq_iff_eq] at matched
    obtain ⟨⟨valid, sameVpn⟩, sameAsid⟩ := matched
    have entry := agrees i (mem_range.mp member) valid
    rw [sameVpn, sameAsid, chosen] at entry
    exact entry
  · rw [if_neg matched] at chosen
    cases chosen

structure IsFirstInvalid (sys : System) (slot : Nat) : Prop where
  slot_lt : slot < tlbSize
  invalid : (sys.tlb slot).valid = false
  valid_before : ∀ i < slot, (sys.tlb i).valid

theorem fillTlb_cases (sys : System) (vpn pfn asid : Nat) : fillTlb sys vpn pfn asid = sys ∨
      ∃ slot, IsFirstInvalid sys slot ∧ fillTlb sys vpn pfn asid =
        { sys with tlb := update sys.tlb slot ⟨vpn, pfn, asid, true⟩ } := by
  cases found : (range tlbSize).find? fun i => !(sys.tlb i).valid with
  | none => exact .inl (by rw [fillTlb, found])
  | some slot =>
    refine .inr ⟨slot, ?_, by rw [fillTlb, found]⟩
    rw [find?_range_eq_some] at found
    obtain ⟨invalid, member, validBefore⟩ := found
    refine ⟨mem_range.mp member, by simpa using invalid, fun i before => ?_⟩
    simpa using validBefore i before

theorem fillTlb_spec (sound : Sound sys) {pfn : Nat} (mapped : frameAt sys asid vpn = some pfn) :
    Sound (fillTlb sys vpn pfn asid) ∧
      (∀ other otherVpn, frameAt (fillTlb sys vpn pfn asid) other otherVpn =
        frameAt sys other otherVpn) ∧
        (fillTlb sys vpn pfn asid).processes = sys.processes ∧
          (fillTlb sys vpn pfn asid).nextAsid = sys.nextAsid := by
  rcases fillTlb_cases sys vpn pfn asid with unchanged | ⟨slot, -, filled⟩
  · rw [unchanged]
    exact ⟨sound, fun _ _ => rfl, rfl, rfl⟩
  · rw [filled]
    refine ⟨?_, fun _ _ => rfl, rfl, rfl⟩
    apply sound.of_same_mappings
    · intro other otherVpn
      rfl
    · rfl
    · rfl
    · intro i indexLt valid
      by_cases same : i = slot
      · subst same
        simpa using mapped
      · simp only [update_of_ne same] at valid ⊢
        exact sound.tlb_agrees i indexLt valid

theorem allocatePage_cases (sys : System) :
    (∃ pfn < sys.frames, sys.pinCount pfn = 0 ∧ allocatePage sys =
        ({ sys with pinCount := update sys.pinCount pfn 1 }, pfn)) ∨
      (∀ pfn < sys.frames, sys.pinCount pfn ≠ 0) ∧ allocatePage sys = (sys, failed) := by
  cases found : (range sys.frames).find? fun i => sys.pinCount i == 0 with
  | none =>
    right
    refine ⟨?_, by rw [allocatePage, found]⟩
    intro pfn pfnLt
    rw [find?_eq_none] at found
    simpa using found pfn (mem_range.mpr pfnLt)
  | some pfn =>
    left
    refine ⟨pfn, mem_range.mp (mem_of_find?_eq_some found), ?_, ?_⟩
    · simpa using find?_some found
    · rw [allocatePage, found]

theorem ne_failed {pfn : Nat} (pfnLt : pfn < sys.frames) : pfn ≠ failed := by
  have bounded := sys.memorySize.toNat_lt
  simp only [System.frames, pageSize] at pfnLt
  simp only [failed]
  omega

def mapFrame (sys : System) (asid vpn pfn : Nat) : System :=
  setEntry { sys with pinCount := update sys.pinCount pfn 1 } asid vpn
    (entryOf pfn)

theorem frameAt_mapFrame_self (sys : System) (asid vpn pfn : Nat) :
    frameAt (mapFrame sys asid vpn pfn) asid vpn = some pfn := by
  simp [frameAt, mapFrame, setEntry, entryOf_present, entryOf_shiftRight]

theorem frameAt_mapFrame_of_ne (sys : System) (pfn : Nat)
    (different : ¬ (other = asid ∧ otherVpn = vpn)) :
    frameAt (mapFrame sys asid vpn pfn) other otherVpn = frameAt sys other otherVpn := by
  by_cases sameAsid : other = asid
  · subst sameAsid
    have vpnNe : otherVpn ≠ vpn := fun same => different ⟨rfl, same⟩
    simp [frameAt, mapFrame, setEntry, update_of_ne vpnNe]
  · simp [frameAt, mapFrame, setEntry, update_of_ne sameAsid]

theorem frameAt_mapFrame_of_mapped {pfn : Nat} (absent : frameAt sys asid vpn = none)
    (mapped : frameAt sys other otherVpn = some frame) :
    frameAt (mapFrame sys asid vpn pfn) other otherVpn = some frame := by
  rw [frameAt_mapFrame_of_ne]
  · exact mapped
  · rintro ⟨rfl, rfl⟩
    rw [absent] at mapped
    cases mapped

theorem cases_of_frameAt_mapFrame {pfn : Nat}
    (mapped : frameAt (mapFrame sys asid vpn pfn) other otherVpn = some frame) :
    other = asid ∧ otherVpn = vpn ∧ frame = pfn ∨ frameAt sys other otherVpn = some frame := by
  by_cases same : other = asid ∧ otherVpn = vpn
  · obtain ⟨rfl, rfl⟩ := same
    rw [frameAt_mapFrame_self, some.injEq] at mapped
    exact .inl ⟨rfl, rfl, mapped.symm⟩
  · rw [frameAt_mapFrame_of_ne sys pfn same] at mapped
    exact .inr mapped

theorem mapFrame_asid (sys : System) (asid vpn pfn pid : Nat) :
    ((mapFrame sys asid vpn pfn).processes pid).asid = (sys.processes pid).asid := by
  by_cases same : pid = asid
  · subst same
    simp [mapFrame, setEntry]
  · simp [mapFrame, setEntry, update_of_ne same]

theorem Sound.mapFrame (sound : Sound sys) {pfn : Nat} (absent : frameAt sys asid vpn = none)
    (pfnLt : pfn < sys.frames) (unpinned : sys.pinCount pfn = 0) :
    Sound (mapFrame sys asid vpn pfn) := by
  have fresh : ∀ {other otherVpn}, frameAt sys other otherVpn ≠ some pfn := by
    intro other otherVpn mapped
    exact sound.pinned mapped unpinned
  have cases : ∀ {other otherVpn frame},
      frameAt (PageFlush.mapFrame sys asid vpn pfn) other otherVpn = some frame →
        other = asid ∧ otherVpn = vpn ∧ frame = pfn ∨
          frame ≠ pfn ∧ frameAt sys other otherVpn = some frame := by
    intro other otherVpn frame mapped
    rcases cases_of_frameAt_mapFrame mapped with new | before
    · exact .inl new
    · exact .inr ⟨fun same => fresh (same ▸ before), before⟩
  constructor
  · intro other otherVpn frame mapped
    rcases cases mapped with ⟨-, -, rfl⟩ | ⟨-, before⟩
    · exact pfnLt
    · exact sound.frame_lt before
  · intro other otherVpn frame mapped
    show update sys.pinCount pfn 1 frame ≠ 0
    rcases cases mapped with ⟨-, -, rfl⟩ | ⟨different, before⟩
    · simp
    · rw [update_of_ne different]
      exact sound.pinned before
  · intro first firstVpn second secondVpn frame firstMapped secondMapped
    rcases cases firstMapped with ⟨rfl, rfl, rfl⟩ | ⟨firstNe, firstBefore⟩
    · rcases cases secondMapped with ⟨rfl, rfl, -⟩ | ⟨secondNe, -⟩
      · exact ⟨rfl, rfl⟩
      · exact absurd rfl secondNe
    · rcases cases secondMapped with ⟨-, -, same⟩ | ⟨-, secondBefore⟩
      · exact absurd same firstNe
      · exact sound.injective firstBefore secondBefore
  · intro i indexLt valid
    exact frameAt_mapFrame_of_mapped absent (sound.tlb_agrees i indexLt valid)

/-- The ways of `translate_address`: a hit, a walk, a fault, or no free frame. -/
inductive Translates (sys : System) (vaddr asid : Nat) : System → Nat → Prop
  | hit {pfn} (found : searchTlb sys (vaddr / pageSize) asid = some pfn) :
      Translates sys vaddr asid sys (pfn * pageSize ||| vaddr % pageSize)
  | walk {pfn} (missed : searchTlb sys (vaddr / pageSize) asid = none)
      (mapped : frameAt sys asid (vaddr / pageSize) = some pfn) :
      Translates sys vaddr asid (fillTlb sys (vaddr / pageSize) pfn asid)
        (pfn * pageSize ||| vaddr % pageSize)
  | fault {pfn} (missed : searchTlb sys (vaddr / pageSize) asid = none)
      (absent : frameAt sys asid (vaddr / pageSize) = none) (pfnLt : pfn < sys.frames)
      (unpinned : sys.pinCount pfn = 0) (allocated : (allocatePage sys).2 = pfn) :
      Translates sys vaddr asid
        (fillTlb (mapFrame sys asid (vaddr / pageSize) pfn) (vaddr / pageSize) pfn asid)
        (pfn * pageSize ||| vaddr % pageSize)
  | exhausted (missed : searchTlb sys (vaddr / pageSize) asid = none)
      (absent : frameAt sys asid (vaddr / pageSize) = none)
      (allPinned : ∀ pfn < sys.frames, sys.pinCount pfn ≠ 0)
      (refused : (allocatePage sys).2 = failed) :
      Translates sys vaddr asid sys failed

theorem translates_translateAddress (sys : System) (vaddr asid : Nat) :
    Translates sys vaddr asid (translateAddress sys vaddr asid).1
      (translateAddress sys vaddr asid).2 := by
  cases found : searchTlb sys (vaddr / pageSize) asid with
  | some pfn =>
    simp only [translateAddress, found]
    exact .hit found
  | none =>
    by_cases notPresent : (sys.processes asid).pageTable (vaddr / pageSize) &&& ptePresent = 0
    · have absent : frameAt sys asid (vaddr / pageSize) = none := if_pos notPresent
      rcases allocatePage_cases sys with
        ⟨pfn, pfnLt, unpinned, allocated⟩ | ⟨allPinned, refused⟩
      · have present : (pfn <<< 12 ||| ptePresent ||| pteWritable ||| pteUser) >>> 12 =
            pfn := entryOf_shiftRight pfn
        simp only [translateAddress, found, notPresent, if_true, allocated,
          ne_failed pfnLt, if_false, present]
        exact .fault found absent pfnLt unpinned (by rw [allocated])
      · simp only [translateAddress, found, notPresent, if_true, refused]
        exact .exhausted found absent allPinned (by rw [refused])
    · have mapped : frameAt sys asid (vaddr / pageSize) =
          some ((sys.processes asid).pageTable (vaddr / pageSize) >>> 12) := if_neg notPresent
      simp only [translateAddress, found, notPresent, if_false]
      exact .walk found mapped

/-- What `translate_address` keeps and what its answer means. -/
structure Translated (sys next : System) (asid vpn answer : Nat) : Prop where
  sound : Sound next
  kept : ∀ {other otherVpn pfn}, frameAt sys other otherVpn = some pfn →
    frameAt next other otherVpn = some pfn
  answered : ∀ {pfn}, frameOf answer = some pfn → frameAt next asid vpn = some pfn
  asids : ∀ pid, (next.processes pid).asid = (sys.processes pid).asid
  nextAsid : next.nextAsid = sys.nextAsid

variable {pfn vaddr : Nat}

theorem translated_fillTlb {base : System} (sound : Sound base)
    (mapped : frameAt base asid (vaddr / pageSize) = some pfn)
    (kept : ∀ {other otherVpn otherPfn}, frameAt sys other otherVpn = some otherPfn →
      frameAt base other otherVpn = some otherPfn)
    (asids : ∀ pid, (base.processes pid).asid = (sys.processes pid).asid)
    (nextAsid : base.nextAsid = sys.nextAsid) :
    Translated sys (fillTlb base (vaddr / pageSize) pfn asid) asid (vaddr / pageSize)
      (pfn * pageSize ||| vaddr % pageSize) := by
  obtain ⟨filled, mappings, processes, sameNext⟩ := fillTlb_spec sound mapped
  refine ⟨filled, ?_, ?_, ?_, sameNext.trans nextAsid⟩
  · intro other otherVpn otherPfn otherMapped
    rw [mappings]
    exact kept otherMapped
  · intro obtained same
    rw [frameOf_physicalAddress (sound.frame_lt mapped)] at same
    rw [mappings]
    exact same ▸ mapped
  · intro pid
    rw [processes]
    exact asids pid

variable (sound : Sound sys)
include sound

theorem Translates.translated {next : System} {answer : Nat}
    (translates : Translates sys vaddr asid next answer) :
    Translated sys next asid (vaddr / pageSize) answer := by
  cases translates with
  | hit found =>
    have mapped := frame_of_searchTlb sound.tlb_agrees found
    refine ⟨sound, id, ?_, fun _ => rfl, rfl⟩
    intro obtained same
    rw [frameOf_physicalAddress (sound.frame_lt mapped)] at same
    exact same ▸ mapped
  | walk missed mapped =>
    exact translated_fillTlb sound mapped id (fun _ => rfl) rfl
  | fault missed absent pfnLt unpinned =>
    refine translated_fillTlb (sound.mapFrame absent pfnLt unpinned)
      (frameAt_mapFrame_self sys asid (vaddr / pageSize) _) ?_
      (mapFrame_asid sys asid (vaddr / pageSize) _) rfl
    exact frameAt_mapFrame_of_mapped absent
  | exhausted =>
    refine ⟨sound, id, ?_, fun _ => rfl, rfl⟩
    intro obtained same
    simp [frameOf] at same

theorem translateAddress_of_mapped (mapped : frameAt sys asid (vaddr / pageSize) = some pfn) :
    frameOf (translateAddress sys vaddr asid).2 = some pfn := by
  have frame := frameOf_physicalAddress (sound.frame_lt mapped) vaddr
  have translates := translates_translateAddress sys vaddr asid
  generalize (translateAddress sys vaddr asid).1 = next at translates
  generalize (translateAddress sys vaddr asid).2 = answer at translates
  cases translates with
  | hit found =>
    rw [frame_of_searchTlb sound.tlb_agrees found, some.injEq] at mapped
    rwa [mapped]
  | walk missed present =>
    rw [present, some.injEq] at mapped
    rwa [mapped]
  | fault missed absent | exhausted missed absent =>
    rw [absent] at mapped
    cases mapped

theorem exists_frame_of_unpinned (vaddr asid : Nat)
    (unpinned : ∃ pfn < sys.frames, sys.pinCount pfn = 0) :
    ∃ frame, frameOf (translateAddress sys vaddr asid).2 = some frame := by
  have translates := translates_translateAddress sys vaddr asid
  generalize (translateAddress sys vaddr asid).1 = next at translates
  generalize (translateAddress sys vaddr asid).2 = answer at translates
  cases translates with
  | hit found =>
    have pfnLt := sound.frame_lt (frame_of_searchTlb sound.tlb_agrees found)
    exact ⟨_, frameOf_physicalAddress pfnLt vaddr⟩
  | walk missed mapped =>
    exact ⟨_, frameOf_physicalAddress (sound.frame_lt mapped) vaddr⟩
  | fault missed absent pfnLt => exact ⟨_, frameOf_physicalAddress pfnLt vaddr⟩
  | exhausted missed absent allPinned =>
    obtain ⟨pfn, pfnLt, isUnpinned⟩ := unpinned
    exact absurd isUnpinned (allPinned pfn pfnLt)

structure Switched (sys next : System) (pid : Nat) : Prop where
  sound : Sound next
  mappings : ∀ asid vpn, frameAt next asid vpn = frameAt sys asid vpn
  asid_self : (next.processes pid).asid =
    if (sys.processes pid).asid = 0 then sys.nextAsid else (sys.processes pid).asid
  asid_other : ∀ other, other ≠ pid → (next.processes other).asid = (sys.processes other).asid
  nextAsid : next.nextAsid =
    if (sys.processes pid).asid = 0 then advanceAsid sys.nextAsid else sys.nextAsid
  current : next.currentAsid = (next.processes pid).asid
  pins : next.pinCount = sys.pinCount
  size : next.memorySize = sys.memorySize

theorem switched_of_named {pid : Nat} (unnamed : (sys.processes pid).asid = 0)
    (tlb : Nat → TlbEntry) (agrees : ∀ i < tlbSize, (tlb i).valid →
      frameAt sys (tlb i).asid (tlb i).vpn = some (tlb i).pfn) :
    Switched sys
      { sys with
        processes := update sys.processes pid { sys.processes pid with asid := sys.nextAsid }
        nextAsid := advanceAsid sys.nextAsid
        tlb := tlb
        currentAsid := (update sys.processes pid
          { sys.processes pid with asid := sys.nextAsid } pid).asid } pid := by
  have tables : ∀ other vpn, (update sys.processes pid
      { sys.processes pid with asid := sys.nextAsid } other).pageTable vpn =
        (sys.processes other).pageTable vpn := by
    intro other vpn
    by_cases same : other = pid
    · subst same
      simp
    · simp [update_of_ne same]
  constructor
  · apply sound.of_same_mappings
    · intro asid vpn
      simp only [frameAt, tables]
    · rfl
    · rfl
    · exact agrees
  · intro asid vpn
    simp only [frameAt, tables]
  · simp [unnamed]
  · intro other different
    simp [update_of_ne different]
  · simp [unnamed]
  · rfl
  · rfl
  · rfl

theorem switchProcess_spec (pid : Nat) : Switched sys (switchProcess sys pid) pid := by
  by_cases unnamed : (sys.processes pid).asid = 0
  · by_cases wraps : (sys.nextAsid + 1) % 256 = 0
    · simp only [switchProcess, unnamed, if_true, wraps, flushTlb]
      apply switched_of_named sound unnamed
      intro i indexLt valid
      cases valid
    · simp only [switchProcess, unnamed, if_true, wraps, if_false]
      exact switched_of_named sound unnamed sys.tlb sound.tlb_agrees
  · simp only [switchProcess, unnamed, if_false]
    constructor
    · exact sound.of_same_mappings (fun _ _ => rfl) rfl rfl sound.tlb_agrees
    · intro asid vpn
      rfl
    · simp [unnamed]
    · intro other _
      rfl
    · simp [unnamed]
    · rfl
    · rfl
    · rfl

end BitsAndBytes.PageFlush
