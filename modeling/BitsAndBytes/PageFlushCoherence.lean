import BitsAndBytes.PageFlushMappings

/-! # Coherence of the TLB and ownership of frames -/

namespace BitsAndBytes.PageFlush

open OperationRuns Function List Option

inductive Call
  | translateAddress (vaddr : Nat) (asid : Fin maxProcesses)
  | switchProcess (pid : Fin maxProcesses)
  | flushTlbEntry (vpn : Nat) (asid : Fin maxProcesses)
  | flushTlb
  | pinPage (pfn : Nat)
  | unpinPage (pfn : Nat)
deriving DecidableEq, Repr

def callStep (sys : System) : Call → Option (System × Option Nat)
  | .translateAddress vaddr asid =>
    some ((translateAddress sys vaddr asid).1, some (translateAddress sys vaddr asid).2)
  | .switchProcess pid => some (switchProcess sys pid, none)
  | .flushTlbEntry vpn asid => some (flushTlbEntry sys vpn asid, none)
  | .flushTlb => some (flushTlb sys, none)
  | .pinPage pfn => (pinPage sys pfn).map fun next => (next, none)
  | .unpinPage pfn => (unpinPage sys pfn).map fun next => (next, none)

def ZeroedTables (sys : System) : Prop :=
  ∀ pid vpn, (sys.processes pid).pageTable vpn = 0

/-- Mappings and pins stay, and entries of the TLB at most become invalid. -/
structure Quiet (sys next : System) : Prop where
  mappings : ∀ asid vpn, frameAt next asid vpn = frameAt sys asid vpn
  pins : next.pinCount = sys.pinCount
  tlb : ∀ i, (next.tlb i).valid → next.tlb i = sys.tlb i

variable {sys : System} {asid vpn : Nat} {calls : List Call}

theorem Quiet.refl (sys : System) : Quiet sys sys := ⟨fun _ _ => rfl, rfl, fun _ _ => rfl⟩

theorem quiet_flushTlbEntry (sys : System) (vpn asid : Nat) :
    Quiet sys (flushTlbEntry sys vpn asid) := by
  rw [flushTlbEntry]
  split
  · rename_i slot found
    refine ⟨fun _ _ => rfl, rfl, fun i valid => ?_⟩
    by_cases same : i = slot
    · subst same
      simp at valid
    · exact update_of_ne same _ _
  · exact .refl sys

theorem quiet_switchProcess (sys : System) (pid : Nat) : Quiet sys (switchProcess sys pid) := by
  have mappings : ∀ asid vpn, frameAt (switchProcess sys pid) asid vpn = frameAt sys asid vpn := by
    intro asid vpn
    have table : ((switchProcess sys pid).processes asid).pageTable =
        (sys.processes asid).pageTable := by
      rw [switchProcess]
      split
      · by_cases same : asid = pid
        · subst same
          split <;> simp [flushTlb]
        · split <;> simp [flushTlb, update_of_ne same]
      · rfl
    rw [frameAt, frameAt, table]
  refine ⟨mappings, ?_, ?_⟩
  · rw [switchProcess]
    split
    · split <;> rfl
    · rfl
  · intro i valid
    rw [switchProcess] at valid ⊢
    split at valid
    · split at valid
      · cases valid
      · rename_i unnamed wraps
        rw [if_pos unnamed, if_neg wraps]
    · rename_i named
      rw [if_neg named]

inductive Effect (sys : System) : Call → System → Prop
  | keep {call next} (noPin : ∀ pfn, call ≠ .pinPage pfn ∧ call ≠ .unpinPage pfn)
      (quiet : Quiet sys next) : Effect sys call next
  | fill {vaddr : Nat} {asid : Fin maxProcesses} {pfn : Nat}
      (missed : searchTlb sys (vaddr / pageSize) asid = none)
      (mapped : frameAt sys asid (vaddr / pageSize) = some pfn) :
      Effect sys (.translateAddress vaddr asid)
        (fillTlb sys (vaddr / pageSize) pfn asid)
  | fault {vaddr : Nat} {asid : Fin maxProcesses} {pfn : Nat}
      (missed : searchTlb sys (vaddr / pageSize) asid = none)
      (absent : frameAt sys asid (vaddr / pageSize) = none)
      (unpinned : sys.pinCount pfn = 0) :
      Effect sys (.translateAddress vaddr asid)
        (fillTlb (mapFrame sys asid (vaddr / pageSize) pfn) (vaddr / pageSize) pfn asid)
  | pin {pfn} : Effect sys (.pinPage pfn)
      { sys with pinCount := update sys.pinCount pfn (sys.pinCount pfn + 1) }
  | unpin {pfn} (pinned : 0 < sys.pinCount pfn) : Effect sys (.unpinPage pfn)
      { sys with pinCount := update sys.pinCount pfn (sys.pinCount pfn - 1) }
  | unpinNobody {pfn} (unpinned : sys.pinCount pfn ≤ 0) : Effect sys (.unpinPage pfn) sys

variable {next initial : System} {call : Call} {pfn : Nat}

theorem effect_of_callStep {answer : Option Nat}
    (stepEq : callStep sys call = some (next, answer)) :
    Effect sys call next := by
  cases call with
  | translateAddress vaddr asid =>
    have translates := translates_translateAddress sys vaddr asid
    rw [callStep, some.injEq, Prod.mk.injEq] at stepEq
    rw [stepEq.1] at translates
    generalize (translateAddress sys vaddr asid).2 = address at translates
    cases translates with
    | hit | exhausted => exact .keep (fun _ => ⟨nofun, nofun⟩) (.refl sys)
    | walk missed mapped => exact .fill missed mapped
    | fault missed absent _ unpinned => exact .fault missed absent unpinned
  | switchProcess pid =>
    cases stepEq
    exact .keep (fun _ => ⟨nofun, nofun⟩) (quiet_switchProcess sys pid)
  | flushTlbEntry vpn asid =>
    cases stepEq
    exact .keep (fun _ => ⟨nofun, nofun⟩) (quiet_flushTlbEntry sys vpn asid)
  | flushTlb =>
    cases stepEq
    exact .keep (fun _ => ⟨nofun, nofun⟩)
      ⟨fun _ _ => rfl, rfl, fun _ valid => absurd valid Bool.false_ne_true⟩
  | pinPage pfn =>
    obtain ⟨pinned, isPinned, ⟨⟩⟩ := map_eq_some_iff.mp stepEq
    rw [pinPage, ite_none_right_eq_some] at isPinned
    obtain ⟨-, ⟨⟩⟩ := isPinned
    exact .pin
  | unpinPage pfn =>
    obtain ⟨unpinned, isUnpinned, ⟨⟩⟩ := map_eq_some_iff.mp stepEq
    rw [unpinPage, ite_none_right_eq_some] at isUnpinned
    obtain ⟨-, changed⟩ := isUnpinned
    split at changed
    · rename_i positive
      cases changed
      exact .unpin positive
    · rename_i notPositive
      cases changed
      exact .unpinNobody (Int.not_lt.mp notPositive)

theorem frameAt_fillTlb (sys : System) (vpn pfn asid other otherVpn : Nat) :
    frameAt (fillTlb sys vpn pfn asid) other otherVpn = frameAt sys other otherVpn := by
  rcases fillTlb_cases sys vpn pfn asid with same | ⟨slot, -, filled⟩
  · rw [same]
  · rw [filled]
    rfl

theorem pinCount_fillTlb (sys : System) (vpn pfn asid : Nat) :
    (fillTlb sys vpn pfn asid).pinCount = sys.pinCount := by
  rcases fillTlb_cases sys vpn pfn asid with same | ⟨slot, -, filled⟩
  · rw [same]
  · rw [filled]

theorem Effect.kept (effect : Effect sys call next) (mapped : frameAt sys asid vpn = some pfn) :
    frameAt next asid vpn = some pfn := by
  cases effect with
  | keep noPin quiet =>
    rw [quiet.mappings]
    exact mapped
  | fill =>
    rw [frameAt_fillTlb]
    exact mapped
  | fault missed absent =>
    rw [frameAt_fillTlb]
    exact frameAt_mapFrame_of_mapped absent mapped
  | pin | unpin | unpinNobody => exact mapped

/-- The TLB agrees with the page tables and has no entry twice. -/
structure Coherent (sys : System) : Prop where
  agrees : ∀ i < tlbSize, (sys.tlb i).valid →
    frameAt sys (sys.tlb i).asid (sys.tlb i).vpn = some (sys.tlb i).pfn
  unique : ∀ i < tlbSize, ∀ j < tlbSize, (sys.tlb i).valid →
    (sys.tlb j).valid → (sys.tlb i).vpn = (sys.tlb j).vpn →
      (sys.tlb i).asid = (sys.tlb j).asid → i = j

theorem searchTlb_eq_none : searchTlb sys vpn asid = none ↔ ∀ i < tlbSize, (sys.tlb i).valid →
      (sys.tlb i).vpn = vpn → (sys.tlb i).asid ≠ asid := by
  simp [searchTlb, List.findSome?_eq_none_iff]

namespace Coherent

variable {next : System}

theorem quiet (coherent : Coherent sys) (quiet : Quiet sys next) : Coherent next := by
  constructor
  · intro i indexLt valid
    have same := quiet.tlb i valid
    rw [same] at valid ⊢
    rw [quiet.mappings]
    exact coherent.agrees i indexLt valid
  · intro i indexLt j otherLt valid otherValid
    have same := quiet.tlb i valid
    have otherSame := quiet.tlb j otherValid
    rw [same] at valid ⊢
    rw [otherSame] at otherValid ⊢
    exact coherent.unique i indexLt j otherLt valid otherValid

theorem fillTlb (coherent : Coherent sys) (missed : searchTlb sys vpn asid = none)
    (mapped : frameAt sys asid vpn = some pfn) : Coherent (fillTlb sys vpn pfn asid) := by
  rw [searchTlb_eq_none] at missed
  rcases fillTlb_cases sys vpn pfn asid with same | ⟨slot, -, filled⟩
  · rw [same]
    exact coherent
  rw [filled]
  constructor
  · intro i indexLt valid
    by_cases mine : i = slot
    · subst mine
      simp only [update_self]
      exact mapped
    · simp only [update_of_ne mine] at valid ⊢
      exact coherent.agrees i indexLt valid
  · intro i indexLt j otherLt valid otherValid sameVpn sameAsid
    by_cases mine : i = slot <;> by_cases other : j = slot
    · rw [mine, other]
    · subst mine
      simp only [update_self, update_of_ne other] at *
      exact absurd sameAsid.symm (missed j otherLt otherValid sameVpn.symm)
    · subst other
      simp only [update_self, update_of_ne mine] at *
      exact absurd sameAsid (missed i indexLt valid sameVpn)
    · simp only [update_of_ne mine, update_of_ne other] at *
      exact coherent.unique i indexLt j otherLt valid otherValid sameVpn sameAsid

theorem effect (coherent : Coherent sys) (effect : Effect sys call next) : Coherent next := by
  cases effect with
  | keep noPin quiet => exact coherent.quiet quiet
  | fill missed mapped => exact coherent.fillTlb missed mapped
  | @fault vaddr asid pfn missed absent unpinned =>
    have loaded : Coherent (mapFrame sys asid (vaddr / pageSize) pfn) := by
      refine ⟨fun i indexLt valid => ?_, coherent.unique⟩
      exact frameAt_mapFrame_of_mapped absent (coherent.agrees i indexLt valid)
    exact loaded.fillTlb missed (frameAt_mapFrame_self sys asid _ pfn)
  | pin | unpin => exact ⟨coherent.agrees, coherent.unique⟩
  | unpinNobody => exact coherent

end Coherent

def walkPageTable (sys : System) (vaddr asid : Nat) : Nat :=
  match frameAt sys asid (vaddr / pageSize) with
  | some pfn => pfn * pageSize ||| vaddr % pageSize
  | none =>
    if (allocatePage sys).2 = failed then failed
    else (allocatePage sys).2 * pageSize ||| vaddr % pageSize

theorem Coherent.translateAddress_eq_walk (coherent : Coherent sys) (vaddr asid : Nat) :
    (translateAddress sys vaddr asid).2 = walkPageTable sys vaddr asid := by
  have translates := translates_translateAddress sys vaddr asid
  generalize (translateAddress sys vaddr asid).1 = next at translates
  generalize (translateAddress sys vaddr asid).2 = answer at translates
  cases translates with
  | hit found => rw [walkPageTable, frame_of_searchTlb coherent.agrees found]
  | walk missed mapped => rw [walkPageTable, mapped]
  | fault missed absent pfnLt unpinned allocated =>
    simp only [walkPageTable, absent, allocated, if_neg (ne_failed pfnLt)]
  | exhausted missed absent allPinned refused =>
    simp only [walkPageTable, absent, refused, if_true]

theorem coherent_of_reaches (coherent : Coherent initial)
    (reached : Reaches callStep initial calls sys) : Coherent sys :=
  reached.invariant Coherent
    (fun coherent stepEq => coherent.effect (effect_of_callStep stepEq)) coherent

theorem kept_of_reaches (mapped : frameAt initial asid vpn = some pfn)
    (reached : Reaches callStep initial calls sys) : frameAt sys asid vpn = some pfn :=
  reached.invariant (fun sys => frameAt sys asid vpn = some pfn)
    (fun mapped stepEq => (effect_of_callStep stepEq).kept mapped) mapped

/-- The TLB always agrees with the page tables, and the address of a mapped page is kept. -/
theorem tlb_agrees_with_page_tables (sys : System) (memorySize : UInt64)
    (calls : List Call) (state : System)
    (reached : Reaches callStep (initSystem sys memorySize) calls state) :
    (∀ i < tlbSize, (state.tlb i).valid →
      frameAt state (state.tlb i).asid (state.tlb i).vpn = some (state.tlb i).pfn) ∧
    (∀ i < tlbSize, ∀ j < tlbSize, (state.tlb i).valid →
      (state.tlb j).valid → (state.tlb i).vpn = (state.tlb j).vpn →
        (state.tlb i).asid = (state.tlb j).asid → i = j) ∧
    (∀ vaddr asid, (translateAddress state vaddr asid).2 = walkPageTable state vaddr asid) ∧
    (∀ vaddr asid pfn, frameAt state asid (vaddr / pageSize) = some pfn →
      ∀ laterCalls later, Reaches callStep state laterCalls later →
        (translateAddress later vaddr asid).2 = (translateAddress state vaddr asid).2) := by
  have initially : Coherent (initSystem sys memorySize) :=
    ⟨fun _ _ valid => absurd valid Bool.false_ne_true,
      fun _ _ _ _ valid => absurd valid Bool.false_ne_true⟩
  have coherent := coherent_of_reaches initially reached
  refine ⟨coherent.agrees, coherent.unique, coherent.translateAddress_eq_walk, ?_⟩
  intro vaddr asid pfn mapped laterCalls later laterReached
  have laterCoherent := coherent_of_reaches coherent laterReached
  rw [coherent.translateAddress_eq_walk, laterCoherent.translateAddress_eq_walk,
    walkPageTable, walkPageTable, mapped, kept_of_reaches mapped laterReached]

theorem address_kept_by_flush : ∃ state later, Reaches callStep (initSystem zeroedSystem 8192)
        [.translateAddress 4096 ⟨1, by decide⟩] state ∧
      Reaches callStep state [.flushTlb] later ∧
        (translateAddress later 4096 1).2 = (translateAddress state 4096 1).2 := by
  refine ⟨_, _, ⟨_, rfl⟩, ⟨_, rfl⟩, ?_⟩
  exact (tlb_agrees_with_page_tables zeroedSystem 8192
    [.translateAddress 4096 ⟨1, by decide⟩] _ ⟨_, rfl⟩).2.2.2 4096 1 0 rfl [.flushTlb] _ ⟨_, rfl⟩

def clientPins (past : List Call) (pfn : Nat) : Int :=
  past.count (.pinPage pfn) - past.count (.unpinPage pfn)

/-- No frame is unpinned more often than it was pinned. -/
def PinsBalanced (calls : List Call) : Prop :=
  ∀ initialCalls, initialCalls <+: calls → ∀ pfn,
    initialCalls.count (.unpinPage pfn) ≤ initialCalls.count (.pinPage pfn)

theorem PinsBalanced.clientPins_nonneg (balanced : PinsBalanced calls) (pfn : Nat) :
    0 ≤ clientPins calls pfn := by
  have fewer := balanced calls prefix_rfl pfn
  rw [clientPins]
  omega

theorem clientPins_append_of_no_pin (past : List Call)
    (noPin : ∀ pfn, call ≠ .pinPage pfn ∧ call ≠ .unpinPage pfn) (pfn : Nat) :
    clientPins (past ++ [call]) pfn = clientPins past pfn := by
  simp [clientPins, noPin pfn]

theorem clientPins_translateAddress (past : List Call) (vaddr : Nat)
    (asid : Fin maxProcesses) (pfn : Nat) :
    clientPins (past ++ [.translateAddress vaddr asid]) pfn = clientPins past pfn :=
  clientPins_append_of_no_pin past (by simp) pfn

theorem clientPins_pinPage (past : List Call) (pfn other : Nat) :
    clientPins (past ++ [.pinPage pfn]) other =
      clientPins past other + if other = pfn then 1 else 0 := by
  simp only [clientPins, count_append, count_singleton, beq_iff_eq,
    Call.pinPage.injEq, reduceCtorEq, if_false, eq_comm (a := pfn)]
  split <;> omega

theorem clientPins_unpinPage (past : List Call) (pfn other : Nat) :
    clientPins (past ++ [.unpinPage pfn]) other =
      clientPins past other + if other = pfn then -1 else 0 := by
  simp only [clientPins, count_append, count_singleton, beq_iff_eq,
    Call.unpinPage.injEq, reduceCtorEq, if_false, eq_comm (a := pfn)]
  split <;> omega

/-- The pin count of a frame counts the pins of clients and the page mapped to it. -/
structure Owned (past : List Call) (sys : System) : Prop where
  injective : ∀ {asid vpn other otherVpn pfn}, frameAt sys asid vpn = some pfn →
    frameAt sys other otherVpn = some pfn → asid = other ∧ vpn = otherVpn
  mapped : ∀ {asid vpn pfn}, frameAt sys asid vpn = some pfn →
    sys.pinCount pfn = 1 + clientPins past pfn
  unmapped : ∀ {pfn}, (∀ asid vpn, frameAt sys asid vpn ≠ some pfn) →
    sys.pinCount pfn = clientPins past pfn

theorem owned_initSystem (zeroed : ZeroedTables sys) (memorySize : UInt64) :
    Owned [] (initSystem sys memorySize) := by
  have absent : ∀ asid vpn, frameAt (initSystem sys memorySize) asid vpn = none := by
    intro asid vpn
    have empty : ((initSystem sys memorySize).processes asid).pageTable vpn = 0 := zeroed asid vpn
    rw [frameAt, empty]
    rfl
  constructor
  · intro asid vpn other otherVpn pfn mapped
    rw [absent] at mapped
    cases mapped
  · intro asid vpn pfn mapped
    rw [absent] at mapped
    cases mapped
  · intro pfn _
    rfl

namespace Owned

variable {past : List Call} {next : System} {call : Call}
variable (owned : Owned past sys)
include owned

theorem pinCount_cases (pfn : Nat) : sys.pinCount pfn = clientPins past pfn ∨
      (∃ asid vpn, frameAt sys asid vpn = some pfn) ∧
        sys.pinCount pfn = 1 + clientPins past pfn := by
  by_cases isMapped : ∃ asid vpn, frameAt sys asid vpn = some pfn
  · obtain ⟨asid, vpn, mapped⟩ := isMapped
    exact .inr ⟨⟨asid, vpn, mapped⟩, owned.mapped mapped⟩
  · push Not at isMapped
    exact .inl (owned.unmapped isMapped)

theorem of_same_mappings (mappings : ∀ asid vpn, frameAt next asid vpn = frameAt sys asid vpn)
    (pins : ∀ pfn, next.pinCount pfn - clientPins (past ++ [call]) pfn =
      sys.pinCount pfn - clientPins past pfn) :
    Owned (past ++ [call]) next := by
  constructor
  · intro asid vpn other otherVpn pfn mapped otherMapped
    rw [mappings] at mapped otherMapped
    exact owned.injective mapped otherMapped
  · intro asid vpn pfn mapped
    rw [mappings] at mapped
    have before := owned.mapped mapped
    have same := pins pfn
    omega
  · intro pfn nowhere
    have before := owned.unmapped fun asid vpn => mappings asid vpn ▸ nowhere asid vpn
    have same := pins pfn
    omega

theorem changePins {change : Int}
    (counted : ∀ other, clientPins (past ++ [call]) other = clientPins past other + if other =
      pfn then change else 0) :
    Owned (past ++ [call])
      { sys with pinCount := update sys.pinCount pfn (sys.pinCount pfn + change) } := by
  refine owned.of_same_mappings (fun _ _ => rfl) fun other => ?_
  rw [counted]
  by_cases mine : other = pfn
  · subst mine
    simp only [update_self, if_true]
    omega
  · simp only [update_of_ne mine, if_neg mine]
    omega

theorem mapFrame (balanced : PinsBalanced past)
    (same : ∀ pfn, clientPins (past ++ [call]) pfn = clientPins past pfn)
    (absent : frameAt sys asid vpn = none) (unpinned : sys.pinCount pfn = 0) :
    Owned (past ++ [call]) (PageFlush.mapFrame sys asid vpn pfn) := by
  have nonneg := balanced.clientPins_nonneg pfn
  have fresh : ∀ {other otherVpn}, frameAt sys other otherVpn ≠ some pfn := by
    intro other otherVpn mapped
    have counted := owned.mapped mapped
    omega
  have noClient : clientPins past pfn = 0 := (owned.unmapped fun _ _ => fresh).symm.trans unpinned
  have pinsSelf : (PageFlush.mapFrame sys asid vpn pfn).pinCount pfn = 1 :=
    update_self pfn 1 sys.pinCount
  have pinsOther : ∀ other, other ≠ pfn →
      (PageFlush.mapFrame sys asid vpn pfn).pinCount other = sys.pinCount other :=
    fun other different => update_of_ne different 1 sys.pinCount
  constructor
  · intro first firstVpn second secondVpn frame firstMapped secondMapped
    rcases cases_of_frameAt_mapFrame firstMapped with ⟨rfl, rfl, rfl⟩ | firstBefore
    · rcases cases_of_frameAt_mapFrame secondMapped with ⟨rfl, rfl, -⟩ | secondBefore
      · exact ⟨rfl, rfl⟩
      · exact absurd secondBefore fresh
    · rcases cases_of_frameAt_mapFrame secondMapped with ⟨-, -, rfl⟩ | secondBefore
      · exact absurd firstBefore fresh
      · exact owned.injective firstBefore secondBefore
  · intro other otherVpn frame mapped
    rw [same]
    rcases cases_of_frameAt_mapFrame mapped with ⟨-, -, rfl⟩ | before
    · rw [pinsSelf, noClient]
      rfl
    · rw [pinsOther frame fun isNew => fresh (isNew ▸ before)]
      exact owned.mapped before
  · intro frame nowhere
    have different : frame ≠ pfn := by
      rintro rfl
      exact nowhere asid vpn (frameAt_mapFrame_self sys asid vpn frame)
    rw [same, pinsOther frame different]
    refine owned.unmapped fun other otherVpn mapped => ?_
    exact nowhere other otherVpn (frameAt_mapFrame_of_mapped absent mapped)

theorem effect (balanced : PinsBalanced (past ++ [call])) (effect : Effect sys call next) :
    Owned (past ++ [call]) next := by
  have before : PinsBalanced past := fun initialCalls isInitial =>
    balanced initialCalls (isInitial.trans (prefix_append past [call]))
  cases effect with
  | keep noPin quiet =>
    refine owned.of_same_mappings quiet.mappings fun pfn => ?_
    rw [clientPins_append_of_no_pin past noPin, quiet.pins]
  | fill missed mapped =>
    refine owned.of_same_mappings (frameAt_fillTlb sys _ _ _) fun pfn => ?_
    rw [clientPins_translateAddress, pinCount_fillTlb]
  | fault missed absent unpinned =>
    obtain ⟨injective, mapped, unmapped⟩ := owned.mapFrame before
      (clientPins_translateAddress past _ _) absent unpinned
    constructor
    · intro first firstVpn second secondVpn frame
      rw [frameAt_fillTlb, frameAt_fillTlb]
      exact injective
    · intro other otherVpn frame
      rw [frameAt_fillTlb, pinCount_fillTlb]
      exact mapped
    · intro frame nowhere
      rw [pinCount_fillTlb]
      exact unmapped fun other otherVpn => frameAt_fillTlb _ _ _ _ other otherVpn ▸
        nowhere other otherVpn
  | pin => exact owned.changePins (clientPins_pinPage past _)
  | unpin pinned => exact owned.changePins (clientPins_unpinPage past _)
  | @unpinNobody pfn unpinned =>
    have nonneg := balanced.clientPins_nonneg pfn
    rw [clientPins_unpinPage, if_pos rfl] at nonneg
    rcases owned.pinCount_cases pfn with counted | ⟨-, counted⟩ <;> omega

end Owned

/-- With matched unpins, different pages have different frames, and all of these are pinned. -/
theorem mapped_frames_distinct_and_pinned (sys : System) (zeroed : ZeroedTables sys)
    (memorySize : UInt64) (calls : List Call) (balanced : PinsBalanced calls)
    (state : System)
    (reached : Reaches callStep (initSystem sys memorySize) calls state) :
    (∀ asid vpn other otherVpn pfn, frameAt state asid vpn = some pfn →
      frameAt state other otherVpn = some pfn → asid = other ∧ vpn = otherVpn) ∧
    (∀ asid vpn pfn, frameAt state asid vpn = some pfn → 1 ≤ state.pinCount pfn) := by
  have owned : Owned calls state := by
    refine reached.history (fun past sys => PinsBalanced past → Owned past sys) ?_
      (fun _ => owned_initSystem zeroed memorySize) balanced
    intro past sys call next answer owned stepEq balanced
    refine (owned fun initialCalls isInitial => ?_).effect balanced (effect_of_callStep stepEq)
    exact balanced initialCalls (isInitial.trans (prefix_append past [call]))
  refine ⟨fun _ _ _ _ _ => owned.injective, fun asid vpn pfn mapped => ?_⟩
  have nonneg := balanced.clientPins_nonneg pfn
  have counted := owned.mapped mapped
  omega

theorem frame_pinned_after_unpin : ∃ state, Reaches callStep (initSystem zeroedSystem 8192)
        [.translateAddress 4096 ⟨1, by decide⟩, .pinPage 0, .unpinPage 0] state ∧
      1 ≤ state.pinCount 0 := by
  refine ⟨_, ⟨_, rfl⟩, ?_⟩
  refine (mapped_frames_distinct_and_pinned zeroedSystem (fun _ _ => rfl) 8192
    [.translateAddress 4096 ⟨1, by decide⟩, .pinPage 0, .unpinPage 0] ?_ _ ⟨_, rfl⟩).2 1 1 0 rfl
  intro initialCalls isInitial pfn
  simp only [prefix_cons_iff, prefix_nil] at isInitial
  rcases isInitial with rfl | ⟨_, rfl, rfl | ⟨_, rfl, rfl | ⟨_, rfl, rfl⟩⟩⟩ <;>
    simp [count_cons]

end BitsAndBytes.PageFlush
