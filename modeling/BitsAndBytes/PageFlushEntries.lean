import BitsAndBytes.PageFlushCoherence

/-! # Flushing one entry of the TLB -/

namespace BitsAndBytes.PageFlush

open OperationRuns Function List

def TlbEntry.IsFor (entry : TlbEntry) (vpn asid : Nat) : Prop :=
  entry.vpn = vpn ∧ entry.asid = asid

/-- No entry for a page stands before the valid one. -/
def Unhidden (sys : System) : Prop :=
  ∀ i j, i < j → j < tlbSize → (sys.tlb j).valid →
    ¬ (sys.tlb i).IsFor (sys.tlb j).vpn (sys.tlb j).asid

/-- Valid entries may become invalid, and nothing else changes. -/
structure Withdraws (sys next : System) : Prop where
  vpn : ∀ i, (next.tlb i).vpn = (sys.tlb i).vpn
  asid : ∀ i, (next.tlb i).asid = (sys.tlb i).asid
  valid : ∀ i, (next.tlb i).valid → (sys.tlb i).valid

theorem withdraws_of_tlb_eq {sys next : System} (same : next.tlb = sys.tlb) :
    Withdraws sys next := by
  constructor <;> intro i
  · rw [same]
  · rw [same]
  · rw [same]
    exact id

variable (sys : System)

theorem withdraws_flushTlbEntry (vpn asid : Nat) : Withdraws sys (flushTlbEntry sys vpn asid) := by
  rw [flushTlbEntry]
  split
  · rename_i slot found
    constructor <;> intro i <;> by_cases same : i = slot
    all_goals simp [same]
  · exact withdraws_of_tlb_eq rfl

theorem withdraws_switchProcess (pid : Nat) : Withdraws sys (switchProcess sys pid) := by
  rw [switchProcess]
  split
  · split
    · constructor
      · exact fun _ => rfl
      · exact fun _ => rfl
      · exact fun _ valid => absurd valid Bool.false_ne_true
    · exact withdraws_of_tlb_eq rfl
  · exact withdraws_of_tlb_eq rfl

/-- The TLB is filled after a miss, or entries are withdrawn. -/
inductive ChangesTlb (sys : System) : System → Prop
  | withdraw {next} (withdraws : Withdraws sys next) : ChangesTlb sys next
  | fill {base : System} {vpn pfn asid : Nat} (sameTlb : base.tlb = sys.tlb)
      (missed : searchTlb sys vpn asid = none) :
      ChangesTlb sys (fillTlb base vpn pfn asid)

theorem changesTlb_of_callStep {sys next : System} {call : Call} {answer : Option Nat}
    (stepEq : callStep sys call = some (next, answer)) : ChangesTlb sys next := by
  cases call with
  | translateAddress vaddr asid =>
    have translates := translates_translateAddress sys vaddr asid
    rw [callStep, Option.some.injEq, Prod.mk.injEq] at stepEq
    rw [stepEq.1] at translates
    generalize (translateAddress sys vaddr asid).2 = address at translates
    cases translates with
    | hit | exhausted => exact .withdraw (withdraws_of_tlb_eq rfl)
    | walk missed | fault missed => exact .fill rfl missed
  | switchProcess pid =>
    cases stepEq
    exact .withdraw (withdraws_switchProcess sys pid)
  | flushTlbEntry vpn asid =>
    cases stepEq
    exact .withdraw (withdraws_flushTlbEntry sys vpn asid)
  | flushTlb =>
    cases stepEq
    exact .withdraw
      ⟨fun _ => rfl, fun _ => rfl, fun _ valid => absurd valid Bool.false_ne_true⟩
  | pinPage pfn =>
    cases effect_of_callStep stepEq with
    | keep noPin => exact absurd rfl (noPin pfn).1
    | pin => exact .withdraw (withdraws_of_tlb_eq rfl)
  | unpinPage pfn =>
    cases effect_of_callStep stepEq with
    | keep noPin => exact absurd rfl (noPin pfn).2
    | unpin | unpinNobody => exact .withdraw (withdraws_of_tlb_eq rfl)

namespace Unhidden

variable {sys next : System}

theorem withdraw (unhidden : Unhidden sys) (withdraws : Withdraws sys next) : Unhidden next := by
  intro i j before jLt valid
  rw [TlbEntry.IsFor, withdraws.vpn, withdraws.asid, withdraws.vpn, withdraws.asid]
  exact unhidden i j before jLt (withdraws.valid j valid)

theorem fillTlb (unhidden : Unhidden sys) {vpn pfn asid : Nat}
    (missed : searchTlb sys vpn asid = none) : Unhidden (fillTlb sys vpn pfn asid) := by
  rw [searchTlb_eq_none] at missed
  rcases fillTlb_cases sys vpn pfn asid with same | ⟨slot, firstInvalid, filled⟩
  · rw [same]
    exact unhidden
  rw [filled]
  rintro i j before jLt valid ⟨sameVpn, sameAsid⟩
  by_cases isNew : j = slot
  · subst isNew
    simp only [update_self, update_of_ne (Nat.ne_of_lt before)] at *
    exact missed i (before.trans jLt) (firstInvalid.valid_before i before) sameVpn sameAsid
  · simp only [update_of_ne isNew] at valid sameVpn sameAsid
    by_cases inFront : i = slot
    · subst inFront
      simp only [update_self] at sameVpn sameAsid
      exact missed j jLt valid sameVpn.symm sameAsid.symm
    · simp only [update_of_ne inFront] at sameVpn sameAsid
      exact unhidden i j before jLt valid ⟨sameVpn, sameAsid⟩

theorem changesTlb (unhidden : Unhidden sys) (changes : ChangesTlb sys next) : Unhidden next := by
  cases changes with
  | withdraw withdraws => exact unhidden.withdraw withdraws
  | @fill base vpn pfn asid sameTlb missed =>
    have baseUnhidden : Unhidden base := unhidden.withdraw (withdraws_of_tlb_eq sameTlb)
    apply baseUnhidden.fillTlb
    simpa only [searchTlb, sameTlb] using missed

end Unhidden

theorem unhidden_of_reaches {initial state : System} {calls : List Call}
    (unhidden : Unhidden initial) (reached : Reaches callStep initial calls state) :
    Unhidden state :=
  reached.invariant Unhidden
    (fun unhidden stepEq => unhidden.changesTlb (changesTlb_of_callStep stepEq)) unhidden

theorem flushTlbEntry_cases (vpn asid : Nat) :
    (∀ i < tlbSize, ¬ (sys.tlb i).IsFor vpn asid) ∧ flushTlbEntry sys vpn asid = sys ∨
      ∃ slot, (sys.tlb slot).IsFor vpn asid ∧ (∀ i < slot, ¬ (sys.tlb i).IsFor vpn asid) ∧
        (flushTlbEntry sys vpn asid).tlb =
          update sys.tlb slot { sys.tlb slot with valid := false } := by
  cases found : (range tlbSize).find? fun i =>
      (sys.tlb i).vpn == vpn && (sys.tlb i).asid == asid with
  | none =>
    refine .inl ⟨fun i iLt => ?_, by rw [flushTlbEntry, found]⟩
    simpa [TlbEntry.IsFor] using find?_eq_none.mp found i (mem_range.mpr iLt)
  | some slot =>
    obtain ⟨isFor, -, others⟩ := find?_range_eq_some.mp found
    refine .inr ⟨slot, by simpa [TlbEntry.IsFor] using isFor, fun i before => ?_, ?_⟩
    · simpa [TlbEntry.IsFor, imp_iff_not_or] using others i before
    · rw [flushTlbEntry, found]

/-- `flush_tlb_entry` withdraws the entries for the page and leaves the others. -/
theorem flush_withdraws_only_page (sys : System) (memorySize : UInt64) (calls : List Call)
    (state : System) (reached : Reaches callStep (initSystem sys memorySize) calls state)
    (vpn : Nat) (asid : Fin maxProcesses) :
    (∀ i < tlbSize, ((flushTlbEntry state vpn asid).tlb i).valid →
      ¬ ((flushTlbEntry state vpn asid).tlb i).IsFor vpn asid) ∧
    ∀ i < tlbSize, ¬ ((state.tlb i).valid ∧ (state.tlb i).IsFor vpn asid) →
      (flushTlbEntry state vpn asid).tlb i = state.tlb i := by
  have unhidden := unhidden_of_reaches
    (fun _ _ _ _ valid => absurd valid Bool.false_ne_true) reached
  rcases flushTlbEntry_cases state vpn asid with
    ⟨noneFor, unchanged⟩ | ⟨slot, slotIsFor, noneBefore, flushed⟩
  · rw [unchanged]
    exact ⟨fun i iLt _ => noneFor i iLt, fun _ _ _ => rfl⟩
  rw [flushed]
  constructor
  · intro i iLt valid isFor
    by_cases same : i = slot
    · subst same
      simp at valid
    · simp only [update_of_ne same] at valid isFor
      rcases Nat.lt_or_gt_of_ne same with before | behind
      · exact noneBefore i before isFor
      · obtain ⟨rfl, sameAsid⟩ := isFor
        rw [← sameAsid] at slotIsFor
        exact unhidden slot i behind iLt valid slotIsFor
  · intro i iLt notValidFor
    by_cases same : i = slot
    · subst same
      have invalid : (state.tlb i).valid = false := by
        simpa using fun valid => notValidFor ⟨valid, slotIsFor⟩
      rw [update_self, ← invalid]
    · rw [update_of_ne same]

theorem flush_withdraws_page_entered_twice :
    ∃ state, Reaches callStep (initSystem zeroedSystem 8192)
        [.translateAddress 4096 ⟨1, by decide⟩, .flushTlbEntry 1 ⟨1, by decide⟩,
          .translateAddress 4096 ⟨1, by decide⟩] state ∧
      (state.tlb 0).valid ∧ (state.tlb 0).IsFor 1 1 ∧
      ∀ i < tlbSize, ((flushTlbEntry state 1 1).tlb i).valid →
        ¬ ((flushTlbEntry state 1 1).tlb i).IsFor 1 1 := by
  refine ⟨_, ⟨_, rfl⟩, rfl, ⟨rfl, rfl⟩, ?_⟩
  exact (flush_withdraws_only_page zeroedSystem 8192
    [.translateAddress 4096 ⟨1, by decide⟩, .flushTlbEntry 1 ⟨1, by decide⟩,
      .translateAddress 4096 ⟨1, by decide⟩] _ ⟨_, rfl⟩ 1 ⟨1, by decide⟩).1

end BitsAndBytes.PageFlush
