import BitsAndBytes.PageFlushMappings
import Mathlib.Data.Fintype.Card

/-! # Isolation of address spaces -/

namespace BitsAndBytes.PageFlush

open OperationRuns List Option

variable {sys next : System} {trace : List (Access × Nat)}

def newcomers (accesses : List Access) : List (Fin maxProcesses) :=
  accesses.foldl (fun seen access =>
    if access.pid ∈ seen then seen else seen ++ [access.pid]) []

variable (accesses : List Access) (count : Nat)

theorem newcomers_append (access : Access) : newcomers (accesses ++ [access]) =
      if access.pid ∈ newcomers accesses then newcomers accesses
      else newcomers accesses ++ [access.pid] := by
  rw [newcomers, foldl_append]
  rfl

theorem nodup_newcomers : (newcomers accesses).Nodup := by
  induction accesses using reverseRecOn with
  | nil => exact nodup_nil
  | append_singleton accesses access ih =>
    rw [newcomers_append]
    by_cases known : access.pid ∈ newcomers accesses
    · rw [if_pos known]
      exact ih
    · rw [if_neg known]
      apply nodup_append.mpr
      refine ⟨ih, nodup_singleton _, ?_⟩
      rintro pid member other isAccess rfl
      exact known (mem_singleton.mp isAccess ▸ member)

def asidAt (place : Nat) : Nat :=
  place % 255 + 1

theorem advanceAsid_asidAt (place : Nat) : advanceAsid (asidAt place) = asidAt (place + 1) := by
  by_cases wraps : (asidAt place + 1) % 256 = 0
  · rw [advanceAsid, if_pos wraps]
    simp only [asidAt] at wraps ⊢
    omega
  · rw [advanceAsid, if_neg wraps]
    simp only [asidAt] at wraps ⊢
    omega

/-- The ASIDs follow the order in which processes came, and mapped pages keep their frames. -/
structure Tracked (sys : System) (trace : List (Access × Nat)) : Prop where
  sound : Sound sys
  asid_of_place : ∀ place (pid : Fin maxProcesses),
    (newcomers (trace.map Prod.fst))[place]? = some pid → (sys.processes pid).asid = asidAt place
  asid_of_stranger : ∀ pid : Fin maxProcesses,
    pid ∉ newcomers (trace.map Prod.fst) → (sys.processes pid).asid = 0
  nextAsid : sys.nextAsid = asidAt (newcomers (trace.map Prod.fst)).length
  known : ∀ access ∈ trace, access.1.pid ∈ newcomers (trace.map Prod.fst)
  obtained : ∀ access ∈ trace, ∀ frame, frameOf access.2 = some frame →
    frameAt sys (sys.processes access.1.pid).asid (access.1.vaddr / pageSize) = some frame

theorem tracked_initSystem (sys : System) (memorySize : UInt64) :
    Tracked (initSystem sys.withZeroedProcesses memorySize) [] := by
  constructor
  · exact sound_initSystem sys memorySize
  · simp [newcomers]
  · intro pid _
    rfl
  · rfl
  · simp
  · simp

theorem Tracked.asid_eq_zero_iff (tracked : Tracked sys trace) (pid : Fin maxProcesses) :
    (sys.processes pid).asid = 0 ↔ pid ∉ newcomers (trace.map Prod.fst) := by
  constructor
  · intro unnamed member
    obtain ⟨place, _, placed⟩ := mem_iff_getElem.mp member
    have asid := tracked.asid_of_place place pid (List.getElem?_eq_some_iff.mpr ⟨_, placed⟩)
    simp only [asidAt] at asid
    omega
  · exact tracked.asid_of_stranger pid

variable {access : Access} {answer : Nat}

theorem Tracked.switch (tracked : Tracked sys trace) (switched : Switched sys next access.pid) :
    (∀ place (pid : Fin maxProcesses),
      (newcomers (trace.map Prod.fst ++ [access]))[place]? = some pid →
        (next.processes pid).asid = asidAt place) ∧
      (∀ pid : Fin maxProcesses, pid ∉ newcomers (trace.map Prod.fst ++ [access]) →
          (next.processes pid).asid = 0) ∧
        next.nextAsid = asidAt (newcomers (trace.map Prod.fst ++ [access])).length := by
  rw [newcomers_append]
  by_cases known : access.pid ∈ newcomers (trace.map Prod.fst)
  · have named : (sys.processes access.pid).asid ≠ 0 := fun unnamed =>
      (tracked.asid_eq_zero_iff access.pid).mp unnamed known
    have sameAsid : ∀ pid : Nat, (next.processes pid).asid = (sys.processes pid).asid := by
      intro pid
      by_cases same : pid = access.pid
      · rw [same, switched.asid_self, if_neg named]
      · exact switched.asid_other pid same
    rw [if_pos known]
    refine ⟨?_, ?_, ?_⟩
    · intro place pid placed
      rw [sameAsid]
      exact tracked.asid_of_place place pid placed
    · intro pid stranger
      rw [sameAsid]
      exact tracked.asid_of_stranger pid stranger
    · rw [switched.nextAsid, if_neg named]
      exact tracked.nextAsid
  · have unnamed := tracked.asid_of_stranger access.pid known
    have otherAsid : ∀ pid : Fin maxProcesses, pid ≠ access.pid →
        (next.processes pid).asid = (sys.processes pid).asid := by
      intro pid different
      apply switched.asid_other
      exact fun same => different (Fin.ext same)
    rw [if_neg known]
    refine ⟨?_, ?_, ?_⟩
    · intro place pid placed
      by_cases earlier : place < (newcomers (trace.map Prod.fst)).length
      · rw [getElem?_append_left earlier] at placed
        have different : pid ≠ access.pid := by
          rintro rfl
          exact known (mem_of_getElem? placed)
        rw [otherAsid pid different]
        exact tracked.asid_of_place place pid placed
      · rw [getElem?_append_right (by omega),
          getElem?_singleton, ite_none_right_eq_some, some.injEq] at placed
        obtain ⟨last, rfl⟩ := placed
        have placeEq : place = (newcomers (trace.map Prod.fst)).length := by omega
        rw [switched.asid_self, if_pos unnamed, tracked.nextAsid, placeEq]
    · intro pid stranger
      rw [mem_append, not_or, mem_singleton] at stranger
      rw [otherAsid pid stranger.2]
      exact tracked.asid_of_stranger pid stranger.1
    · rw [switched.nextAsid, if_pos unnamed, tracked.nextAsid, advanceAsid_asidAt, length_append]
      rfl

theorem mem_newcomers_append {accesses : List Access} {pid : Fin maxProcesses}
    (member : pid ∈ newcomers accesses) : pid ∈ newcomers (accesses ++ [access]) := by
  rw [newcomers_append]
  split
  · exact member
  · exact mem_append_left _ member

theorem last_mem_newcomers (access : Access) : access.pid ∈ newcomers (accesses ++ [access]) := by
  rw [newcomers_append]
  split
  · assumption
  · simp

theorem step_total (sys : System) (access : Access) :
    ∃ next answer, step sys access = some (next, answer) := ⟨_, _, rfl⟩

theorem Tracked.step (tracked : Tracked sys trace)
    (stepEq : step sys access = some (next, answer)) :
    Tracked next (trace ++ [(access, answer)]) := by
  have switched := switchProcess_spec tracked.sound access.pid
  have translated := (translates_translateAddress _ access.vaddr
    (switchProcess sys access.pid).currentAsid).translated switched.sound
  simp only [PageFlush.step, some.injEq] at stepEq
  rw [stepEq] at translated
  obtain ⟨placed, strangers, nextAsid⟩ := tracked.switch switched
  have traceMap : (trace ++ [(access, answer)]).map Prod.fst =
      trace.map Prod.fst ++ [access] := by simp
  constructor
  · exact translated.sound
  · rw [traceMap]
    intro place pid isAt
    rw [translated.asids]
    exact placed place pid isAt
  · rw [traceMap]
    intro pid stranger
    rw [translated.asids]
    exact strangers pid stranger
  · rw [traceMap, translated.nextAsid]
    exact nextAsid
  · rw [traceMap]
    intro earlier member
    rcases mem_append.mp member with before | last
    · exact mem_newcomers_append (tracked.known earlier before)
    · rw [mem_singleton.mp last]
      exact last_mem_newcomers _ access
  · intro earlier member frame isFrame
    rw [translated.asids]
    rcases mem_append.mp member with before | last
    · have mapped := tracked.obtained earlier before frame isFrame
      have named : (sys.processes earlier.1.pid).asid ≠ 0 := fun unnamed =>
        (tracked.asid_eq_zero_iff earlier.1.pid).mp unnamed (tracked.known earlier before)
      have sameAsid : ((switchProcess sys access.pid).processes
          earlier.1.pid).asid = (sys.processes earlier.1.pid).asid := by
        by_cases same : (earlier.1.pid : Nat) = access.pid
        · rw [same] at named ⊢
          rw [switched.asid_self, if_neg named]
        · exact switched.asid_other _ same
      apply translated.kept
      rw [sameAsid, switched.mappings]
      exact mapped
    · rw [mem_singleton.mp last] at isFrame ⊢
      have answered := translated.answered isFrame
      exact answered

theorem exists_tracked_run (sys : System) (memorySize : UInt64)
    (accesses : List Access) :
    ∃ finish answers, run step (initSystem sys.withZeroedProcesses memorySize) accesses =
          some (finish, answers) ∧
        Tracked finish (accesses.zip answers) ∧ (accesses.zip answers).map Prod.fst = accesses := by
  obtain ⟨finish, answers, runEq⟩ := exists_run step_total
    (initSystem sys.withZeroedProcesses memorySize) accesses
  have tracked := run_traced Tracked
    (fun tracked stepEq => tracked.step stepEq) runEq (tracked_initSystem sys memorySize)
  exact ⟨finish, answers, runEq, tracked, map_fst_zip (length_of_run runEq).le⟩

/-- No two processes have got the same frame. -/
def Isolated (trace : List (Access × Nat)) : Prop :=
  ∀ first ∈ trace, ∀ second ∈ trace, ∀ frame,
    frameOf first.2 = some frame → frameOf second.2 = some frame →
      first.1.pid = second.1.pid

/-- The first and the 256th process access no page of the same number. -/
def NoSharedPage (accesses : List Access) : Prop :=
  ∀ first last, (newcomers accesses)[0]? = some first → (newcomers accesses)[255]? = some last →
      ∀ early ∈ accesses, ∀ late ∈ accesses, early.pid = first → late.pid = last →
        early.vaddr / pageSize ≠ late.vaddr / pageSize

theorem Tracked.isolated (tracked : Tracked sys trace) (apart : NoSharedPage (trace.map Prod.fst)) :
    Isolated trace := by
  intro first firstMem second secondMem frame firstFrame secondFrame
  have firstMapped := tracked.obtained first firstMem frame firstFrame
  have secondMapped := tracked.obtained second secondMem frame secondFrame
  obtain ⟨sameAsid, sameVpn⟩ := tracked.sound.injective firstMapped secondMapped
  obtain ⟨place, placeLt, placed⟩ := mem_iff_getElem.mp (tracked.known first firstMem)
  obtain ⟨other, otherLt, otherPlaced⟩ := mem_iff_getElem.mp (tracked.known second secondMem)
  have isAt := List.getElem?_eq_some_iff.mpr ⟨placeLt, placed⟩
  have otherIsAt := List.getElem?_eq_some_iff.mpr ⟨otherLt, otherPlaced⟩
  rw [tracked.asid_of_place place _ isAt, tracked.asid_of_place other _ otherIsAt] at sameAsid
  have bounded : (newcomers (trace.map Prod.fst)).length ≤ 256 :=
    (nodup_newcomers _).length_le_card.trans_eq (Fintype.card_fin _)
  have firstAccess := mem_map_of_mem (f := Prod.fst) firstMem
  have secondAccess := mem_map_of_mem (f := Prod.fst) secondMem
  simp only [asidAt] at sameAsid
  have places : place = other ∨ place = 0 ∧ other = 255 ∨ place = 255 ∧ other = 0 := by omega
  rcases places with same | ⟨rfl, rfl⟩ | ⟨rfl, rfl⟩
  · subst same
    rw [← placed, ← otherPlaced]
  · exact absurd sameVpn (apart _ _ isAt otherIsAt _ firstAccess _ secondAccess rfl rfl)
  · exact absurd sameVpn.symm (apart _ _ otherIsAt isAt _ secondAccess _ firstAccess rfl rfl)

theorem Tracked.shares_frame (tracked : Tracked sys trace) {earlier : Access × Nat}
    (member : earlier ∈ trace) {frame : Nat} (isFrame : frameOf earlier.2 = some frame)
    (stepEq : PageFlush.step sys access = some (next, answer))
    (stranger : access.pid ∉ newcomers (trace.map Prod.fst))
    (taken : asidAt (newcomers (trace.map Prod.fst)).length = (sys.processes earlier.1.pid).asid)
    (samePage : access.vaddr / pageSize = earlier.1.vaddr / pageSize) :
    frameOf answer = some frame := by
  have switched := switchProcess_spec tracked.sound access.pid
  have unnamed := tracked.asid_of_stranger access.pid stranger
  have asid : (switchProcess sys access.pid).currentAsid = (sys.processes earlier.1.pid).asid := by
    rw [switched.current, switched.asid_self, if_pos unnamed, tracked.nextAsid]
    exact taken
  have mapped := tracked.obtained earlier member frame isFrame
  rw [← samePage, ← asid, ← switched.mappings] at mapped
  have translated := translateAddress_of_mapped switched.sound mapped
  simp only [PageFlush.step, some.injEq] at stepEq
  rw [stepEq] at translated
  exact translated

def inTurn (count : Nat) : List Access :=
  (range count).map fun pid => ⟨Fin.ofNat maxProcesses pid, 0⟩

theorem inTurn_succ : inTurn (count + 1) = inTurn count ++ [⟨Fin.ofNat maxProcesses count, 0⟩] := by
  simp [inTurn, range_succ]

theorem newcomers_inTurn {count : Nat} (countLe : count ≤ maxProcesses) :
    newcomers (inTurn count) = (range count).map (Fin.ofNat maxProcesses) := by
  induction count with
  | zero => rfl
  | succ count ih =>
    have fresh : Fin.ofNat maxProcesses count ∉
        (range count).map (Fin.ofNat maxProcesses) := by
      intro member
      obtain ⟨pid, pidMem, same⟩ := mem_map.mp member
      have pidLt := mem_range.mp pidMem
      have values := congrArg Fin.val same
      simp only [Fin.val_ofNat] at values
      rw [Nat.mod_eq_of_lt (by omega), Nat.mod_eq_of_lt (by omega)] at values
      omega
    rw [inTurn_succ, newcomers_append, ih (by omega), if_neg fresh, range_succ, map_append]
    rfl

theorem exists_frame_of_first_access {memorySize : UInt64} (room : pageSize ≤ memorySize.toNat)
    (stepEq : step (initSystem sys.withZeroedProcesses memorySize) access = some (next, answer)) :
    ∃ frame, frameOf answer = some frame := by
  have switched := switchProcess_spec (sound_initSystem sys memorySize) access.pid
  simp only [PageFlush.step, some.injEq] at stepEq
  obtain ⟨frame, isFrame⟩ := exists_frame_of_unpinned switched.sound access.vaddr
    (switchProcess (initSystem sys.withZeroedProcesses memorySize) access.pid).currentAsid ⟨0, by
        exact Nat.div_pos room (by decide), by
        rfl⟩
  rw [stepEq] at isFrame
  exact ⟨frame, isFrame⟩

/-- No frame is shared if the first and the 256th process use no page number in common. -/
theorem isolated_of_no_shared_page (sys : System) (memorySize : UInt64)
    (accesses : List Access) (apart : NoSharedPage accesses) :
    ∃ finish answers, run step (initSystem sys.withZeroedProcesses memorySize) accesses =
          some (finish, answers) ∧
        Isolated (accesses.zip answers) := by
  obtain ⟨finish, answers, runEq, tracked, accessesOf⟩ :=
    exists_tracked_run sys memorySize accesses
  refine ⟨finish, answers, runEq, tracked.isolated ?_⟩
  rw [accessesOf]
  exact apart

theorem isolated_of_two_processes : NoSharedPage [⟨0, 0⟩, ⟨1, 0⟩] ∧ ∃ finish answers,
        run step (initSystem zeroedSystem.withZeroedProcesses 1073741824)
            [⟨0, 0⟩, ⟨1, 0⟩] = some (finish, answers) ∧
          Isolated ([⟨0, 0⟩, ⟨1, 0⟩].zip answers) := by
  have apart : NoSharedPage [⟨0, 0⟩, ⟨1, 0⟩] := by
    intro first last _ isLast
    cases isLast
  exact ⟨apart, isolated_of_no_shared_page zeroedSystem 1073741824 _ apart⟩

theorem last_process_obtains_frame_of_first : ¬ ∃ finish answers,
        run step (initSystem zeroedSystem.withZeroedProcesses 1073741824)
            (inTurn 256) = some (finish, answers) ∧
          Isolated ((inTurn 256).zip answers) := by
  rintro ⟨finish, answers, runEq, isolated⟩
  obtain ⟨middle, earlier, earlierEq, tracked, accessesOf⟩ :=
    exists_tracked_run zeroedSystem 1073741824 (inTurn 255)
  have order : newcomers (((inTurn 255).zip earlier).map Prod.fst) =
      (range 255).map (Fin.ofNat maxProcesses) := by
    rw [accessesOf]
    exact newcomers_inTurn (by decide)
  obtain ⟨frame, firstAnswer, firstMem, firstFrame⟩ :
      ∃ frame answer, (⟨0, 0⟩, answer) ∈ (inTurn 255).zip earlier ∧
        frameOf answer = some frame := by
    obtain ⟨next, answer, rest, stepEq, -, rfl⟩ := run_cons_eq_some.mp earlierEq
    obtain ⟨frame, isFrame⟩ := exists_frame_of_first_access (by decide) stepEq
    exact ⟨frame, answer, mem_cons_self, isFrame⟩
  have firstAsid := tracked.asid_of_place 0 0 (by rw [order]; rfl)
  obtain ⟨last, lastAnswer, lastEq⟩ := step_total middle ⟨255, 0⟩
  have lastFrame : frameOf lastAnswer = some frame := by
    refine tracked.shares_frame firstMem firstFrame lastEq ?_ ?_ rfl
    · rw [order]
      decide
    · rw [firstAsid, order, length_map, length_range]
      rfl
  have wholeRun := run_concat earlierEq lastEq
  rw [show inTurn 256 = inTurn 255 ++ [⟨255, 0⟩] from inTurn_succ 255] at runEq isolated
  rw [wholeRun, some.injEq, Prod.mk.injEq] at runEq
  obtain ⟨-, rfl⟩ := runEq
  rw [zip_append (length_of_run earlierEq)] at isolated
  have same : (0 : Fin maxProcesses) = 255 :=
    isolated _ (mem_append_left _ firstMem) _
      (mem_append_right _ mem_cons_self) frame firstFrame lastFrame
  exact absurd same (by decide)

end BitsAndBytes.PageFlush
