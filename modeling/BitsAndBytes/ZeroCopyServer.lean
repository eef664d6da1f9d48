import BitsAndBytes.OperationRuns
import Mathlib.Algebra.BigOperators.Group.Finset.Piecewise
import Mathlib.Tactic.Abel

/-! # The server of `zero_copy_server` -/

namespace BitsAndBytes.ZeroCopyServer

open OperationRuns Function List Option Finset Multiset

def maxConnections : Nat := 1024

def readSz : Nat := 4096

/-- `conn_info`; a buffer is its address. -/
structure ConnInfo where
  fd : Int
  inUse : Bool
  buf : Option Nat
  bufSize : Nat

inductive EventType
  | accept
  | read
  | write
deriving DecidableEq

/-- `io_data`; `conn` is an index in the table. -/
structure IoData where
  eventType : EventType
  fd : Int
  iovBase : Option Nat
  iovLen : Nat
  conn : Nat
deriving DecidableEq

structure Server where
  connTable : Nat → ConnInfo
  pending : Multiset IoData
  openFds : Finset Int

inductive Event
  | closed (fd : Int)
  | wrote (fd : Int) (buf : Option Nat) (count : Int)

structure Completion where
  data : IoData
  res : Int
  mapped : Nat

def acceptRequest (serverSocket : Int) : IoData :=
  ⟨.accept, serverSocket, none, 0, 0⟩

def readRequest (conn : ConnInfo) (i : Nat) : IoData :=
  ⟨.read, conn.fd, conn.buf, conn.bufSize, i⟩

def addAcceptRequest (server : Server) (serverSocket : Int) : Server :=
  { server with pending := acceptRequest serverSocket ::ₘ server.pending }

def ConnInfo.withBuffer (conn : ConnInfo) (mapped : Nat) : ConnInfo :=
  match conn.buf with
  | none => { conn with buf := some mapped, bufSize := readSz }
  | some _ => conn

def addReadRequest (server : Server) (i mapped : Nat) : Server :=
  let conn := (server.connTable i).withBuffer mapped
  { server with
    connTable := Function.update server.connTable i conn
    pending := readRequest conn i ::ₘ server.pending }

def cleanupConn (server : Server) (i : Nat) : Server × List Event :=
  let conn := server.connTable i
  if 0 ≤ conn.fd then
    ({ server with
      connTable := Function.update server.connTable i ⟨-1, false, none, 0⟩
      openFds := server.openFds.erase conn.fd }, [.closed conn.fd])
  else
    ({ server with connTable := Function.update server.connTable i ⟨conn.fd, false, none, 0⟩ }, [])

def firstFreeFrom (connTable : Nat → ConnInfo) (i : Nat) : Nat → Option Nat
  | 0 => none
  | left + 1 =>
    if (connTable i).inUse = false then some i else firstFreeFrom connTable (i + 1) left

def firstFree (connTable : Nat → ConnInfo) : Option Nat :=
  firstFreeFrom connTable 0 maxConnections

def acceptConnection (server : Server) (clientFd : Int) (mapped : Nat) : Server × List Event :=
  match firstFree server.connTable with
  | some i =>
    let conn := { server.connTable i with fd := clientFd, inUse := true }
    (addReadRequest { server with
      connTable := Function.update server.connTable i conn } i mapped, [])
  | none => ({ server with openFds := server.openFds.erase clientFd }, [.closed clientFd])

def handleCompletion (server : Server) (completion : Completion) : Server × List Event :=
  let data := completion.data
  match data.eventType with
  | .accept =>
    if completion.res < 0 then (addAcceptRequest server data.fd, [])
    else
      let accepted := acceptConnection server completion.res completion.mapped
      (addAcceptRequest accepted.1 data.fd, accepted.2)
  | .read =>
    if completion.res ≤ 0 then cleanupConn server data.conn
    else
      (addReadRequest server data.conn completion.mapped,
        [.wrote data.fd (server.connTable data.conn).buf completion.res])
  | .write => (server, [])

/-- The descriptor that the kernel has opened for an accepted connection. -/
def Completion.acceptedFd (completion : Completion) : Option Int :=
  if completion.data.eventType = .accept ∧ 0 ≤ completion.res then some completion.res else none

/-- The kernel completes a pending request; an accepted descriptor was not open before. -/
def deliver (server : Server) (completion : Completion) : Option Server :=
  if completion.data ∈ server.pending then
    let rest := { server with pending := server.pending.erase completion.data }
    match completion.acceptedFd with
    | none => some rest
    | some fd =>
      if fd ∈ server.openFds then none
      else some { rest with openFds := insert fd server.openFds }
  else none

def step (server : Server) (completion : Completion) : Option (Server × List Event) :=
  (deliver server completion).map fun delivered => handleCompletion delivered completion

def initial (serverSocket : Int) (openFds : Finset Int) : Server where
  connTable := fun _ => ⟨0, false, none, 0⟩
  pending := {acceptRequest serverSocket}
  openFds := openFds

def IoData.IsAccept (data : IoData) : Prop :=
  data.eventType = .accept

def IoData.IsRead (i : Nat) (data : IoData) : Prop :=
  data.eventType = .read ∧ data.conn = i

instance : DecidablePred IoData.IsAccept :=
  fun _ => inferInstanceAs (Decidable (_ = _))

instance {i : Nat} : DecidablePred (IoData.IsRead i) :=
  fun _ => inferInstanceAs (Decidable (_ ∧ _))

def Event.closedFd : Event → Option Int
  | closed fd => some fd
  | wrote _ _ _ => none

def acceptedFds (completions : List Completion) : Multiset Int :=
  completions.filterMap Completion.acceptedFd

def closedFds (events : List Event) : Multiset Int :=
  events.filterMap Event.closedFd

def ConnInfo.fds (conn : ConnInfo) : Multiset Int :=
  if conn.inUse then {conn.fd} else 0

def fdsInUse (connTable : Nat → ConnInfo) : Multiset Int :=
  ∑ i ∈ range maxConnections, (connTable i).fds

def ConnInfo.requests (conn : ConnInfo) (i : Nat) : Multiset IoData :=
  if conn.inUse then {readRequest conn i} else 0

/-- The table, the pending requests and the open descriptors belong together. -/
structure Sound (serverSocket : Int) (server : Server) (past : List Completion)
    (events : List Event) : Prop where
  accepts : server.pending.filter IoData.IsAccept = {acceptRequest serverSocket}
  reads : ∀ i, server.pending.filter (IoData.IsRead i) = (server.connTable i).requests i
  inside : ∀ i, (server.connTable i).inUse → i < maxConnections
  opened : ∀ i, (server.connTable i).inUse →
    0 ≤ (server.connTable i).fd ∧ (server.connTable i).fd ∈ server.openFds
  distinct : ∀ i j, (server.connTable i).inUse → (server.connTable j).inUse →
    (server.connTable i).fd = (server.connTable j).fd → i = j
  ledger : acceptedFds past = closedFds events + fdsInUse server.connTable

section

variable {serverSocket : Int} {server : Server} {past : List Completion}
  {events more : List Event} {completion : Completion} {data : IoData}
  {pending : Multiset IoData} {openFds : Finset Int} {conn : ConnInfo} {i : Nat}

theorem sound_initial (serverSocket : Int) (openFds : Finset Int) :
    Sound serverSocket (initial serverSocket openFds) [] [] where
  accepts := rfl
  reads := fun _ => rfl
  inside := fun _ => nofun
  opened := fun _ => nofun
  distinct := fun _ _ => nofun
  ledger := by simp [acceptedFds, closedFds, fdsInUse, initial, ConnInfo.fds]

theorem acceptedFds_concat :
    acceptedFds (past ++ [completion]) = acceptedFds past + acceptedFds [completion] := by
  simp [acceptedFds, filterMap_append]

theorem closedFds_append : closedFds (events ++ more) = closedFds events + closedFds more := by
  simp [closedFds, filterMap_append]

theorem fdsInUse_update (connTable : Nat → ConnInfo) (conn : ConnInfo)
    (inside : i < maxConnections) :
    (connTable i).fds + fdsInUse (Function.update connTable i conn) =
      conn.fds + fdsInUse connTable := by
  have member := Finset.mem_range.mpr inside
  have moved := funext (apply_update (fun _ => ConnInfo.fds) connTable i conn)
  rw [fdsInUse, fdsInUse, moved, sum_update_of_mem member,
    sum_eq_add_sum_sdiff_singleton_of_mem member fun j => (connTable j).fds]
  exact add_left_comm _ _ _

theorem Sound.keep (sound : Sound serverSocket server past events)
    (accepts : pending.filter IoData.IsAccept = {acceptRequest serverSocket})
    (reads : ∀ j, pending.filter (IoData.IsRead j) = server.pending.filter (IoData.IsRead j))
    (stillOpen : ∀ j, (server.connTable j).inUse → (server.connTable j).fd ∈ openFds)
    (balance : acceptedFds [completion] = closedFds more) :
    Sound serverSocket ⟨server.connTable, pending, openFds⟩ (past ++ [completion])
      (events ++ more) where
  accepts := accepts
  reads := fun j => (reads j).trans (sound.reads j)
  inside := sound.inside
  opened := fun j used => ⟨(sound.opened j used).1, stillOpen j used⟩
  distinct := sound.distinct
  ledger := by
    rw [acceptedFds_concat, closedFds_append, sound.ledger, balance]
    exact add_right_comm _ _ _

theorem Sound.change (sound : Sound serverSocket server past events) (inside : i < maxConnections)
    (accepts : pending.filter IoData.IsAccept = {acceptRequest serverSocket})
    (mine : pending.filter (IoData.IsRead i) = conn.requests i)
    (others : ∀ j, j ≠ i →
      pending.filter (IoData.IsRead j) = server.pending.filter (IoData.IsRead j))
    (opened : conn.inUse → 0 ≤ conn.fd ∧ conn.fd ∈ openFds)
    (stillOpen : ∀ j, j ≠ i → (server.connTable j).inUse → (server.connTable j).fd ∈ openFds)
    (distinct : conn.inUse → ∀ j, j ≠ i → (server.connTable j).inUse →
      (server.connTable j).fd ≠ conn.fd)
    (balance : acceptedFds [completion] + (server.connTable i).fds = closedFds more + conn.fds) :
    Sound serverSocket ⟨Function.update server.connTable i conn, pending, openFds⟩
      (past ++ [completion]) (events ++ more) where
  accepts := accepts
  reads := fun j => by
    by_cases same : j = i
    · subst same
      simpa using mine
    · simpa [same] using (others j same).trans (sound.reads j)
  inside := fun j used => by
    by_cases same : j = i
    · exact same ▸ inside
    · exact sound.inside j (by simpa [same] using used)
  opened := fun j used => by
    by_cases same : j = i
    · subst same
      simpa using opened (by simpa using used)
    · have usedBefore : (server.connTable j).inUse := by simpa [same] using used
      simpa [same] using And.intro (sound.opened j usedBefore).1 (stillOpen j same usedBefore)
  distinct := fun j k jUsed kUsed fdEq => by
    by_cases jSame : j = i
    · by_cases kSame : k = i
      · rw [jSame, kSame]
      · subst jSame
        simp only [update_self, update_of_ne kSame] at jUsed kUsed fdEq
        exact absurd fdEq.symm (distinct jUsed k kSame kUsed)
    · by_cases kSame : k = i
      · subst kSame
        simp only [update_self, update_of_ne jSame] at jUsed kUsed fdEq
        exact absurd fdEq (distinct kUsed j jSame jUsed)
      · simp only [update_of_ne jSame, update_of_ne kSame] at jUsed kUsed fdEq
        exact sound.distinct j k jUsed kUsed fdEq
  ledger := by
    have update := fdsInUse_update server.connTable conn inside
    refine add_right_cancel (b := (server.connTable i).fds) ?_
    rw [acceptedFds_concat, closedFds_append, sound.ledger]
    calc closedFds events + fdsInUse server.connTable + acceptedFds [completion] +
          (server.connTable i).fds
        = closedFds events + (acceptedFds [completion] + (server.connTable i).fds) +
            fdsInUse server.connTable := by abel
      _ = closedFds events + closedFds more + (conn.fds + fdsInUse server.connTable) := by
          rw [balance]
          abel
      _ = closedFds events + closedFds more +
            fdsInUse (Function.update server.connTable i conn) + (server.connTable i).fds := by
          rw [← update]
          abel

theorem filter_erase_of_neg {kind : IoData → Prop} [DecidablePred kind] (member : data ∈ pending)
    (otherKind : ¬ kind data) : (pending.erase data).filter kind = pending.filter kind := by
  nth_rewrite 2 [← cons_erase member]
  rw [filter_cons_of_neg _ otherKind]

theorem IoData.IsAccept.not_isRead (isAccept : data.IsAccept) : ¬ data.IsRead i := by
  rintro ⟨isRead, -⟩
  rw [IoData.IsAccept, isRead] at isAccept
  cases isAccept

theorem Sound.of_isAccept (sound : Sound serverSocket server past events)
    (member : data ∈ server.pending) (isAccept : data.IsAccept) :
    data = acceptRequest serverSocket ∧ (server.pending.erase data).filter IoData.IsAccept = 0 ∧
      ∀ j, (server.pending.erase data).filter (IoData.IsRead j) =
        server.pending.filter (IoData.IsRead j) := by
  have accepts := sound.accepts
  rw [← cons_erase member, filter_cons_of_pos _ isAccept, eq_comm, singleton_eq_cons_iff] at accepts
  exact ⟨accepts.1.symm, accepts.2, fun j => filter_erase_of_neg member isAccept.not_isRead⟩

theorem Sound.of_isRead (sound : Sound serverSocket server past events)
    (member : data ∈ server.pending) (isRead : data.IsRead i) :
    (server.connTable i).inUse ∧ data = readRequest (server.connTable i) i ∧
      (server.pending.erase data).filter IoData.IsAccept = {acceptRequest serverSocket} ∧
      (server.pending.erase data).filter (IoData.IsRead i) = 0 ∧
      ∀ j, j ≠ i → (server.pending.erase data).filter (IoData.IsRead j) =
        server.pending.filter (IoData.IsRead j) := by
  have reads := sound.reads i
  rw [← cons_erase member, filter_cons_of_pos _ isRead, ConnInfo.requests]
    at reads
  split at reads
  · rename_i used
    rw [eq_comm, singleton_eq_cons_iff] at reads
    refine ⟨used, reads.1.symm, ?_, reads.2, fun j other => ?_⟩
    · rw [filter_erase_of_neg member fun isAccept => isAccept.not_isRead isRead, sound.accepts]
    · exact filter_erase_of_neg member fun isOther => other (isOther.2.symm.trans isRead.2)
  · exact absurd reads (cons_ne_zero)

@[simp]
theorem isAccept_acceptRequest : (acceptRequest serverSocket).IsAccept := rfl

@[simp]
theorem not_isRead_acceptRequest : ¬ (acceptRequest serverSocket).IsRead i := nofun

@[simp]
theorem not_isAccept_readRequest : ¬ (readRequest conn i).IsAccept := nofun

@[simp]
theorem isRead_readRequest {j : Nat} : (readRequest conn i).IsRead j ↔ i = j :=
  ⟨And.right, fun same => ⟨rfl, same⟩⟩

theorem firstFreeFrom_eq_some {connTable : Nat → ConnInfo} {first left : Nat}
    (found : firstFreeFrom connTable first left = some i) :
    i < first + left ∧ (connTable i).inUse = false := by
  induction left generalizing first with
  | zero => cases found
  | succ left ih =>
    rw [firstFreeFrom] at found
    split at found
    · rename_i free
      cases found
      exact ⟨by omega, free⟩
    · obtain ⟨lt, free⟩ := ih found
      exact ⟨by omega, free⟩

@[simp]
theorem ConnInfo.withBuffer_fd {mapped : Nat} : (conn.withBuffer mapped).fd = conn.fd := by
  rw [withBuffer]
  split <;> rfl

@[simp]
theorem ConnInfo.withBuffer_inUse {mapped : Nat} : (conn.withBuffer mapped).inUse = conn.inUse := by
  rw [withBuffer]
  split <;> rfl

section

variable (sound : Sound serverSocket server past events) (member : data ∈ server.pending)
include sound member

theorem Sound.acceptConnection (isAccept : data.IsAccept) {clientFd : Int} (nonneg : 0 ≤ clientFd)
    (fresh : clientFd ∉ server.openFds) {mapped : Nat} {delivered : Server}
    (isDelivered : delivered = { server with
      pending := server.pending.erase data
      openFds := insert clientFd server.openFds })
    (accepted : acceptedFds [completion] = {clientFd}) :
    Sound serverSocket
      (addAcceptRequest (acceptConnection delivered clientFd mapped).1 data.fd)
      (past ++ [completion]) (events ++ (acceptConnection delivered clientFd mapped).2) := by
  obtain ⟨rfl, accepts, reads⟩ := sound.of_isAccept member isAccept
  subst isDelivered
  simp only [ZeroCopyServer.acceptConnection, addAcceptRequest]
  generalize found : firstFree server.connTable = free
  cases free with
  | none =>
    refine sound.keep ?_ (fun j => ?_) (fun j used => ?_) accepted
    · simp [accepts]
      rfl
    · simp [reads]
    · rw [erase_insert fresh]
      exact (sound.opened j used).2
  | some i =>
    obtain ⟨inside, free⟩ := firstFreeFrom_eq_some found
    rw [Nat.zero_add] at inside
    simp only [addReadRequest, update_self, update_idem]
    refine sound.change inside ?_ ?_ (fun j other => ?_) ?_ ?_ ?_ ?_
    · simp [accepts]
      rfl
    · have noRead := sound.reads i
      rw [ConnInfo.requests, free, if_neg Bool.false_ne_true] at noRead
      simp [reads, noRead, ConnInfo.requests]
    · simp [reads, Ne.symm other]
    · simp [nonneg]
    · intro j _ used
      exact mem_insert_of_mem (sound.opened j used).2
    · intro _ j _ used fdEq
      have same : (server.connTable j).fd = clientFd := by simpa using fdEq
      exact fresh (same ▸ (sound.opened j used).2)
    · simp [accepted, ConnInfo.fds, free, closedFds]

variable (notAccept : acceptedFds [completion] = 0)
include notAccept

theorem Sound.cleanupConn (isRead : data.IsRead i) : Sound serverSocket
      (cleanupConn { server with pending := server.pending.erase data } i).1 (past ++ [completion])
      (events ++ (cleanupConn { server with pending := server.pending.erase data } i).2) := by
  obtain ⟨used, -, accepts, mine, others⟩ := sound.of_isRead member isRead
  obtain ⟨nonneg, -⟩ := sound.opened i used
  simp only [ZeroCopyServer.cleanupConn, if_pos nonneg]
  refine sound.change (sound.inside i used) accepts mine others nofun ?_ nofun ?_
  · intro j other otherUsed
    refine mem_erase.mpr ⟨fun fdEq => other ?_, (sound.opened j otherUsed).2⟩
    exact sound.distinct j i otherUsed used fdEq
  · simp [notAccept, ConnInfo.fds, used, closedFds, Event.closedFd]

theorem Sound.readAgain (isRead : data.IsRead i) (mapped : Nat) {buf : Option Nat} {count : Int} :
    Sound serverSocket (addReadRequest { server with pending := server.pending.erase data } i
      mapped) (past ++ [completion]) (events ++ [.wrote data.fd buf count]) := by
  obtain ⟨used, -, accepts, mine, others⟩ := sound.of_isRead member isRead
  refine sound.change (sound.inside i used) ?_ ?_ (fun j other => ?_) ?_ ?_ ?_ ?_
  · simp [accepts]
  · simp [mine, ConnInfo.requests, used]
  · simp [others j other, Ne.symm other]
  · intro
    simpa using sound.opened i used
  · intro j _ otherUsed
    exact (sound.opened j otherUsed).2
  · intro _ j other otherUsed fdEq
    exact other (sound.distinct j i otherUsed used (by simpa using fdEq))
  · rw [notAccept, ConnInfo.fds, ConnInfo.fds, ConnInfo.withBuffer_inUse, ConnInfo.withBuffer_fd]
    rfl

end

theorem acceptedFds_of_acceptedFd (accepted : completion.acceptedFd = none) :
    acceptedFds [completion] = 0 := by
  simp [acceptedFds, accepted]

theorem acceptedFd_of_ne (notAccept : completion.data.eventType ≠ .accept) :
    completion.acceptedFd = none :=
  if_neg fun both => notAccept both.1

theorem Sound.step {next : Server} (sound : Sound serverSocket server past events)
    (stepEq : ZeroCopyServer.step server completion = some (next, more)) :
    Sound serverSocket next (past ++ [completion]) (events ++ more) := by
  obtain ⟨delivered, delivers, handled⟩ := map_eq_some_iff.mp stepEq
  obtain ⟨data, res, mapped⟩ := completion
  rw [deliver, ite_none_right_eq_some] at delivers
  obtain ⟨member, delivers⟩ := delivers
  rw [handleCompletion] at handled
  cases kind : data.eventType with
  | accept =>
    simp only [kind] at handled
    split at handled
    · rename_i negative
      have accepted : Completion.acceptedFd ⟨data, res, mapped⟩ = none :=
        if_neg fun both => Int.not_le.mpr negative both.2
      simp only [accepted] at delivers
      cases delivers
      cases handled
      obtain ⟨rfl, accepts, reads⟩ := sound.of_isAccept member kind
      refine sound.keep ?_ (fun j => ?_) (fun j used => (sound.opened j used).2)
        (acceptedFds_of_acceptedFd accepted)
      · simp [accepts]
        rfl
      · simp [reads]
    · rename_i notNegative
      have nonneg : 0 ≤ res := not_lt.mp notNegative
      have accepted : Completion.acceptedFd ⟨data, res, mapped⟩ = some res :=
        if_pos ⟨kind, nonneg⟩
      simp only [accepted, ite_none_left_eq_some] at delivers
      obtain ⟨fresh, isDelivered⟩ := delivers
      cases handled
      exact sound.acceptConnection member kind nonneg fresh (some.inj isDelivered).symm
        (by simp [acceptedFds, accepted])
  | read =>
    have accepted : Completion.acceptedFd ⟨data, res, mapped⟩ = none :=
      acceptedFd_of_ne fun isAccept => by cases kind.symm.trans isAccept
    have notAccept := acceptedFds_of_acceptedFd accepted
    simp only [accepted] at delivers
    cases delivers
    simp only [kind] at handled
    split at handled
    · have closed := sound.cleanupConn member notAccept (i := data.conn) ⟨kind, rfl⟩
      rwa [handled] at closed
    · cases handled
      exact sound.readAgain member notAccept ⟨kind, rfl⟩ mapped
  | write =>
    have accepted : Completion.acceptedFd ⟨data, res, mapped⟩ = none :=
      acceptedFd_of_ne fun isAccept => by cases kind.symm.trans isAccept
    simp only [accepted] at delivers
    cases delivers
    simp only [kind] at handled
    cases handled
    refine sound.keep ?_ (fun j => ?_) (fun j used => (sound.opened j used).2)
      (acceptedFds_of_acceptedFd accepted)
    · rw [filter_erase_of_neg member fun isAccept => by cases kind.symm.trans isAccept]
      exact sound.accepts
    · exact filter_erase_of_neg member fun isRead => by cases kind.symm.trans isRead.1

end

/-- One accept is pending, one read for each connection, and each descriptor that the kernel
accepted is in use or has been closed once. -/
theorem connections_accounted (serverSocket : Int) (openFds : Finset Int)
    (completions : List Completion) (server : Server) (events : List (List Event))
    (ran : run step (initial serverSocket openFds) completions = some (server, events)) :
    server.pending.countP IoData.IsAccept = 1 ∧
      (∀ i < maxConnections, server.pending.countP (IoData.IsRead i) =
        if (server.connTable i).inUse then 1 else 0) ∧
      (∀ i < maxConnections, ∀ j < maxConnections, (server.connTable i).inUse →
        (server.connTable j).inUse → (server.connTable i).fd = (server.connTable j).fd → i = j) ∧
      acceptedFds completions = closedFds events.flatten + fdsInUse server.connTable := by
  have sound : Sound serverSocket server completions events.flatten := by
    have start : Sound serverSocket (initial serverSocket openFds)
        (([] : List (Completion × List Event)).map Prod.fst)
        (([] : List (Completion × List Event)).map Prod.snd).flatten :=
      sound_initial serverSocket openFds
    have traced := run_traced (fun server trace =>
        Sound serverSocket server (trace.map Prod.fst) (trace.map Prod.snd).flatten)
      (fun sound stepEq => by simpa using sound.step stepEq) ran start
    rwa [nil_append, map_fst_zip (length_of_run ran).le,
      map_snd_zip (length_of_run ran).ge] at traced
  refine ⟨?_, fun i _ => ?_, fun i _ j _ => sound.distinct i j, sound.ledger⟩
  · rw [countP_eq_card_filter, sound.accepts, Multiset.card_singleton]
  · rw [countP_eq_card_filter, sound.reads, ConnInfo.requests]
    split <;> rfl

def someCompletions : List Completion :=
  [⟨acceptRequest 3, 4, 8192⟩, ⟨⟨.read, 4, some 8192, 4096, 0⟩, 10, 0⟩,
    ⟨⟨.read, 4, some 8192, 4096, 0⟩, 0, 0⟩]

theorem one_connection_accounted :
    ∃ server events, run step (initial 3 {0, 1, 2, 3}) someCompletions = some (server, events) ∧
      acceptedFds someCompletions = {4} ∧ server.pending.countP IoData.IsAccept = 1 ∧
      acceptedFds someCompletions = closedFds events.flatten + fdsInUse server.connTable := by
  obtain ⟨server, events, ran⟩ : ∃ server events, run step (initial 3 {0, 1, 2, 3})
      someCompletions = some (server, events) := ⟨_, _, rfl⟩
  obtain ⟨oneAccept, -, -, ledger⟩ := connections_accounted 3 {0, 1, 2, 3} _ server events ran
  exact ⟨server, events, ran, rfl, oneAccept, ledger⟩

end BitsAndBytes.ZeroCopyServer
