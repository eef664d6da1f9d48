import BitsAndBytes.CString
import BitsAndBytes.OperationRuns
import Mathlib.Data.List.FinRange

/-! # The service loop of `serverSide.c` -/

namespace BitsAndBytes.EchoServer

open CheckedArray CString OperationRuns Option Function List

def maxClients : Nat := 30

def bufferSize : Nat := 1024

structure Chunk where
  bytes : List UInt8
  bytes_ne_nil : bytes ≠ []
  length_le : bytes.length ≤ bufferSize

inductive Event
  | connected (newSocket : Int)
  | disconnected (client : Fin maxClients)
  | failed (client : Fin maxClients)
  | received (client : Fin maxClients) (chunk : Chunk)

abbrev Clients := Fin maxClients → Int

structure Server where
  clientSocket : Clients
  buffer : Nat → UInt8

def addClient (clientSocket : Clients) (newSocket : Int) : Clients :=
  match (finRange maxClients).find? fun client => clientSocket client = 0 with
  | some client => update clientSocket client newSocket
  | none => clientSocket

/-- The buffer after a `read` has stored `bytes` in it. -/
def filled (buffer : Nat → UInt8) (bytes : List UInt8) (index : Nat) : UInt8 :=
  bytes.getD index (buffer index)

def serve (server : Server) : Event → Option (Server × Option (Int × List UInt8))
  | .connected newSocket =>
    some ({ server with clientSocket := addClient server.clientSocket newSocket }, none)
  | .disconnected client =>
    some ({ server with clientSocket := update server.clientSocket client 0 }, none)
  | .failed _ =>
    none
  | .received client chunk => do
    let buffer ← write bufferSize (filled server.buffer chunk.bytes) chunk.bytes.length 0
    let message ← checkedText 0 bufferSize buffer
    some ({ server with buffer }, some (server.clientSocket client, message))

def echo (clientSocket : Clients) : Event → Clients × Option (Int × List UInt8)
  | .connected newSocket => (addClient clientSocket newSocket, none)
  | .disconnected client => (update clientSocket client 0, none)
  | .failed _ => (clientSocket, none)
  | .received client chunk => (clientSocket, some (clientSocket client, chunk.bytes))

/-- A chunk is echoed if it leaves room for the NUL and contains none. -/
def Event.Echoed : Event → Prop
  | .connected _ => True
  | .disconnected _ => True
  | .failed _ => False
  | .received _ chunk => chunk.bytes.length < bufferSize ∧ 0 ∉ chunk.bytes

variable (server : Server) {next : Server} {event : Event} (client : Fin maxClients)

theorem serve_received (chunk : Chunk) (room : chunk.bytes.length < bufferSize) :
    ∃ buffer, serve server (.received client chunk) = some ({ server with buffer },
        some (server.clientSocket client, chunk.bytes.takeWhile (· ≠ 0))) := by
  have holds : Holds (filled server.buffer chunk.bytes) chunk.bytes :=
    fun index inside => (getElem_eq_getD _).symm
  refine ⟨update (filled server.buffer chunk.bytes) chunk.bytes.length 0, ?_⟩
  simp only [serve, write_of_lt room, bind_eq_bind, bind_some,
    checkedText_of_holds (holds.concat 0) room]

theorem serve_full {chunk : Chunk} (full : bufferSize ≤ chunk.bytes.length) :
    serve server (.received client chunk) = none := by
  rw [serve, write_of_le full]
  rfl

theorem exists_serve (echoed : event.Echoed) :
    ∃ next, serve server event = some (next, (echo server.clientSocket event).2) ∧
      next.clientSocket = (echo server.clientSocket event).1 := by
  cases event with
  | connected newSocket | disconnected client => exact ⟨_, rfl, rfl⟩
  | failed client => exact echoed.elim
  | received client chunk =>
    obtain ⟨buffer, served⟩ := serve_received server client chunk echoed.1
    rw [takeWhile_eq_self_iff_notMem.mpr echoed.2] at served
    exact ⟨_, served, rfl⟩

theorem echoed_of_serve
    (served : serve server event = some (next, (echo server.clientSocket event).2)) :
    event.Echoed := by
  cases event with
  | connected newSocket | disconnected client => trivial
  | failed client => cases served
  | received client chunk =>
    by_cases room : chunk.bytes.length < bufferSize
    · obtain ⟨buffer, sent⟩ := serve_received server client chunk room
      rw [served, some.injEq, Prod.mk.injEq, echo, some.injEq, Prod.mk.injEq] at sent
      exact ⟨room, takeWhile_eq_self_iff_notMem.mp sent.2.2.symm⟩
    · rw [serve_full server client (Nat.le_of_not_lt room)] at served
      cases served

/-- All is echoed exactly if no read fails, no chunk fills the buffer and no byte is a NUL. -/
theorem serve_echoes_iff (events : List Event) :
    (∃ finish sent, run serve server events = some (finish, sent) ∧
      run (fun clients event => some (echo clients event)) server.clientSocket events =
        some (finish.clientSocket, sent)) ↔ ∀ event ∈ events, event.Echoed := by
  induction events generalizing server with
  | nil => simp
  | cons event events ih =>
    rw [forall_mem_cons]
    constructor
    · rintro ⟨finish, sent, served, echoed⟩
      obtain ⟨next, out, rest, firstServed, restServed, rfl⟩ := run_cons_eq_some.mp served
      obtain ⟨clients, _, _, firstEchoed, restEchoed, sameSent⟩ := run_cons_eq_some.mp echoed
      cases sameSent
      have first : event.Echoed := echoed_of_serve server (by
        rw [firstServed, some.inj firstEchoed])
      obtain ⟨other, otherServed, sameClients⟩ := exists_serve server first
      cases firstServed.symm.trans otherServed
      have nextClients : next.clientSocket = clients := by
        rw [sameClients, some.inj firstEchoed]
      exact ⟨first, (ih next).mp ⟨finish, rest, restServed, nextClients ▸ restEchoed⟩⟩
    · rintro ⟨first, others⟩
      obtain ⟨next, firstServed, sameClients⟩ := exists_serve server first
      obtain ⟨finish, sent, restServed, restEchoed⟩ := (ih next).mpr others
      rw [sameClients] at restEchoed
      exact ⟨finish, _, run_cons_eq_some.mpr ⟨next, _, sent, firstServed, restServed, rfl⟩,
        run_cons_eq_some.mpr ⟨_, _, sent, rfl, restEchoed, rfl⟩⟩

theorem full_chunk_is_terminated_past_the_buffer :
    ∃ chunk : Chunk, chunk.bytes = replicate 1024 65 ∧
      ∀ server client, serve server (.received client chunk) = none := by
  have length_eq : (replicate 1024 (65 : UInt8)).length = bufferSize := length_replicate
  refine ⟨⟨replicate 1024 65, ?_, length_eq.le⟩, rfl, fun server client => ?_⟩
  · exact ne_nil_of_length_pos (length_eq ▸ by decide)
  · exact serve_full server client length_eq.ge

end BitsAndBytes.EchoServer
