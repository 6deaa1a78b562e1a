import EchoLink.Handlers
import EchoLink.RoomList
import EchoLink.PartialMap

/-!
# The client table

What `network.c` and the end of a task do to `clients[]`, `client_count`,
`fd_to_slot[]` and the reference counts of the clients, apart from everything
else in the server.  Each of these is one section under `clients_mutex`, so
threads can take them in any order.  Reading or freeing a client that is not
allocated has no outcome.

The server that runs its operations one at a time has the same table
(`table_acceptNewClient`, `table_disconnectClient`).
-/

namespace EchoLink

open CText PartialMap

/-- The fields of `client` that connections and tasks depend on. -/
structure Connection where
  fd : Nat
  slot : Fin maxClients
  isActive : Bool
  refCount : Int

/-- `clients[]`, `client_count`, `fd_to_slot[]` and the allocated clients. -/
structure Table where
  clients : Fin maxClients → Option Ptr
  clientCount : Int
  fdToSlot : Nat → Option (Fin maxClients)
  mem : Ptr → Option Connection

/-- The slot `fd_to_slot` gives for a descriptor. -/
def Table.slotOf (t : Table) (fd : Nat) : Option (Fin maxClients) :=
  if fd < fdMapSize then t.fdToSlot fd else none

/-- `accept_new_client`, its section under `clients_mutex`. -/
def Table.accept (t : Table) (malloc : Option Ptr) (fd : Nat) : Table :=
  if (maxClients : Int) ≤ t.clientCount then t
  else
    match (List.finRange maxClients).find? fun i => (t.clients i).isNone, malloc with
    | some slot, some c =>
        { clients := Function.update t.clients slot (some c)
          clientCount := t.clientCount + 1
          fdToSlot := if fd < fdMapSize then Function.update t.fdToSlot fd (some slot) else t.fdToSlot
          mem := Function.update t.mem c
            (some { fd := fd, slot := slot, isActive := true, refCount := 1 }) }
    | _, _ => t

/-- `ref_count--`, and `free` at 0. -/
def Connection.dropped (x : Connection) : Option Connection :=
  if x.refCount - 1 = 0 then none else some { x with refCount := x.refCount - 1 }

/-- A reference is given back, under `clients_mutex`. -/
def Table.drop (t : Table) (c : Ptr) : Option Table :=
  (t.mem c).map fun x => { t with mem := Function.update t.mem c x.dropped }

/-- `disconnect_client`, under `clients_mutex`. -/
def Table.disconnect (t : Table) (fd : Nat) : Option Table :=
  match t.slotOf fd with
  | none => some t
  | some slot =>
      match t.clients slot with
      | none => some t
      | some c =>
          match t.mem c with
          | none => none
          | some x =>
              if x.fd = fd then
                some
                  { clients := Function.update t.clients slot none
                    clientCount := t.clientCount - 1
                    fdToSlot := Function.update t.fdToSlot fd none
                    mem := Function.update t.mem c (Connection.dropped { x with isActive := false }) }
              else some t

/-! ### The table of the server -/

def Client.connection (cl : Client) : Connection := ⟨cl.fd, cl.slot, cl.isActive, cl.refCount⟩

def Server.table (s : Server) : Table :=
  ⟨s.clients, s.clientCount, s.fdToSlot, fun c => (s.clientMem c).map Client.connection⟩

theorem table_acceptNewClient (env : Env) (s : Server) (fd : Nat) :
    (acceptNewClient env s fd).table = s.table.accept env.malloc fd := by
  unfold acceptNewClient Table.accept
  have hcount : s.table.clientCount = s.clientCount := rfl
  have hclients : s.table.clients = s.clients := rfl
  rw [hcount, hclients]
  split
  · rfl
  · cases (List.finRange maxClients).find? fun i => (s.clients i).isNone with
    | none => rfl
    | some slot =>
        cases env.malloc with
        | none => rfl
        | some c =>
            have hmem := map_update Client.connection s.clientMem c (some (newClient fd slot))
            unfold Server.table
            rw [hmem]
            rfl

theorem sameClients_roomDelete {s t : Server} {roomId : Nat} {k : Int}
    (h : roomDelete s roomId = some (k, t)) : SameClients s t := by
  unfold roomDelete at h
  split at h
  · cases h
  · cases h
    exact SameClients.refl s
  · rename_i p _
    split at h
    · cases h
    · rename_i u hunlink
      unfold Server.unlinkRoom at hunlink
      split at hunlink
      · have hu : SameClients s u := by
          rw [← Option.some.inj hunlink]
          exact ⟨rfl, rfl, rfl, rfl, rfl⟩
        have hd := (deactivate_same u roomId).2
        rw [← (Prod.mk.inj (Option.some.inj h)).2]
        exact hu.trans ⟨hd.clients, hd.clientCount, hd.fdToSlot, hd.clientMem, hd.users⟩
      · cases hunlink

theorem sameClients_afterRemoval {s t : Server} {p : Ptr} (h : s.afterRemoval p = some t) :
    SameClients s t := by
  unfold Server.afterRemoval at h
  split at h
  · cases h
  · rename_i r _
    have hpersist := (persistCount_same s r.roomId r.participantCount).2
    dsimp only at h
    split at h
    · obtain ⟨⟨k, u⟩, hdelete, hu⟩ := Option.map_eq_some_iff.mp h
      rw [← hu]
      exact hpersist.trans (sameClients_roomDelete hdelete)
    · rw [← Option.some.inj h]
      exact hpersist

theorem sameClients_removeClientFromRoom {s t : Server} {p c : Ptr}
    (h : removeClientFromRoom s p c = some t) : SameClients s t := by
  unfold removeClientFromRoom at h
  split at h
  · rename_i r cl _ _
    split at h
    · have hafter := sameClients_afterRemoval h
      exact ⟨hafter.clients, hafter.clientCount, hafter.fdToSlot, hafter.clientMem, hafter.users⟩
    · exact sameClients_afterRemoval h
  · cases h

/-- A client is dropped from the table whatever happened to its room. -/
theorem table_dropClient {s u : Server} (h : SameClients s u) (fd : Nat) (slot : Fin maxClients)
    (c : Ptr) (cl : Client) :
    (u.dropClient fd slot c cl).table =
      { clients := Function.update s.clients slot none
        clientCount := s.clientCount - 1
        fdToSlot := Function.update s.fdToSlot fd none
        mem := Function.update s.table.mem c
          (Connection.dropped { cl.connection with isActive := false }) } := by
  have hmem := map_update Client.connection u.clientMem c (if cl.refCount - 1 = 0 then none
    else some { cl with isActive := false, refCount := cl.refCount - 1 })
  have hdropped : (if cl.refCount - 1 = 0 then none
      else some { cl with isActive := false, refCount := cl.refCount - 1 }).map Client.connection =
        Connection.dropped { cl.connection with isActive := false } := by
    unfold Connection.dropped Client.connection
    dsimp only
    split
    · rfl
    · rfl
  rw [hdropped] at hmem
  unfold Server.dropClient Server.table
  dsimp only
  rw [hmem, h.clients, h.clientCount, h.fdToSlot, h.clientMem]

theorem table_disconnectClient {s t : Server} {fd : Nat} (h : disconnectClient s fd = some t) :
    s.table.disconnect fd = some t.table := by
  unfold disconnectClient at h
  unfold Table.disconnect Table.slotOf
  have hfd : s.table.fdToSlot = s.fdToSlot := rfl
  have hclients : s.table.clients = s.clients := rfl
  rw [hfd, hclients]
  cases hlookup : (if fd < fdMapSize then s.fdToSlot fd else none) with
  | none =>
      simp only [hlookup] at h ⊢
      rw [← Option.some.inj h]
  | some slot =>
      simp only [hlookup] at h ⊢
      cases hslot : s.clients slot with
      | none =>
          simp only [hslot] at h ⊢
          rw [← Option.some.inj h]
      | some c =>
          simp only [hslot] at h ⊢
          cases hcl : s.clientMem c with
          | none =>
              simp only [hcl] at h
              cases h
          | some cl =>
              have hconn : s.table.mem c = some cl.connection := by
                simp only [Server.table, hcl, Option.map_some]
              simp only [hcl] at h
              simp only [hconn]
              by_cases hown : cl.fd = fd
              · have hown' : cl.connection.fd = fd := hown
                rw [if_pos hown] at h
                rw [if_pos hown']
                cases hroom : cl.currentRoom with
                | none =>
                    simp only [hroom] at h
                    rw [← Option.some.inj h, table_dropClient (SameClients.refl s)]
                    rfl
                | some p =>
                    simp only [hroom] at h
                    obtain ⟨u, hu, hdrop⟩ := Option.map_eq_some_iff.mp h
                    rw [← hdrop, table_dropClient (sameClients_removeClientFromRoom hu)]
                    rfl
              · have hother : ¬ cl.connection.fd = fd := hown
                rw [if_neg hown] at h
                rw [if_neg hother, ← Option.some.inj h]

end EchoLink
