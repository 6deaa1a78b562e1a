import EchoLink.RoomNames
import EchoLink.WalCalls
import EchoLink.RoomAgreement
import Mathlib.Data.Nat.Digits.Lemmas

/-!
# `LIST` is complete

`room_list_formatted` advances its position by what `snprintf` would have printed, and
it looks at the position before each row only: the loop itself does not keep a row from
being cut, or the position from passing the end of the buffer.  What does is the size of
the rows.  A name has at most 31 bytes (`reachable_names`), an id and a count have few
digits, so a row has at most 58 bytes (`Listable.row_length`) and the rows of `MAX_ROOMS`
rooms fit behind the header.
-/

namespace EchoLink

open CText RecordFile LinkedList Runs

variable {s t : Server} {l : List Ptr} {c : Ptr} {cl : Client}

/-! ### The calls of `snprintf` -/

/-- The header of the table. -/
def listHeader : Bytes := listRow (ascii "ID") (ascii "Name") (ascii "Users") (ascii "Protected")

/-- The calls of `snprintf` in the loop of `room_list_formatted`: the position of each, and
what it prints into a buffer that is large enough. -/
def listCalls (s : Server) (bufferSize : Nat) : Nat → Option Ptr → Nat → List (Nat × Bytes)
  | 0, _, _ => []
  | _ + 1, none, _ => []
  | fuel + 1, some p, pos =>
      if pos < bufferSize - 1 then
        match s.roomMem p with
        | none => []
        | some r =>
            (pos, roomRow r) :: listCalls s bufferSize fuel (s.roomNext p) (pos + (roomRow r).length)
      else []

/-- All calls of `snprintf` in `room_list_formatted`. -/
def roomListCalls (s : Server) (bufferSize : Nat) : List (Nat × Bytes) :=
  match s.roomHead with
  | none => [(0, ascii "No active rooms")]
  | some _ => (0, listHeader) :: listCalls s bufferSize (maxRooms + 1) s.roomHead listHeader.length

/-- The text is what the calls print. -/
theorem listLoop_eq_calls {bufferSize fuel : Nat} {p : Option Ptr} {text out : Bytes}
    (h : listLoop s bufferSize fuel p text = some out) :
    out = text ++ (listCalls s bufferSize fuel p text.length).flatMap Prod.snd := by
  induction fuel generalizing p text with
  | zero => cases h
  | succ fuel ih =>
      cases p with
      | none =>
          cases h
          simp [listCalls]
      | some p =>
          simp only [listLoop] at h
          split at h
          · rename_i hlt
            cases hr : s.roomMem p with
            | none =>
                rw [hr] at h
                cases h
            | some r =>
                rw [hr] at h
                have hrest := ih h
                rw [List.length_append, List.append_assoc] at hrest
                simp only [listCalls, if_pos hlt, hr, List.flatMap_cons]
                exact hrest
          · rename_i hlt
            cases h
            simp [listCalls, hlt]

/-! ### The size of a row -/

/-- What keeps the row of a room short; the id is an `int`. -/
structure Listable (r : Room) : Prop where
  name : NameOk r.roomName
  id : r.roomId < 2 ^ 31
  count : r.participantCount ≤ maxClients

theorem decimal_length_le {n k : Nat} (hk : 0 < k) (h : n < 10 ^ k) : (decimal n).length ≤ k := by
  unfold decimal
  split
  · exact hk
  · rw [List.length_map, List.length_reverse]
    exact (Nat.digits_length_le_iff (by decide) n).mpr h

theorem padRight_length (n : Nat) (bs : Bytes) : (padRight n bs).length = max n bs.length := by
  rw [padRight, List.length_append, List.length_replicate]
  omega

theorem listRow_length (id name users isProtected : Bytes) :
    (listRow id name users isProtected).length =
      max 5 id.length + max 20 name.length + max 10 users.length + isProtected.length + 4 := by
  simp only [listRow, List.length_append, List.length_cons, List.length_nil, padRight_length]
  omega

theorem Listable.row_length {r : Room} (h : Listable r) : (roomRow r).length ≤ 58 := by
  have hid : (decimal r.roomId).length ≤ 10 := by
    apply decimal_length_le (by decide)
    exact h.id.trans (by decide)
  have hcount : (decimal r.participantCount).length ≤ 2 := by
    apply decimal_length_le (by decide)
    exact h.count.trans_lt (by decide)
  have hname : r.roomName.length < 32 := h.name.short
  have hprotected : (if r.password ≠ [] then ascii "Yes" else ascii "No").length ≤ 3 := by
    split <;> decide
  rw [roomRow, listRow_length]
  omega

theorem rows_length {rooms : List Room} (h : ∀ r ∈ rooms, Listable r) :
    (rooms.flatMap roomRow).length ≤ 58 * rooms.length := by
  induction rooms with
  | nil => exact Nat.le_refl 0
  | cons r rooms ih =>
      have hrow := (h r List.mem_cons_self).row_length
      have hrows := ih fun r' hr' => h r' (List.mem_cons_of_mem r hr')
      rw [List.flatMap_cons, List.length_append, List.length_cons]
      omega

/-! ### The lines -/

def headerLine : Bytes :=
  padRight 5 (ascii "ID") ++ 32 :: padRight 20 (ascii "Name") ++ 32 :: padRight 10 (ascii "Users") ++
    32 :: ascii "Protected"

/-- The line of a room: its id, name, number of participants and protection. -/
def roomLine (r : Room) : Bytes :=
  padRight 5 (decimal r.roomId) ++ 32 :: padRight 20 r.roomName ++ 32 :: padRight 10 (decimal r.participantCount) ++
    32 :: (if r.password ≠ [] then ascii "Yes" else ascii "No")

theorem roomRow_eq_line (r : Room) : roomRow r = roomLine r ++ [10] := by
  simp only [roomRow, listRow, roomLine, List.append_assoc, List.cons_append]

theorem mem_padRight {n : Nat} {bs : Bytes} {b : UInt8} (h : b ∈ padRight n bs) : b ∈ bs ∨ b = 32 := by
  rcases List.mem_append.mp h with h | h
  · exact Or.inl h
  · exact Or.inr (List.eq_of_mem_replicate h)

/-- A byte that no field has and that is not a blank is not in the line. -/
theorem not_mem_roomLine {r : Room} {b : UInt8} (hdigit : isDigit b = false) (hblank : b ≠ 32)
    (hname : b ∉ r.roomName) (hprotected : b ∉ ascii "Yes" ∧ b ∉ ascii "No") : b ∉ roomLine r := by
  have hdecimal : ∀ n, b ∉ decimal n := by
    intro n hn
    rw [isDigit_of_mem_decimal hn] at hdigit
    cases hdigit
  have hpad : ∀ {n bs}, b ∉ bs → b ∉ padRight n bs := by
    intro n bs hbs h
    rcases mem_padRight h with h | h
    · exact hbs h
    · exact hblank h
  have hlast : b ∉ (if r.password ≠ [] then ascii "Yes" else ascii "No") := by
    split
    · exact hprotected.1
    · exact hprotected.2
  intro h
  simp only [roomLine, List.mem_append, List.mem_cons] at h
  have h₁ := hpad (n := 5) (hdecimal r.roomId)
  have h₂ := hpad (n := 20) hname
  have h₃ := hpad (n := 10) (hdecimal r.participantCount)
  grind

theorem NameOk.wholeLine {r : Room} (h : NameOk r.roomName) : WholeLine (roomLine r) := by
  refine ⟨?_, ?_, ?_⟩
  · simp [roomLine]
  · apply not_mem_roomLine (by decide) (by decide) ?_ (by decide)
    intro hmem
    exact absurd (h.space 10 hmem) (by decide)
  · exact not_mem_roomLine (by decide) (by decide) h.zero (by decide)

/-! ### The loop -/

/-- The rooms at the places of the list. -/
def Server.roomsAt (s : Server) (l : List Ptr) : List Room := l.filterMap s.roomMem

/-- While everything fits, the loop calls `snprintf` once for each room. -/
theorem listCalls_complete {before : Option Ptr} {bufferSize fuel pos : Nat}
    (hlinks : Segment s.roomNext s.roomPrev before l none) (hlive : ∀ q ∈ l, ∃ r, s.roomMem q = some r)
    (hfuel : l.length < fuel) (hfits : pos + ((s.roomsAt l).flatMap roomRow).length < bufferSize - 1) :
    (listCalls s bufferSize fuel l.head? pos).map Prod.snd = (s.roomsAt l).map roomRow ∧
      ∀ call ∈ listCalls s bufferSize fuel l.head? pos, call.1 + call.2.length < bufferSize - 1 := by
  induction l generalizing before fuel pos with
  | nil =>
      obtain ⟨fuel, rfl⟩ : ∃ k, fuel = k + 1 := ⟨fuel - 1, by omega⟩
      exact ⟨rfl, fun call hcall => absurd hcall List.not_mem_nil⟩
  | cons q l ih =>
      obtain ⟨fuel, rfl⟩ : ∃ k, fuel = k + 1 := ⟨fuel - 1, by omega⟩
      obtain ⟨r, hr⟩ := hlive q List.mem_cons_self
      have hnext : s.roomNext q = l.head? := by rw [hlinks.2.1, Option.or_none]
      have hrooms : s.roomsAt (q :: l) = r :: s.roomsAt l := List.filterMap_cons_some hr
      rw [hrooms, List.flatMap_cons, List.length_append] at hfits
      rw [List.length_cons] at hfuel
      have hpos : pos < bufferSize - 1 := by omega
      have hfuel' : l.length < fuel := by omega
      have hfits' : pos + (roomRow r).length + ((s.roomsAt l).flatMap roomRow).length < bufferSize - 1 := by omega
      obtain ⟨hrest, hends⟩ := ih hlinks.2.2 (fun q' hq' => hlive q' (List.mem_cons_of_mem q hq')) hfuel' hfits'
      simp only [List.head?_cons, listCalls, if_pos hpos, hr, hnext]
      constructor
      · rw [hrooms, List.map_cons, List.map_cons, hrest]
      · intro call hcall
        rcases List.mem_cons.mp hcall with rfl | hcall
        · dsimp only
          omega
        · exact hends call hcall

theorem listHeader_length : listHeader.length = 48 := by decide

/-- **The text of the list**, when there are rooms and every row is short. -/
theorem RoomsOk.roomListFormatted (h : RoomsOk s l) (hne : l ≠ [])
    (hrows : ∀ r ∈ s.roomsAt l, Listable r) :
    roomListFormatted s maxPacketSize = some (listHeader ++ (s.roomsAt l).flatMap roomRow) ∧
      (roomListCalls s maxPacketSize).map Prod.snd = listHeader :: (s.roomsAt l).map roomRow ∧
      ∀ call ∈ roomListCalls s maxPacketSize, call.1 + call.2.length < maxPacketSize - 1 := by
  have hlive : ∀ q ∈ l, ∃ r, s.roomMem q = some r := fun q hq => (h.live q).mp hq
  have hfuel : l.length < maxRooms + 1 := Nat.lt_succ_of_le h.bound
  obtain ⟨p, hp⟩ : ∃ p, s.roomHead = some p := by
    rw [h.linked.head_eq]
    exact Option.ne_none_iff_exists'.mp (by rwa [ne_eq, List.head?_eq_none_iff])
  have hsize : listHeader.length + ((s.roomsAt l).flatMap roomRow).length < maxPacketSize - 1 := by
    have hrows := rows_length hrows
    have hcount : (s.roomsAt l).length ≤ l.length := List.length_filterMap_le _ _
    have hbound : l.length ≤ 32 := h.bound
    have hpacket : maxPacketSize = 4096 := rfl
    rw [listHeader_length]
    omega
  obtain ⟨hcalls, hends⟩ := listCalls_complete h.linked.links hlive hfuel hsize
  rw [← h.linked.head_eq] at hcalls hends
  refine ⟨?_, ?_, ?_⟩
  · obtain ⟨out, hout⟩ := listLoop_isSome maxPacketSize listHeader h.linked.links hlive hfuel
    rw [← h.linked.head_eq] at hout
    have htext : out = listHeader ++ (s.roomsAt l).flatMap roomRow := by
      rw [listLoop_eq_calls hout, List.flatMap_def, hcalls, ← List.flatMap_def]
    have htake : out.take (maxPacketSize - 1) = out := by
      apply List.take_of_length_le
      rw [htext, List.length_append]
      exact hsize.le
    have hcode : EchoLink.roomListFormatted s maxPacketSize = some (out.take (maxPacketSize - 1)) := by
      simp only [EchoLink.roomListFormatted, hp]
      rw [← hp]
      exact congrArg (Option.map fun text => text.take (maxPacketSize - 1)) hout
    rw [hcode, htake, htext]
  · simp only [roomListCalls, hp]
    rw [← hp, List.map_cons, hcalls]
  · intro call hcall
    simp only [roomListCalls, hp] at hcall
    rw [← hp] at hcall
    rcases List.mem_cons.mp hcall with rfl | hcall
    · decide
    · exact hends call hcall

/-- The text has a line for each room. -/
theorem lines_list {rooms : List Room} (h : ∀ r ∈ rooms, NameOk r.roomName) :
    lines (listHeader ++ rooms.flatMap roomRow) = headerLine :: rooms.map roomLine := by
  have hheader : WholeLine headerLine := by
    unfold WholeLine
    decide
  have htext : listHeader ++ rooms.flatMap roomRow =
      (headerLine :: rooms.map roomLine).flatMap fun line => line ++ [10] := by
    have hrow : roomRow = fun r => roomLine r ++ [10] := funext roomRow_eq_line
    rw [List.flatMap_cons, List.flatMap_map, hrow]
    rfl
  rw [htext]
  apply lines_flatMap
  intro line hline
  rcases List.mem_cons.mp hline with rfl | hline
  · exact hheader
  · obtain ⟨r, hr, rfl⟩ := List.mem_map.mp hline
    exact (h r hr).wholeLine

/-! ### The command -/

def IsList (line : Bytes) : Prop :=
  ∃ cmd args, splitCommand line = some (cmd, args) ∧ strcaseeq cmd (ascii "LIST") = true

/-- The rooms on the heap, in the order of their creation. -/
structure CreationOrder (s : Server) (l : List Ptr) : Prop where
  live : ∀ p, p ∈ l ↔ ∃ r, s.roomMem p = some r
  order : l.Pairwise fun p q => s.born p < s.born q

/-- The text is the header and one row for each room, and no call of `snprintf` has cut it. -/
structure ListText (s : Server) (l : List Ptr) (text : Bytes) : Prop where
  formatted : roomListFormatted s maxPacketSize = some text
  table : text = listHeader ++ (s.roomsAt l).flatMap roomRow
  rows : lines text = headerLine :: (s.roomsAt l).map roomLine
  calls : (roomListCalls s maxPacketSize).map Prod.snd = listHeader :: (s.roomsAt l).map roomRow
  fits : ∀ call ∈ roomListCalls s maxPacketSize, call.1 + call.2.length < maxPacketSize
  copied : (sendOk (ascii "Active rooms:") text).data = text

theorem dispatch_list {env : Env} {cmd : Bytes} {args : Option Bytes} (hcmd : strcaseeq cmd (ascii "LIST") = true) :
    dispatch env s c cmd args = handleListRooms s c := by
  have hother : ∀ kw ∈ [ascii "LOGIN", ascii "REGISTER", ascii "LOGOUT", ascii "CREATE", ascii "JOIN", ascii "LEAVE"],
      ¬ strcaseeq cmd kw = true := strcaseeq_others hcmd (by decide)
  simp only [dispatch]
  rw [if_neg (hother _ (by decide)), if_neg (hother _ (by decide)), if_neg (hother _ (by decide)),
    if_neg (hother _ (by decide)), if_neg (hother _ (by decide)), if_neg (hother _ (by decide)), if_pos hcmd]

/-- The text leaves a byte of the buffer for the 0. -/
theorem roomListFormatted_length {bufferSize : Nat} {text : Bytes}
    (h : roomListFormatted s bufferSize = some text) : text.length ≤ bufferSize - 1 := by
  unfold roomListFormatted at h
  split at h
  · rw [← Option.some.inj h]
    exact List.length_take_le _ _
  · obtain ⟨out, -, hout⟩ := Option.map_eq_some_iff.mp h
    rw [← hout]
    exact List.length_take_le _ _

theorem RoomsOk.listText (h : RoomsOk s l) (hne : l ≠ []) (hrows : ∀ r ∈ s.roomsAt l, Listable r) :
    ∃ text, ListText s l text := by
  obtain ⟨hformatted, hcalls, hends⟩ := h.roomListFormatted hne hrows
  refine ⟨_, hformatted, rfl, lines_list fun r hr => (hrows r hr).name, hcalls, ?_, ?_⟩
  · intro call hcall
    have hend := hends call hcall
    omega
  · exact List.take_of_length_le (roomListFormatted_length hformatted)

/-- Every room that operations make has a short row. -/
theorem ServerOk.listable (h : ServerOk s l) (hnames : NamesOk s)
    (hids : ∀ p r, s.roomMem p = some r → r.roomId < 2 ^ 31) : ∀ r ∈ s.roomsAt l, Listable r := by
  intro r hr
  obtain ⟨p, -, hp⟩ := List.mem_filterMap.mp hr
  exact ⟨hnames p r hp, hids p r hp, h.participants_le hp⟩

/-- **`LIST` is complete** in every state that operations reach: the text has the header
and one whole line for each room on the heap, in the order of creation, and a client that
is logged in gets that text.  Ids are `int`s. -/
theorem list_is_complete (db : FileDb) (users : File) (ops : List (Op × Env))
    (h : Along Server.step Fresh (Server.start db users) ops)
    (hrun : run Server.step (Server.start db users) ops = some s)
    (hids : ∀ p r, s.roomMem p = some r → r.roomId < 2 ^ 31) (hroom : ∃ p r, s.roomMem p = some r) :
    ∃ l text, CreationOrder s l ∧ ListText s l text ∧
      ∀ (x : CommandLine) (c : Ptr) (cl : Client), s.clients x.slot = some c → s.clientMem c = some cl →
        cl.userId ≠ -1 → IsList x.line →
          ∃ t, s.answer x = some (some ⟨statusOk, ascii "Active rooms:", text⟩, t) := by
  obtain ⟨l, hok⟩ := reachable_ok h hrun
  have hrows := hok.listable (reachable_names h hrun) hids
  have hne : l ≠ [] := by
    obtain ⟨p, r, hr⟩ := hroom
    exact List.ne_nil_of_mem (hok.rooms.mem_of_room hr)
  obtain ⟨text, htext⟩ := hok.rooms.listText hne hrows
  refine ⟨l, text, ⟨hok.rooms.live, hok.rooms.order⟩, htext, ?_⟩
  intro x c cl hslot hc hlogin hline
  obtain ⟨cmd, args, hsplit, hcmd⟩ := hline
  obtain ⟨hholds, hactive⟩ := hok.clients.held_active hslot hc
  have hsame : roomListFormatted { s with wrote := x.env.wrote } maxPacketSize = some text := by
    obtain ⟨hformatted, -⟩ := (hok.with_wrote x.env.wrote).rooms.roomListFormatted hne hrows
    rw [htext.table]
    exact hformatted
  have hdata : sendOk (ascii "Active rooms:") text = ⟨statusOk, ascii "Active rooms:", text⟩ := by
    have hcopied := htext.copied
    rw [sendOk] at hcopied ⊢
    rw [Response.mk.injEq]
    exact ⟨rfl, by decide, hcopied⟩
  refine ⟨{ s with wrote := x.env.wrote }, ?_⟩
  rw [answer_command hslot hc hactive hsplit, dispatch_list hcmd]
  simp only [handleListRooms, hsame, hc, if_neg hlogin, Option.map_some, hdata]

/-! ### The list of the lobby -/

theorem RoomsOk.eq_of_single (h : RoomsOk s l) {p : Ptr} (hhead : s.roomHead = some p) (hnext : s.roomNext p = none)
    {q : Ptr} {r : Room} (hq : s.roomMem q = some r) : q = p := by
  have hmem := h.mem_of_room hq
  have hlinks := h.linked.links
  cases l with
  | nil => cases hmem
  | cons p' l =>
      obtain rfl : p = p' := Option.some.inj (hhead.symm.trans h.linked.head_eq)
      have hrest := hlinks.2.1
      rw [hnext, Option.or_none] at hrest
      rw [List.head?_eq_none_iff.mp hrest.symm] at hmem
      exact List.mem_singleton.mp hmem

def adminList : CommandLine := ⟨firstSlot, ascii "LIST", completeEnv none⟩

/-- The admin's connection, whether it is logged in, the room list and the id of the lobby. -/
def Server.lobby (s : Server) : (Option Ptr × Option Int) × (Option Ptr × Option Ptr) × Option Nat :=
  ((s.clients firstSlot, (s.clientMem 1).map Client.userId), (s.roomHead, s.roomNext 2),
    (s.roomMem 2).map Room.roomId)

/-- The admin lists the lobby. -/
theorem lobby_is_listed :
    ∃ s l text t, run Server.step (Server.start emptyDb startTable) lobbyOps = some s ∧
      CreationOrder s l ∧ ListText s l text ∧
      s.answer adminList = some (some ⟨statusOk, ascii "Active rooms:", text⟩, t) := by
  have hlobby : (run Server.step (Server.start emptyDb startTable) lobbyOps).map Server.lobby =
      some ((some 1, some 0), (some 2, none), some 0) := by decide +kernel
  obtain ⟨s, hrun, hlobby⟩ := Option.map_eq_some_iff.mp hlobby
  obtain ⟨hadmin, hrest⟩ := Prod.mk.inj hlobby
  obtain ⟨hslot, hclient⟩ := Prod.mk.inj hadmin
  obtain ⟨hlist, hroom⟩ := Prod.mk.inj hrest
  obtain ⟨hhead, hnext⟩ := Prod.mk.inj hlist
  obtain ⟨cl, hcl, hin⟩ := Option.map_eq_some_iff.mp hclient
  obtain ⟨r, hr, hid⟩ := Option.map_eq_some_iff.mp hroom
  obtain ⟨l₀, hok⟩ := reachable_ok lobbyOps_fresh hrun
  have hids : ∀ p r, s.roomMem p = some r → r.roomId < 2 ^ 31 := by
    intro p r' hr'
    obtain rfl := hok.rooms.eq_of_single hhead hnext hr'
    obtain rfl := Option.some.inj (hr.symm.trans hr')
    rw [hid]
    decide
  obtain ⟨l, text, horder, htext, hanswer⟩ :=
    list_is_complete emptyDb startTable lobbyOps lobbyOps_fresh hrun hids ⟨2, r, hr⟩
  have hlogin : cl.userId ≠ -1 := by
    rw [hin]
    decide
  obtain ⟨t, ht⟩ := hanswer adminList 1 cl hslot hcl hlogin ⟨ascii "LIST", none, by decide +kernel, by decide +kernel⟩
  exact ⟨s, l, text, t, hrun, horder, htext, ht⟩

end EchoLink
