import EchoLink.RoomAgreement

/-!
# What unprivileged commands cannot touch

A command of a client that is neither an admin nor a moderator changes no other
client, adds no room, ends a room only when the client was alone in it, and
leaves the accounts as they were but for a new user at the end of the table
(`Confined`).  A command of a moderator changes no role but its own, by
`LOGOUT`, and no account (`Moderated`).

Both follow from the list of effects of a command.  They hold in every state
that operations can reach, also when record writes fail.
-/

namespace EchoLink

open CText RecordFile LinkedList PackedArray TwoViews Runs

/-- The clients other than `c`, and their places in their rooms, are the same. -/
structure Untouched (s t : Server) (c : Ptr) : Prop where
  others : ∀ d, d ≠ c → t.clientMem d = s.clientMem d
  positions : ∀ p r r', s.roomMem p = some r → t.roomMem p = some r' →
    r'.members.filter (· ≠ c) = r.members.filter (· ≠ c)
  added : ∀ p, s.roomMem p = none → t.roomMem p = none
  ended : ∀ p r, s.roomMem p = some r → t.roomMem p = none → r.members = [c]

/-- The table after at most one account with the role of a user was added. -/
def UserAppended (d d' : Bytes) : Prop :=
  d' = d ∨ ∃ n name password wrote,
    d' = d ++ (newUser n name password (ascii "USER")).encode.take wrote

variable {s t u : Server} {l : List Ptr} {c : Ptr} {cl : Client} {line : Bytes}

/-! ### The rooms and the other clients -/

theorem Untouched.of_same (hothers : ∀ d, d ≠ c → t.clientMem d = s.clientMem d)
    (hmem : t.roomMem = s.roomMem) : Untouched s t c where
  others := hothers
  positions := by
    intro p r r' hr hr'
    rw [hmem, hr, Option.some.injEq] at hr'
    rw [hr']
  added := by
    intro p hp
    rw [hmem, hp]
  ended := by
    intro p r hr hnone
    rw [hmem, hr] at hnone
    cases hnone

theorem filter_erase {ms : List Ptr} (h : ms.Nodup) (c : Ptr) :
    (ms.erase c).filter (· ≠ c) = ms.filter (· ≠ c) := by
  rw [h.erase_eq_filter, List.filter_filter]
  refine List.filter_congr ?_
  intro a _
  by_cases hac : a = c
  · simp [hac]
  · simp [hac]

/-- Leaving a room keeps the order of those who stay. -/
theorem Leaves.untouched (h : ServerOk s l) (hc : s.Holds c cl) (hleaves : Leaves s t c cl) :
    Untouched s t c := by
  have hothers : ∀ d, d ≠ c → t.clientMem d = s.clientMem d := by
    intro d hdc
    rw [hleaves.clientMem hc, Function.update_of_ne hdc]
  rcases hleaves with ⟨_, rfl⟩ | ⟨p, r, r', _, hrem⟩
  · exact Untouched.of_same hothers rfl
  · have hr : s.roomMem p = some r := hrem.room
    have hmem : t.roomMem =
        Function.update s.roomMem p (if r'.participantCount = 0 then none else some r') := hrem.roomMem
    have hnodup := h.views.nodup p _ (ServerOk.membersOf_eq hr)
    refine ⟨hothers, ?_, ?_, ?_⟩
    · intro q x x' hx hx'
      by_cases hqp : q = p
      · subst hqp
        rw [hr, Option.some.injEq] at hx
        rw [hmem, Function.update_self] at hx'
        split at hx'
        · cases hx'
        · rw [Option.some.injEq] at hx'
          rw [← hx, ← hx', hrem.without.members]
          exact filter_erase hnodup c
      · rw [hmem, Function.update_of_ne hqp, hx, Option.some.injEq] at hx'
        rw [hx']
    · intro q hq
      have hqp : q ≠ p := by
        rintro rfl
        rw [hr] at hq
        cases hq
      rw [hmem, Function.update_of_ne hqp, hq]
    · intro q x hx hnone
      by_cases hqp : q = p
      · subst hqp
        rw [hr, Option.some.injEq] at hx
        rw [hmem, Function.update_self] at hnone
        split at hnone
        · rename_i hzero
          have herase := hrem.without.nobody_left.mp hzero
          rw [← hx]
          exact (List.erase_eq_nil_iff.mp herase).resolve_left
            (List.ne_nil_of_mem hrem.without.was)
        · cases hnone
      · rw [hmem, Function.update_of_ne hqp, hx] at hnone
        cases hnone

/-- Entering a room puts the client behind the others. -/
theorem Untouched.entered {p : Ptr} {r : Room} {cl' : Client} (h : Untouched s u c)
    (hpacked : Packed r.participants r.participantCount) (hent : Entered u t c p cl' r) :
    Untouched s t c := by
  have hmembers := (Room.add_members hpacked c).2
  refine ⟨?_, ?_, ?_, ?_⟩
  · intro d hdc
    rw [hent.clientMem, Function.update_of_ne hdc]
    exact h.others d hdc
  · intro q x x' hx hx'
    by_cases hqp : q = p
    · subst hqp
      rw [hent.roomMem, Function.update_self, Option.some.injEq] at hx'
      rw [← hx', hmembers, List.filter_append, ← h.positions q x r hx hent.room]
      simp
    · rw [hent.roomMem, Function.update_of_ne hqp] at hx'
      exact h.positions q x x' hx hx'
  · intro q hq
    have hnone := h.added q hq
    have hqp : q ≠ p := by
      rintro rfl
      rw [hent.room] at hnone
      cases hnone
    rw [hent.roomMem, Function.update_of_ne hqp, hnone]
  · intro q x hx hnone
    by_cases hqp : q = p
    · subst hqp
      rw [hent.roomMem, Function.update_self] at hnone
      cases hnone
    · rw [hent.roomMem, Function.update_of_ne hqp] at hnone
      exact h.ended q x hx hnone

/-- The record of `c` itself may change. -/
theorem Untouched.setClient (h : Untouched s u c) (cl' : Client) : Untouched s (u.setClient c cl') c where
  others := by
    intro d hdc
    simp only [Server.setClient, Function.update_of_ne hdc]
    exact h.others d hdc
  positions := h.positions
  added := h.added
  ended := h.ended

/-- Neither an admin nor a moderator. -/
def Role.Unprivileged (role : Role) : Prop := role ≠ .admin ∧ role ≠ .moderator

theorem Role.Unprivileged.refused {role : Role} (h : role.Unprivileged) :
    authCheckPermission role .create = false ∧ authCheckPermission role .kick = false ∧
      authCheckPermission role .mute = false ∧ authCheckPermission role .promote = false := by
  cases role with
  | admin => exact absurd rfl h.1
  | moderator => exact absurd rfl h.2
  | user => exact ⟨rfl, rfl, rfl, rfl⟩
  | guest => exact ⟨rfl, rfl, rfl, rfl⟩

/-- **An unprivileged command touches nobody else.** -/
theorem Effect.untouched (heffect : Effect s c cl line t) (h : ServerOk s l) (hc : s.Holds c cl)
    (hrole : cl.role.Unprivileged) : Untouched s t c ∧ UserAppended s.users.data t.users.data := by
  cases heffect with
  | quiet hquiet users =>
      exact ⟨Untouched.of_same (fun d _ => by rw [hquiet.clientMem]) hquiet.roomMem, Or.inl users⟩
  | blank => exact ⟨(Untouched.of_same (fun _ _ => rfl) rfl).setClient _, Or.inl rfl⟩
  | login name role _ hquiet users =>
      exact ⟨(Untouched.of_same (fun d _ => by rw [hquiet.clientMem]) hquiet.roomMem).setClient _,
        Or.inl users⟩
  | register n name password wrote _ hquiet users =>
      exact ⟨Untouched.of_same (fun d _ => by rw [hquiet.clientMem]) hquiet.roomMem,
        Or.inr ⟨n, name, password, wrote, users⟩⟩
  | logout _ leaves =>
      exact ⟨(leaves.untouched h hc).setClient _, Or.inl (congrArg File.data leaves.users)⟩
  | leave leaves => exact ⟨leaves.untouched h hc, Or.inl (congrArg File.data leaves.users)⟩
  | join p r _ leaves between enters =>
      obtain ⟨l', hmid⟩ := between
      refine ⟨(leaves.untouched h hc).entered (hmid.packed p r enters.room) enters, Or.inl ?_⟩
      rw [enters.users, leaves.users]
  | create p name password stack allowed => exact absurd allowed (by simp [hrole.refused])
  | kick d dl allowed => exact absurd allowed (by simp [hrole.refused])
  | mute d dl p r muted speakers allowed => exact absurd allowed (by simp [hrole.refused])
  | promote allowed => exact absurd allowed (by simp [hrole.refused])

theorem Effect.clients (heffect : Effect s c cl line t) : t.clients = s.clients := by
  cases heffect with
  | quiet hquiet _ => exact hquiet.clients
  | blank => rfl
  | login name role _ hquiet _ => exact hquiet.clients
  | register n name password wrote _ hquiet _ => exact hquiet.clients
  | logout _ leaves => exact leaves.clients
  | leave leaves => exact leaves.clients
  | join p r _ leaves _ enters => rw [enters.clients, leaves.clients]
  | create p name password stack _ _ _ creates => exact creates.clients.clients
  | kick d dl _ _ leaves => exact leaves.clients
  | mute d dl p r muted speakers => rfl
  | promote _ _ clients => exact clients

/-! ### Roles -/

/-- Every client has the role it had. -/
def SameRoles (s t : Server) : Prop :=
  ∀ d dl, s.clientMem d = some dl → ∃ dl', t.clientMem d = some dl' ∧ dl'.role = dl.role

theorem SameRoles.of_same (hmem : t.clientMem = s.clientMem) : SameRoles s t := by
  intro d dl hd
  exact ⟨dl, by rw [hmem, hd], rfl⟩

theorem SameRoles.trans (h : SameRoles s u) (h' : SameRoles u t) : SameRoles s t := by
  intro d dl hd
  obtain ⟨dl', hd', hrole⟩ := h d dl hd
  obtain ⟨dl'', hd'', hrole'⟩ := h' d dl' hd'
  exact ⟨dl'', hd'', hrole'.trans hrole⟩

theorem SameRoles.update {cl' : Client} (hc : s.clientMem c = some cl)
    (hmem : t.clientMem = Function.update s.clientMem c (some cl')) (hrole : cl'.role = cl.role) :
    SameRoles s t := by
  intro d dl hd
  by_cases hdc : d = c
  · subst hdc
    rw [hc, Option.some.injEq] at hd
    exact ⟨cl', by rw [hmem, Function.update_self], by rw [← hd, hrole]⟩
  · exact ⟨dl, by rw [hmem, Function.update_of_ne hdc, hd], rfl⟩

theorem SameRoles.setClient (hc : s.clientMem c = some cl) (cl' : Client) (hrole : cl'.role = cl.role) :
    SameRoles s (s.setClient c cl') := SameRoles.update hc rfl hrole

theorem Leaves.sameRoles (h : Leaves s t c cl) (hc : s.Holds c cl) : SameRoles s t :=
  SameRoles.update hc.2 (h.clientMem hc) rfl

/-- A moderator changes no role and no account, except its own role by `LOGOUT`. -/
structure Moderated (s t : Server) (c : Ptr) (line : Bytes) : Prop where
  roles : ∀ d dl, s.clientMem d = some dl → ∃ dl', t.clientMem d = some dl' ∧
    (dl'.role = dl.role ∨ (d = c ∧ IsLogout line ∧ dl'.role = .guest))
  accounts : t.users.data = s.users.data

theorem SameRoles.moderated (h : SameRoles s t) (husers : t.users.data = s.users.data) :
    Moderated s t c line where
  roles := by
    intro d dl hd
    obtain ⟨dl', hd', hrole⟩ := h d dl hd
    exact ⟨dl', hd', Or.inl hrole⟩
  accounts := husers

/-- **A moderator's command.** -/
theorem Effect.moderated (heffect : Effect s c cl line t) (h : ServerOk s l) (hc : s.Holds c cl)
    (hrole : cl.role = .moderator) : Moderated s t c line := by
  -- a moderator is logged in
  have hin : cl.userId ≠ -1 := by
    intro hout
    rw [(h.clients.loggedOut c cl hc hout).1] at hrole
    cases hrole
  cases heffect with
  | quiet hquiet users => exact (SameRoles.of_same hquiet.clientMem).moderated users
  | blank => exact (SameRoles.setClient hc.2 { cl with refCount := cl.refCount + 1 } rfl).moderated rfl
  | login name role out => exact absurd out hin
  | register n name password wrote out => exact absurd out hin
  | @logout u hline leaves =>
      refine ⟨?_, congrArg File.data leaves.users⟩
      intro d dl hd
      obtain ⟨dl', hd', hdrole⟩ := leaves.sameRoles hc d dl hd
      by_cases hdc : d = c
      · subst hdc
        exact ⟨{ cl with userId := -1, username := [], role := .guest, currentRoom := none },
          by simp only [Server.setClient, Function.update_self], Or.inr ⟨rfl, hline, rfl⟩⟩
      · refine ⟨dl', ?_, Or.inl hdrole⟩
        simp only [Server.setClient, Function.update_of_ne hdc]
        exact hd'
  | leave leaves => exact (leaves.sameRoles hc).moderated (congrArg File.data leaves.users)
  | join p r _ leaves _ enters =>
      have hroles := (leaves.sameRoles hc).trans
        (SameRoles.update (leaves.holds hc).2 enters.clientMem rfl)
      exact hroles.moderated (by rw [enters.users, leaves.users])
  | create p name password stack _ _ _ creates =>
      exact (SameRoles.of_same creates.clients.clientMem).moderated (by rw [creates.clients.users])
  | kick d dl _ target leaves =>
      exact (leaves.sameRoles target).moderated (congrArg File.data leaves.users)
  | mute d dl p r muted speakers _ target _ =>
      have hroles := (SameRoles.setClient target.2 { dl with isMute := muted } rfl).trans
        (t := (s.setClient d { dl with isMute := muted }).setRoom p { r with activeSpeakers := speakers })
        (SameRoles.of_same rfl)
      exact hroles.moderated rfl
  | promote allowed =>
      rw [hrole] at allowed
      cases allowed

/-! ### Accounts -/

theorem slot_append {w : Nat} {d bs : Bytes} (e : Bytes) {i : Nat} (h : slot w d i = some bs) :
    slot w (d ++ e) i = some bs := by
  have hle := slot_le h
  rw [slot_eq_some hle] at h
  rw [slot_eq_some (by rw [List.length_append]; omega), ← h, List.drop_append_of_le_length (by omega),
    List.take_append_of_le_length (by rw [List.length_drop]; omega)]

/-- The accounts that were there are still there. -/
theorem UserAppended.kept {d d' : Bytes} (h : UserAppended d d') {i : Nat} {r : UserRecord}
    (hr : userAt d i = some r) : userAt d' i = some r := by
  rcases h with rfl | ⟨n, name, password, wrote, rfl⟩
  · exact hr
  · obtain ⟨bs, hbs, hdecode⟩ := Option.map_eq_some_iff.mp hr
    rw [userAt, slot_append _ hbs, Option.map_some, hdecode]

/-- In a table of whole records, a new account has the role of a user. -/
theorem UserAppended.role {d d' : Bytes} (h : UserAppended d d') (hwhole : d.length % userRecordSize = 0)
    {i : Nat} {r : UserRecord} (hold : userAt d i = none) (hnew : userAt d' i = some r) :
    cstr r.role.val = ascii "USER" := by
  rcases h with rfl | ⟨n, name, password, wrote, rfl⟩
  · rw [hold] at hnew
    cases hnew
  · obtain ⟨bs, hbs, hdecode⟩ := Option.map_eq_some_iff.mp hnew
    generalize hrec : newUser n name password (ascii "USER") = rec' at *
    have hlen : (rec'.encode.take wrote).length ≤ userRecordSize := by
      rw [List.length_take, rec'.encode_length]
      exact Nat.min_le_right _ _
    have hend : d.length < i * userRecordSize + userRecordSize := by
      by_contra hle
      rw [userAt, slot_eq_some (by omega)] at hold
      cases hold
    have hle := slot_le hbs
    rw [List.length_append] at hle
    -- the record is the one behind the last of `d`, and it was written whole
    have hi : d.length = i * userRecordSize := by
      unfold userRecordSize at hwhole hend hle hlen ⊢
      omega
    have hall : rec'.encode.take wrote = rec'.encode := by
      refine List.take_of_length_le ?_
      rw [rec'.encode_length]
      rw [List.length_take, rec'.encode_length, hi] at hle
      have hmin : userRecordSize ≤ min wrote userRecordSize := by omega
      exact (Nat.le_min.mp hmin).1
    rw [hall, ← patch_length, hi, slot_patch_self (Nat.le_of_eq hi.symm) rec'.encode_length,
      Option.some.injEq] at hbs
    rw [← hdecode, ← hbs, UserRecord.decode_encode, ← hrec]
    have huser : FitsIn maxRoleLen (ascii "USER") := ⟨by decide, by decide⟩
    exact congrArg Account.role (newUser_account huser n name password)

/-! ### Commands in reachable states -/

/-- What an unprivileged command does; `l` and `l'` are the room lists before
and after it. -/
structure Confined (s t : Server) (c : Ptr) (l l' : List Ptr) : Prop where
  before : Linked s.roomNext s.roomPrev s.roomHead l
  after : Linked t.roomNext t.roomPrev t.roomHead l'
  clients : t.clients = s.clients
  others : ∀ d, d ≠ c → t.clientMem d = s.clientMem d
  rooms : ∀ p ∈ l', p ∈ l ∧ ∃ r r', s.roomMem p = some r ∧ t.roomMem p = some r' ∧
    r'.members.filter (· ≠ c) = r.members.filter (· ≠ c)
  ended : ∀ p ∈ l, p ∉ l' → ∃ r, s.roomMem p = some r ∧ r.members = [c]
  accounts : ∀ i r, userAt s.users.data i = some r → userAt t.users.data i = some r
  appended : UserAppended s.users.data t.users.data
  newAccounts : s.users.data.length % userRecordSize = 0 → ∀ i r, userAt s.users.data i = none →
    userAt t.users.data i = some r → cstr r.role.val = ascii "USER"

theorem Untouched.confined {l' : List Ptr} (h : Untouched s t c) (hs : RoomsOk s l)
    (ht : RoomsOk t l') (hclients : t.clients = s.clients)
    (husers : UserAppended s.users.data t.users.data) : Confined s t c l l' where
  before := hs.linked
  after := ht.linked
  clients := hclients
  others := h.others
  rooms := by
    intro p hp
    obtain ⟨r', hr'⟩ := (ht.live p).mp hp
    cases hr : s.roomMem p with
    | none =>
        rw [h.added p hr] at hr'
        cases hr'
    | some r => exact ⟨hs.mem_of_room hr, r, r', rfl, hr', h.positions p r r' hr hr'⟩
  ended := by
    intro p hp hgone
    obtain ⟨r, hr⟩ := (hs.live p).mp hp
    cases hr' : t.roomMem p with
    | none => exact ⟨r, hr, h.ended p r hr hr'⟩
    | some r' => exact absurd (ht.mem_of_room hr') hgone
  accounts := fun i r hr => husers.kept hr
  appended := husers
  newAccounts := fun hwhole i r hold hnew => husers.role hwhole hold hnew

end EchoLink
