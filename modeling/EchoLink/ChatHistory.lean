import EchoLink.ChatInvariants

/-!
# How the service came to be as it is

Each fact about a session or an account has few sources.  A session sits in a
room because it joined it, giving its password; it is logged in because it gave
the account's password; it is muted because somebody who may mute, in the same
room, toggled it; and the role of an account that was not there from the start
is what an administrator made it, or the one of a new account.

Every lemma here is about one event: where the fact holds afterwards it held
before, or the event is the one named.
-/

namespace EchoLink

open CText

variable {reserved : Set Nat} {x y : Chat} {i j : Fin maxClients} {me : Session} {q : Request} {e : ChatEvent}
  {r : ChatRoom} {fd : Nat} {user : Bytes}

/-- The session in the slot `i` asks for `q`. -/
def ChatEvent.Asks (e : ChatEvent) (i : Fin maxClients) (q : Request) : Prop :=
  ∃ line memory, e = .command i line memory ∧ parseRequest line = some q

/-- The connection of a session and the account it is logged in as. -/
def Session.who (z : Session) : Nat × Option Bytes := (z.fd, z.login.map Login.user)

/-! ### Who is who -/

theorem Session.promoted_who (target : Bytes) (role : Role) (z : Session) :
    (z.promoted target role).who = z.who := by
  cases ha : z.login with
  | none => simp [Session.who, Session.promoted, ha]
  | some b =>
      by_cases hb : b.user = target
      · simp [Session.who, Session.promoted, ha, hb]
      · simp [Session.who, Session.promoted, ha, hb]

/-- A request changes the account of a session only by `LOGIN` and `LOGOUT`, and
only of the session that asks. -/
theorem Served.who (h : Served reserved x i me q y) (hme : x.sessions i = some me) (j : Fin maxClients) :
    (y.sessions j).map Session.who = (x.sessions j).map Session.who ∨
      (j = i ∧ (me.login = none ∨ (y.sessions j).bind Session.login = none)) := by
  cases h with
  | same => exact Or.inl rfl
  | login name password a out _ _ _ =>
      by_cases hj : j = i
      · exact Or.inr ⟨hj, Or.inl out⟩
      · rw [Chat.setSession_of_ne x hj]
        exact Or.inl rfl
  | register => exact Or.inl rfl
  | logout =>
      by_cases hj : j = i
      · subst hj
        rw [Chat.setSession_self]
        exact Or.inr ⟨rfl, Or.inr rfl⟩
      · rw [Chat.setSession_of_ne _ hj]
        exact Or.inl rfl
  | create => exact Or.inl rfl
  | leave => exact Or.inl rfl
  | join => exact Or.inl rfl
  | kick => exact Or.inl rfl
  | mute name r k z _ _ _ _ hz =>
      left
      by_cases hj : j = k
      · subst hj
        rw [Chat.setSession_self, hz]
        rfl
      · rw [Chat.setSession_of_ne x hj]
  | promote target role a _ _ _ =>
      left
      dsimp only
      cases hz : x.sessions j with
      | none => rfl
      | some z =>
          rw [Option.map_some, Option.map_some, Option.map_some, Session.promoted_who]

/-! ### Rooms -/

/-- The session `i` is in the room `r`, whoever else is there now. -/
def Chat.RoomHas (x : Chat) (i : Fin maxClients) (r : ChatRoom) : Prop :=
  ∃ ms, { r with members := ms } ∈ x.rooms ∧ i ∈ ms

/-- The connection `fd`, logged in as `user`, is in the room `r`. -/
structure Chat.Sits (x : Chat) (i : Fin maxClients) (fd : Nat) (user : Bytes) (r : ChatRoom) : Prop where
  room : x.RoomHas i r
  session : (x.sessions i).map Session.who = some (fd, some user)

theorem roomHas_leave (h : (x.leave j).RoomHas i r) : x.RoomHas i r := by
  obtain ⟨ms, hr, hi⟩ := h
  obtain ⟨r₀, hr₀, heq⟩ := Chat.mem_leave hr
  obtain ⟨name, password, k, members⟩ := r₀
  obtain ⟨rfl, rfl, rfl, rfl⟩ : r.name = name ∧ r.password = password ∧ r.roomId = k ∧ ms = members.erase j := by
    simpa using heq
  exact ⟨members, hr₀, List.mem_of_mem_erase hi⟩

theorem roomHas_enter {name : Bytes} (h : (x.enter name j).RoomHas i r) :
    x.RoomHas i r ∨ (i = j ∧ r.name = name ∧ ∃ ms, { r with members := ms } ∈ x.rooms) := by
  obtain ⟨ms, hr, hi⟩ := h
  obtain ⟨r₀, hr₀, heq⟩ := Chat.mem_enter hr
  split at heq
  · rename_i hname
    obtain ⟨rname, password, k, members⟩ := r₀
    obtain ⟨rfl, rfl, rfl, rfl⟩ :
        r.name = rname ∧ r.password = password ∧ r.roomId = k ∧ ms = members ++ [j] := by
      simpa [ChatRoom.withMember] using heq
    rcases List.mem_append.mp hi with hi | hi
    · exact Or.inl ⟨members, hr₀, hi⟩
    · exact Or.inr ⟨List.mem_singleton.mp hi, hname, members, hr₀⟩
  · rw [← heq] at hr₀
    exact Or.inl ⟨ms, hr₀, hi⟩

/-- Who is in a room is logged in. -/
theorem Chat.Ok.roomHas_login (h : x.Ok reserved) (hi : x.RoomHas i r) (hme : x.sessions i = some me) :
    me.login.isSome = true := by
  obtain ⟨ms, hr, hi⟩ := hi
  obtain ⟨z, hz, hin⟩ := h.inside _ hr i hi
  rw [hme, Option.some.injEq] at hz
  rw [hz]
  exact hin

/-- A room is known by its name. -/
theorem Chat.Ok.room_eq (h : x.Ok reserved) {r r' : ChatRoom} (hr : r ∈ x.rooms) (hr' : r' ∈ x.rooms)
    (hname : r.name = r'.name) : r = r' := List.inj_on_of_nodup_map h.names hr hr' hname

/-- The request by which a session gets into the room `r`. -/
def EntersRoom (i : Fin maxClients) (fd : Nat) (user : Bytes) (r : ChatRoom) (x : Chat) (e : ChatEvent) : Prop :=
  (x.sessions i).map Session.who = some (fd, some user) ∧ (∃ ms, { r with members := ms } ∈ x.rooms) ∧
    ∃ password, e.Asks i (.join r.name password) ∧ (r.password = [] ∨ r.password = password)

theorem Served.sits (h : Served reserved x i me q y) (hok : x.Ok reserved) (hme : x.sessions i = some me)
    (hy : y.Sits j fd user r) :
    x.Sits j fd user r ∨ (j = i ∧ (x.sessions i).map Session.who = some (fd, some user) ∧
      (∃ ms, { r with members := ms } ∈ x.rooms) ∧
      ∃ password, q = .join r.name password ∧ (r.password = [] ∨ r.password = password)) := by
  -- the account is the same, unless the request is for the account
  have hwho : x.RoomHas j r → (x.sessions j).map Session.who = some (fd, some user) := by
    intro hroom
    rcases h.who hme j with hsame | ⟨rfl, hout | hout⟩
    · rw [← hsame]
      exact hy.session
    · have hin := hok.roomHas_login hroom hme
      rw [hout] at hin
      cases hin
    · obtain ⟨z, hz, hlogin⟩ := Option.map_eq_some_iff.mp hy.session
      rw [hz, Option.bind_some] at hout
      simp [Session.who, hout] at hlogin
  have hkept : x.RoomHas j r → x.Sits j fd user r := fun hroom => ⟨hroom, hwho hroom⟩
  have hroom := hy.room
  cases h with
  | same => exact Or.inl hy
  | login => exact Or.inl (hkept hroom)
  | register => exact Or.inl (hkept hroom)
  | logout => exact Or.inl (hkept (roomHas_leave (j := i) hroom))
  | create name password _ _ _ =>
      obtain ⟨ms, hr, hj⟩ := hroom
      rcases List.mem_append.mp hr with hr | hr
      · exact Or.inl (hkept ⟨ms, hr, hj⟩)
      · have hms : ms = [] := congrArg ChatRoom.members (List.mem_singleton.mp hr)
        rw [hms] at hj
        cases hj
  | leave => exact Or.inl (hkept (roomHas_leave hroom))
  | join name password r₁ inside room right =>
      rcases roomHas_enter hroom with hroom | ⟨rfl, hname, ms, hr⟩
      · exact Or.inl (hkept (roomHas_leave hroom))
      · right
        obtain ⟨hr₁, hname₁⟩ : r₁ ∈ (x.leave j).rooms ∧ r₁.name = name := by
          refine ⟨List.mem_of_find?_eq_some room, ?_⟩
          simpa using List.find?_some room
        have heq : ({ r with members := ms } : ChatRoom) = r₁ :=
          (hok.leave j).room_eq hr hr₁ (by rw [hname₁]; exact hname)
        have hpassword : r.password = r₁.password := by rw [← heq]
        obtain ⟨r₀, hr₀, heq₀⟩ := Chat.mem_leave hr
        refine ⟨rfl, ?_, ⟨r₀.members, ?_⟩, password, ?_, ?_⟩
        · exact hy.session
        · obtain ⟨name₀, password₀, k₀, members₀⟩ := r₀
          obtain ⟨rfl, rfl, rfl, -⟩ :
              r.name = name₀ ∧ r.password = password₀ ∧ r.roomId = k₀ ∧ ms = members₀.erase j := by
            simpa using heq₀
          exact hr₀
        · rw [hname]
        · rw [hpassword]
          exact right
  | kick => exact Or.inl (hkept (roomHas_leave hroom))
  | mute => exact Or.inl (hkept hroom)
  | promote => exact Or.inl (hkept hroom)

/-- **Nobody gets into a room but by `JOIN`** with the room's password. -/
theorem sits_from (hok : x.Ok reserved) (hbefore : ¬ x.Sits i fd user r)
    (hafter : (x.step reserved e).2.Sits i fd user r) : EntersRoom i fd user r x e := by
  have hmoved := x.step_moved reserved e
  generalize (x.step reserved e).2 = y at hmoved hafter
  cases hmoved with
  | same => exact absurd hafter hbefore
  | connect fd' memory j empty =>
      by_cases hij : i = j
      · subst hij
        have hsession := hafter.session
        rw [Chat.setSession_self] at hsession
        simp [Session.who, Session.new] at hsession
      · refine absurd ⟨hafter.room, ?_⟩ hbefore
        have hsession := hafter.session
        rw [Chat.setSession_of_ne x hij] at hsession
        exact hsession
  | disconnect fd' j =>
      by_cases hij : i = j
      · subst hij
        have hsession := hafter.session
        rw [Chat.setSession_self] at hsession
        cases hsession
      · refine absurd ⟨roomHas_leave (j := j) hafter.room, ?_⟩ hbefore
        have hsession := hafter.session
        rw [Chat.setSession_of_ne _ hij] at hsession
        exact hsession
  | command j line memory me q _ session asked served =>
      rcases served.sits hok session hafter with hsits | ⟨rfl, hwho, hroom, password, rfl, hright⟩
      · exact absurd hsits hbefore
      · exact ⟨hwho, hroom, password, ⟨line, memory, rfl, asked⟩, hright⟩

/-! ### Mutes -/

/-- The connection `fd` has the slot `i` and is muted. -/
def Chat.Muted (x : Chat) (i : Fin maxClients) (fd : Nat) : Prop :=
  ∃ z, x.sessions i = some z ∧ z.fd = fd ∧ z.muted = true

/-- The request that mutes the session `i`: of a session that may mute, in the
room of `i`, for the name of `i`. -/
def Mutes (i : Fin maxClients) (fd : Nat) (x : Chat) (e : ChatEvent) : Prop :=
  ∃ j me r z, x.sessions j = some me ∧ authCheckPermission me.role .mute = true ∧ x.roomOf j = some r ∧
    i ∈ r.members ∧ x.sessions i = some z ∧ z.fd = fd ∧ e.Asks j (.mute z.user)

theorem target_spec {name : Bytes} (h : x.target r name = some j) :
    j ∈ r.members ∧ ∃ z, x.sessions j = some z ∧ z.user = name := by
  unfold Chat.target at h
  refine ⟨List.mem_of_find?_eq_some h, ?_⟩
  have hany := List.find?_some h
  obtain ⟨z, hz, hname⟩ := (Option.any_eq_true _ _).mp hany
  exact ⟨z, hz, of_decide_eq_true hname⟩

/-- **Nobody is muted but by `MUTE`** of somebody who may, in the same room. -/
theorem muted_from (hbefore : ¬ x.Muted i fd) (hafter : (x.step reserved e).2.Muted i fd) :
    Mutes i fd x e := by
  have hmoved := x.step_moved reserved e
  generalize (x.step reserved e).2 = y at hmoved hafter
  -- a session that is the one before, but for the login
  have hset : ∀ (w : Chat) (j : Fin maxClients) (z z' : Session), w.sessions = x.sessions →
      x.sessions j = some z → z'.fd = z.fd → z'.muted = z.muted → ¬ (w.setSession j (some z')).Muted i fd := by
    intro w j z z' hw hz hfd hmuted hnow
    obtain ⟨v, hv, hvfd, hvmuted⟩ := hnow
    by_cases hij : i = j
    · subst hij
      rw [Chat.setSession_self, Option.some.injEq] at hv
      subst hv
      exact hbefore ⟨z, hz, by rw [← hfd, hvfd], by rw [← hmuted, hvmuted]⟩
    · rw [Chat.setSession_of_ne w hij, hw] at hv
      exact hbefore ⟨v, hv, hvfd, hvmuted⟩
  obtain ⟨v, hv, hvfd, hvmuted⟩ := hafter
  cases hmoved with
  | same => exact absurd ⟨v, hv, hvfd, hvmuted⟩ hbefore
  | connect fd' memory j empty =>
      by_cases hij : i = j
      · subst hij
        rw [Chat.setSession_self, Option.some.injEq] at hv
        subst hv
        cases hvmuted
      · rw [Chat.setSession_of_ne x hij] at hv
        exact absurd ⟨v, hv, hvfd, hvmuted⟩ hbefore
  | disconnect fd' j =>
      by_cases hij : i = j
      · subst hij
        rw [Chat.setSession_self] at hv
        cases hv
      · rw [Chat.setSession_of_ne _ hij] at hv
        exact absurd ⟨v, hv, hvfd, hvmuted⟩ hbefore
  | command j line memory me q _ session asked served =>
      cases served with
      | same => exact absurd ⟨v, hv, hvfd, hvmuted⟩ hbefore
      | login name password a _ _ _ _ => exact absurd ⟨v, hv, hvfd, hvmuted⟩ (hset x j me { me with login := some ⟨name, roleOfName a.role⟩ } rfl session rfl rfl)
      | register => exact absurd ⟨v, hv, hvfd, hvmuted⟩ hbefore
      | logout => exact absurd ⟨v, hv, hvfd, hvmuted⟩ (hset (x.leave j) j me { me with login := none } rfl session rfl rfl)
      | create => exact absurd ⟨v, hv, hvfd, hvmuted⟩ hbefore
      | leave => exact absurd ⟨v, hv, hvfd, hvmuted⟩ hbefore
      | join => exact absurd ⟨v, hv, hvfd, hvmuted⟩ hbefore
      | kick => exact absurd ⟨v, hv, hvfd, hvmuted⟩ hbefore
      | mute name r k z allowed room named target hz =>
          by_cases hik : i = k
          · subst hik
            rw [Chat.setSession_self, Option.some.injEq] at hv
            subst hv
            obtain ⟨hmem, w, hw, hname⟩ := target_spec target
            obtain rfl : w = z := Option.some.inj (hw.symm.trans hz)
            exact ⟨j, me, r, w, session, allowed, room, hmem, hz, hvfd, line, memory, rfl, by rw [hname]; exact asked⟩
          · rw [Chat.setSession_of_ne x hik] at hv
            exact absurd ⟨v, hv, hvfd, hvmuted⟩ hbefore
      | promote target role a _ _ _ =>
          obtain ⟨z, hz, rfl⟩ := Option.map_eq_some_iff.mp hv
          exact absurd ⟨z, hz, hvfd, hvmuted⟩ hbefore

/-! ### Accounts -/

/-- The digest of the password of an account. -/
def Chat.hashOf (x : Chat) (user : Bytes) : Option (Buf 65) := (x.accounts user).map Account.hash

/-- The role of an account, as `users.bin` spells it. -/
def Chat.roleOf (x : Chat) (user : Bytes) : Option Bytes := (x.accounts user).map Account.role

/-- **An account is never lost**, and its password never changes. -/
theorem hashOf_kept {h : Buf 65} (hx : x.hashOf user = some h) (e : ChatEvent) :
    (x.step reserved e).2.hashOf user = some h := by
  have hmoved := x.step_moved reserved e
  generalize (x.step reserved e).2 = y at hmoved
  cases hmoved with
  | same => exact hx
  | connect => exact hx
  | disconnect => exact hx
  | command j line memory me q _ session asked served =>
      cases served with
      | same => exact hx
      | login => exact hx
      | register name password _ new =>
          have hne : user ≠ name := by
            rintro rfl
            rw [Chat.hashOf, new] at hx
            cases hx
          rw [Chat.hashOf]
          dsimp only
          rw [Function.update_of_ne hne]
          exact hx
      | logout => exact hx
      | create => exact hx
      | leave => exact hx
      | join => exact hx
      | kick => exact hx
      | mute => exact hx
      | promote target role a _ _ account =>
          rw [Chat.hashOf]
          dsimp only
          by_cases hu : user = target
          · subst hu
            rw [Function.update_self]
            rw [Chat.hashOf, account] at hx
            exact hx
          · rw [Function.update_of_ne hu]
            exact hx

/-- The request by which an account gets its role: of a new account, or of an
administrator for the account. -/
def GivesRole (user role : Bytes) (x : Chat) (e : ChatEvent) : Prop :=
  ∃ i me, x.sessions i = some me ∧
    ((x.accounts user = none ∧ role = ascii "USER" ∧ ∃ password, e.Asks i (.register user password)) ∨
      (me.role = .admin ∧ ∃ text, upperCase text = role ∧ e.Asks i (.promote user text)))

/-- **No account gets a role but from an administrator**, or the role of new
accounts. -/
theorem roleOf_from {role : Bytes} (hbefore : x.roleOf user ≠ some role)
    (hafter : (x.step reserved e).2.roleOf user = some role) : GivesRole user role x e := by
  have hmoved := x.step_moved reserved e
  generalize (x.step reserved e).2 = y at hmoved hafter
  cases hmoved with
  | same => exact absurd hafter hbefore
  | connect => exact absurd hafter hbefore
  | disconnect => exact absurd hafter hbefore
  | command j line memory me q _ session asked served =>
      cases served with
      | same => exact absurd hafter hbefore
      | login => exact absurd hafter hbefore
      | register name password _ new =>
          rw [Chat.roleOf] at hafter
          dsimp only at hafter
          by_cases hu : user = name
          · subst hu
            rw [Function.update_self, Option.map_some, Option.some.injEq] at hafter
            exact ⟨j, me, session, Or.inl ⟨new, hafter.symm, password, line, memory, rfl, asked⟩⟩
          · rw [Function.update_of_ne hu] at hafter
            exact absurd hafter hbefore
      | logout => exact absurd hafter hbefore
      | create => exact absurd hafter hbefore
      | leave => exact absurd hafter hbefore
      | join => exact absurd hafter hbefore
      | kick => exact absurd hafter hbefore
      | mute => exact absurd hafter hbefore
      | promote target text a allowed _ account =>
          rw [Chat.roleOf] at hafter
          dsimp only at hafter
          by_cases hu : user = target
          · subst hu
            rw [Function.update_self, Option.map_some, Option.some.injEq] at hafter
            have hadmin : me.role = .admin := by simpa [authCheckPermission] using allowed
            exact ⟨j, me, session, Or.inr ⟨hadmin, text, hafter, line, memory, rfl, asked⟩⟩
          · rw [Function.update_of_ne hu] at hafter
            exact absurd hafter hbefore

/-- The connection `fd` in the slot `i` is logged in as `user`. -/
def Chat.LoggedIn (x : Chat) (i : Fin maxClients) (fd : Nat) (user : Bytes) : Prop :=
  (x.sessions i).map Session.who = some (fd, some user)

/-- The request by which a session logs in, with a password of the digest `h`. -/
def GivesPassword (i : Fin maxClients) (fd : Nat) (user : Bytes) (h : Buf 65) (x : Chat) (e : ChatEvent) : Prop :=
  (x.sessions i).map Session.who = some (fd, none) ∧ x.hashOf user = some h ∧
    ∃ password, sha256Hash password = h ∧ e.Asks i (.login user password)

/-- **Nobody is logged in but by `LOGIN`** with the password of the account. -/
theorem loggedIn_from (hbefore : ¬ x.LoggedIn i fd user) (hafter : (x.step reserved e).2.LoggedIn i fd user) :
    ∃ h, GivesPassword i fd user h x e := by
  have hmoved := x.step_moved reserved e
  generalize (x.step reserved e).2 = y at hmoved hafter
  unfold Chat.LoggedIn at hbefore hafter
  cases hmoved with
  | same => exact absurd hafter hbefore
  | connect fd' memory j empty =>
      by_cases hij : i = j
      · subst hij
        rw [Chat.setSession_self] at hafter
        simp [Session.who, Session.new] at hafter
      · rw [Chat.setSession_of_ne x hij] at hafter
        exact absurd hafter hbefore
  | disconnect fd' j =>
      by_cases hij : i = j
      · subst hij
        rw [Chat.setSession_self] at hafter
        cases hafter
      · rw [Chat.setSession_of_ne _ hij] at hafter
        exact absurd hafter hbefore
  | command j line memory me q _ session asked served =>
      rcases served.who session i with hsame | ⟨rfl, -⟩
      · rw [hsame] at hafter
        exact absurd hafter hbefore
      · obtain ⟨z, hz, hwho⟩ := Option.map_eq_some_iff.mp hafter
        -- of the requests for the session itself only `LOGIN` makes it logged in
        cases served with
        | login name password a out named account hash =>
            rw [Chat.setSession_self, Option.some.injEq] at hz
            subst hz
            obtain ⟨hfd, hname⟩ : me.fd = fd ∧ name = user := by simpa [Session.who] using hwho
            subst hname
            refine ⟨a.hash, ?_, ?_, password, hash, line, memory, rfl, asked⟩
            · rw [session, Option.map_some, Session.who, out, hfd]
              rfl
            · rw [Chat.hashOf, account, Option.map_some]
        | logout =>
            rw [Chat.setSession_self, Option.some.injEq] at hz
            subst hz
            simp [Session.who] at hwho
        | same => exact absurd hafter hbefore
        | register => exact absurd hafter hbefore
        | create => exact absurd hafter hbefore
        | leave => exact absurd hafter hbefore
        | join => exact absurd hafter hbefore
        | kick => exact absurd hafter hbefore
        | mute name r k w _ _ _ _ hw =>
            by_cases hik : i = k
            · subst hik
              rw [Chat.setSession_self, Option.some.injEq] at hz
              subst hz
              exact absurd (by rw [hw]; exact congrArg some hwho) hbefore
            · rw [Chat.setSession_of_ne x hik] at hz
              exact absurd (by rw [hz]; exact congrArg some hwho) hbefore
        | promote target role a _ _ _ =>
            obtain ⟨w, hw, rfl⟩ := Option.map_eq_some_iff.mp hz
            rw [Session.promoted_who] at hwho
            exact absurd (by rw [hw]; exact congrArg some hwho) hbefore

end EchoLink
