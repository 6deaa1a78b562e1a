import EchoLink.ChatService
import Mathlib.Data.Set.Finite.Lattice

/-!
# What the chat service keeps

`Chat.Ok` is the invariant of the service: room names and numbers are distinct
and no number is reserved, a session is in one room at most and only when it is
logged in, and the role of a session is the one of its account.  Every step
keeps it, whatever is asked and whether or not there is memory (`Chat.step_ok`).

A request changes the sessions and the rooms in few ways, and the case
analysis over requests is done once, in `Chat.serve_cases`.
-/

namespace EchoLink

open CText

variable {reserved : Set Nat} {memory : Bool} {x y : Chat} {i j : Fin maxClients} {me : Session}

/-! ### What a request can do -/

/-- **What a request can do** for the session `me` in the slot `i`. -/
inductive Served (reserved : Set Nat) (x : Chat) (i : Fin maxClients) (me : Session) :
    Request → Chat → Prop
  | same (q : Request) : Served reserved x i me q x
  | login (name password : Bytes) (a : Account) (out : me.login = none) (named : name ≠ [])
      (account : x.accounts name = some a) (hash : sha256Hash password = a.hash) :
      Served reserved x i me (.login name password)
        (x.setSession i (some { me with login := some ⟨name, roleOfName a.role⟩ }))
  | register (name password : Bytes) (named : name ≠ []) (new : x.accounts name = none) :
      Served reserved x i me (.register name password) { x with
        accounts := Function.update x.accounts name (some ⟨sha256Hash password, ascii "USER"⟩) }
  | logout : Served reserved x i me .logout ((x.leave i).setSession i (some { me with login := none }))
  | create (name password : Bytes) (allowed : authCheckPermission me.role .create = true)
      (new : x.roomNamed name = none) (space : x.rooms.length < maxRooms) :
      Served reserved x i me (.create name password)
        { x with rooms := x.rooms ++ [⟨name, password, x.nextId reserved, []⟩] }
  | leave (q : Request) (inside : me.login.isSome = true) : Served reserved x i me q (x.leave i)
  | join (name password : Bytes) (r : ChatRoom) (inside : me.login.isSome = true)
      (room : (x.leave i).roomNamed name = some r) (right : r.password = [] ∨ r.password = password) :
      Served reserved x i me (.join name password) ((x.leave i).enter name i)
  | kick (name : Bytes) (r : ChatRoom) (j : Fin maxClients) (allowed : authCheckPermission me.role .kick = true)
      (room : x.roomOf i = some r) (named : name ≠ []) (target : x.target r name = some j) :
      Served reserved x i me (.kick name) (x.leave j)
  | mute (name : Bytes) (r : ChatRoom) (j : Fin maxClients) (z : Session)
      (allowed : authCheckPermission me.role .mute = true)
      (room : x.roomOf i = some r) (named : name ≠ []) (target : x.target r name = some j)
      (session : x.sessions j = some z) :
      Served reserved x i me (.mute name) (x.setSession j (some { z with muted := !z.muted }))
  | promote (target role : Bytes) (a : Account) (allowed : authCheckPermission me.role .promote = true)
      (named : target ≠ []) (account : x.accounts target = some a) :
      Served reserved x i me (.promote target role)
        { x with
          accounts := Function.update x.accounts target (some { a with role := upperCase role })
          sessions := fun j =>
            (x.sessions j).map (Session.promoted target (roleOfName (upperCase role))) }

theorem moderate_cases {command : Command} {name : Bytes} {act : Fin maxClients → Answer × Chat}
    {P : Chat → Prop} (hsame : P x)
    (hact : ∀ r j, me.login.isSome = true → authCheckPermission me.role command = true → x.roomOf i = some r →
      name ≠ [] → x.target r name = some j → P (act j).2) : P (x.moderate i me command name act).2 := by
  unfold Chat.moderate
  split
  · exact hsame
  · rename_i hin
    split
    · exact hsame
    · rename_i hallowed
      split
      · exact hsame
      · rename_i r hr
        split
        · exact hsame
        · rename_i hname
          split
          · exact hsame
          · rename_i j hj
            exact hact r j (Bool.eq_true_of_not_eq_false hin) (Bool.eq_true_of_not_eq_false hallowed) hr hname hj

/-- **Every request is one of these.** -/
theorem Chat.serve_cases (reserved : Set Nat) (memory : Bool) (x : Chat) (i : Fin maxClients) (me : Session)
    (q : Request) : Served reserved x i me q (x.serve i me reserved memory q).2 := by
  cases q with
  | login name password =>
      simp only [Chat.serve, Chat.loginAs]
      split
      · exact Served.same _
      · rename_i hout
        split
        · exact Served.same _
        · rename_i hargs
          cases ha : x.accounts name with
          | none => exact Served.same _
          | some a =>
              dsimp only
              split
              · rename_i hhash
                exact Served.login name password a (by simpa using hout) (fun hnil => hargs (Or.inl hnil)) ha hhash
              · exact Served.same _
  | register name password =>
      simp only [Chat.serve, Chat.register]
      split
      · exact Served.same _
      · split
        · exact Served.same _
        · rename_i hargs
          split
          · exact Served.same _
          · rename_i hnew
            exact Served.register name password (fun hnil => hargs (Or.inl hnil)) (by simpa using hnew)
  | logout =>
      simp only [Chat.serve, Chat.logout]
      split
      · exact Served.logout
      · exact Served.same _
  | create name password =>
      simp only [Chat.serve, Chat.create]
      split
      · exact Served.same _
      · split
        · exact Served.same _
        · rename_i hallowed
          split
          · exact Served.same _
          · split
            · exact Served.same _
            · rename_i hnew
              split
              · exact Served.same _
              · rename_i hspace
                split
                · exact Served.same _
                · exact Served.create name password (by simpa using hallowed) (by simpa using hnew)
                    (Nat.lt_of_not_le hspace)
  | join name password =>
      simp only [Chat.serve, Chat.join]
      split
      · exact Served.same _
      · rename_i hin
        have hin : me.login.isSome = true := Bool.eq_true_of_not_eq_false hin
        split
        · exact Served.same _
        · split
          · exact Served.same _
          · cases hr : (x.leave i).roomNamed name with
            | none => exact Served.leave _ hin
            | some r =>
                dsimp only
                split
                · exact Served.leave _ hin
                · rename_i hright
                  refine Served.join name password r hin hr ?_
                  by_cases hopen : r.password = []
                  · exact Or.inl hopen
                  · exact Or.inr (by_contra fun hwrong => hright ⟨hopen, hwrong⟩)
  | leave =>
      simp only [Chat.serve, Chat.leaveRoom]
      split
      · exact Served.same _
      · rename_i hin
        split
        · exact Served.same _
        · exact Served.leave _ (Bool.eq_true_of_not_eq_false hin)
  | list =>
      simp only [Chat.serve, Chat.list]
      split
      · exact Served.same _
      · exact Served.same _
  | kick name =>
      apply moderate_cases (Served.same _)
      intro r j _ hallowed hr hname hj
      exact Served.kick name r j hallowed hr hname hj
  | mute name =>
      apply moderate_cases (Served.same _)
      intro r j _ hallowed hr hname hj
      cases hz : x.sessions j with
      | none =>
          simp only [Chat.toggleMute, hz]
          exact Served.same _
      | some z =>
          simp only [Chat.toggleMute, hz]
          exact Served.mute name r j z hallowed hr hname hj hz
  | status => exact Served.same _
  | promote target role =>
      simp only [Chat.serve, Chat.promote]
      split
      · exact Served.same _
      · split
        · exact Served.same _
        · rename_i hallowed
          split
          · exact Served.same _
          · rename_i hargs
            split
            · exact Served.same _
            · cases ha : x.accounts target with
              | none => exact Served.same _
              | some a =>
                  exact Served.promote target role a (by simpa using hallowed) (fun hnil => hargs (Or.inl hnil)) ha
  | unknown => exact Served.same _

/-- No request changes the descriptor of a session. -/
theorem Served.fds {q : Request} (h : Served reserved x i me q y) (hme : x.sessions i = some me)
    (j : Fin maxClients) : (y.sessions j).map Session.fd = (x.sessions j).map Session.fd := by
  have hset : ∀ (k : Fin maxClients) (z z' : Session), x.sessions k = some z → z'.fd = z.fd →
      (Function.update x.sessions k (some z') j).map Session.fd = (x.sessions j).map Session.fd := by
    intro k z z' hz hfd
    by_cases hj : j = k
    · subst hj
      rw [Function.update_self, hz, Option.map_some, Option.map_some, hfd]
    · rw [Function.update_of_ne hj]
  cases h with
  | same => rfl
  | login name password a _ _ _ _ => exact hset i me _ hme rfl
  | register name password _ _ => rfl
  | logout => exact hset i me _ hme rfl
  | create name password _ _ _ => rfl
  | leave => rfl
  | join name password r _ _ _ => rfl
  | kick name r k _ _ _ _ => rfl
  | mute name r k z _ _ _ _ hz => exact hset k z _ hz rfl
  | promote target role a _ _ _ =>
      dsimp only
      rw [Option.map_map]
      rfl

/-! ### The invariant -/

/-- **The invariant of the service.** -/
structure Chat.Ok (reserved : Set Nat) (x : Chat) : Prop where
  names : (x.rooms.map ChatRoom.name).Nodup
  ids : (x.rooms.map ChatRoom.roomId).Nodup
  free : ∀ r ∈ x.rooms, r.roomId ∉ reserved
  bound : x.rooms.length ≤ maxRooms
  distinct : ∀ r ∈ x.rooms, r.members.Nodup
  once : ∀ r ∈ x.rooms, ∀ r' ∈ x.rooms, ∀ i ∈ r.members, i ∈ r'.members → r.name = r'.name
  inside : ∀ r ∈ x.rooms, ∀ i ∈ r.members, ∃ z, x.sessions i = some z ∧ z.login.isSome = true
  roles : ∀ i z a, x.sessions i = some z → z.login = some a →
    (x.accounts a.user).map (fun b => roleOfName b.role) = some a.role

theorem Chat.Ok.start (reserved : Set Nat) (accounts : Accounts) : (Chat.start accounts).Ok reserved where
  names := List.nodup_nil
  ids := List.nodup_nil
  free := by simp [Chat.start]
  bound := Nat.zero_le _
  distinct := by simp [Chat.start]
  once := by simp [Chat.start]
  inside := by simp [Chat.start]
  roles := by simp [Chat.start]

/-- A room that a session has left is the room before, without the session. -/
theorem ChatRoom.without_some {r r' : ChatRoom} (h : r.without i = some r') :
    r' = { r with members := r.members.erase i } := by
  unfold ChatRoom.without at h
  split at h
  · split at h
    · cases h
    · exact (Option.some.inj h).symm
  · rename_i hout
    rw [← Option.some.inj h, List.erase_of_not_mem hout]

theorem Chat.mem_leave {r : ChatRoom} (h : r ∈ (x.leave i).rooms) :
    ∃ r₀ ∈ x.rooms, r = { r₀ with members := r₀.members.erase i } := by
  obtain ⟨r₀, hr₀, hout⟩ := List.mem_filterMap.mp h
  exact ⟨r₀, hr₀, ChatRoom.without_some hout⟩

/-- Leaving keeps what a room is called, and the order of the rooms. -/
theorem leave_sublist {α : Type*} {f : ChatRoom → α} (hf : ∀ r ms, f { r with members := ms } = f r)
    (x : Chat) (i : Fin maxClients) : List.Sublist ((x.leave i).rooms.map f) (x.rooms.map f) := by
  rw [Chat.leave]
  induction x.rooms with
  | nil => exact List.Sublist.slnil
  | cons r rooms ih =>
      cases hr : r.without i with
      | none =>
          rw [List.filterMap_cons_none hr, List.map_cons]
          exact ih.cons _
      | some r' =>
          rw [List.filterMap_cons_some hr, List.map_cons, List.map_cons, ChatRoom.without_some hr, hf]
          exact ih.cons_cons _

theorem Chat.Ok.leave (h : x.Ok reserved) (i : Fin maxClients) : (x.leave i).Ok reserved where
  names := h.names.sublist (leave_sublist (fun _ _ => rfl) x i)
  ids := h.ids.sublist (leave_sublist (fun _ _ => rfl) x i)
  free := by
    intro r hr
    obtain ⟨r₀, hr₀, rfl⟩ := Chat.mem_leave hr
    exact h.free r₀ hr₀
  bound := Nat.le_trans (List.length_filterMap_le _ _) h.bound
  distinct := by
    intro r hr
    obtain ⟨r₀, hr₀, rfl⟩ := Chat.mem_leave hr
    exact (h.distinct r₀ hr₀).erase i
  once := by
    intro r hr r' hr' j hj hj'
    obtain ⟨r₀, hr₀, rfl⟩ := Chat.mem_leave hr
    obtain ⟨r₁, hr₁, rfl⟩ := Chat.mem_leave hr'
    exact h.once r₀ hr₀ r₁ hr₁ j (List.mem_of_mem_erase hj) (List.mem_of_mem_erase hj')
  inside := by
    intro r hr j hj
    obtain ⟨r₀, hr₀, rfl⟩ := Chat.mem_leave hr
    exact h.inside r₀ hr₀ j (List.mem_of_mem_erase hj)
  roles := h.roles

/-- A session that has left is in no room. -/
theorem Chat.Ok.not_mem_leave (h : x.Ok reserved) (i : Fin maxClients) :
    ∀ r ∈ (x.leave i).rooms, i ∉ r.members := by
  intro r hr hi
  obtain ⟨r₀, hr₀, rfl⟩ := Chat.mem_leave hr
  exact (h.distinct r₀ hr₀).not_mem_erase hi

theorem Chat.setSession_self (x : Chat) (i : Fin maxClients) (z : Option Session) :
    (x.setSession i z).sessions i = z := by
  unfold Chat.setSession
  apply Function.update_self

theorem Chat.setSession_of_ne (x : Chat) (hj : j ≠ i) (z : Option Session) :
    (x.setSession i z).sessions j = x.sessions j := by
  unfold Chat.setSession
  exact Function.update_of_ne hj z x.sessions

/-- The session of `i` is another, and it is in no room unless it is logged in. -/
theorem Chat.Ok.setSession (h : x.Ok reserved) {z : Option Session}
    (hroom : (∃ r ∈ x.rooms, i ∈ r.members) → ∃ w, z = some w ∧ w.login.isSome = true)
    (hrole : ∀ w a, z = some w → w.login = some a →
      (x.accounts a.user).map (fun b => roleOfName b.role) = some a.role) :
    (x.setSession i z).Ok reserved := by
  refine ⟨h.names, h.ids, h.free, h.bound, h.distinct, h.once, ?_, ?_⟩
  · intro r hr j hj
    by_cases hji : j = i
    · subst hji
      obtain ⟨w, hw, hin⟩ := hroom ⟨r, hr, hj⟩
      exact ⟨w, by rw [Chat.setSession_self, hw], hin⟩
    · obtain ⟨w, hw, hin⟩ := h.inside r hr j hj
      exact ⟨w, by rw [Chat.setSession_of_ne x hji, hw], hin⟩
  · intro j w a hw ha
    by_cases hji : j = i
    · subst hji
      rw [Chat.setSession_self] at hw
      exact hrole w a hw ha
    · rw [Chat.setSession_of_ne x hji] at hw
      exact h.roles j w a hw ha

theorem Chat.nextId_spec (hfin : reserved.Finite) (x : Chat) :
    x.nextId reserved ∉ reserved ∧ ∀ r ∈ x.rooms, r.roomId ≠ x.nextId reserved := by
  have hused : (reserved ∪ { n | n ∈ x.rooms.map ChatRoom.roomId }).Finite :=
    hfin.union (List.finite_toSet _)
  obtain ⟨n, hn⟩ := hused.exists_notMem
  have hn' : n ∈ { n | n ∉ reserved ∧ ∀ r ∈ x.rooms, r.roomId ≠ n } := by
    refine ⟨fun hres => hn (Or.inl hres), ?_⟩
    rintro r hr rfl
    exact hn (Or.inr (List.mem_map_of_mem hr))
  exact Nat.sInf_mem ⟨n, hn'⟩

/-- A new room. -/
theorem Chat.Ok.create (h : x.Ok reserved) (hfin : reserved.Finite) {name : Bytes} (password : Bytes)
    (hnew : x.roomNamed name = none) (hspace : x.rooms.length < maxRooms) :
    Chat.Ok reserved { x with rooms := x.rooms ++ [⟨name, password, x.nextId reserved, []⟩] } := by
  obtain ⟨hfree, hids⟩ := Chat.nextId_spec hfin x
  have hcases : ∀ r ∈ x.rooms ++ [(⟨name, password, x.nextId reserved, []⟩ : ChatRoom)],
      r ∈ x.rooms ∨ r = ⟨name, password, x.nextId reserved, []⟩ := by
    intro r hr
    rcases List.mem_append.mp hr with hr | hr
    · exact Or.inl hr
    · exact Or.inr (List.mem_singleton.mp hr)
  refine ⟨?_, ?_, ?_, ?_, ?_, ?_, ?_, h.roles⟩
  · rw [List.map_append, List.map_singleton]
    refine List.nodup_append.mpr ⟨h.names, List.nodup_singleton _, ?_⟩
    intro a ha b hb hab
    obtain ⟨r, hr, rfl⟩ := List.mem_map.mp ha
    have hno := List.find?_eq_none.mp hnew r hr
    rw [List.mem_singleton.mp hb] at hab
    simp [hab] at hno
  · rw [List.map_append, List.map_singleton]
    refine List.nodup_append.mpr ⟨h.ids, List.nodup_singleton _, ?_⟩
    intro a ha b hb hab
    obtain ⟨r, hr, rfl⟩ := List.mem_map.mp ha
    rw [List.mem_singleton.mp hb] at hab
    exact hids r hr hab
  · intro r hr
    rcases hcases r hr with hr | rfl
    · exact h.free r hr
    · exact hfree
  · rw [List.length_append, List.length_singleton]
    exact hspace
  · intro r hr
    rcases hcases r hr with hr | rfl
    · exact h.distinct r hr
    · exact List.nodup_nil
  · intro r hr r' hr' j hj hj'
    rcases hcases r hr with hr | rfl
    · rcases hcases r' hr' with hr' | rfl
      · exact h.once r hr r' hr' j hj hj'
      · cases hj'
    · cases hj
  · intro r hr j hj
    rcases hcases r hr with hr | rfl
    · exact h.inside r hr j hj
    · cases hj

theorem Chat.mem_enter {name : Bytes} {r : ChatRoom} (h : r ∈ (x.enter name i).rooms) :
    ∃ r₀ ∈ x.rooms, r = if r₀.name = name then r₀.withMember i else r₀ := by
  obtain ⟨r₀, hr₀, hr⟩ := List.mem_map.mp h
  exact ⟨r₀, hr₀, hr.symm⟩

/-- A session that is in no room enters one. -/
theorem Chat.Ok.enter (h : x.Ok reserved) {name : Bytes} {z : Session} (hz : x.sessions i = some z)
    (hin : z.login.isSome = true) (hout : ∀ r ∈ x.rooms, i ∉ r.members) : (x.enter name i).Ok reserved := by
  have hmap : ∀ {α : Type} (f : ChatRoom → α), (∀ r ms, f { r with members := ms } = f r) →
      (x.enter name i).rooms.map f = x.rooms.map f := by
    intro α f hf
    rw [Chat.enter, List.map_map]
    apply List.map_congr_left
    intro r _
    rw [Function.comp_apply]
    split
    · exact hf r _
    · rfl
  -- who is in a room afterwards was there before, or is the session that entered
  have hmem : ∀ r ∈ x.rooms, ∀ j ∈ (if r.name = name then r.withMember i else r).members,
      j ∈ r.members ∨ (j = i ∧ r.name = name) := by
    intro r _ j hj
    split at hj
    · rename_i hname
      rcases List.mem_append.mp hj with hj | hj
      · exact Or.inl hj
      · exact Or.inr ⟨List.mem_singleton.mp hj, hname⟩
    · exact Or.inl hj
  have hkept : ∀ r : ChatRoom, (if r.name = name then r.withMember i else r).name = r.name ∧
      (if r.name = name then r.withMember i else r).roomId = r.roomId := by
    intro r
    split
    · exact ⟨rfl, rfl⟩
    · exact ⟨rfl, rfl⟩
  refine ⟨?_, ?_, ?_, ?_, ?_, ?_, ?_, h.roles⟩
  · rw [hmap ChatRoom.name fun _ _ => rfl]
    exact h.names
  · rw [hmap ChatRoom.roomId fun _ _ => rfl]
    exact h.ids
  · intro r hr
    obtain ⟨r₀, hr₀, rfl⟩ := Chat.mem_enter hr
    rw [(hkept r₀).2]
    exact h.free r₀ hr₀
  · rw [Chat.enter, List.length_map]
    exact h.bound
  · intro r hr
    obtain ⟨r₀, hr₀, rfl⟩ := Chat.mem_enter hr
    split
    · refine List.nodup_append.mpr ⟨h.distinct r₀ hr₀, List.nodup_singleton _, ?_⟩
      intro a ha b hb hab
      rw [List.mem_singleton.mp hb] at hab
      exact hout r₀ hr₀ (hab ▸ ha)
    · exact h.distinct r₀ hr₀
  · intro r hr r' hr' j hj hj'
    obtain ⟨r₀, hr₀, rfl⟩ := Chat.mem_enter hr
    obtain ⟨r₁, hr₁, rfl⟩ := Chat.mem_enter hr'
    rw [(hkept r₀).1, (hkept r₁).1]
    rcases hmem r₀ hr₀ j hj with hj | ⟨hji, hname⟩
    · rcases hmem r₁ hr₁ j hj' with hj' | ⟨hji, -⟩
      · exact h.once r₀ hr₀ r₁ hr₁ j hj hj'
      · exact absurd (hji ▸ hj) (hout r₀ hr₀)
    · rcases hmem r₁ hr₁ j hj' with hj' | ⟨-, hname'⟩
      · exact absurd (hji ▸ hj') (hout r₁ hr₁)
      · rw [hname, hname']
  · intro r hr j hj
    obtain ⟨r₀, hr₀, rfl⟩ := Chat.mem_enter hr
    rcases hmem r₀ hr₀ j hj with hj | ⟨hji, -⟩
    · exact h.inside r₀ hr₀ j hj
    · exact ⟨z, hji ▸ hz, hin⟩

/-- An account changes, with the sessions of it. -/
theorem Chat.Ok.promote (h : x.Ok reserved) (target role : Bytes) (a : Account) :
    Chat.Ok reserved { x with
      accounts := Function.update x.accounts target (some { a with role := role })
      sessions := fun j => (x.sessions j).map (Session.promoted target (roleOfName role)) } := by
  refine ⟨h.names, h.ids, h.free, h.bound, h.distinct, h.once, ?_, ?_⟩
  · intro r hr j hj
    obtain ⟨z, hz, hin⟩ := h.inside r hr j hj
    refine ⟨Session.promoted target (roleOfName role) z, ?_, by simpa [Session.promoted] using hin⟩
    dsimp only
    rw [hz, Option.map_some]
  · intro j z b hz hb
    obtain ⟨w, hw, rfl⟩ := Option.map_eq_some_iff.mp hz
    obtain ⟨b₀, hb₀, rfl⟩ := Option.map_eq_some_iff.mp hb
    by_cases hname : b₀.user = target
    · rw [if_pos hname]
      simp [hname]
    · rw [if_neg hname]
      dsimp only
      rw [Function.update_of_ne hname]
      exact h.roles j w b₀ hw hb₀

/-- An account is added. -/
theorem Chat.Ok.register (h : x.Ok reserved) {name : Bytes} (hnew : x.accounts name = none) (a : Account) :
    Chat.Ok reserved { x with accounts := Function.update x.accounts name (some a) } := by
  refine ⟨h.names, h.ids, h.free, h.bound, h.distinct, h.once, h.inside, ?_⟩
  intro j z b hz hb
  have hrole := h.roles j z b hz hb
  have hne : b.user ≠ name := by
    rintro rfl
    rw [hnew] at hrole
    cases hrole
  dsimp only
  rw [Function.update_of_ne hne]
  exact hrole

/-- A session that is not logged in is in no room. -/
theorem Chat.Ok.outside (h : x.Ok reserved) (hz : ∀ z, x.sessions i = some z → z.login = none) :
    ∀ r ∈ x.rooms, i ∉ r.members := by
  intro r hr hi
  obtain ⟨z, hzs, hin⟩ := h.inside r hr i hi
  rw [hz z hzs] at hin
  cases hin

/-- **Every request keeps the invariant.** -/
theorem Served.ok {q : Request} (hserved : Served reserved x i me q y) (h : x.Ok reserved)
    (hfin : reserved.Finite) (hme : x.sessions i = some me) : y.Ok reserved := by
  cases hserved with
  | same => exact h
  | login name password a out named account hash =>
      apply h.setSession
      · intro hroom
        obtain ⟨r, hr, hi⟩ := hroom
        refine absurd hi (h.outside ?_ r hr)
        intro z hz
        rw [hme, Option.some.injEq] at hz
        rw [← hz, out]
      · rintro w b ⟨⟩ ⟨⟩
        rw [account]
        rfl
  | register name password _ new => exact h.register new _
  | logout =>
      apply (h.leave i).setSession
      · intro hroom
        obtain ⟨r, hr, hi⟩ := hroom
        exact absurd hi (h.not_mem_leave i r hr)
      · rintro w b ⟨⟩ ⟨⟩
  | create name password _ new space => exact h.create hfin password new space
  | leave => exact h.leave i
  | join name password r inside _ _ => exact (h.leave i).enter hme inside (h.not_mem_leave i)
  | kick name r j _ _ _ _ => exact h.leave j
  | mute name r j z _ _ _ _ session =>
      apply h.setSession
      · intro hroom
        obtain ⟨r', hr', hj⟩ := hroom
        obtain ⟨w, hw, hin⟩ := h.inside r' hr' j hj
        rw [session, Option.some.injEq] at hw
        exact ⟨_, rfl, by rw [hw]; exact hin⟩
      · rintro w b ⟨⟩ hb
        exact h.roles j z b session hb
  | promote target role a _ _ _ => exact h.promote target (upperCase role) a

/-- **What an event can do.** -/
inductive Moved (reserved : Set Nat) (x : Chat) : ChatEvent → Chat → Prop
  | same (e : ChatEvent) : Moved reserved x e x
  | connect (fd : Nat) (memory : Bool) (j : Fin maxClients) (empty : x.sessions j = none) :
      Moved reserved x (.connect fd memory) (x.setSession j (some (Session.new fd)))
  | disconnect (fd : Nat) (j : Fin maxClients) :
      Moved reserved x (.disconnect fd) ((x.leave j).setSession j none)
  | command (i : Fin maxClients) (line : Bytes) (memory : Bool) (me : Session) (q : Request) (y : Chat)
      (session : x.sessions i = some me) (asked : parseRequest line = some q)
      (served : Served reserved x i me q y) : Moved reserved x (.command i line memory) y

theorem Chat.step_moved (reserved : Set Nat) (x : Chat) (e : ChatEvent) : Moved reserved x e (x.step reserved e).2 := by
  cases e with
  | connect fd memory =>
      simp only [Chat.step, Chat.connect]
      split
      · rename_i j hj
        split
        · exact Moved.connect fd memory j (by simpa using List.find?_some hj)
        · exact Moved.same _
      · exact Moved.same _
  | disconnect fd =>
      simp only [Chat.step, Chat.disconnect]
      split
      · exact Moved.same _
      · exact Moved.disconnect fd _
  | command i line memory =>
      cases hme : x.sessions i with
      | none =>
          simp only [Chat.step, hme]
          exact Moved.same _
      | some me =>
          cases hq : parseRequest line with
          | none =>
              simp only [Chat.step, hme, hq]
              exact Moved.same _
          | some q =>
              simp only [Chat.step, hme, hq]
              exact Moved.command i line memory me q _ hme hq (x.serve_cases reserved memory i me q)

theorem Moved.ok {e : ChatEvent} (hmoved : Moved reserved x e y) (hfin : reserved.Finite) (h : x.Ok reserved) :
    y.Ok reserved := by
  cases hmoved with
  | same => exact h
  | connect fd memory j empty =>
      apply h.setSession
      · intro hroom
        obtain ⟨r, hr, hi⟩ := hroom
        refine absurd hi (h.outside ?_ r hr)
        intro z hz
        rw [empty] at hz
        cases hz
      · rintro w b ⟨⟩ ⟨⟩
  | disconnect fd j =>
      apply (h.leave j).setSession
      · intro hroom
        obtain ⟨r, hr, hi⟩ := hroom
        exact absurd hi (h.not_mem_leave j r hr)
      · rintro w b ⟨⟩
  | command i line memory me q _ session _ served => exact served.ok h hfin session

/-- **Every step keeps the invariant.** -/
theorem Chat.step_ok (hfin : reserved.Finite) (h : x.Ok reserved) (e : ChatEvent) : (x.step reserved e).2.Ok reserved :=
  (x.step_moved reserved e).ok hfin h

end EchoLink
