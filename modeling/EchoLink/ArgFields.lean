import EchoLink.Handlers

/-!
# The two arguments of a command

`LOGIN`, `REGISTER`, `CREATE`, `JOIN` and `PROMOTE` take two arguments and read
them with `sscanf(args, "%31s %63s", ...)`, `PROMOTE` with `"%31s %15s"`.  The
widths keep each value inside its array.

`parse` is what a handler makes of its argument, and `handle_eq` that the handler
takes nothing else from it.  The values are the fields the user typed as long as
the fields fit.  A first field that is too long is not refused: its first 31
bytes become the first value and the bytes behind them the second
(`longName_split`).  `handlers_act_on_fields` is the exact condition.
-/

namespace EchoLink

open CText RecordFile LinkedList PackedArray

/-- The commands that take two arguments. -/
inductive PairCommand where
  | login
  | register
  | create
  | join
  | promote
  deriving DecidableEq, Repr

/-- The handler of the command, as `worker_thread_main` calls it. -/
def PairCommand.handle (cmd : PairCommand) (env : Env) (s : Server) (c : Ptr) (args : Option Bytes) :
    Option (Response × Server) :=
  match cmd with
  | .login => handleLogin s c args
  | .register => handleRegister s c args
  | .create => handleCreateRoom env s c args
  | .join => handleJoinRoom s c args
  | .promote => handlePromote s c args

/-- The bytes the first and the second array hold, without the NUL. -/
def PairCommand.widths : PairCommand → Nat × Nat
  | .promote => (31, 15)
  | _ => (31, 63)

/-- Whether the handler goes on without a second value. -/
def PairCommand.secondOptional : PairCommand → Bool
  | .create | .join => true
  | _ => false

/-- The string is none of the three that `handle_promote` takes for a role. -/
def UnknownRole (name : Bytes) : Prop :=
  strcaseeq name (ascii "MODERATOR") = false ∧ strcaseeq name (ascii "USER") = false ∧
    strcaseeq name (ascii "ADMIN") = false

instance (name : Bytes) : Decidable (UnknownRole name) := inferInstanceAs (Decidable (_ ∧ _ ∧ _))

/-- What the handler makes of its argument: a refusal, or the two values it goes
on with. -/
def PairCommand.parse (cmd : PairCommand) (args : Option Bytes) : Except Response (Bytes × Bytes) :=
  let v := scanPair cmd.widths.1 cmd.widths.2 args
  match cmd with
  | .login | .register =>
      if v.1 = [] ∨ v.2 = [] then .error (sendError statusErrAuth (ascii "Username and password required"))
      else .ok v
  | .create | .join =>
      if v.1 = [] then .error (sendError statusErrNotFound (ascii "Room name required")) else .ok v
  | .promote =>
      if v.1 = [] ∨ v.2 = [] then
        .error (sendError statusErrNotFound (ascii "Target username and role required"))
      else if UnknownRole v.2 then
        .error (sendError statusErrConflict (ascii "Invalid role (must be ADMIN, MODERATOR, or USER)"))
      else .ok v

/-- The checks before the argument is read: a refusal, if there is one. -/
def PairCommand.gate (cmd : PairCommand) (cl : Client) : Option Response :=
  match cmd with
  | .login | .register =>
      if cl.userId ≠ -1 then some (sendError statusErrConflict (ascii "Already logged in")) else none
  | .create =>
      if cl.userId = -1 then some (sendError statusErrAuth (ascii "Login required"))
      else if authCheckPermission cl.role .create = false then
        some (sendError statusErrForbidden (ascii "Insufficient permissions to create room"))
      else none
  | .join => if cl.userId = -1 then some (sendError statusErrAuth (ascii "Login required")) else none
  | .promote =>
      if cl.userId = -1 then some (sendError statusErrAuth (ascii "Login required"))
      else if authCheckPermission cl.role .promote = false then
        some (sendError statusErrForbidden (ascii "Permission denied. Only admins can promote."))
      else none

/-- What the handler does with the two values. -/
def PairCommand.goOn (cmd : PairCommand) (env : Env) (s : Server) (c : Ptr) (cl : Client)
    (first second : Bytes) : Option (Response × Server) :=
  match cmd with
  | .login =>
      let a := authAuthenticate s.users first second
      let s₁ := { s with users := a.2 }
      match a.1 with
      | some role =>
          some (sendOk (ascii "Login successful") (decimal cl.slot),
            s₁.setClient c
              { cl with userId := 0, username := first.take (maxUsernameLen - 1), role := role })
      | none => some (sendError statusErrAuth (ascii "Invalid username or password"), s₁)
  | .register =>
      let a := authAddUser (s.wrote.headD userRecordSize) s.users first second (ascii "USER")
      let s₁ := { s with users := a.2, wrote := s.wrote.tail }
      if a.1 then some (sendOk (ascii "Registration successful") [], s₁)
      else some (sendError statusErrConflict (ascii "Username already exists"), s₁)
  | .create =>
      (roomCreate env s first second).map fun r =>
        (if r.1 = -1 then sendError statusErrConflict (ascii "Room with this name already exists")
          else if r.1 = -2 then sendError statusErrFull (ascii "Maximum room limit reached")
          else if r.1 = -3 then
            sendError statusErrInternal (ascii "Failed to create room due to server error")
          else if r.1 = -4 then sendError statusErrInternal (ascii "Failed to write room to database")
          else sendOk (ascii "Room created successfully") [],
          r.2)
  | .join =>
      match roomFindByName s first with
      | none => none
      | some none => some (sendError statusErrNotFound (ascii "Room not found"), s)
      | some (some r) =>
          match s.roomMem r with
          | none => none
          | some rm =>
              match roomJoin s rm.roomId second c with
              | none => none
              | some j => (joinResponse j.2 r j.1).map fun resp => (resp, j.2)
  | .promote =>
      let p := authPromoteUser (s.wrote.headD userRecordSize) s.users first (upperCase second)
      let s₁ := { s with users := p.2, wrote := s.wrote.tail }
      if p.1 then
        (promoteLoop first (roleOfName (upperCase second)) (List.finRange maxClients) s₁).map
          fun s₂ => (sendOk (ascii "User promoted successfully") [], s₂)
      else some (sendError statusErrNotFound (ascii "Target user not found"), s₁)

/-- The handler, once its argument is read. -/
def PairCommand.handleParsed (cmd : PairCommand) (env : Env) (s : Server) (c : Ptr)
    (parsed : Except Response (Bytes × Bytes)) : Option (Response × Server) :=
  match s.clientMem c with
  | none => none
  | some cl =>
      match cmd.gate cl with
      | some resp => some (resp, s)
      | none =>
          match parsed with
          | .error resp => some (resp, s)
          | .ok v => cmd.goOn env s c cl v.1 v.2

section

variable (cmd : PairCommand) {env : Env} {s : Server} {c : Ptr} {cl : Client} {resp : Response}
  {parsed : Except Response (Bytes × Bytes)}

theorem PairCommand.handleParsed_gate (hc : s.clientMem c = some cl) (hgate : cmd.gate cl = some resp) :
    cmd.handleParsed env s c parsed = some (resp, s) := by
  simp only [handleParsed, hc, hgate]

theorem PairCommand.handleParsed_error (hc : s.clientMem c = some cl) (hgate : cmd.gate cl = none)
    (hparsed : parsed = .error resp) : cmd.handleParsed env s c parsed = some (resp, s) := by
  simp only [handleParsed, hc, hgate, hparsed]

theorem PairCommand.handleParsed_ok {v : Bytes × Bytes} (hc : s.clientMem c = some cl)
    (hgate : cmd.gate cl = none) (hparsed : parsed = .ok v) :
    cmd.handleParsed env s c parsed = cmd.goOn env s c cl v.1 v.2 := by
  simp only [handleParsed, hc, hgate, hparsed]

/-- One check of the argument. -/
theorem PairCommand.handleParsed_check {missing : Prop} [Decidable missing] {v : Bytes × Bytes}
    (hc : s.clientMem c = some cl) (hgate : cmd.gate cl = none)
    (hparsed : parsed = if missing then .error resp else .ok v) :
    cmd.handleParsed env s c parsed = if missing then some (resp, s) else cmd.goOn env s c cl v.1 v.2 := by
  split at hparsed
  · rename_i hmissing
    rw [if_pos hmissing]
    exact cmd.handleParsed_error hc hgate hparsed
  · rename_i hgiven
    rw [if_neg hgiven]
    exact cmd.handleParsed_ok hc hgate hparsed

end

/-- A handler takes nothing from its argument but what `parse` gives. -/
theorem PairCommand.handle_eq (cmd : PairCommand) (env : Env) (s : Server) (c : Ptr) (args : Option Bytes) :
    cmd.handle env s c args = cmd.handleParsed env s c (cmd.parse args) := by
  cases hc : s.clientMem c with
  | none =>
      cases cmd <;> simp only [handle, handleParsed, handleLogin, handleRegister, handleCreateRoom,
        handleJoinRoom, handlePromote, hc]
  | some cl =>
      cases cmd with
      | login =>
          simp only [handle, handleLogin, hc]
          split
          · rename_i hin
            exact (handleParsed_gate .login hc (if_pos hin)).symm
          · rename_i hout
            exact (handleParsed_check .login hc (if_neg hout) rfl).symm
      | register =>
          simp only [handle, handleRegister, hc]
          split
          · rename_i hin
            exact (handleParsed_gate .register hc (if_pos hin)).symm
          · rename_i hout
            exact (handleParsed_check .register hc (if_neg hout) rfl).symm
      | create =>
          simp only [handle, handleCreateRoom, hc]
          split
          · rename_i hout
            exact (handleParsed_gate .create hc (if_pos hout)).symm
          · rename_i hin
            split
            · rename_i hdenied
              exact (handleParsed_gate .create hc ((if_neg hin).trans (if_pos hdenied))).symm
            · rename_i hallowed
              have hgate : gate .create cl = none := (if_neg hin).trans (if_neg hallowed)
              exact (handleParsed_check .create hc hgate rfl).symm
      | join =>
          simp only [handle, handleJoinRoom, hc]
          split
          · rename_i hout
            exact (handleParsed_gate .join hc (if_pos hout)).symm
          · rename_i hin
            exact (handleParsed_check .join hc (if_neg hin) rfl).symm
      | promote =>
          simp only [handle, handlePromote, hc]
          split
          · rename_i hout
            exact (handleParsed_gate .promote hc (if_pos hout)).symm
          · rename_i hin
            split
            · rename_i hdenied
              exact (handleParsed_gate .promote hc ((if_neg hin).trans (if_pos hdenied))).symm
            · rename_i hallowed
              have hgate : gate .promote cl = none := (if_neg hin).trans (if_neg hallowed)
              split
              · rename_i hmissing
                exact (handleParsed_error .promote hc hgate (if_pos hmissing)).symm
              · rename_i hgiven
                split
                · rename_i hrole
                  exact (handleParsed_error .promote hc hgate ((if_neg hgiven).trans (if_pos hrole))).symm
                · rename_i hrole
                  exact (handleParsed_ok .promote hc hgate ((if_neg hgiven).trans (if_neg hrole))).symm

/-! ### Values and fields -/

/-- The fields of the argument. -/
def argFields (args : Option Bytes) : List Bytes := fields (args.getD [])

/-- The handler refuses the two values. -/
def PairCommand.Refuses (cmd : PairCommand) (v : Bytes × Bytes) : Prop :=
  v.1 = [] ∨ (v.2 = [] ∧ cmd.secondOptional = false) ∨ (cmd = .promote ∧ UnknownRole v.2)

theorem PairCommand.parse_cases (cmd : PairCommand) (args : Option Bytes) :
    (cmd.Refuses (scanPair cmd.widths.1 cmd.widths.2 args) ∧ ∃ resp, cmd.parse args = .error resp) ∨
      (¬ cmd.Refuses (scanPair cmd.widths.1 cmd.widths.2 args) ∧
        cmd.parse args = .ok (scanPair cmd.widths.1 cmd.widths.2 args)) := by
  cases cmd with
  | login | register =>
      simp only [parse, Refuses, secondOptional]
      split
      · rename_i h
        exact Or.inl ⟨by simpa using h, _, rfl⟩
      · rename_i h
        exact Or.inr ⟨by simpa using h, rfl⟩
  | create | join =>
      simp only [parse, Refuses, secondOptional]
      split
      · rename_i h
        exact Or.inl ⟨Or.inl h, _, rfl⟩
      · rename_i h
        exact Or.inr ⟨by simpa using h, rfl⟩
  | promote =>
      simp only [parse, Refuses]
      split
      · rename_i h
        refine Or.inl ⟨?_, _, rfl⟩
        rcases h with h | h
        · exact Or.inl h
        · exact Or.inr (Or.inl ⟨h, rfl⟩)
      · rename_i h
        split
        · rename_i hrole
          exact Or.inl ⟨Or.inr (Or.inr ⟨trivial, hrole⟩), _, rfl⟩
        · rename_i hrole
          refine Or.inr ⟨?_, rfl⟩
          rintro (h1 | ⟨h2, _⟩ | ⟨_, h3⟩)
          · exact h (Or.inl h1)
          · exact h (Or.inr h2)
          · exact hrole h3

/-- The two values in terms of the fields. -/
theorem scanPair_fields {m n : Nat} (hm : 0 < m) (hn : 0 < n) (args : Option Bytes) :
    scanPair m n args =
      (((argFields args).headD []).take m, ((leftover m (argFields args)).headD []).take n) := by
  cases args with
  | none => simp [scanPair, argFields, leftover]
  | some xs =>
      obtain ⟨hfirst, hsecond⟩ := sscanf_pair hm hn xs
      simp only [scanPair, argFields, Option.getD_some, hfirst, hsecond]

theorem length_eq_of_strcaseeq {a b : Bytes} (h : strcaseeq a b = true) : a.length = b.length := by
  have := congrArg List.length (beq_iff_eq.mp h)
  simpa using this

/-- The names of the roles are short. -/
theorem unknownRole_of_length {name : Bytes} (h : 9 < name.length) : UnknownRole name := by
  have hother : ∀ b : Bytes, b.length ≤ 9 → strcaseeq name b = false := by
    intro b hb
    by_contra hne
    have := length_eq_of_strcaseeq (Bool.not_eq_false _ ▸ hne)
    omega
  exact ⟨hother _ (by decide), hother _ (by decide), hother _ (by decide)⟩

theorem unknownRole_take (name : Bytes) : UnknownRole (name.take 15) ↔ UnknownRole name := by
  by_cases hlen : name.length ≤ 15
  · rw [List.take_of_length_le hlen]
  · exact iff_of_true (unknownRole_of_length (by simp; omega)) (unknownRole_of_length (by omega))

/-- The values a handler goes on with are the first field and the second, which
may be missing where the handler allows it; a field that is too long for its
array makes it refuse. -/
structure ActsOnFields (cmd : PairCommand) (args : Option Bytes) : Prop where
  whole : ∀ first second, cmd.parse args = .ok (first, second) →
    (argFields args)[0]? = some first ∧
      ((argFields args)[1]? = some second ∨
        ((argFields args)[1]? = none ∧ second = [] ∧ cmd.secondOptional = true))
  rejects : (∃ f, (argFields args)[0]? = some f ∧ cmd.widths.1 < f.length) ∨
      (∃ f, (argFields args)[1]? = some f ∧ cmd.widths.2 < f.length) →
    ∃ resp, cmd.parse args = .error resp

/-- The first field fits its array, and so does the second.  `PROMOTE` refuses
a second field that is too long, and a first one unless a role follows its
first 31 bytes. -/
def FieldsFit (cmd : PairCommand) : List Bytes → Prop
  | [] => True
  | f :: fs =>
      match cmd with
      | .promote => f.length ≤ 31 ∨ UnknownRole (f.drop 31)
      | _ => f.length ≤ 31 ∧ ∀ g ∈ fs.head?, g.length ≤ 63

section

variable {cmd : PairCommand} {args : Option Bytes} {f : Bytes} {fs : List Bytes}

theorem PairCommand.widths_pos (cmd : PairCommand) : 0 < cmd.widths.1 ∧ 0 < cmd.widths.2 := by
  cases cmd <;> decide

/-- The first field fits: it is the first value, and the second value comes from
the next field. -/
theorem PairCommand.scan_short (hfields : argFields args = f :: fs) (hlen : f.length ≤ cmd.widths.1) :
    scanPair cmd.widths.1 cmd.widths.2 args = (f, (fs.headD []).take cmd.widths.2) := by
  rw [scanPair_fields cmd.widths_pos.1 cmd.widths_pos.2, hfields, leftover, if_pos hlen]
  simp [List.take_of_length_le hlen]

/-- The first field is too long: the second value comes from its other bytes. -/
theorem PairCommand.scan_long (hfields : argFields args = f :: fs) (hlen : cmd.widths.1 < f.length) :
    scanPair cmd.widths.1 cmd.widths.2 args =
      (f.take cmd.widths.1, (f.drop cmd.widths.1).take cmd.widths.2) := by
  rw [scanPair_fields cmd.widths_pos.1 cmd.widths_pos.2, hfields, leftover, if_neg (by omega)]
  simp

theorem ActsOnFields.of_error {resp : Response} (h : cmd.parse args = .error resp) :
    ActsOnFields cmd args where
  whole := by
    intro first second hok
    rw [h] at hok
    cases hok
  rejects := fun _ => ⟨resp, h⟩

/-- The handler goes on with the first field: the second value is the second
field if that is short enough. -/
theorem actsOnFields_short_iff (hfields : argFields args = f :: fs)
    (hok : cmd.parse args = .ok (f, (fs.headD []).take cmd.widths.2)) (hlen : f.length ≤ cmd.widths.1)
    (hsecond : fs = [] → cmd.secondOptional = true) :
    ActsOnFields cmd args ↔ ∀ g ∈ fs.head?, g.length ≤ cmd.widths.2 := by
  constructor
  · intro h g hg
    by_contra hlong
    obtain ⟨resp, herr⟩ := h.rejects (Or.inr ⟨g, by
      rw [hfields, List.getElem?_cons_succ, ← List.head?_eq_getElem?]
      exact hg, by omega⟩)
    rw [hok] at herr
    cases herr
  · intro h
    constructor
    · intro first second hparse
      rw [hok] at hparse
      obtain ⟨rfl, rfl⟩ := Prod.mk.inj (Except.ok.inj hparse)
      refine ⟨by rw [hfields, List.getElem?_cons_zero], ?_⟩
      rw [hfields, List.getElem?_cons_succ]
      cases fs with
      | nil => exact Or.inr ⟨rfl, by simp, hsecond rfl⟩
      | cons g fs => exact Or.inl (by simp [List.take_of_length_le (h g rfl)])
    · rw [hfields]
      rintro (⟨g, hg, hlong⟩ | ⟨g, hg, hlong⟩)
      · obtain rfl : f = g := by simpa using hg
        omega
      · rw [List.getElem?_cons_succ, ← List.head?_eq_getElem?] at hg
        have := h g hg
        omega

/-- The handler goes on with a part of the first field. -/
theorem not_actsOnFields_long {v : Bytes × Bytes} (hfields : argFields args = f :: fs)
    (hok : cmd.parse args = .ok v) (hlen : cmd.widths.1 < f.length) : ¬ ActsOnFields cmd args := by
  intro h
  obtain ⟨resp, herr⟩ := h.rejects (Or.inl ⟨f, by rw [hfields, List.getElem?_cons_zero], hlen⟩)
  rw [hok] at herr
  cases herr

/-- What a handler refuses fits. -/
theorem fieldsFit_of_refuses (h : cmd.Refuses (scanPair cmd.widths.1 cmd.widths.2 args)) :
    FieldsFit cmd (argFields args) := by
  cases hfields : argFields args with
  | nil => trivial
  | cons f fs =>
      have hne : ∀ g ∈ f :: fs, g ≠ [] := fun g hg => ne_nil_of_mem_fields (hfields ▸ hg)
      by_cases hlen : f.length ≤ cmd.widths.1
      · rw [cmd.scan_short hfields hlen] at h
        -- only a missing second field or an unknown role is refused
        have hsecond : cmd ≠ .promote → fs = [] := by
          intro hcmd
          rcases h with h | ⟨h, _⟩ | ⟨h, _⟩
          · exact absurd h (hne f List.mem_cons_self)
          · cases fs with
            | nil => rfl
            | cons g fs =>
                have hg : g ≠ [] := hne g (by simp)
                have hpos := cmd.widths_pos.2
                simp only [List.headD_cons, List.take_eq_nil_iff] at h
                rcases h with h | h
                · omega
                · exact absurd h hg
          · exact absurd h hcmd
        cases cmd with
        | promote => exact Or.inl hlen
        | login | register | create | join =>
            refine ⟨hlen, ?_⟩
            rw [hsecond (by decide)]
            intro g hg
            cases hg
      · rw [cmd.scan_long hfields (by omega)] at h
        have hpos := cmd.widths_pos
        rcases h with h | ⟨h, _⟩ | ⟨rfl, h⟩
        · simp only [List.take_eq_nil_iff] at h
          rcases h with h | h
          · omega
          · exact absurd h (hne f List.mem_cons_self)
        · simp only [List.take_eq_nil_iff, List.drop_eq_nil_iff] at h
          omega
        · exact Or.inr ((unknownRole_take _).mp h)

/-- **Handlers act on the fields the user typed** exactly when the fields fit. -/
theorem handlers_act_on_fields (cmd : PairCommand) (args : Option Bytes) :
    (∀ env s c, cmd.handle env s c args = cmd.handleParsed env s c (cmd.parse args)) ∧
      (ActsOnFields cmd args ↔ FieldsFit cmd (argFields args)) := by
  refine ⟨fun env s c => cmd.handle_eq env s c args, ?_⟩
  rcases cmd.parse_cases args with ⟨hrefuses, resp, herr⟩ | ⟨hgoes, hok⟩
  · exact iff_of_true (ActsOnFields.of_error herr) (fieldsFit_of_refuses hrefuses)
  · cases hfields : argFields args with
    | nil =>
        rw [scanPair_fields cmd.widths_pos.1 cmd.widths_pos.2, hfields] at hgoes
        exact absurd (Or.inl (by simp)) hgoes
    | cons f fs =>
        by_cases hlen : f.length ≤ cmd.widths.1
        · rw [cmd.scan_short hfields hlen] at hgoes hok
          have hsecond : fs = [] → cmd.secondOptional = true := by
            rintro rfl
            by_contra hneeded
            exact hgoes (Or.inr (Or.inl ⟨by simp, by simpa using hneeded⟩))
          rw [actsOnFields_short_iff hfields hok hlen hsecond]
          cases cmd with
          | promote =>
              refine iff_of_true ?_ (Or.inl hlen)
              intro g hg
              by_contra hlong
              refine hgoes (Or.inr (Or.inr ⟨rfl, ?_⟩))
              have hhead : fs.headD [] = g := by rw [List.headD_eq_head?_getD, hg, Option.getD_some]
              rw [hhead]
              simp only [PairCommand.widths] at hlong ⊢
              exact unknownRole_of_length (by simp; omega)
          | login | register | create | join => exact (and_iff_right hlen).symm
        · have hlong : cmd.widths.1 < f.length := by omega
          rw [cmd.scan_long hfields hlong] at hgoes hok
          refine iff_of_false (not_actsOnFields_long hfields hok hlong) ?_
          cases cmd with
          | promote =>
              rintro (hshort | hunknown)
              · exact hlen hshort
              · exact hgoes (Or.inr (Or.inr ⟨rfl, (unknownRole_take _).mpr hunknown⟩))
          | login | register | create | join => exact fun hfit => hlen hfit.1

end

/-- One field of 40 bytes. -/
def longName : Bytes := List.replicate 40 97

/-- A name of 40 bytes without a password is registered, as a name of 31 bytes
with a password of 9. -/
theorem longName_split : ¬ ∀ cmd args, ActsOnFields cmd args := by
  intro hall
  have hlong : (argFields (some longName))[0]? = some longName ∧ 31 < longName.length := by decide +kernel
  obtain ⟨resp, herr⟩ := (hall .register (some longName)).rejects (Or.inl ⟨longName, hlong⟩)
  have hok : PairCommand.parse .register (some longName) =
      .ok (List.replicate 31 97, List.replicate 9 97) := by decide +kernel
  rw [hok] at herr
  cases herr

end EchoLink
