import EchoLink.Registrations

/-!
# Registrations whose writes are cut short

`auth_add_user` appends its record behind the last byte of `users.bin`; the scans
read the file as whole records from its start.  After a write that was cut short
the two disagree: the next record is read from the part before it on, and the
user who was told of a success cannot log in.

What is appended never changes the whole records before it, so that who could
log in still can (`login_kept`).  `all_log_in_iff` says in which runs
every successful registration is followed by a login.
-/

namespace EchoLink

open CText RecordFile Runs

/-! ### The scans as searches of the records -/

/-- The record that `auth_authenticate` compares with. -/
def loginRecord (d username : Bytes) : Option UserRecord := (userRecords d).find? (·.matches username)

/-- `auth_authenticate` returns 1. -/
def LogsIn (users : File) (username password : Bytes) : Prop :=
  (authAuthenticate users username password).1.isSome

instance (users : File) (username password : Bytes) : Decidable (LogsIn users username password) :=
  inferInstanceAs (Decidable (_ = true))

/-- The record has the hash of the password. -/
def UserRecord.HasPassword (r : UserRecord) (password : Bytes) : Prop :=
  safeMemcmp (sha256Hash password).val r.passwordHash.val 64 = 0

variable {d : Bytes} {users : File} {username password : Bytes}

theorem scan_found (bss : List Bytes) (username : Bytes) (offset : Nat) :
    ((∃ n, scanRecords (fun (offset : Nat) bs =>
          if (UserRecord.decode bs).matches username then Sum.inr (UserRecord.decode bs, offset)
          else Sum.inl (offset + userRecordSize)) bss offset = .inl n) ∧
        (bss.map UserRecord.decode).find? (·.matches username) = none) ∨
      ∃ r n, scanRecords (fun (offset : Nat) bs =>
          if (UserRecord.decode bs).matches username then Sum.inr (UserRecord.decode bs, offset)
          else Sum.inl (offset + userRecordSize)) bss offset = .inr (r, n) ∧
        (bss.map UserRecord.decode).find? (·.matches username) = some r := by
  induction bss generalizing offset with
  | nil => exact Or.inl ⟨⟨offset, rfl⟩, rfl⟩
  | cons bs bss ih =>
      simp only [scanRecords, List.map_cons]
      cases hmatch : (UserRecord.decode bs).matches username with
      | true =>
          refine Or.inr ⟨UserRecord.decode bs, offset, by simp, ?_⟩
          rw [List.find?_cons_of_pos hmatch]
      | false =>
          have hneg : ¬ (UserRecord.decode bs).matches username = true := by rw [hmatch]; exact Bool.false_ne_true
          rw [List.find?_cons_of_neg hneg]
          simp only [Bool.false_eq_true, if_false]
          exact ih (offset + userRecordSize)

/-- Who logs in: whose first record has the password. -/
theorem logsIn_iff : LogsIn users username password ↔
    ∃ r, loginRecord users.data username = some r ∧ r.HasPassword password := by
  rw [LogsIn, authAuthenticate, findUser, readLoop_start (by decide), loginRecord, userRecords]
  rcases scan_found (records userRecordSize users.data) username 0 with ⟨⟨n, hscan⟩, hfind⟩ | ⟨r, n, hscan, hfind⟩
  · rw [hscan, hfind]
    simp
  · rw [hscan, hfind]
    simp only [ne_eq, ite_not, Option.some.injEq, UserRecord.HasPassword]
    split
    · rename_i hhash
      simpa using hhash
    · rename_i hhash
      simpa using hhash

/-- The count goes through only if no record has the name. -/
theorem loginRecord_of_count {n : Nat} (h : (countUsers users username).1 = .inl n) :
    loginRecord users.data username = none := by
  have hscan : ∀ (bss : List Bytes) (m : Nat), scanRecords (fun (userCount : Nat) bs =>
        if (UserRecord.decode bs).matches username then Sum.inr ()
        else Sum.inl (if (UserRecord.decode bs).isActive ≠ 0 then userCount + 1 else userCount)) bss m = .inl n →
      (bss.map UserRecord.decode).find? (·.matches username) = none := by
    intro bss
    induction bss with
    | nil => exact fun _ _ => rfl
    | cons bs bss ih =>
        intro m hm
        simp only [scanRecords] at hm
        cases hmatch : (UserRecord.decode bs).matches username with
        | true => simp [hmatch] at hm
        | false =>
            have hneg : ¬ (UserRecord.decode bs).matches username = true := by
              rw [hmatch]
              exact Bool.false_ne_true
            rw [List.map_cons, List.find?_cons_of_neg hneg]
            simp only [hmatch, Bool.false_eq_true, if_false] at hm
            exact ih _ hm
  rw [countUsers, readLoop_start (by decide)] at h
  exact hscan _ _ h

/-! ### What is appended -/

/-- The bytes behind the last whole record. -/
def lastPart (d : Bytes) : Bytes := d.drop (slotCount userRecordSize d * userRecordSize)

/-- The record that is read after a record was written at the end of the file. -/
def completed (d : Bytes) (r : UserRecord) : UserRecord :=
  UserRecord.decode ((lastPart d ++ r.encode).take userRecordSize)

theorem userRecords_append_any (d x : Bytes) : ∃ more, userRecords (d ++ x) = userRecords d ++ more := by
  refine ⟨(records userRecordSize (lastPart d ++ x)).map UserRecord.decode, ?_⟩
  rw [userRecords, userRecords, records_append (by decide), List.map_append]
  rfl

theorem userRecords_append_record (d : Bytes) (r : UserRecord) :
    userRecords (d ++ r.encode) = userRecords d ++ [completed d r] := by
  have hlt : (lastPart d).length < userRecordSize := drop_records_length (by decide) d
  have hlen : (lastPart d ++ r.encode).length = (lastPart d).length + userRecordSize := by
    rw [List.length_append, r.encode_length]
  rw [userRecords, userRecords, records_append (by decide), List.map_append]
  congr 1
  change (records userRecordSize (lastPart d ++ r.encode)).map UserRecord.decode = _
  rw [records_single (by decide) (by omega) (by omega)]
  rfl

theorem lastPart_of_whole (h : d.length % userRecordSize = 0) : lastPart d = [] := by
  rw [lastPart, slotCount, Nat.div_mul_cancel (Nat.dvd_of_mod_eq_zero h)]
  exact List.drop_length

theorem completed_of_whole (h : d.length % userRecordSize = 0) (r : UserRecord) : completed d r = r := by
  rw [completed, lastPart_of_whole h, List.nil_append, List.take_of_length_le (Nat.le_of_eq r.encode_length),
    UserRecord.decode_encode]

/-- **Who could log in still can**, whatever is appended. -/
theorem login_kept {users' : File} {x : Bytes} (hdata : users'.data = users.data ++ x)
    (h : LogsIn users username password) : LogsIn users' username password := by
  obtain ⟨r, hr, hpassword⟩ := logsIn_iff.mp h
  obtain ⟨more, hmore⟩ := userRecords_append_any users.data x
  refine logsIn_iff.mpr ⟨r, ?_, hpassword⟩
  rw [loginRecord] at hr ⊢
  rw [hdata, hmore, List.find?_append, hr, Option.some_or]

/-- A new user logs in if the record that is read is hers. -/
theorem new_login_iff {users' : File} {r : UserRecord} (password : Bytes) (hdata : users'.data = users.data ++ r.encode)
    (hnew : loginRecord users.data username = none) :
    LogsIn users' username password ↔
      (completed users.data r).matches username = true ∧ (completed users.data r).HasPassword password := by
  rw [logsIn_iff, loginRecord, hdata, userRecords_append_record, List.find?_append]
  rw [loginRecord] at hnew
  rw [hnew, Option.none_or, List.find?_singleton]
  split
  · rename_i hmatch
    simp [hmatch]
  · rename_i hmatch
    simp [hmatch]

/-! ### Runs -/

/-- A call `auth_add_user(username, password, role)` whose record write transfers
`wrote` bytes. -/
structure AddCall where
  username : Bytes
  password : Bytes
  role : Bytes
  wrote : Nat

/-- The strings of a call fit the arrays they are copied to. -/
def AddCall.Delivered (c : AddCall) : Prop := FitsIn maxUsernameLen c.username ∧ FitsIn maxRoleLen c.role

/-- The table, with the names and passwords for which a call returned 1. -/
structure Signups where
  users : File
  registered : List (Bytes × Bytes)

def Signups.step (s : Signups) (c : AddCall) : Option Signups :=
  let r := authAddUser c.wrote s.users c.username c.password c.role
  some ⟨r.2, if r.1 then s.registered ++ [(c.username, c.password)] else s.registered⟩

/-- Everyone who registered can log in. -/
def Signups.AllLogIn (s : Signups) : Prop := ∀ p ∈ s.registered, LogsIn s.users p.1 p.2

/-- A call that writes a whole record finds whole records only, or a part that its
record completes to one with its name and password. -/
def Lands (s : Signups) (c : AddCall) : Prop :=
  ∀ n, (countUsers s.users c.username).1 = .inl n → userRecordSize ≤ c.wrote →
    s.users.data.length % userRecordSize = 0 ∨
      ((completed s.users.data (newUser n c.username c.password c.role)).matches c.username = true ∧
        (completed s.users.data (newUser n c.username c.password c.role)).HasPassword c.password)

variable {s s' : Signups} {c : AddCall}

/-- What a call does: it fails, whatever it has appended, or appends a record. -/
theorem addUser_cases (c : AddCall) (users : File) :
    ((authAddUser c.wrote users c.username c.password c.role).1 = false ∧
        ∃ x, (authAddUser c.wrote users c.username c.password c.role).2.data = users.data ++ x) ∨
      ∃ n, (countUsers users c.username).1 = .inl n ∧ userRecordSize ≤ c.wrote ∧
        (authAddUser c.wrote users c.username c.password c.role).1 = true ∧
        (authAddUser c.wrote users c.username c.password c.role).2.data =
          users.data ++ (newUser n c.username c.password c.role).encode := by
  have happends : ∃ x, (authAddUser c.wrote users c.username c.password c.role).2.data = users.data ++ x := by
    rcases authAddUser_data c.wrote users c.username c.password c.role with hsame | ⟨n, happend⟩
    · exact ⟨[], by rw [hsame, List.append_nil]⟩
    · exact ⟨_, happend⟩
  cases hcount : (countUsers users c.username).1 with
  | inr taken => exact Or.inl ⟨by simp only [authAddUser, hcount], happends⟩
  | inl n =>
      by_cases hw : userRecordSize ≤ c.wrote
      · refine Or.inr ⟨n, rfl, hw, by simp only [authAddUser, hcount, hw, decide_true], ?_⟩
        simp only [authAddUser, hcount, File.write, File.seekEnd, countUsers_data]
        have hwhole : (newUser n c.username c.password c.role).encode.take c.wrote =
            (newUser n c.username c.password c.role).encode :=
          List.take_of_length_le (by rw [UserRecord.encode_length]; exact hw)
        rw [hwhole]
        exact patch_length _ _
      · exact Or.inl ⟨by simp only [authAddUser, hcount, hw, decide_false], happends⟩

theorem newUser_matches (hname : FitsIn maxUsernameLen username) (n : Nat) (password role : Bytes) :
    (newUser n username password role).matches username = true :=
  (matches_iff (by exact (by decide : (1 : Int32) ≠ 0))).mpr (newUser_name hname n password role)

theorem newUser_hasPassword (n : Nat) (username password role : Bytes) :
    (newUser n username password role).HasPassword password :=
  (safeMemcmp_sha256Hash password password).mpr rfl

/-- **One call**: all log in afterwards exactly if its record lands. -/
theorem allLogIn_step_iff (h : s.AllLogIn) (hc : c.Delivered) (hstep : s.step c = some s') :
    s'.AllLogIn ↔ Lands s c := by
  obtain rfl := Option.some.inj hstep
  rcases addUser_cases c s.users with ⟨hfalse, x, hdata⟩ | ⟨n, hcount, hw, htrue, hdata⟩
  · constructor
    · intro _ n hcount hw
      rw [authAddUser, hcount] at hfalse
      exact absurd hw (of_decide_eq_false hfalse)
    · intro _ p hp
      simp only [hfalse, Bool.false_eq_true, if_false] at hp ⊢
      exact login_kept hdata (h p hp)
  · have hnew := new_login_iff c.password hdata (loginRecord_of_count hcount)
    constructor
    · intro hall m hm hw
      obtain rfl := Sum.inl.inj (hcount.symm.trans hm)
      refine Or.inr (hnew.mp (hall (c.username, c.password) ?_))
      simp [htrue]
    · intro hlands p hp
      simp only [htrue, if_true, List.mem_append, List.mem_singleton] at hp ⊢
      rcases hp with hp | rfl
      · exact login_kept hdata (h p hp)
      · apply hnew.mpr
        rcases hlands n hcount hw with hwhole | hcompleted
        · rw [completed_of_whole hwhole]
          exact ⟨newUser_matches hc.1 n _ _, newUser_hasPassword n _ _ _⟩
        · exact hcompleted

/-- **When registrations are kept through short writes.**  In a run of calls
whose writes may all be cut short, everyone who registered can log in after every
call exactly if every record that is written whole lands. -/
theorem all_log_in_iff (s : Signups) (calls : List AddCall) (hs : s.AllLogIn)
    (hcalls : ∀ c ∈ calls, c.Delivered) :
    (∀ pre post s', calls = pre ++ post → run Signups.step s pre = some s' → s'.AllLogIn) ↔
      Along Signups.step Lands s calls := by
  induction calls generalizing s with
  | nil =>
      refine ⟨fun _ => trivial, ?_⟩
      intro _ pre post s' hsplit hrun
      obtain ⟨rfl, -⟩ := List.append_eq_nil_iff.mp hsplit.symm
      cases hrun
      exact hs
  | cons c rest ih =>
      have hc := hcalls c List.mem_cons_self
      have hrest := fun c' hc' => hcalls c' (List.mem_cons_of_mem _ hc')
      constructor
      · intro hall
        have hnext : ∀ s', s.step c = some s' → s'.AllLogIn := by
          intro s' hstep
          exact hall [c] rest s' rfl (by rw [run, hstep]; rfl)
        refine ⟨(allLogIn_step_iff hs hc rfl).mp (hnext _ rfl), ?_⟩
        intro s' hstep
        refine (ih s' (hnext s' hstep) hrest).mp ?_
        intro pre post s'' hsplit hrun
        apply hall (c :: pre) post s''
        · rw [hsplit, List.cons_append]
        · rw [run, hstep, Option.bind_some, hrun]
      · intro halong pre post s'' hsplit hrun
        cases pre with
        | nil =>
            cases hrun
            exact hs
        | cons c' pre =>
            obtain ⟨rfl, hparts⟩ := List.cons.inj hsplit
            rw [run] at hrun
            obtain ⟨s', hstep, hrun⟩ := Option.bind_eq_some_iff.mp hrun
            have hs' := (allLogIn_step_iff hs hc hstep).mpr halong.1
            exact (ih s' hs' hrest).mpr (halong.2 s' hstep) pre post s'' hparts hrun

/-- The table with the admin who can log in to it. -/
def startSignups : Signups := ⟨startTable, [(ascii "admin", ascii "admin123")]⟩

theorem startSignups_logIn : startSignups.AllLogIn := by
  intro p hp
  obtain rfl := List.mem_singleton.mp hp
  exact (by decide +kernel : LogsIn startTable (ascii "admin") (ascii "admin123"))

/-- Bob's record is cut short, then Eve registers. -/
def bobThenEve (wrote : Nat) : List AddCall :=
  [⟨ascii "bob", ascii "secret", ascii "USER", wrote⟩, ⟨ascii "eve", ascii "hidden", ascii "USER", userRecordSize⟩]

theorem bobThenEve_delivered (wrote : Nat) : ∀ c ∈ bobThenEve wrote, c.Delivered := by
  intro c hc
  simp only [bobThenEve, List.mem_cons, List.not_mem_nil, or_false] at hc
  have hbob : FitsIn maxUsernameLen (ascii "bob") := ⟨by decide, by decide⟩
  have heve : FitsIn maxUsernameLen (ascii "eve") := ⟨by decide, by decide⟩
  have hrole : FitsIn maxRoleLen (ascii "USER") := ⟨by decide, by decide⟩
  rcases hc with rfl | rfl
  · exact ⟨hbob, hrole⟩
  · exact ⟨heve, hrole⟩

/-- A write that transfers nothing does no harm: eve can log in. -/
theorem all_log_in_after_empty_write :
    ∃ s, run Signups.step startSignups (bobThenEve 0) = some s ∧ (ascii "eve", ascii "hidden") ∈ s.registered ∧
      s.AllLogIn := by
  have hend : (run Signups.step startSignups (bobThenEve 0)).map (fun s => s.registered.contains
      (ascii "eve", ascii "hidden")) = some true := by decide +kernel
  obtain ⟨s, hrun, hmem⟩ := Option.map_eq_some_iff.mp hend
  have hbob : Lands startSignups ⟨ascii "bob", ascii "secret", ascii "USER", 0⟩ := by
    intro n _ hw
    exact absurd hw (by decide)
  have heve : ∀ s', startSignups.step ⟨ascii "bob", ascii "secret", ascii "USER", 0⟩ = some s' →
      Lands s' ⟨ascii "eve", ascii "hidden", ascii "USER", userRecordSize⟩ := by
    intro s' hstep
    have hlen : (startSignups.step ⟨ascii "bob", ascii "secret", ascii "USER", 0⟩).map
        (fun s => s.users.data.length % userRecordSize) = some 0 := by decide +kernel
    rw [hstep, Option.map_some, Option.some.injEq] at hlen
    exact fun _ _ _ => Or.inl hlen
  have hall := (all_log_in_iff startSignups (bobThenEve 0) startSignups_logIn (bobThenEve_delivered 0)).mpr
    ⟨hbob, fun s' hstep => ⟨heve s' hstep, fun _ _ => trivial⟩⟩
  exact ⟨s, hrun, List.contains_iff_mem.mp hmem, hall (bobThenEve 0) [] s (List.append_nil _).symm hrun⟩

/-- After ten bytes of bob's record eve is told of a success and cannot log in. -/
theorem short_write_locks_out :
    ¬ ∀ (s : Signups) (calls : List AddCall), s.AllLogIn → (∀ c ∈ calls, c.Delivered) →
      ∀ pre post s', calls = pre ++ post → run Signups.step s pre = some s' → s'.AllLogIn := by
  intro hall
  have hend : (run Signups.step startSignups (bobThenEve 10)).map (fun s => (s.registered.contains
      (ascii "eve", ascii "hidden"), decide (LogsIn s.users (ascii "eve") (ascii "hidden")))) =
        some (true, false) := by decide +kernel
  obtain ⟨s, hrun, hvalues⟩ := Option.map_eq_some_iff.mp hend
  obtain ⟨hmem, hlogin⟩ := Prod.mk.inj hvalues
  have hlogs := hall startSignups (bobThenEve 10) startSignups_logIn (bobThenEve_delivered 10) (bobThenEve 10) [] s
    (List.append_nil _).symm hrun (ascii "eve", ascii "hidden") (List.contains_iff_mem.mp hmem)
  exact absurd hlogs (of_decide_eq_false hlogin)

end EchoLink
