import EchoLink.Auth
import Mathlib.Logic.Function.Basic

/-!
# The user table as a finite map

What `auth.c` is for: a map from user names to a password hash and a role, to
which names are added, whose roles change, and which never forgets a name.
`specCall` says it, and `userTable_refines_map` shows that the file behaves so
over any run of calls from the table that `auth_init` creates.

The three operations each scan the file from its start.  `TableOk` is the
shape that makes the scans agree: whole records, all of them active, numbered
from 0, no name twice.
-/

namespace EchoLink

open CText RecordFile

/-! ### The abstract map -/

/-- What is kept of an account. -/
structure Account where
  hash : Buf 65
  role : Bytes

/-- The accounts by name. -/
abbrev Accounts := Bytes → Option Account

/-- One call, with whether its write completes or writes nothing. -/
inductive UserCall where
  | add (username password role : Bytes) (completes : Bool)
  | promote (username role : Bytes) (completes : Bool)
  | authenticate (username password : Bytes)

/-- What a call returns. -/
inductive UserResult where
  | returned (ok : Bool)
  | authenticated (role : Option Role)
  deriving DecidableEq

/-- The call on the map. -/
def specCall (m : Accounts) : UserCall → UserResult × Accounts
  | .add username password role completes =>
      if m username = none ∧ completes = true then
        (.returned true, Function.update m username (some ⟨sha256Hash password, role⟩))
      else (.returned false, m)
  | .promote username role completes =>
      match m username with
      | some a =>
          if completes then
            (.returned true, Function.update m username (some { a with role := role }))
          else (.returned false, m)
      | none => (.returned false, m)
  | .authenticate username password =>
      match m username with
      | some a =>
          if sha256Hash password = a.hash then
            (.authenticated (some (roleOfName a.role)), m)
          else (.authenticated none, m)
      | none => (.authenticated none, m)

/-! ### The calls on the file -/

/-- The bytes a record write transfers. -/
def transfers (completes : Bool) : Nat := if completes then userRecordSize else 0

def runCall (users : File) : UserCall → UserResult × File
  | .add username password role completes =>
      let r := authAddUser (transfers completes) users username password role
      (.returned r.1, r.2)
  | .promote username role completes =>
      let r := authPromoteUser (transfers completes) users username role
      (.returned r.1, r.2)
  | .authenticate username password =>
      let r := authAuthenticate users username password
      (.authenticated r.1, r.2)

/-- A run of calls with what they return. -/
def runCalls {σ : Type} (step : σ → UserCall → UserResult × σ) : σ → List UserCall →
    List UserResult × σ
  | s, [] => ([], s)
  | s, c :: cs =>
      let rest := runCalls step (step s c).2 cs
      ((step s c).1 :: rest.1, rest.2)

/-- A C string that fits an array of `n` bytes with its NUL. -/
def FitsIn (n : Nat) (s : Bytes) : Prop := s.length < n ∧ (0 : UInt8) ∉ s

/-- Names, passwords and roles as `sscanf` and the handlers deliver them. -/
def UserCall.Delivered : UserCall → Prop
  | .add username password role _ =>
      FitsIn maxUsernameLen username ∧ FitsIn maxPasswordLen password ∧ FitsIn maxRoleLen role
  | .promote username role _ => FitsIn maxUsernameLen username ∧ FitsIn maxRoleLen role
  | .authenticate username password =>
      FitsIn maxUsernameLen username ∧ FitsIn maxPasswordLen password

/-- A call that returns 0. -/
def UserResult.failed : UserResult → Bool
  | .returned ok => !ok
  | .authenticated role => role.isNone

/-! ### Reading the file as a map -/

/-- The record in a slot of the table. -/
def userAt (d : Bytes) (i : Nat) : Option UserRecord :=
  (slot userRecordSize d i).map UserRecord.decode

def UserRecord.name (r : UserRecord) : Bytes := cstr r.username.val

def UserRecord.account (r : UserRecord) : Account := ⟨r.passwordHash, cstr r.role.val⟩

/-- The map a table stands for: the first active record of each name. -/
def accounts (d : Bytes) : Accounts := fun username =>
  (((records userRecordSize d).map UserRecord.decode).find? (·.matches username)).map
    UserRecord.account

/-- Active names are pairwise distinct and the `i`-th record has `user_id` `i`. -/
def WellFormed (d : Bytes) : Prop :=
  (∀ i r, userAt d i = some r → r.userId = Int32.ofNat i) ∧
  ∀ i j r r', userAt d i = some r → userAt d j = some r' → r.isActive ≠ 0 → r'.isActive ≠ 0 →
    r.name = r'.name → i = j

/-- Every record that was there is still there, but for the role of the record
that the call promoted. -/
def KeepsRecords (d d' : Bytes) (c : UserCall) : Prop :=
  ∀ i r, userAt d i = some r → userAt d' i = some r ∨
    ∃ role completes buf, c = .promote r.name role completes ∧
      userAt d' i = some { r with role := buf }

/-! ### The invariant -/

/-- The file holds the records `rs`. -/
structure TableOk (d : Bytes) (rs : List UserRecord) : Prop where
  image : d = (rs.map UserRecord.encode).flatten
  active : ∀ r ∈ rs, r.isActive ≠ 0
  ids : ∀ i r, rs[i]? = some r → r.userId = Int32.ofNat i
  names : (rs.map UserRecord.name).Nodup
  hashes : ∀ r ∈ rs, ∃ p, r.passwordHash = sha256Hash p

variable {d : Bytes} {rs : List UserRecord} {users : File}

private theorem encode_lengths (rs : List UserRecord) :
    ∀ bs ∈ rs.map UserRecord.encode, bs.length = userRecordSize := by
  intro bs hbs
  obtain ⟨r, _, rfl⟩ := List.mem_map.mp hbs
  exact r.encode_length

theorem TableOk.records (h : TableOk d rs) :
    RecordFile.records userRecordSize d = rs.map UserRecord.encode := by
  rw [h.image]
  exact records_flatten (by decide) (encode_lengths rs)

private theorem map_decode_encode (rs : List UserRecord) :
    (rs.map UserRecord.encode).map UserRecord.decode = rs := by
  rw [List.map_map]
  have : UserRecord.decode ∘ UserRecord.encode = id := funext UserRecord.decode_encode
  rw [this, List.map_id]

theorem TableOk.userAt (h : TableOk d rs) (i : Nat) : userAt d i = rs[i]? := by
  rw [EchoLink.userAt, ← getElem?_records (by decide), h.records, ← List.getElem?_map,
    map_decode_encode]

theorem TableOk.accounts (h : TableOk d rs) (username : Bytes) :
    accounts d username = (rs.find? (·.matches username)).map UserRecord.account := by
  rw [EchoLink.accounts, h.records, map_decode_encode]

theorem TableOk.wellFormed (h : TableOk d rs) : WellFormed d := by
  refine ⟨fun i r hr => h.ids i r (by rwa [h.userAt] at hr), ?_⟩
  intro i j r r' hr hr' _ _ hname
  rw [h.userAt] at hr hr'
  have hi : (rs.map UserRecord.name)[i]? = some r.name := by rw [List.getElem?_map, hr]; rfl
  have hj : (rs.map UserRecord.name)[j]? = some r.name := by rw [List.getElem?_map, hr', hname]; rfl
  have hlt : i < (rs.map UserRecord.name).length := (List.getElem?_eq_some_iff.mp hi).1
  exact (List.getElem?_inj hlt h.names).mp (hi.trans hj.symm)

/-! ### The searches -/

/-- Either no record matches or there is a first one. -/
theorem first_match (rs : List UserRecord) (username : Bytes) :
    (∀ r ∈ rs, r.matches username = false) ∨
      ∃ pre r post, rs = pre ++ r :: post ∧ r.matches username = true ∧
        ∀ r' ∈ pre, r'.matches username = false := by
  cases hfind : rs.find? (·.matches username) with
  | none =>
      refine Or.inl fun r hr => ?_
      simpa using List.find?_eq_none.mp hfind r hr
  | some r =>
      obtain ⟨hr, pre, post, hsplit, hpre⟩ := List.find?_eq_some_iff_append.mp hfind
      exact Or.inr ⟨pre, r, post, hsplit, hr, fun r' hr' => by simpa using hpre r' hr'⟩

theorem TableOk.find_none (h : TableOk users.data rs) {username : Bytes}
    (hno : ∀ r ∈ rs, r.matches username = false) : ∃ n, (findUser users username).1 = .inl n := by
  rw [findUser, readLoop_start (by decide), h.records]
  generalize 0 = offset
  clear h
  induction rs generalizing offset with
  | nil => exact ⟨offset, rfl⟩
  | cons r rs ih =>
      have hr := hno r List.mem_cons_self
      simp only [List.map_cons, scanRecords, UserRecord.decode_encode, hr]
      exact ih (fun r' hr' => hno r' (List.mem_cons_of_mem _ hr')) _

private theorem scan_find {username : Bytes} {pre : List UserRecord} (post : List UserRecord)
    {r : UserRecord}
    (hr : r.matches username = true) (hpre : ∀ r' ∈ pre, r'.matches username = false)
    (offset : Nat) :
    scanRecords (fun (offset : Nat) bs =>
        if (UserRecord.decode bs).matches username then Sum.inr (UserRecord.decode bs, offset)
        else Sum.inl (offset + userRecordSize))
      ((pre ++ r :: post).map UserRecord.encode) offset =
      .inr (r, offset + pre.length * userRecordSize) := by
  induction pre generalizing offset with
  | nil => simp [scanRecords, UserRecord.decode_encode, hr]
  | cons r' pre ih =>
      have hr' := hpre r' List.mem_cons_self
      have hrec := ih (fun r'' h => hpre r'' (List.mem_cons_of_mem _ h)) (offset + userRecordSize)
      have harith : offset + (r' :: pre).length * userRecordSize =
          offset + userRecordSize + pre.length * userRecordSize := by
        rw [List.length_cons, Nat.succ_mul]
        omega
      simp only [List.cons_append, List.map_cons, scanRecords, UserRecord.decode_encode, hr',
        harith]
      exact hrec

theorem TableOk.find_some {username : Bytes} {pre post : List UserRecord} {r : UserRecord}
    (h : TableOk users.data (pre ++ r :: post)) (hr : r.matches username = true)
    (hpre : ∀ r' ∈ pre, r'.matches username = false) :
    (findUser users username).1 = .inr (r, pre.length * userRecordSize) := by
  have hscan := scan_find post hr hpre 0
  rw [Nat.zero_add] at hscan
  rw [findUser, readLoop_start (by decide), h.records]
  exact hscan

theorem TableOk.count_none (h : TableOk users.data rs) {username : Bytes}
    (hno : ∀ r ∈ rs, r.matches username = false) :
    (countUsers users username).1 = .inl rs.length := by
  have hscan : ∀ n, scanRecords (fun (userCount : Nat) bs =>
        if (UserRecord.decode bs).matches username then Sum.inr ()
        else Sum.inl (if (UserRecord.decode bs).isActive ≠ 0 then userCount + 1 else userCount))
      (rs.map UserRecord.encode) n = .inl (n + rs.length) := by
    have hactive := h.active
    clear h
    induction rs with
    | nil => exact fun n => rfl
    | cons r rs ih =>
        intro n
        have hr := hno r List.mem_cons_self
        have hrec := ih (fun r' hr' => hno r' (List.mem_cons_of_mem _ hr'))
          (fun r' hr' => hactive r' (List.mem_cons_of_mem _ hr')) (n + 1)
        have harith : n + 1 + rs.length = n + (r :: rs).length := by
          simp only [List.length_cons]
          omega
        have hra : r.isActive ≠ 0 := hactive r List.mem_cons_self
        simp only [List.map_cons, scanRecords, UserRecord.decode_encode, hr, if_pos hra]
        rw [← harith]
        exact hrec
  rw [countUsers, readLoop_start (by decide), h.records]
  simpa using hscan 0

theorem TableOk.count_some {username : Bytes} (h : TableOk users.data rs) {r : UserRecord}
    (hmem : r ∈ rs) (hr : r.matches username = true) : (countUsers users username).1 = .inr () := by
  rw [countUsers, readLoop_start (by decide), h.records]
  generalize 0 = n
  clear h
  induction rs generalizing n with
  | nil => simp at hmem
  | cons r' rs ih =>
      simp only [List.map_cons, scanRecords, UserRecord.decode_encode]
      by_cases hr' : r'.matches username = true
      · simp [hr']
      · have hmem' : r ∈ rs := by
          rcases List.mem_cons.mp hmem with rfl | hmem
          · exact absurd hr hr'
          · exact hmem
        simp only [hr', Bool.false_eq_true, if_false]
        exact ih hmem' _

/-! ### What a search says of the map -/

theorem TableOk.accounts_none (h : TableOk d rs) {username : Bytes}
    (hno : ∀ r ∈ rs, r.matches username = false) : EchoLink.accounts d username = none := by
  rw [h.accounts, List.find?_eq_none.mpr fun r hr => by simp [hno r hr]]
  rfl

theorem TableOk.accounts_some {username : Bytes} {pre post : List UserRecord} {r : UserRecord}
    (h : TableOk d (pre ++ r :: post)) (hr : r.matches username = true)
    (hpre : ∀ r' ∈ pre, r'.matches username = false) :
    EchoLink.accounts d username = some r.account := by
  have hfind : (pre ++ r :: post).find? (·.matches username) = some r :=
    List.find?_eq_some_iff_append.mpr
      ⟨hr, pre, post, rfl, fun r' hr' => by simp [hpre r' hr']⟩
  rw [h.accounts, hfind]
  rfl

theorem matches_iff {username : Bytes} {r : UserRecord} (hactive : r.isActive ≠ 0) :
    r.matches username = true ↔ r.name = username := by
  simp [UserRecord.matches, UserRecord.name, hactive]

/-! ### The records that are written -/

theorem cstr_fit_strcpy {n : Nat} {s : Bytes} (h : FitsIn n s) (dst : Buf n) :
    cstr (fit n (strcpy dst.val s)).val = s := by
  have hlt : s.length < n := h.1
  have hlen : (strcpy dst.val s).length = n := by
    have hdst : dst.val.length = n := dst.property
    simp only [strcpy, List.length_append, List.length_cons, List.length_drop, hdst]
    omega
  rw [fit_val hlen, cstr_strcpy h.2]

theorem newUser_name {username : Bytes} (h : FitsIn maxUsernameLen username) (n : Nat)
    (password role : Bytes) : (newUser n username password role).name = username :=
  cstr_fit_strcpy h _

theorem newUser_account {role : Bytes} (h : FitsIn maxRoleLen role) (n : Nat)
    (username password : Bytes) :
    (newUser n username password role).account = ⟨sha256Hash password, role⟩ := by
  simp only [UserRecord.account, newUser, Account.mk.injEq, true_and]
  exact cstr_fit_strcpy h _

private theorem cstr_strncpy_set {dst src : Bytes} {n : Nat} (hdst : dst.length = n + 1)
    (hsrc : src.length ≤ n) (h0 : (0 : UInt8) ∉ src) :
    cstr ((strncpy dst src n).set n 0) = src ∧ ((strncpy dst src n).set n 0).length = n + 1 := by
  obtain ⟨last, hlast⟩ := List.length_eq_one_iff.mp (show (dst.drop n).length = 1 by simp [hdst])
  have hfill : (strncpy dst src n).set n 0 = src ++ List.replicate (n - src.length + 1) 0 := by
    have hpre : (src ++ List.replicate (n - src.length) 0).length = n := by
      rw [List.length_append, List.length_replicate]
      omega
    rw [strncpy, List.take_of_length_le hsrc, hlast, List.set_append_right _ _ (by omega), hpre,
      Nat.sub_self, List.set_cons_zero, List.replicate_succ', List.append_assoc]
  refine ⟨?_, ?_⟩
  · rw [hfill, List.replicate_succ]
    exact cstr_append_zero h0 _
  · rw [hfill, List.length_append, List.length_replicate]
    omega

theorem withRole_account {role : Bytes} (h : FitsIn maxRoleLen role) (r : UserRecord) :
    (r.withRole role).account = { r.account with role := role } := by
  have hlt : role.length ≤ maxRoleLen - 1 := Nat.le_pred_of_lt h.1
  obtain ⟨hcstr, hlen⟩ := cstr_strncpy_set (n := maxRoleLen - 1) r.role.property hlt h.2
  simp only [UserRecord.account, UserRecord.withRole, Account.mk.injEq, true_and]
  rw [fit_val (n := maxRoleLen) hlen, hcstr]

@[simp] theorem withRole_name (r : UserRecord) (role : Bytes) : (r.withRole role).name = r.name := rfl

@[simp] theorem withRole_matches (r : UserRecord) (role username : Bytes) :
    (r.withRole role).matches username = r.matches username := rfl

/-! ### One call -/

theorem transfers_lt {completes : Bool} :
    decide (userRecordSize ≤ transfers completes) = completes := by
  cases completes <;> rfl

theorem take_transfers (r : UserRecord) (completes : Bool) :
    r.encode.take (transfers completes) = if completes then r.encode else [] := by
  cases completes with
  | true => exact List.take_of_length_le (Nat.le_of_eq r.encode_length)
  | false => rfl

theorem TableOk.snoc {username : Bytes} (h : TableOk d rs) (password role : Bytes)
    (hname : FitsIn maxUsernameLen username) (hno : ∀ r ∈ rs, r.matches username = false) :
    TableOk (d ++ (newUser rs.length username password role).encode)
      (rs ++ [newUser rs.length username password role]) where
  image := by simp [h.image]
  active := by
    intro r hr
    rcases List.mem_append.mp hr with hr | hr
    · exact h.active r hr
    · rw [List.mem_singleton.mp hr]
      exact (by decide : (1 : Int32) ≠ 0)
  ids := by
    intro i r hr
    by_cases hi : i < rs.length
    · rw [List.getElem?_append_left hi] at hr
      exact h.ids i r hr
    · rw [List.getElem?_append_right (by omega)] at hr
      obtain ⟨hlt, hget⟩ := List.getElem?_eq_some_iff.mp hr
      have hi' : i = rs.length := by simp at hlt; omega
      subst hi'
      rw [← hget]
      simp [newUser]
  names := by
    rw [List.map_append, List.nodup_append]
    refine ⟨h.names, by simp, ?_⟩
    intro n hn n' hn' heq
    obtain ⟨r, hr, rfl⟩ := List.mem_map.mp hn
    have hn'' : n' = username := by
      simpa [newUser_name hname] using hn'
    have hmatch := hno r hr
    rw [(matches_iff (h.active r hr)).mpr (heq.trans hn'')] at hmatch
    cases hmatch
  hashes := by
    intro r hr
    rcases List.mem_append.mp hr with hr | hr
    · exact h.hashes r hr
    · rw [List.mem_singleton.mp hr]
      exact ⟨password, rfl⟩

/-- Replacing one record leaves the others where they were. -/
private theorem getElem?_middle_of_ne {pre post : List UserRecord} (r r' : UserRecord) {i : Nat}
    (hi : i ≠ pre.length) : (pre ++ r :: post)[i]? = (pre ++ r' :: post)[i]? := by
  by_cases hlt : i < pre.length
  · rw [List.getElem?_append_left hlt, List.getElem?_append_left hlt]
  · obtain ⟨k, rfl⟩ : ∃ k, i = pre.length + (k + 1) := ⟨i - pre.length - 1, by omega⟩
    simp [List.getElem?_append_right]

theorem TableOk.setRole {pre post : List UserRecord} {r : UserRecord} (role : Bytes)
    (h : TableOk d (pre ++ r :: post)) :
    TableOk (patch d (pre.length * userRecordSize) (r.withRole role).encode)
      (pre ++ r.withRole role :: post) where
  image := by
    have hlen : pre.length * userRecordSize = (pre.map UserRecord.encode).flatten.length := by
      have := length_flatten_of_lengths (encode_lengths pre)
      rw [this, List.length_map]
    have himage : d = (pre.map UserRecord.encode).flatten ++ r.encode ++
        (post.map UserRecord.encode).flatten := by simp [h.image]
    rw [himage, hlen, patch_middle _ _ (by rw [UserRecord.encode_length, UserRecord.encode_length])]
    simp
  active := by
    intro r' hr'
    have hr : r.isActive ≠ 0 := h.active r (by simp)
    rcases List.mem_append.mp hr' with hr' | hr'
    · exact h.active r' (List.mem_append_left _ hr')
    · rcases List.mem_cons.mp hr' with rfl | hr'
      · exact hr
      · exact h.active r' (List.mem_append_right _ (List.mem_cons_of_mem _ hr'))
  ids := by
    intro i r' hr'
    by_cases hi : i = pre.length
    · subst hi
      have hid := h.ids pre.length r (by simp)
      have : r' = r.withRole role := by simpa using hr'.symm
      rw [this]
      exact hid
    · refine h.ids i r' ?_
      rw [← hr']
      exact getElem?_middle_of_ne _ _ hi
  names := by simpa using h.names
  hashes := by
    intro r' hr'
    rcases List.mem_append.mp hr' with hr' | hr'
    · exact h.hashes r' (List.mem_append_left _ hr')
    · rcases List.mem_cons.mp hr' with rfl | hr'
      · exact h.hashes r (by simp)
      · exact h.hashes r' (List.mem_append_right _ (List.mem_cons_of_mem _ hr'))

/-- What one call does to a table: it keeps its shape, the records that were
there, and everything if it fails, and on the map it is the abstract call. -/
structure CallRefines (users : File) (c : UserCall) : Prop where
  table : ∃ rs, TableOk (runCall users c).2.data rs
  result : (runCall users c).1 = (specCall (EchoLink.accounts users.data) c).1
  map : EchoLink.accounts (runCall users c).2.data = (specCall (EchoLink.accounts users.data) c).2
  keeps : KeepsRecords users.data (runCall users c).2.data c
  failed : (runCall users c).1.failed = true → (runCall users c).2.data = users.data

theorem keepsRecords_of_data_eq {d' : Bytes} (h : d' = d) (c : UserCall) : KeepsRecords d d' c :=
  fun _ _ hr => Or.inl (h ▸ hr)

/-- A call that leaves the file alone and answers as the map does. -/
theorem CallRefines.of_data_eq {c : UserCall} (h : TableOk users.data rs)
    (hdata : (runCall users c).2.data = users.data)
    (hspec : specCall (EchoLink.accounts users.data) c =
      ((runCall users c).1, EchoLink.accounts users.data)) : CallRefines users c where
  table := ⟨rs, hdata ▸ h⟩
  result := by rw [hspec]
  map := by rw [hspec, hdata]
  keeps := keepsRecords_of_data_eq hdata c
  failed := fun _ => hdata

theorem TableOk.authenticate (h : TableOk users.data rs) (username password : Bytes) :
    CallRefines users (.authenticate username password) := by
  refine CallRefines.of_data_eq h (authAuthenticate_data users username password) ?_
  rcases first_match rs username with hno | ⟨pre, r, post, rfl, hr, hpre⟩
  · obtain ⟨n, hfind⟩ := h.find_none hno
    simp only [specCall, h.accounts_none hno, runCall, authAuthenticate, hfind]
  · have hcmp : safeMemcmp (sha256Hash password).val r.passwordHash.val 64 = 0 ↔
        sha256Hash password = r.passwordHash := by
      obtain ⟨p, hp⟩ := h.hashes r (by simp)
      rw [hp]
      exact safeMemcmp_sha256Hash password p
    simp only [specCall, h.accounts_some hr hpre, runCall, authAuthenticate,
      h.find_some hr hpre, UserRecord.account, ne_eq, hcmp, ite_not]
    split <;> rfl

theorem authAddUser_absent {username : Bytes} (h : TableOk users.data rs)
    (hno : ∀ r ∈ rs, r.matches username = false) (password role : Bytes) (completes : Bool) :
    (authAddUser (transfers completes) users username password role).1 = completes ∧
      (authAddUser (transfers completes) users username password role).2.data =
        users.data ++ if completes then (newUser rs.length username password role).encode else [] := by
  simp only [authAddUser, h.count_none hno, transfers_lt, take_transfers, true_and]
  simp only [File.write, File.seekEnd, countUsers_data]
  exact patch_length _ _

theorem accounts_snoc {username role : Bytes} (h : TableOk d rs) (password : Bytes)
    (hname : FitsIn maxUsernameLen username) (hrole : FitsIn maxRoleLen role)
    (hno : ∀ r ∈ rs, r.matches username = false) :
    EchoLink.accounts (d ++ (newUser rs.length username password role).encode) =
      Function.update (EchoLink.accounts d) username (some ⟨sha256Hash password, role⟩) := by
  have hsnoc := h.snoc password role hname hno
  have hmatch : ∀ u, (newUser rs.length username password role).matches u = true ↔ username = u := by
    intro u
    rw [matches_iff (by exact (by decide : (1 : Int32) ≠ 0)), newUser_name hname]
  funext u
  rw [hsnoc.accounts, List.find?_append]
  by_cases hu : u = username
  · subst hu
    have hnone : rs.find? (·.matches u) = none :=
      List.find?_eq_none.mpr fun r hr => by simp [hno r hr]
    rw [hnone, Function.update_self, List.find?_cons_of_pos ((hmatch u).mpr rfl)]
    exact congrArg some (newUser_account hrole _ _ _)
  · have hlast : [newUser rs.length username password role].find? (·.matches u) = none := by
      rw [List.find?_cons_of_neg fun hm => hu ((hmatch u).mp hm).symm, List.find?_nil]
    rw [Function.update_of_ne hu, hlast, Option.or_none, h.accounts]

theorem TableOk.add (h : TableOk users.data rs) {username password role : Bytes}
    (hname : FitsIn maxUsernameLen username) (hrole : FitsIn maxRoleLen role) (completes : Bool) :
    CallRefines users (.add username password role completes) := by
  rcases first_match rs username with hno | ⟨pre, r, post, rfl, hr, hpre⟩
  · obtain ⟨hret, hdata⟩ := authAddUser_absent h hno password role completes
    cases completes with
    | false =>
        rw [if_neg (by decide), List.append_nil] at hdata
        refine CallRefines.of_data_eq h hdata ?_
        simp [specCall, runCall, hret]
    | true =>
        rw [if_pos rfl] at hdata
        have hsnoc := h.snoc password role hname hno
        refine ⟨⟨rs ++ [newUser rs.length username password role], ?_⟩, ?_, ?_, ?_, ?_⟩
        · simp only [runCall, hdata]
          exact hsnoc
        · simp [runCall, hret, specCall, h.accounts_none hno]
        · simp only [runCall, hdata, specCall, h.accounts_none hno, and_self, if_true]
          exact accounts_snoc h password hname hrole hno
        · intro i r hr
          simp only [runCall, hdata]
          rw [h.userAt] at hr
          rw [hsnoc.userAt, List.getElem?_append_left (List.getElem?_eq_some_iff.mp hr).1]
          exact Or.inl hr
        · simp [runCall, hret, UserResult.failed]
  · have hcount := h.count_some (r := r) (by simp) hr
    have hadd : authAddUser (transfers completes) users username password role =
        (false, (countUsers users username).2) := by
      simp only [authAddUser, hcount]
    refine CallRefines.of_data_eq h ?_ ?_
    · simp only [runCall, hadd, countUsers_data]
    · simp [specCall, h.accounts_some hr hpre, runCall, hadd]

theorem accounts_setRole {username role : Bytes} {pre post : List UserRecord} {r : UserRecord}
    (h : TableOk d (pre ++ r :: post)) (hr : r.matches username = true)
    (hpre : ∀ r' ∈ pre, r'.matches username = false) (hrole : FitsIn maxRoleLen role) :
    EchoLink.accounts (patch d (pre.length * userRecordSize) (r.withRole role).encode) =
      Function.update (EchoLink.accounts d) username (some { r.account with role := role }) := by
  have hset := h.setRole role
  have hname : r.name = username := (matches_iff (h.active r (by simp))).mp hr
  funext u
  by_cases hu : u = username
  · subst hu
    have hr' : (r.withRole role).matches u = true := by rwa [withRole_matches]
    rw [hset.accounts_some hr' hpre, Function.update_self, withRole_account hrole]
  · have hother : r.matches u ≠ true := by
      intro hm
      exact hu (((matches_iff (h.active r (by simp))).mp hm).symm.trans hname)
    rw [Function.update_of_ne hu, hset.accounts, h.accounts, List.find?_append, List.find?_append,
      List.find?_cons_of_neg (by rwa [withRole_matches]), List.find?_cons_of_neg hother]

theorem TableOk.promote (h : TableOk users.data rs) {username role : Bytes}
    (hrole : FitsIn maxRoleLen role) (completes : Bool) :
    CallRefines users (.promote username role completes) := by
  rcases first_match rs username with hno | ⟨pre, r, post, rfl, hr, hpre⟩
  · obtain ⟨n, hfind⟩ := h.find_none hno
    have hprom : authPromoteUser (transfers completes) users username role =
        (false, (findUser users username).2) := by
      simp only [authPromoteUser, hfind]
    refine CallRefines.of_data_eq h ?_ ?_
    · simp only [runCall, hprom, findUser_data]
    · simp [specCall, h.accounts_none hno, runCall, hprom]
  · have hfind := h.find_some hr hpre
    have hret : (authPromoteUser (transfers completes) users username role).1 = completes := by
      simp only [authPromoteUser, hfind, transfers_lt]
    have hdata : (authPromoteUser (transfers completes) users username role).2.data =
        patch users.data (pre.length * userRecordSize)
          (if completes then (r.withRole role).encode else []) := by
      simp only [authPromoteUser, hfind, take_transfers, seek_write_data, findUser_data]
    cases completes with
    | false =>
        rw [if_neg (by decide), patch_nil] at hdata
        refine CallRefines.of_data_eq h hdata ?_
        simp [specCall, runCall, hret, h.accounts_some hr hpre]
    | true =>
        rw [if_pos rfl] at hdata
        have hset := h.setRole role
        have hname : r.name = username := (matches_iff (h.active r (by simp))).mp hr
        refine ⟨⟨pre ++ r.withRole role :: post, ?_⟩, ?_, ?_, ?_, ?_⟩
        · simp only [runCall, hdata]
          exact hset
        · simp [runCall, hret, specCall, h.accounts_some hr hpre]
        · simp only [runCall, hdata, specCall, h.accounts_some hr hpre, if_true]
          exact accounts_setRole h hr hpre hrole
        · intro i r' hr'
          simp only [runCall, hdata]
          rw [h.userAt] at hr'
          rw [hset.userAt]
          by_cases hi : i = pre.length
          · subst hi
            have hrr : r = r' := by simpa using hr'
            subst hrr
            refine Or.inr ⟨role, true, (r.withRole role).role, by rw [hname], ?_⟩
            simp [UserRecord.withRole]
          · refine Or.inl ?_
            rw [← hr']
            exact getElem?_middle_of_ne _ _ hi
        · simp [runCall, hret, UserResult.failed]

theorem TableOk.call (h : TableOk users.data rs) {c : UserCall} (hc : c.Delivered) :
    CallRefines users c := by
  cases c with
  | add username password role completes => exact h.add hc.1 hc.2.2 completes
  | promote username role completes => exact h.promote hc.2 completes
  | authenticate username password => exact h.authenticate username password

/-! ### Runs -/

/-- The table `auth_init` creates, and the map it stands for. -/
def startTable : File := authInit none userRecordSize

def startAccounts : Accounts :=
  Function.update (fun _ => none) (ascii "admin") (some ⟨sha256Hash (ascii "admin123"), ascii "ADMIN"⟩)

theorem emptyTable_ok : TableOk [] [] where
  image := rfl
  active := by simp
  ids := by simp
  names := by simp
  hashes := by simp

private theorem adminName_fits : FitsIn maxUsernameLen (ascii "admin") := ⟨by decide, by decide⟩

private theorem startTable_data : startTable.data = [] ++ adminRecord.encode := by
  have htake : adminRecord.encode.take userRecordSize = adminRecord.encode :=
    List.take_of_length_le (Nat.le_of_eq adminRecord.encode_length)
  simp only [startTable, authInit, File.write, htake]
  exact patch_length [] _

theorem startTable_ok : TableOk startTable.data [adminRecord] := by
  rw [startTable_data]
  exact emptyTable_ok.snoc _ _ adminName_fits (by simp)

theorem startTable_accounts : EchoLink.accounts startTable.data = startAccounts := by
  have hempty : EchoLink.accounts [] = fun _ => none := by
    funext u
    rw [emptyTable_ok.accounts]
    rfl
  have hrole : FitsIn maxRoleLen (ascii "ADMIN") := ⟨by decide, by decide⟩
  have hsnoc := accounts_snoc emptyTable_ok (ascii "admin123") adminName_fits hrole
    (by simp)
  rw [hempty] at hsnoc
  rw [startTable_data, adminRecord, startAccounts]
  exact hsnoc

/-- A run of calls on a table is the same run on its map. -/
theorem TableOk.run {calls : List UserCall} (h : TableOk users.data rs)
    (hc : ∀ c ∈ calls, c.Delivered) :
    (runCalls runCall users calls).1 =
        (runCalls specCall (EchoLink.accounts users.data) calls).1 ∧
      EchoLink.accounts (runCalls runCall users calls).2.data =
        (runCalls specCall (EchoLink.accounts users.data) calls).2 ∧
      ∃ rs', TableOk (runCalls runCall users calls).2.data rs' := by
  induction calls generalizing users rs with
  | nil => exact ⟨rfl, rfl, rs, h⟩
  | cons c cs ih =>
      have hcall := h.call (hc c List.mem_cons_self)
      obtain ⟨rs', hrs'⟩ := hcall.table
      obtain ⟨hresults, hmap, htable⟩ := ih hrs' fun c' hc' => hc c' (List.mem_cons_of_mem _ hc')
      rw [hcall.map] at hresults hmap
      refine ⟨?_, hmap, htable⟩
      simp only [runCalls, hcall.result, hresults]

/-- **The user table refines a finite map.**  Over any run of calls from the
table `auth_init` creates, the calls return what they return on the map, and
the table reached is well formed, stands for the map reached, keeps its
records across any further call, and is left alone by a further call that
fails. -/
theorem userTable_refines_map (calls : List UserCall) (h : ∀ c ∈ calls, c.Delivered) :
    (runCalls runCall startTable calls).1 = (runCalls specCall startAccounts calls).1 ∧
    accounts (runCalls runCall startTable calls).2.data =
      (runCalls specCall startAccounts calls).2 ∧
    WellFormed (runCalls runCall startTable calls).2.data ∧
    ∀ c, c.Delivered →
      KeepsRecords (runCalls runCall startTable calls).2.data
        (runCall (runCalls runCall startTable calls).2 c).2.data c ∧
      ((runCall (runCalls runCall startTable calls).2 c).1.failed = true →
        (runCall (runCalls runCall startTable calls).2 c).2.data =
          (runCalls runCall startTable calls).2.data) := by
  obtain ⟨hresults, hmap, rs, hrs⟩ := startTable_ok.run h
  rw [startTable_accounts] at hresults hmap
  refine ⟨hresults, hmap, hrs.wellFormed, fun c hc => ?_⟩
  have hcall := hrs.call hc
  exact ⟨hcall.keeps, hcall.failed⟩

/-- A user registers, is made a moderator and logs in. -/
theorem userTable_alice_promoted :
    (runCalls runCall startTable
      [.add (ascii "alice") (ascii "secret") (ascii "USER") true,
        .promote (ascii "alice") (ascii "MODERATOR") true,
        .authenticate (ascii "alice") (ascii "secret")]).1 =
      [.returned true, .returned true, .authenticated (some .moderator)] := by
  have hdelivered : ∀ c ∈ [UserCall.add (ascii "alice") (ascii "secret") (ascii "USER") true,
      .promote (ascii "alice") (ascii "MODERATOR") true,
      .authenticate (ascii "alice") (ascii "secret")], c.Delivered := by
    simp only [List.mem_cons, List.not_mem_nil, or_false, forall_eq_or_imp, forall_eq,
      UserCall.Delivered, FitsIn]
    decide
  rw [(userTable_refines_map _ hdelivered).1]
  decide

end EchoLink
