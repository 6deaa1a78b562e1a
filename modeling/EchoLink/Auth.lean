import EchoLink.Protocol

/-!
# User accounts

`auth.c`: the table `users.bin`, a file of `user_record`s that is only ever
scanned from its start, appended to and overwritten in place, together with
the hash and the comparison of `utils.c`.

A string argument is the C string without its NUL.  How many bytes a record
write transfers is the argument `wrote`, as in the room database.
-/

namespace EchoLink

open CText RecordFile

/-! ### Hashes -/

/-- A hexadecimal digit of `"%02x"`. -/
def hexDigit (n : UInt8) : UInt8 := if n < 10 then 48 + n else 87 + n

def hexByte (b : UInt8) : Bytes := [hexDigit (b / 16), hexDigit (b % 16)]

/-- The first loop of `sha256_hash`, over `input[i..]`. -/
def hashLoop : Nat → Bytes → Bytes → Bytes
  | _, [], hash => hash
  | i, b :: rest, hash =>
      hashLoop (i + 1) rest ((hash.modify (i % 32) (· ^^^ b)).modify ((i + 1) % 32) (· + b))

theorem hashLoop_length (i : Nat) (input hash : Bytes) :
    (hashLoop i input hash).length = hash.length := by
  induction input generalizing i hash with
  | nil => rfl
  | cons b rest ih => simp [hashLoop, ih]

/-- `sha256_hash`: 64 digits and a NUL. -/
def sha256Hash (input : Bytes) : Buf 65 :=
  ⟨(hashLoop 0 input (List.replicate 32 0)).flatMap hexByte ++ [0], by
    simp [List.length_flatMap, hexByte, hashLoop_length]⟩

/-- `safe_memcmp`, 0 when the blocks agree. -/
def safeMemcmp (a b : Bytes) (size : Nat) : UInt8 :=
  ((a.take size).zip (b.take size)).foldl (fun result p => result ||| (p.1 ^^^ p.2)) 0

private theorem or_eq_zero {x y : UInt8} : x ||| y = 0 ↔ x = 0 ∧ y = 0 := by
  simp only [← UInt8.toBitVec_inj, UInt8.toBitVec_or, UInt8.toBitVec_ofNat]
  exact BitVec.or_eq_zero_iff

private theorem xor_eq_zero {x y : UInt8} : x ^^^ y = 0 ↔ x = y := by
  simp only [← UInt8.toBitVec_inj, UInt8.toBitVec_xor, UInt8.toBitVec_ofNat]
  exact BitVec.xor_eq_zero_iff

private theorem foldl_differences {a b : Bytes} (h : a.length = b.length) (acc : UInt8) :
    (a.zip b).foldl (fun result p => result ||| (p.1 ^^^ p.2)) acc = 0 ↔ acc = 0 ∧ a = b := by
  induction a generalizing b acc with
  | nil =>
      have hb : b = [] := List.eq_nil_of_length_eq_zero h.symm
      simp [hb]
  | cons x a ih =>
      obtain ⟨y, b, rfl⟩ := List.exists_cons_of_length_pos (l := b) (by simp at h; omega)
      have hlen : a.length = b.length := by simpa using h
      simp only [List.zip_cons_cons, List.foldl_cons, ih hlen, or_eq_zero, xor_eq_zero,
        List.cons.injEq, and_assoc]

/-- **`safe_memcmp` compares**: 0 exactly when the blocks agree. -/
theorem safeMemcmp_eq_zero_iff {a b : Bytes} {size : Nat} (ha : size ≤ a.length)
    (hb : size ≤ b.length) : safeMemcmp a b size = 0 ↔ a.take size = b.take size := by
  have hlen : (a.take size).length = (b.take size).length := by simp [ha, hb]
  simp [safeMemcmp, foldl_differences hlen]

/-- Two hashes that agree in their digits are equal. -/
theorem safeMemcmp_sha256Hash (p q : Bytes) :
    safeMemcmp (sha256Hash p).val (sha256Hash q).val 64 = 0 ↔ sha256Hash p = sha256Hash q := by
  have hdigits : ∀ s, (sha256Hash s).val = (sha256Hash s).val.take 64 ++ [0] := by
    intro s
    have hlen : ((hashLoop 0 s (List.replicate 32 0)).flatMap hexByte).length = 64 := by
      simp [List.length_flatMap, hexByte, hashLoop_length]
    simp only [sha256Hash]
    rw [← hlen, List.take_left]
  have hp : (sha256Hash p).val.length = 65 := (sha256Hash p).property
  have hq : (sha256Hash q).val.length = 65 := (sha256Hash q).property
  rw [safeMemcmp_eq_zero_iff (by omega) (by omega)]
  constructor
  · intro h
    apply Subtype.ext
    rw [hdigits p, hdigits q, h]
  · intro h
    rw [h]

/-! ### Records -/

/-- The role a role string stands for; anything unrecognised is a user. -/
def roleOfName (name : Bytes) : Role :=
  if name = ascii "ADMIN" then .admin
  else if name = ascii "MODERATOR" then .moderator
  else .user

/-- The zeroed record that `auth_add_user` and `auth_init` fill. -/
def newUser (userCount : Nat) (username password role : Bytes) : UserRecord :=
  { UserRecord.zero with
    userId := Int32.ofNat userCount
    isActive := 1
    username := fit _ (strcpy UserRecord.zero.username.val username)
    role := fit _ (strcpy UserRecord.zero.role.val role)
    passwordHash := sha256Hash password }

def adminRecord : UserRecord := newUser 0 (ascii "admin") (ascii "admin123") (ascii "ADMIN")

/-- `auth_init`: the table that exists, or a new one with the default admin. -/
def authInit (existing : Option Bytes) (wrote : Nat) : File :=
  match existing with
  | some d => { data := d, pos := 0 }
  | none => File.write { data := [], pos := 0 } (adminRecord.encode.take wrote)

/-! ### The operations -/

/-- `rec.is_active && strcmp(rec.username, username) == 0`. -/
def UserRecord.matches (username : Bytes) (r : UserRecord) : Bool :=
  r.isActive ≠ 0 && cstr r.username.val = username

/-- The search of `auth_authenticate` and `auth_promote_user`: the record and
its offset. -/
def findUser (users : File) (username : Bytes) : (Nat ⊕ (UserRecord × Nat)) × File :=
  readLoop userRecordSize
    (fun (offset : Nat) bs =>
      if (UserRecord.decode bs).matches username then Sum.inr (UserRecord.decode bs, offset)
      else Sum.inl (offset + userRecordSize))
    (users.data.length + 1) (users.seek 0) 0

/-- The search of `auth_add_user`: the number of active records, unless the
name is taken. -/
def countUsers (users : File) (username : Bytes) : (Nat ⊕ Unit) × File :=
  readLoop userRecordSize
    (fun (userCount : Nat) bs =>
      if (UserRecord.decode bs).matches username then Sum.inr ()
      else Sum.inl (if (UserRecord.decode bs).isActive ≠ 0 then userCount + 1 else userCount))
    (users.data.length + 1) (users.seek 0) 0

/-- `auth_authenticate`, with `*role_out` when it returns 1. -/
def authAuthenticate (users : File) (username password : Bytes) : Option Role × File :=
  let r := findUser users username
  match r.1 with
  | .inl _ => (none, r.2)
  | .inr (rec', _) =>
      if safeMemcmp (sha256Hash password).val rec'.passwordHash.val 64 ≠ 0 then (none, r.2)
      else (some (roleOfName (cstr rec'.role.val)), r.2)

/-- `auth_add_user`. -/
def authAddUser (wrote : Nat) (users : File) (username password role : Bytes) : Bool × File :=
  let r := countUsers users username
  match r.1 with
  | .inr _ => (false, r.2)
  | .inl userCount =>
      (decide (userRecordSize ≤ wrote),
        r.2.seekEnd.write ((newUser userCount username password role).encode.take wrote))

/-- The record with a new role: `strncpy` and a NUL in the last byte. -/
def UserRecord.withRole (r : UserRecord) (newRole : Bytes) : UserRecord :=
  { r with role := fit _ ((strncpy r.role.val newRole (maxRoleLen - 1)).set (maxRoleLen - 1) 0) }

/-- `auth_promote_user`. -/
def authPromoteUser (wrote : Nat) (users : File) (username newRole : Bytes) : Bool × File :=
  let r := findUser users username
  match r.1 with
  | .inl _ => (false, r.2)
  | .inr (rec', offset) =>
      (decide (userRecordSize ≤ wrote),
        (r.2.seek (offset : Int)).write ((rec'.withRole newRole).encode.take wrote))

/-- `auth_check_permission`. -/
def authCheckPermission (role : Role) (command : Command) : Bool :=
  match command with
  | .login | .logout | .join | .leave | .list | .status => true
  | .promote => role = .admin
  | .create | .kick | .mute => role = .admin || role = .moderator

/-! ### What the operations do to the file -/

@[simp] theorem findUser_data (users : File) (username : Bytes) :
    (findUser users username).2.data = users.data := by
  rw [findUser, readLoop_data, seek_data]

@[simp] theorem countUsers_data (users : File) (username : Bytes) :
    (countUsers users username).2.data = users.data := by
  rw [countUsers, readLoop_data, seek_data]

@[simp] theorem authAuthenticate_data (users : File) (username password : Bytes) :
    (authAuthenticate users username password).2.data = users.data := by
  simp only [authAuthenticate]
  split
  · exact findUser_data users username
  · split <;> exact findUser_data users username

/-- Whatever `auth_add_user` writes, it writes at the end. -/
theorem authAddUser_data (wrote : Nat) (users : File) (username password role : Bytes) :
    (authAddUser wrote users username password role).2.data = users.data ∨
      ∃ n, (authAddUser wrote users username password role).2.data =
        users.data ++ (newUser n username password role).encode.take wrote := by
  simp only [authAddUser]
  split
  · exact Or.inl (countUsers_data users username)
  · rename_i n _
    refine Or.inr ⟨n, ?_⟩
    simp only [File.write, File.seekEnd, countUsers_data]
    exact patch_length _ _

end EchoLink
