import EchoLink.RecordFile

/-!
# Constants and on-disk records

The limits, roles and status codes of `protocol.h` and the two records the
server keeps on disk.  A record is stored as its memory image, so a `char`
array is all of its bytes, those after the NUL included: `room_create` fills
an uninitialised `room_record` with `strcpy`, and what follows the NUL is
whatever the stack held.  What the program reads out of a record is its
`view`, with the arrays cut at their NULs.

A `room_record` takes 108 bytes and a `user_record` 124, three of them padding
in front of `is_active`; `decode` reads back what `encode` lays out, and every
block of 108 bytes is the image of a `room_record`.
-/

namespace EchoLink

open CText RecordFile

/-! ### Limits -/

def maxClients : Nat := 50
def maxRooms : Nat := 32
def maxUsernameLen : Nat := 32
def maxPasswordLen : Nat := 64
def maxRoleLen : Nat := 16
def maxRoomNameLen : Nat := 32
def maxPacketSize : Nat := 4096
def audioPayloadSize : Nat := 2048
def jitterBufferSize : Nat := 20
def ringBufferCapacity : Nat := 128

/-- `ROLE_ADMIN`, `ROLE_MODERATOR`, `ROLE_USER` and `ROLE_GUEST`. -/
inductive Role where
  | admin
  | moderator
  | user
  | guest
  deriving DecidableEq, Repr

/-- The number of a role in `protocol.h`. -/
def Role.code : Role → Nat
  | .admin => 1
  | .moderator => 2
  | .user => 3
  | .guest => 4

/-- The command opcodes. -/
inductive Command where
  | login
  | logout
  | create
  | join
  | leave
  | list
  | kick
  | mute
  | status
  | promote
  deriving DecidableEq, Repr

/-! ### Status codes -/

def statusOk : Nat := 200
def statusErrAuth : Nat := 401
def statusErrForbidden : Nat := 403
def statusErrNotFound : Nat := 404
def statusErrConflict : Nat := 409
def statusErrInternal : Nat := 500
def statusErrFull : Nat := 507

/-! ### Memory images -/

/-- The image of an `int32_t`, little-endian. -/
def le32 (x : Int32) : Bytes :=
  let n := x.toUInt32.toNat
  [n.toUInt8, (n / 256).toUInt8, (n / 65536).toUInt8, (n / 16777216).toUInt8]

/-- The `int32_t` with a given image. -/
def ofLe32 (bs : Bytes) : Int32 :=
  ((bs.getD 0 0).toNat + 256 * (bs.getD 1 0).toNat + 65536 * (bs.getD 2 0).toNat
    + 16777216 * (bs.getD 3 0).toNat).toUInt32.toInt32

@[simp] theorem le32_length (x : Int32) : (le32 x).length = 4 := rfl

theorem ofLe32_le32 (x : Int32) : ofLe32 (le32 x) = x := by
  have hlt := x.toUInt32.toNat_lt
  have hsum : (x.toUInt32.toNat % 256 + 256 * (x.toUInt32.toNat / 256 % 256)
      + 65536 * (x.toUInt32.toNat / 65536 % 256)
      + 16777216 * (x.toUInt32.toNat / 16777216 % 256)) = x.toUInt32.toNat := by omega
  simp [ofLe32, le32, hsum]

theorem le32_ofLe32 {bs : Bytes} (h : bs.length = 4) : le32 (ofLe32 bs) = bs := by
  match bs, h with
  | [b0, b1, b2, b3], _ =>
    have h0 := b0.toNat_lt
    have h1 := b1.toNat_lt
    have h2 := b2.toNat_lt
    have h3 := b3.toNat_lt
    simp only [le32, ofLe32, List.getD_cons_zero, List.getD_cons_succ, UInt32.toUInt32_toInt32,
      Nat.toUInt32, Nat.toUInt8, UInt32.toNat_ofNat']
    simp only [List.cons.injEq, and_true, ← UInt8.toNat_inj, UInt8.toNat_ofNat']
    refine ⟨?_, ?_, ?_, ?_⟩ <;> omega

/-- The bytes of one field of a memory image. -/
theorem take_drop_field {pre x : Bytes} {k n : Nat} (post : Bytes)
    (hk : pre.length = k) (hx : x.length = n) : ((pre ++ (x ++ post)).drop k).take n = x := by
  subst hk hx
  simp

/-- A `char` array of `n` bytes. -/
abbrev Buf (n : Nat) := { bs : Bytes // bs.length = n }

/-- The first `n` bytes of a block, zeros after its end. -/
def fit (n : Nat) (bs : Bytes) : Buf n :=
  ⟨bs.take n ++ List.replicate (n - bs.length) 0, by simp; omega⟩

theorem fit_val {n : Nat} {bs : Bytes} (h : bs.length = n) : (fit n bs).val = bs := by
  simp [fit, ← h]

theorem fit_eq {n : Nat} (b : Buf n) : fit n b.val = b := Subtype.ext (fit_val b.property)

/-! ### `room_record` -/

/-- `room_record`, saved to disk. -/
structure RoomRecord where
  roomId : Int32
  roomName : Buf maxRoomNameLen
  password : Buf maxPasswordLen
  isActive : Int32
  userCount : Int32
  deriving DecidableEq

/-- `sizeof(room_record)`. -/
def roomRecordSize : Nat := 108

def RoomRecord.encode (r : RoomRecord) : Bytes :=
  le32 r.roomId ++ r.roomName.val ++ r.password.val ++ le32 r.isActive ++ le32 r.userCount

def RoomRecord.decode (bs : Bytes) : RoomRecord where
  roomId := ofLe32 (bs.take 4)
  roomName := fit _ ((bs.drop 4).take 32)
  password := fit _ ((bs.drop 36).take 64)
  isActive := ofLe32 ((bs.drop 100).take 4)
  userCount := ofLe32 ((bs.drop 104).take 4)

/-- What the program reads out of a `room_record`: its numbers and the C
strings in its arrays. -/
structure RoomView where
  roomId : Int32
  roomName : Bytes
  password : Bytes
  isActive : Int32
  userCount : Int32
  deriving DecidableEq, Repr

def RoomRecord.view (r : RoomRecord) : RoomView where
  roomId := r.roomId
  roomName := cstr r.roomName.val
  password := cstr r.password.val
  isActive := r.isActive
  userCount := r.userCount

/-- `memset(&rec, 0, sizeof(rec))`. -/
def RoomRecord.zero : RoomRecord where
  roomId := 0
  roomName := fit _ []
  password := fit _ []
  isActive := 0
  userCount := 0

theorem RoomRecord.encode_length (r : RoomRecord) : r.encode.length = roomRecordSize := by
  have hn : r.roomName.val.length = 32 := r.roomName.property
  have hp : r.password.val.length = 64 := r.password.property
  simp [encode, hn, hp, roomRecordSize]

theorem RoomRecord.decode_encode (r : RoomRecord) : decode r.encode = r := by
  obtain ⟨rid, ⟨name, hname⟩, ⟨pass, hpass⟩, act, cnt⟩ := r
  have hn : name.length = 32 := hname
  have hp : pass.length = 64 := hpass
  have hfield (pre x post : Bytes) (k n : Nat) (hk : pre.length = k) (hx : x.length = n)
      (h : le32 rid ++ name ++ pass ++ le32 act ++ le32 cnt = pre ++ (x ++ post)) :
      ((le32 rid ++ name ++ pass ++ le32 act ++ le32 cnt).drop k).take n = x := by
    rw [h, take_drop_field post hk hx]
  have h0 := hfield [] (le32 rid) _ 0 4 rfl rfl (by simp only [List.append_assoc]; rfl)
  have h1 := hfield (le32 rid) name (pass ++ (le32 act ++ le32 cnt)) 4 32 rfl hn
    (by simp only [List.append_assoc])
  have h2 := hfield (le32 rid ++ name) pass (le32 act ++ le32 cnt) 36 64 (by simp [hn]) hp
    (by simp only [List.append_assoc])
  have h3 := hfield (le32 rid ++ name ++ pass) (le32 act) (le32 cnt) 100 4 (by simp [hn, hp]) rfl
    (by simp only [List.append_assoc])
  have h4 := hfield (le32 rid ++ name ++ pass ++ le32 act) (le32 cnt) [] 104 4
    (by simp [hn, hp]) rfl (by simp only [List.append_assoc, List.append_nil])
  rw [List.drop_zero] at h0
  simp only [decode, encode, h0, h1, h2, h3, h4, ofLe32_le32, RoomRecord.mk.injEq, and_true,
    true_and]
  exact ⟨fit_eq ⟨name, hname⟩, fit_eq ⟨pass, hpass⟩⟩

/-- Every block of 108 bytes is the image of the record it decodes to. -/
theorem RoomRecord.encode_decode {bs : Bytes} (h : bs.length = roomRecordSize) :
    (decode bs).encode = bs := by
  have hlen : bs.length = 108 := h
  have h0 : (bs.take 4).length = 4 := by simp [hlen]
  have h1 : ((bs.drop 4).take 32).length = 32 := by simp [hlen]
  have h2 : ((bs.drop 36).take 64).length = 64 := by simp [hlen]
  have h3 : ((bs.drop 100).take 4).length = 4 := by simp [hlen]
  have h4 : ((bs.drop 104).take 4).length = 4 := by simp [hlen]
  simp only [encode, decode, le32_ofLe32 h0, le32_ofLe32 h3, le32_ofLe32 h4,
    fit_val (n := maxRoomNameLen) h1, fit_val (n := maxPasswordLen) h2]
  have hsplit (k n : Nat) : bs.drop k = (bs.drop k).take n ++ bs.drop (k + n) := by
    rw [← List.drop_drop, List.take_append_drop]
  have h5 : (bs.drop 104).take 4 = bs.drop 104 := List.take_of_length_le (by simp [hlen])
  calc bs.take 4 ++ (bs.drop 4).take 32 ++ (bs.drop 36).take 64 ++ (bs.drop 100).take 4
        ++ (bs.drop 104).take 4
      = bs.take 4 ++ ((bs.drop 4).take 32 ++ ((bs.drop 36).take 64
        ++ ((bs.drop 100).take 4 ++ bs.drop 104))) := by rw [h5]; simp only [List.append_assoc]
    _ = bs := by
      rw [← hsplit 100 4, ← hsplit 36 64, ← hsplit 4 32, List.take_append_drop]

/-! ### `user_record` -/

/-- `user_record`, saved to disk.  The compiler pads it in front of `is_active`. -/
structure UserRecord where
  userId : Int32
  username : Buf maxUsernameLen
  role : Buf maxRoleLen
  passwordHash : Buf 65
  padding : Buf 3
  isActive : Int32
  deriving DecidableEq

/-- `sizeof(user_record)`. -/
def userRecordSize : Nat := 124

def UserRecord.encode (r : UserRecord) : Bytes :=
  le32 r.userId ++ r.username.val ++ r.role.val ++ r.passwordHash.val ++ r.padding.val
    ++ le32 r.isActive

def UserRecord.decode (bs : Bytes) : UserRecord where
  userId := ofLe32 (bs.take 4)
  username := fit _ ((bs.drop 4).take 32)
  role := fit _ ((bs.drop 36).take 16)
  passwordHash := fit _ ((bs.drop 52).take 65)
  padding := fit _ ((bs.drop 117).take 3)
  isActive := ofLe32 ((bs.drop 120).take 4)

/-- `memset(&rec, 0, sizeof(rec))`. -/
def UserRecord.zero : UserRecord where
  userId := 0
  username := fit _ []
  role := fit _ []
  passwordHash := fit _ []
  padding := fit _ []
  isActive := 0

theorem UserRecord.encode_length (r : UserRecord) : r.encode.length = userRecordSize := by
  have hu : r.username.val.length = 32 := r.username.property
  have hr : r.role.val.length = 16 := r.role.property
  have hh : r.passwordHash.val.length = 65 := r.passwordHash.property
  have hp : r.padding.val.length = 3 := r.padding.property
  simp [encode, hu, hr, hh, hp, userRecordSize]

theorem UserRecord.decode_encode (r : UserRecord) : decode r.encode = r := by
  obtain ⟨uid, ⟨name, hname⟩, ⟨role, hrole⟩, ⟨hash, hhash⟩, ⟨pad, hpad⟩, act⟩ := r
  have hn : name.length = 32 := hname
  have hr : role.length = 16 := hrole
  have hfield (pre x post : Bytes) (k n : Nat) (hk : pre.length = k) (hx : x.length = n)
      (h : le32 uid ++ name ++ role ++ hash ++ pad ++ le32 act = pre ++ (x ++ post)) :
      ((le32 uid ++ name ++ role ++ hash ++ pad ++ le32 act).drop k).take n = x := by
    rw [h, take_drop_field post hk hx]
  have h0 := hfield [] (le32 uid) _ 0 4 rfl rfl (by simp only [List.append_assoc]; rfl)
  have h1 := hfield (le32 uid) name (role ++ (hash ++ (pad ++ le32 act))) 4 32 rfl hn
    (by simp only [List.append_assoc])
  have h2 := hfield (le32 uid ++ name) role (hash ++ (pad ++ le32 act)) 36 16 (by simp [hn]) hr
    (by simp only [List.append_assoc])
  have h3 := hfield (le32 uid ++ name ++ role) hash (pad ++ le32 act) 52 65 (by simp [hn, hr])
    hhash (by simp only [List.append_assoc])
  have h4 := hfield (le32 uid ++ name ++ role ++ hash) pad (le32 act) 117 3
    (by simp [hn, hr, hhash]) hpad (by simp only [List.append_assoc])
  have h5 := hfield (le32 uid ++ name ++ role ++ hash ++ pad) (le32 act) [] 120 4
    (by simp [hn, hr, hhash, hpad]) rfl (by simp only [List.append_assoc, List.append_nil])
  rw [List.drop_zero] at h0
  simp only [decode, encode, h0, h1, h2, h3, h4, h5, ofLe32_le32, UserRecord.mk.injEq, and_true,
    true_and]
  exact ⟨fit_eq ⟨name, hname⟩, fit_eq ⟨role, hrole⟩, fit_eq ⟨hash, hhash⟩, fit_eq ⟨pad, hpad⟩⟩

end EchoLink
