import EchoLink.CleanLog
import EchoLink.CutText

/-!
# A log that ends in the middle of a line

The last call of `db_write_room` was writing its `BEGIN`, `OLD` and `NEW` lines when
the server stopped, and only the first bytes of them survive.  The record file has
not been touched by the call, so recovery should leave it alone.

Recovery takes any line that starts with `OLD` for an old record and does not ask
how many of its fields `sscanf` has found.  The ones behind the cut are 0 in the
record it writes, and so a room can be restored as inactive.  `torn_log_iff` says
for which cuts recovery changes nothing.
-/

namespace EchoLink

open CText RecordFile UndoLog

/-! ### The text of an `OLD` line -/

def idText (r : RoomRecord) : Bytes := ascii "OLD" ++ 32 :: decimalInt r.roomId.toInt
def nameText (r : RoomRecord) : Bytes := idText r ++ 32 :: cstr r.roomName.val
/-- The line up to the password. -/
def passwordText (r : RoomRecord) : Bytes := nameText r ++ 32 :: cstr r.password.val
/-- The line up to `is_active`. -/
def activeText (r : RoomRecord) : Bytes := passwordText r ++ 32 :: decimalInt r.isActive.toInt

variable {r : RoomRecord}

theorem oldLine_texts (r : RoomRecord) :
    oldLine (some r) = activeText r ++ 32 :: decimalInt r.userCount.toInt := by
  simp [oldLine, recordText, activeText, passwordText, nameText, idText]

/-- The format of `wal_restore_old`. -/
def oldFormat : List Directive :=
  literal (ascii "OLD") ++ [.ws, .d, .ws, .s 31, .ws, .s 63, .ws, .d, .ws, .d]

/-- The record with the fields that were found. -/
def recordOf (fs : List Field) : RoomRecord where
  roomId := Int32.ofInt ((intField fs 0).getD 0)
  roomName := fit _ (strField fs 1)
  password := fit _ (strField fs 2)
  isActive := Int32.ofInt ((intField fs 3).getD 0)
  userCount := Int32.ofInt ((intField fs 4).getD 0)

theorem scanOld_eq (line : Bytes) : scanOld line = recordOf (sscanf oldFormat line) := rfl

/-- The line of a record is restored as that record. -/
def ParsesBack (r : RoomRecord) : Prop := restoredRecord (oldLine (some r)) = r

/-- Name and password are read as one word each. -/
structure Fielded (r : RoomRecord) : Prop where
  name : Word 31 (cstr r.roomName.val)
  password : Word 63 (cstr r.password.val)

theorem head_number (z : Int) (rest : Bytes) :
    ∀ b, (decimalInt z ++ rest).head? = some b → isSpace b = false := by
  intro b hb
  obtain ⟨c, cs, hc⟩ := List.exists_cons_of_ne_nil (decimalInt_ne_nil z)
  simp only [hc, List.cons_append, List.head?_cons, Option.some.injEq] at hb
  exact not_isSpace_of_mem_decimalInt (z := z) (by simp [hc, hb])

/-- What follows a field: nothing, or a blank. -/
def AtBlank (rest : Bytes) : Prop := ∀ b, rest.head? = some b → b = 32

theorem AtBlank.cut (xs : Bytes) (k : Nat) : AtBlank ((32 :: xs).take k) := head_take_space xs k

theorem AtBlank.cons (xs : Bytes) : AtBlank (32 :: xs) := fun _ hb => (Option.some.inj hb).symm

theorem AtBlank.append (xs ys : Bytes) : AtBlank (32 :: xs ++ ys) := fun _ hb => (Option.some.inj hb).symm

theorem AtBlank.space {rest : Bytes} (h : AtBlank rest) : ∀ b, rest.head? = some b → isSpace b = true := by
  intro b hb
  rw [h b hb]
  decide

theorem AtBlank.not_digit {rest : Bytes} (h : AtBlank rest) : ∀ b, rest.head? = some b → isDigit b = false := by
  intro b hb
  rw [h b hb]
  decide

/-! ### The fields in front of a rest -/

theorem scan_id (r : RoomRecord) (fmt : List Directive) {rest : Bytes} (h : AtBlank rest) :
    sscanf (literal (ascii "OLD") ++ .ws :: .d :: fmt) (idText r ++ rest) =
      .int r.roomId.toInt :: sscanf fmt rest := by
  rw [idText, List.append_assoc, sscanf_literal, List.cons_append, sscanf_ws (by decide) _ (head_number _ _),
    sscanf_d _ _ _ h.not_digit]

theorem scan_name (hname : Word 31 (cstr r.roomName.val)) (fmt : List Directive) {rest : Bytes} (h : AtBlank rest) :
    sscanf (literal (ascii "OLD") ++ .ws :: .d :: .ws :: .s 31 :: fmt) (nameText r ++ rest) =
      .int r.roomId.toInt :: .str (cstr r.roomName.val) :: sscanf fmt rest := by
  rw [nameText, List.append_assoc, List.cons_append, scan_id r _ (AtBlank.cons _),
    sscanf_ws (by decide) _ (hname.head _), sscanf_s _ hname.nonempty hname.space hname.length h.space]

theorem scan_password (hr : Fielded r) (fmt : List Directive) {rest : Bytes} (h : AtBlank rest) :
    sscanf (literal (ascii "OLD") ++ .ws :: .d :: .ws :: .s 31 :: .ws :: .s 63 :: fmt) (passwordText r ++ rest) =
      .int r.roomId.toInt :: .str (cstr r.roomName.val) :: .str (cstr r.password.val) :: sscanf fmt rest := by
  rw [passwordText, List.append_assoc, List.cons_append, scan_name hr.name _ (AtBlank.cons _),
    sscanf_ws (by decide) _ (hr.password.head _),
    sscanf_s _ hr.password.nonempty hr.password.space hr.password.length h.space]

theorem scan_active (hr : Fielded r) (fmt : List Directive) {rest : Bytes} (h : AtBlank rest) :
    sscanf (literal (ascii "OLD") ++ .ws :: .d :: .ws :: .s 31 :: .ws :: .s 63 :: .ws :: .d :: fmt)
        (activeText r ++ rest) =
      .int r.roomId.toInt :: .str (cstr r.roomName.val) :: .str (cstr r.password.val) ::
        .int r.isActive.toInt :: sscanf fmt rest := by
  rw [activeText, List.append_assoc, List.cons_append, scan_password hr _ (AtBlank.cons _),
    sscanf_ws (by decide) _ (head_number _ _), sscanf_d _ _ _ h.not_digit]

/-! ### A record that is restored from its line -/

/-- A stored field that is the string of an array is that string. -/
theorem cstr_of_fit {n : Nat} {buf : Buf n} {tok text : Bytes} (hbuf : fit n tok = buf) (hlen : tok.length < n)
    (h0 : (0 : UInt8) ∉ text) (hsub : ∀ b ∈ tok, b ∈ text) : cstr buf.val = tok := by
  rw [← hbuf]
  exact cstr_fit (fun h => h0 (hsub 0 h)) hlen

theorem zero_not_mem_oldLine (o : Option RoomRecord) : (0 : UInt8) ∉ oldLine o := by
  cases o with
  | none => decide
  | some r =>
      simp only [oldLine, List.mem_append, not_or]
      exact ⟨by decide, zero_not_mem_recordText r⟩

/-- A record that is restored from its line does not spell the marker in it. -/
theorem ParsesBack.unmarked (h : ParsesBack r) : strstr (oldLine (some r)) (ascii "OLD NULL") = false := by
  by_contra hmark
  rw [Bool.not_eq_false] at hmark
  rw [ParsesBack, restoredRecord, if_pos hmark] at h
  rw [← h] at hmark
  exact absurd hmark (by decide +kernel)

theorem ParsesBack.scanned (h : ParsesBack r) : scanOld (oldLine (some r)) = r := by
  have hscan := h
  rwa [ParsesBack, restoredRecord, h.unmarked, if_neg Bool.false_ne_true] at hscan

/-- A text that ends in a number is not blank. -/
theorem not_blank (xs : Bytes) (z : Int) : ∃ b ∈ (xs ++ 32 :: decimalInt z : Bytes), isSpace b = false := by
  obtain ⟨b, bs, hb⟩ := List.exists_cons_of_ne_nil (decimalInt_ne_nil z)
  have hmem : b ∈ decimalInt z := by rw [hb]; exact List.mem_cons_self
  exact ⟨b, List.mem_append_right _ (List.mem_cons_of_mem _ hmem), not_isSpace_of_mem_decimalInt hmem⟩

theorem ParsesBack.name (h : ParsesBack r) : Word 31 (cstr r.roomName.val) := by
  -- The word that is read in the place of the name has to be the name itself.
  have hline : oldLine (some r) = idText r ++ (32 :: (cstr r.roomName.val ++ 32 :: cstr r.password.val ++
      32 :: decimalInt r.isActive.toInt) ++ 32 :: decimalInt r.userCount.toInt) := by
    simp [oldLine_texts, activeText, passwordText, nameText]
  obtain ⟨tok, fs, hfs, hword, hsub⟩ := sscanf_word (by decide : 0 < 31) [.ws, .s 63, .ws, .d, .ws, .d]
    (not_blank (32 :: (cstr r.roomName.val ++ 32 :: cstr r.password.val ++
      32 :: decimalInt r.isActive.toInt)) r.userCount.toInt)
  have hscan : sscanf oldFormat (oldLine (some r)) = .int r.roomId.toInt :: .str tok :: fs := by
    rw [hline, oldFormat, scan_id r _ (AtBlank.append _ _), hfs]
  have hrecord := h.scanned
  rw [scanOld_eq, hscan] at hrecord
  have hname : fit maxRoomNameLen tok = r.roomName := congrArg RoomRecord.roomName hrecord
  have htok := cstr_of_fit hname (Nat.lt_succ_of_le hword.length) (zero_not_mem_oldLine (some r)) (by
    intro b hb
    rw [hline]
    exact List.mem_append_right _ (hsub b hb))
  rw [htok]
  exact hword

/-- **A record that is restored from its line** has a name and a password of one word. -/
theorem ParsesBack.fielded (h : ParsesBack r) : Fielded r where
  name := h.name
  password := by
    have hline : oldLine (some r) = nameText r ++ (32 :: (cstr r.password.val ++
        32 :: decimalInt r.isActive.toInt) ++ 32 :: decimalInt r.userCount.toInt) := by
      simp [oldLine_texts, activeText, passwordText]
    obtain ⟨tok, fs, hfs, hword, hsub⟩ := sscanf_word (by decide : 0 < 63) [.ws, .d, .ws, .d]
      (not_blank (32 :: (cstr r.password.val ++ 32 :: decimalInt r.isActive.toInt)) r.userCount.toInt)
    have hscan : sscanf oldFormat (oldLine (some r)) =
        .int r.roomId.toInt :: .str (cstr r.roomName.val) :: .str tok :: fs := by
      rw [hline, oldFormat, scan_name h.name _ (AtBlank.append _ _), hfs]
    have hrecord := h.scanned
    rw [scanOld_eq, hscan] at hrecord
    have hpassword : fit maxPasswordLen tok = r.password := congrArg RoomRecord.password hrecord
    have htok := cstr_of_fit hpassword (Nat.lt_succ_of_le hword.length) (zero_not_mem_oldLine (some r)) (by
      intro b hb
      rw [hline]
      exact List.mem_append_right _ (hsub b hb))
    rw [htok]
    exact hword

/-! ### Lines that were cut off -/

/-- What the first `n` bytes of an `OLD` line leave of the fields. -/
theorem take_text {text rest : Bytes} {n : Nat} (h : text.length ≤ n) :
    (text ++ rest).take n = text ++ rest.take (n - text.length) := by
  rw [List.take_append, List.take_of_length_le h]

theorem passwordText_le (r : RoomRecord) : (passwordText r).length ≤ (activeText r).length := by
  rw [activeText, List.length_append]
  omega

theorem activeText_lt (r : RoomRecord) : (activeText r).length < (oldLine (some r)).length := by
  rw [oldLine_texts, List.length_append, List.length_cons]
  omega

/-- A number of at most a tenth is another one, except for 0. -/
theorem cut_number_iff {v : Int} {z : Int32} (h : 10 * v.natAbs ≤ z.toInt.natAbs) : Int32.ofInt v = z ↔ z = 0 := by
  have hlt := Int32.toInt_lt z
  have hge := Int32.le_toInt z
  constructor
  · intro heq
    have hv : (Int32.ofInt v).toInt = v := Int32.toInt_ofInt_of_le (by omega) (by omega)
    rw [heq] at hv
    apply Int32.toInt_inj.mp
    rw [Int32.toInt_zero]
    omega
  · rintro rfl
    have hv : v = 0 := by
      rw [Int32.toInt_zero] at h
      omega
    rw [hv]
    rfl

/-- The strings of a record that is restored from its line. -/
theorem ParsesBack.strings (h : ParsesBack r) :
    fit maxRoomNameLen (cstr r.roomName.val) = r.roomName ∧ fit maxPasswordLen (cstr r.password.val) = r.password := by
  have hline : oldLine (some r) = passwordText r ++ (32 :: decimalInt r.isActive.toInt ++
      32 :: decimalInt r.userCount.toInt) := by
    simp [oldLine_texts, activeText]
  have hrecord := h.scanned
  rw [scanOld_eq, oldFormat, hline, scan_password h.fielded _ (AtBlank.append _ _)] at hrecord
  exact ⟨congrArg RoomRecord.roomName hrecord, congrArg RoomRecord.password hrecord⟩

/-- The record that is restored when the strings were read and the numbers were not all. -/
theorem ParsesBack.recordOf (h : ParsesBack r) (fs : List Field) :
    recordOf (.int r.roomId.toInt :: .str (cstr r.roomName.val) :: .str (cstr r.password.val) :: fs) =
      { r with
        isActive := Int32.ofInt ((intField fs 0).getD 0)
        userCount := Int32.ofInt ((intField fs 1).getD 0) } := by
  obtain ⟨hname, hpassword⟩ := h.strings
  have hid : Int32.ofInt r.roomId.toInt = r.roomId := Int32.ofInt_toInt r.roomId
  simp only [EchoLink.recordOf, intField, strField, List.getElem?_cons_zero, List.getElem?_cons_succ,
    Option.getD_some, hid, hname, hpassword]

/-- A cut behind `is_active` loses the count. -/
theorem ParsesBack.cut_count (h : ParsesBack r) {n : Nat} (hle : (activeText r).length ≤ n)
    (hlt : n < (oldLine (some r)).length) : scanOld ((oldLine (some r)).take n) = r ↔ r.userCount = 0 := by
  have hcut : n - (activeText r).length < (32 :: decimalInt r.userCount.toInt : Bytes).length := by
    rw [oldLine_texts, List.length_append] at hlt
    omega
  obtain ⟨fs, hfs, hcases⟩ := sscanf_cut_d r.userCount.toInt (rfl : sscanf [] [] = []) hcut
  have hactive : Int32.ofInt r.isActive.toInt = r.isActive := Int32.ofInt_toInt r.isActive
  rw [scanOld_eq, oldFormat, oldLine_texts, take_text hle, scan_active h.fielded _ (AtBlank.cut _ _), hfs, h.recordOf]
  have hcount : ∃ v : Int, (intField (.int r.isActive.toInt :: fs) 1).getD 0 = v ∧
      10 * v.natAbs ≤ r.userCount.toInt.natAbs := by
    rcases hcases with rfl | ⟨v, rfl, hv⟩
    · exact ⟨0, rfl, by simp⟩
    · exact ⟨v, rfl, hv⟩
  obtain ⟨v, hval, hv⟩ := hcount
  have hfirst : (intField (.int r.isActive.toInt :: fs) 0).getD 0 = r.isActive.toInt := rfl
  rw [hval, hfirst, hactive, ← cut_number_iff hv]
  constructor
  · exact fun heq => congrArg RoomRecord.userCount heq
  · intro heq
    rw [heq]

/-- A cut behind the password loses `is_active` and the count. -/
theorem ParsesBack.cut_active (h : ParsesBack r) {n : Nat} (hle : (passwordText r).length ≤ n)
    (hlt : n < (activeText r).length) :
    scanOld ((oldLine (some r)).take n) = r ↔ r.userCount = 0 ∧ r.isActive = 0 := by
  have hcut : n - (passwordText r).length < (32 :: decimalInt r.isActive.toInt : Bytes).length := by
    rw [activeText, List.length_append] at hlt
    omega
  have htake : (oldLine (some r)).take n = (activeText r).take n := by
    rw [oldLine_texts, List.take_append_of_le_length (Nat.le_of_lt hlt)]
  obtain ⟨fs, hfs, hcases⟩ := sscanf_cut_d r.isActive.toInt (sscanf_end_d []) hcut
  rw [scanOld_eq, oldFormat, htake, activeText, take_text hle, scan_password h.fielded _ (AtBlank.cut _ _), hfs,
    h.recordOf]
  have hactive : ∃ v : Int, (intField fs 0).getD 0 = v ∧ 10 * v.natAbs ≤ r.isActive.toInt.natAbs ∧
      (intField fs 1).getD 0 = 0 := by
    rcases hcases with rfl | ⟨v, rfl, hv⟩
    · exact ⟨0, rfl, by simp, rfl⟩
    · exact ⟨v, rfl, hv, rfl⟩
  obtain ⟨v, hval, hv, hcount⟩ := hactive
  have hzero : Int32.ofInt 0 = 0 := rfl
  rw [hval, hcount, hzero, ← cut_number_iff hv]
  constructor
  · exact fun heq => ⟨(congrArg RoomRecord.userCount heq).symm, congrArg RoomRecord.isActive heq⟩
  · intro ⟨hcount, hactive⟩
    rw [hactive, ← hcount]

/-- A cut before the end of the password leaves at most a part of it. -/
theorem ParsesBack.cut_password (h : ParsesBack r) {n : Nat} (hle : 3 ≤ n) (hlt : n < (passwordText r).length) :
    ∃ j < (cstr r.password.val).length,
      strField (sscanf oldFormat ((oldLine (some r)).take n)) 2 = (cstr r.password.val).take j := by
  have hpos : 0 < (cstr r.password.val).length := List.length_pos_iff.mpr h.fielded.password.nonempty
  have htake : (oldLine (some r)).take n = (passwordText r).take n := by
    rw [oldLine_texts, activeText, List.append_assoc, List.take_append_of_le_length (Nat.le_of_lt hlt)]
  rw [htake, oldFormat]
  by_cases hname : (nameText r).length ≤ n
  · -- The cut is inside the password.
    have hcut : n - (nameText r).length < (32 :: cstr r.password.val : Bytes).length := by
      rw [passwordText, List.length_append] at hlt
      omega
    rw [List.length_cons] at hcut
    refine ⟨n - (nameText r).length - 1, by omega, ?_⟩
    rw [passwordText, take_text hname, scan_name h.name _ (AtBlank.cut _ _),
      sscanf_cut_s h.fielded.password (sscanf_end_d _)]
    split
    · rename_i hnil
      rw [hnil]
      rfl
    · rfl
  · refine ⟨0, hpos, ?_⟩
    rw [List.take_zero]
    have hshort : (passwordText r).take n = (nameText r).take n := by
      rw [passwordText, List.take_append_of_le_length (by omega)]
    rw [hshort]
    by_cases hid : (idText r).length ≤ n
    · -- The cut is inside the name.
      rw [nameText, take_text hid, scan_id r _ (AtBlank.cut _ _), sscanf_cut_s h.name (sscanf_end_s _ _)]
      split <;> rfl
    · -- The cut is inside the id.
      have hold : (ascii "OLD").length ≤ n := hle
      have hcut : n - (ascii "OLD").length < (32 :: decimalInt r.roomId.toInt : Bytes).length := by
        rw [idText, List.length_append] at hid
        omega
      have hshort' : (nameText r).take n = (idText r).take n := by
        rw [nameText, List.take_append_of_le_length (by omega)]
      obtain ⟨fs, hfs, hcases⟩ :=
        sscanf_cut_d r.roomId.toInt (sscanf_end_s 31 [.ws, .s 63, .ws, .d, .ws, .d]) hcut
      rw [hshort', idText, take_text hold, sscanf_literal, hfs]
      rcases hcases with rfl | ⟨v, rfl, _⟩ <;> rfl

/-- A cut before the end of the password loses it. -/
theorem ParsesBack.cut_strings (h : ParsesBack r) {n : Nat} (hle : 3 ≤ n) (hlt : n < (passwordText r).length) :
    scanOld ((oldLine (some r)).take n) ≠ r := by
  intro heq
  obtain ⟨j, hj, hfield⟩ := h.cut_password hle hlt
  have hpassword : fit maxPasswordLen ((cstr r.password.val).take j) = r.password := by
    rw [← hfield]
    exact congrArg RoomRecord.password heq
  have hlen := h.fielded.password.length
  have hshort : ((cstr r.password.val).take j).length < maxPasswordLen := by
    have hmax : maxPasswordLen = 64 := rfl
    rw [List.length_take]
    omega
  have hcstr := cstr_of_fit hpassword hshort (zero_not_mem_cstr r.password.val) fun b hb => List.mem_of_mem_take hb
  have hlength := congrArg List.length hcstr
  rw [List.length_take] at hlength
  omega

/-- How many bytes of an `OLD` line have to survive: fewer than make it one, or all
fields but those that are 0 at its end. -/
def EnoughOf (r : RoomRecord) (n : Nat) : Prop :=
  (oldLine (some r)).length ≤ n ∨ (r.userCount = 0 ∧ (activeText r).length ≤ n) ∨
    (r.userCount = 0 ∧ r.isActive = 0 ∧ (passwordText r).length ≤ n)

/-- **What is restored from an `OLD` line that was cut off.** -/
theorem ParsesBack.restored_iff (h : ParsesBack r) {n : Nat} (hn : 3 ≤ n) :
    restoredRecord ((oldLine (some r)).take n) = r ↔ EnoughOf r n := by
  have hunmarked : strstr ((oldLine (some r)).take n) (ascii "OLD NULL") = false := by
    by_contra hmark
    rw [Bool.not_eq_false, strstr_iff] at hmark
    have hwhole := strstr_iff.mpr (hmark.trans (List.take_prefix n _).isInfix)
    rw [h.unmarked] at hwhole
    cases hwhole
  have hlt := activeText_lt r
  have hle := passwordText_le r
  rw [restoredRecord, hunmarked, if_neg Bool.false_ne_true, EnoughOf]
  by_cases hall : (oldLine (some r)).length ≤ n
  · rw [List.take_of_length_le hall]
    exact ⟨fun _ => Or.inl hall, fun _ => h.scanned⟩
  · by_cases hactive : (activeText r).length ≤ n
    · rw [h.cut_count hactive (by omega)]
      constructor
      · exact fun hcount => Or.inr (Or.inl ⟨hcount, hactive⟩)
      · rintro (hn | ⟨hcount, -⟩ | ⟨hcount, -⟩)
        · exact absurd hn hall
        · exact hcount
        · exact hcount
    · by_cases hpassword : (passwordText r).length ≤ n
      · rw [h.cut_active hpassword (by omega)]
        constructor
        · exact fun hzero => Or.inr (Or.inr ⟨hzero.1, hzero.2, hpassword⟩)
        · rintro (hn | ⟨-, hn⟩ | ⟨hcount, hzero, -⟩)
          · exact absurd hn hall
          · exact absurd hn hactive
          · exact ⟨hcount, hzero⟩
      · constructor
        · exact fun heq => absurd heq (h.cut_strings hn (by omega))
        · rintro (hn | ⟨-, hn⟩ | ⟨-, -, hn⟩)
          · exact absurd hn hall
          · exact absurd hn hactive
          · exact absurd hn hpassword

/-! ### The lines that survive -/

/-- The bytes that `wal_begin` writes. -/
def beginText (roomId : Nat) (old : Option RoomRecord) (new : RoomRecord) : Bytes :=
  logText [beginLine roomId, oldLine old, newLine new]

variable {old : Option RoomRecord} {new : RoomRecord}

theorem oldLine_cons (o : Option RoomRecord) : ∃ rest, oldLine o = 79 :: 76 :: 68 :: rest := by
  cases o with
  | none => exact ⟨_, rfl⟩
  | some r => exact ⟨recordText r, rfl⟩

theorem lineEvent_old_cut (junk : Int) (o : Option RoomRecord) {n : Nat} (hn : 3 ≤ n) :
    lineEvent junk ((oldLine o).take n) = .old (restoredRecord ((oldLine o).take n)) := by
  obtain ⟨rest, hrest⟩ := oldLine_cons o
  obtain ⟨k, rfl⟩ : ∃ k, n = k + 3 := ⟨n - 3, by omega⟩
  rw [hrest]
  rfl

/-- Fewer than three bytes of an `OLD` line are no keyword. -/
theorem lineEvent_old_short (junk : Int) (o : Option RoomRecord) {n : Nat} (hpos : n ≠ 0) (hn : n < 3) :
    lineEvent junk ((oldLine o).take n) = .other := by
  obtain ⟨rest, hrest⟩ := oldLine_cons o
  obtain rfl | rfl : n = 1 ∨ n = 2 := by omega
  · rw [hrest]
    rfl
  · rw [hrest]
    rfl

theorem lineEvent_new_cut (junk : Int) (r : RoomRecord) {n : Nat} (hpos : n ≠ 0) :
    lineEvent junk ((newLine r).take n) = .other := by
  obtain ⟨k, rfl⟩ := Nat.exists_eq_succ_of_ne_zero hpos
  have hnew : newLine r = 78 :: 69 :: 87 :: recordText r := rfl
  rw [hnew, List.take_succ_cons]
  rfl

/-- The restoring write for a call of which `n` bytes of the `OLD` line survive. -/
def tornUndo (roomId : Nat) (old : Option RoomRecord) (n : Nat) : List (Int × RoomRecord) :=
  if n < 3 then [] else [((roomId : Int), restoredRecord ((oldLine old).take n))]

theorem undo_single {ι ρ : Type} [DecidableEq ι] (e : Event ι ρ) : undo [e] = [] := by
  cases e <;> rfl

/-- A `NEW` line, cut or not, is no event that recovery looks for. -/
theorem lineEvents_newLine_take (junk : Nat → Int) (i : Nat) (hnew : WholeLine (newLine new)) (m : Nat) :
    lineEvents junk i (lines ((newLine new ++ [10]).take m)) = [] ∨
      lineEvents junk i (lines ((newLine new ++ [10]).take m)) = [.other] := by
  rw [lines_take hnew.1 hnew.2.1 hnew.2.2]
  split
  · exact Or.inl rfl
  · rename_i hm
    split
    · right
      rw [lineEvents, lineEvent_new_cut _ _ hm]
      rfl
    · have hnone : lines (([] : Bytes).take (m - ((newLine new).length + 1))) = [] := by
        rw [List.take_nil, lines_nil]
      right
      rw [lineEvents, lineEvent_new, hnone]
      rfl

/-- What the `BEGIN` line makes recovery do with `n` bytes of the lines behind it. -/
theorem undo_behind_begin (junk : Nat → Int) (i : Nat) (roomId : Nat) (hold : WholeLine (oldLine old))
    (hnew : WholeLine (newLine new)) (n : Nat) :
    undo (.begin (roomId : Int) ::
        lineEvents junk i (lines ((oldLine old ++ 10 :: (newLine new ++ [10])).take n))) =
      tornUndo roomId old n := by
  rw [lines_take hold.1 hold.2.1 hold.2.2, tornUndo]
  split
  · rename_i hzero
    rw [if_pos (by omega)]
    exact undo_single _
  · rename_i hpos
    split
    · simp only [lineEvents]
      split
      · rename_i hshort
        rw [lineEvent_old_short _ _ hpos hshort]
        rfl
      · rw [lineEvent_old_cut _ _ (by omega)]
        rfl
    · obtain ⟨rest, hrest⟩ := oldLine_cons old
      have hlen : 3 ≤ (oldLine old).length := by
        rw [hrest]
        simp
      have hwhole : (oldLine old).take n = oldLine old := List.take_of_length_le (by omega)
      rw [if_neg (by omega), hwhole]
      simp only [lineEvents, lineEvent_old]
      rcases lineEvents_newLine_take junk (i + 1) hnew (n - ((oldLine old).length + 1)) with hnone | hother
      · rw [hnone]
        rfl
      · rw [hother]
        rfl

/-- The lines of the call, read as events. -/
theorem undo_torn (junk : Nat → Int) (i : Nat) (roomId : Nat) (hold : WholeLine (oldLine old))
    (hnew : WholeLine (newLine new)) (k : Nat) :
    undo (lineEvents junk i (lines ((beginText roomId old new).take k))) =
      tornUndo roomId old (k - ((beginLine roomId).length + 1)) := by
  have htext : beginText roomId old new =
      beginLine roomId ++ 10 :: (oldLine old ++ 10 :: (newLine new ++ [10])) := by
    simp [beginText, logText]
  obtain ⟨hbne, hbnl, hb0⟩ := beginLine_whole roomId
  rw [htext, lines_take hbne hbnl hb0]
  split
  · rename_i hzero
    rw [hzero, Nat.zero_sub]
    rfl
  · split
    · rename_i hle
      rw [Nat.sub_eq_zero_of_le (by omega)]
      exact undo_single _
    · simp only [lineEvents, lineEvent_begin]
      exact undo_behind_begin junk (i + 1) roomId hold hnew _

/-! ### Recovery -/

/-- The log of which `k` bytes of what `wal_begin` writes have survived. -/
def tornWal (db : FileDb) (roomId : Nat) (r : RoomRecord) (k : Nat) : Bytes :=
  (walBegin (dbReadRoomRaw db roomId).2 roomId (db.recordAt roomId) r).wal.data.take (db.wal.data.length + k)

/-- The server is started again on it. -/
def restartTorn (db : FileDb) (roomId : Nat) (r : RoomRecord) (k : Nat) (junk : Nat → Int) : FileDb :=
  fileDbInit db.rooms.data (tornWal db roomId r k) junk

/-- `n` bytes of the `OLD` line leave the record file as it is. -/
def SafelyTorn (old : Option RoomRecord) (n : Nat) : Prop := n < 3 ∨ ∃ r, old = some r ∧ EnoughOf r n

theorem ParsesBack.oneLine (h : ParsesBack r) : OneLine r := by
  have hspace : ∀ {w : Nat} {tok : Bytes}, Word w tok → (10 : UInt8) ∉ tok := by
    intro w tok hword hmem
    exact absurd (hword.space 10 hmem) (by decide)
  exact ⟨hspace h.fielded.name, hspace h.fielded.password⟩

theorem tornWal_eq {db : FileDb} {ls : List Bytes} (h : LogHolds db.wal ls) (roomId : Nat) (r : RoomRecord)
    (k : Nat) (hold : WholeLine (oldLine (db.recordAt roomId))) (hnew : WholeLine (newLine r)) :
    tornWal db roomId r k = logText ls ++ (beginText roomId (db.recordAt roomId) r).take k := by
  have hread : LogHolds (dbReadRoomRaw db roomId).2.wal ls := by rwa [dbReadRoomRaw_wal]
  have hbegun := ((hread.write (beginLine_whole roomId)).write hold).write hnew
  have hdata : (walBegin (dbReadRoomRaw db roomId).2 roomId (db.recordAt roomId) r).wal.data =
      logText ls ++ beginText roomId (db.recordAt roomId) r := by
    have hlines := hbegun.data
    rw [List.append_assoc, List.append_assoc, logText_append] at hlines
    exact hlines
  rw [tornWal, hdata, h.data, List.take_length_add_append]

/-- The record file after recovery. -/
theorem restartTorn_data {db : FileDb} {hist : List AnyCall} {roomId : Nat} {r : RoomRecord} (k : Nat)
    (junk : Nat → Int) (hlog : db.wal = { data := [], pos := 0 }) (hh : OneLineAll db hist) (hnew : OneLine r)
    (hold : WholeLine (oldLine ((runAnyAll db hist).recordAt roomId))) (hlen : 4 * hist.length + 3 < 512) :
    (restartTorn (runAnyAll db hist) roomId r k junk).rooms.data =
      (restoreAll (tornUndo roomId ((runAnyAll db hist).recordAt roomId) (k - ((beginLine roomId).length + 1)))
        { data := (runAnyAll db hist).rooms.data, pos := 0 }).data := by
  have hempty : LogHolds db.wal [] := hlog ▸ LogHolds.empty
  have hholds := runAnyAll_log hempty hh
  rw [List.nil_append] at hholds
  have hlines : lines (tornWal (runAnyAll db hist) roomId r k) = anyHistory db hist ++
      lines ((beginText roomId ((runAnyAll db hist).recordAt roomId) r).take k) := by
    rw [tornWal_eq hholds roomId r k hold (newLine_whole hnew)]
    exact lines_flatMap_append hholds.whole _
  have hundo := undo_torn junk (4 * hist.length) roomId hold (newLine_whole hnew) k
  have hthree : (lines ((beginText roomId ((runAnyAll db hist).recordAt roomId) r).take k)).length ≤ 3 := by
    apply length_lines_take
    intro l hl
    rcases List.mem_cons.mp hl with rfl | hl
    · exact beginLine_whole roomId
    · rcases List.mem_cons.mp hl with rfl | hl
      · exact hold
      · rw [List.mem_singleton.mp hl]
        exact newLine_whole hnew
  have hkept : walLines { data := tornWal (runAnyAll db hist) roomId r k, pos := 0 } = anyHistory db hist ++
      lines ((beginText roomId ((runAnyAll db hist).recordAt roomId) r).take k) := by
    rw [walLines, hlines]
    apply List.take_of_length_le
    rw [List.length_append, anyHistory_length]
    omega
  rw [restartTorn, fileDbInit, walRecover_rooms, hkept, undo_anyHistory, hundo]

/-- **Which cuts recovery tolerates.**  When only the first `k` bytes of the lines that
`wal_begin` writes for the last call survive, recovery leaves the record file as it was
exactly if they hold less than the keyword `OLD`, or a record is there and only
fields that are 0 are missing from its line. -/
theorem torn_log_iff (db : FileDb) (hist : List AnyCall) (roomId : Nat) (r : RoomRecord) (k : Nat)
    (junk : Nat → Int) (hlog : db.wal = { data := [], pos := 0 }) (hh : OneLineAll db hist) (hnew : OneLine r)
    (hold : ∀ o, (runAnyAll db hist).recordAt roomId = some o → ParsesBack o)
    (hlen : 4 * hist.length + 3 < 512) :
    (restartTorn (runAnyAll db hist) roomId r k junk).rooms.data = (runAnyAll db hist).rooms.data ↔
      SafelyTorn ((runAnyAll db hist).recordAt roomId) (k - ((beginLine roomId).length + 1)) := by
  have hwhole : WholeLine (oldLine ((runAnyAll db hist).recordAt roomId)) :=
    oldLine_oneLine fun o ho => (hold o ho).oneLine
  rw [restartTorn_data k junk hlog hh hnew hwhole hlen, SafelyTorn, tornUndo]
  generalize k - ((beginLine roomId).length + 1) = n
  by_cases hn : n < 3
  · rw [if_pos hn]
    exact ⟨fun _ => Or.inl hn, fun _ => rfl⟩
  · rw [if_neg hn]
    have hrestored : (restoreAll [((roomId : Int),
        restoredRecord ((oldLine ((runAnyAll db hist).recordAt roomId)).take n))]
          { data := (runAnyAll db hist).rooms.data, pos := 0 }).data =
        patch (runAnyAll db hist).rooms.data (roomId * roomRecordSize)
          (restoredRecord ((oldLine ((runAnyAll db hist).recordAt roomId)).take n)).encode :=
      restoreRecord_data roomId _ _
    rw [hrestored, patch_eq_self_iff (by decide) _ _ (RoomRecord.encode_length _), or_iff_right hn]
    cases hslot : slot roomRecordSize (runAnyAll db hist).rooms.data roomId with
    | none =>
        have hnone : (runAnyAll db hist).recordAt roomId = none := by simp [FileDb.recordAt, hslot]
        simp [hnone]
    | some bs =>
        have hsome : (runAnyAll db hist).recordAt roomId = some (RoomRecord.decode bs) := by
          simp [FileDb.recordAt, hslot]
        have hbytes : (RoomRecord.decode bs).encode = bs := RoomRecord.encode_decode (slot_length hslot)
        rw [hsome]
        simp only [Option.some.injEq, exists_eq_left']
        rw [← (hold _ hsome).restored_iff (by omega)]
        constructor
        · intro heq
          have hdecode := congrArg RoomRecord.decode heq
          rw [RoomRecord.decode_encode] at hdecode
          exact hdecode.symm
        · intro heq
          rw [heq, hbytes]

/-! ### A join whose lines were cut off -/

theorem sampleRecord_parsesBack : ParsesBack (sampleRecord 0 (ascii "room") (ascii "pass")) := by
  unfold ParsesBack
  decide +kernel

/-- The room that was created before the join. -/
def createdRoom : List AnyCall := [⟨0, sampleRecord 0 (ascii "room") (ascii "pass"), roomRecordSize⟩]

theorem createdRoom_oneLine : OneLineAll emptyDb createdRoom := oneLineAll_of_check (by decide +kernel)

theorem createdRoom_recordAt :
    (runAnyAll emptyDb createdRoom).recordAt 0 = some (sampleRecord 0 (ascii "room") (ascii "pass")) := by
  decide +kernel

/-- Of the `OLD` line the count is missing, which was 0. -/
theorem join_torn_in_count :
    (restartTorn (runAnyAll emptyDb createdRoom) 0 joinedRecord 25 fun _ => 0).rooms.data =
      (runAnyAll emptyDb createdRoom).rooms.data := by
  refine (torn_log_iff emptyDb createdRoom 0 joinedRecord 25 (fun _ => 0) rfl createdRoom_oneLine
    ⟨by decide, by decide⟩ ?_ (by decide)).mpr ?_
  · intro o ho
    rw [createdRoom_recordAt, Option.some.injEq] at ho
    rw [← ho]
    exact sampleRecord_parsesBack
  · rw [createdRoom_recordAt]
    exact Or.inr ⟨_, rfl, Or.inr (Or.inl ⟨rfl, by decide⟩)⟩

/-- Of the `OLD` line `is_active` is missing too, and the room is gone. -/
theorem join_torn_in_flag :
    ¬ ∀ (db : FileDb) (hist : List AnyCall) (roomId : Nat) (r : RoomRecord) (k : Nat) (junk : Nat → Int),
      db.wal = { data := [], pos := 0 } → OneLineAll db hist → OneLine r →
      (∀ o, (runAnyAll db hist).recordAt roomId = some o → ParsesBack o) → 4 * hist.length + 3 < 512 →
      (restartTorn (runAnyAll db hist) roomId r k junk).rooms.data = (runAnyAll db hist).rooms.data := by
  intro hall
  have hsame := hall emptyDb createdRoom 0 joinedRecord 23 (fun _ => 0) rfl createdRoom_oneLine
    ⟨by decide, by decide⟩ (by
      intro o ho
      rw [createdRoom_recordAt, Option.some.injEq] at ho
      rw [← ho]
      exact sampleRecord_parsesBack) (by decide)
  exact absurd hsame (by decide +kernel)

end EchoLink
