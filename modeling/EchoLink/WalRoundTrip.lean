import EchoLink.WalLog

/-!
# Reading an `OLD` line back

`wal_begin` prints a record as space-separated fields and `wal_restore_old`
reads it with `sscanf`, after a substring test for the marker `OLD NULL`.  The
fields come from users: a name of one to 31 bytes and a password of up to 63,
neither with white space in it.

Two kinds of record do not survive the trip.  An empty password leaves two
adjacent spaces, the scanner takes `is_active` for the password and every
later field shifts.  And a name that ends in `OLD` in front of a password that
starts with `NULL` spells the marker.  `oldLine_readsBack_iff` says that these
are the only ones.
-/

namespace EchoLink

open CText RecordFile

/-- The records the server can persist: the strings are as the `CREATE` parser
delivers them, the flag and the count as the room manager keeps them. -/
structure Persistable (r : RoomRecord) : Prop where
  roomId : 0 ≤ r.roomId.toInt
  nameNonempty : cstr r.roomName.val ≠ []
  nameLength : (cstr r.roomName.val).length ≤ 31
  nameSpace : ∀ b ∈ cstr r.roomName.val, isSpace b = false
  passwordLength : (cstr r.password.val).length ≤ 63
  passwordSpace : ∀ b ∈ cstr r.password.val, isSpace b = false
  isActive : r.isActive.toInt = 0 ∨ r.isActive.toInt = 1
  userCount : 0 ≤ r.userCount.toInt ∧ r.userCount.toInt ≤ maxClients

/-- The line printed for `r` is one line of the log, is not taken for the
marker, and is restored as the record `r`. -/
def ReadsBack (r : RoomRecord) : Prop :=
  lines (oldLine (some r) ++ [10]) = [oldLine (some r)] ∧
  strstr (oldLine (some r)) (ascii "OLD NULL") = false ∧
  (restoredRecord (oldLine (some r))).view = r.view

/-! ### The line -/

/-- The text of a record is free of any byte that neither its strings, nor a
number, nor a space can hold. -/
theorem not_mem_recordText {r : RoomRecord} {b : UInt8} (hdig : isDigit b = false)
    (h45 : b ≠ 45) (h32 : b ≠ 32) (hname : b ∉ cstr r.roomName.val)
    (hpass : b ∉ cstr r.password.val) : b ∉ recordText r := by
  have hd (z : Int) : b ∉ decimalInt z := not_mem_decimalInt hdig h45
  simp [recordText, hd, h32, hname, hpass]

theorem zero_not_mem_recordText (r : RoomRecord) : (0 : UInt8) ∉ recordText r :=
  not_mem_recordText (by decide) (by decide) (by decide) (zero_not_mem_cstr _)
    (zero_not_mem_cstr _)

private theorem newline_not_mem {bs : Bytes} (h : ∀ b ∈ bs, isSpace b = false) :
    (10 : UInt8) ∉ bs := by
  intro hm
  exact absurd (h 10 hm) (by decide)

private theorem space_not_mem {bs : Bytes} (h : ∀ b ∈ bs, isSpace b = false) :
    (32 : UInt8) ∉ bs := by
  intro hm
  exact absurd (h 32 hm) (by decide)

/-- The line is one line of the log. -/
theorem lines_oldLine {r : RoomRecord} (h : Persistable r) :
    lines (oldLine (some r) ++ [10]) = [oldLine (some r)] := by
  have hnl : (10 : UInt8) ∉ oldLine (some r) := by
    simp only [oldLine, List.mem_append, not_or]
    exact ⟨by decide, not_mem_recordText (by decide) (by decide) (by decide)
      (newline_not_mem h.nameSpace) (newline_not_mem h.passwordSpace)⟩
  have h0 : (0 : UInt8) ∉ oldLine (some r) := by
    simp only [oldLine, List.mem_append, not_or]
    exact ⟨by decide, zero_not_mem_recordText r⟩
  have hne : oldLine (some r) ≠ [] := by
    have : ascii "OLD" ≠ [] := by decide
    simp [oldLine, this]
  exact lines_line_append [] hne hnl h0

/-! ### The marker -/

private theorem null_not_prefix_decimal (z : Int) (rest : Bytes) :
    ¬ ascii "NULL" <+: decimalInt z ++ rest := by
  intro hp
  obtain ⟨b, bs, hb⟩ := List.exists_cons_of_ne_nil (decimalInt_ne_nil z)
  have hhead : b = 78 := by
    obtain ⟨t, ht⟩ := hp
    rw [hb] at ht
    have := congrArg List.head? ht
    simpa [ascii] using this.symm
  have hmem : (78 : UInt8) ∈ decimalInt z := by simp [hb, hhead]
  exact not_mem_decimalInt (by decide) (by decide) hmem

private theorem old_not_suffix_decimal (z : Int) : ¬ ascii "OLD" <:+ decimalInt z := by
  intro hs
  have hmem : (79 : UInt8) ∈ decimalInt z := hs.subset (by decide)
  exact not_mem_decimalInt (by decide) (by decide) hmem

private theorem space_not_mem_decimal (z : Int) : (32 : UInt8) ∉ decimalInt z :=
  not_mem_decimalInt (by decide) (by decide)

/-- The marker is spelled exactly by the end of the name and the start of the
password. -/
theorem strstr_oldLine_iff {r : RoomRecord} (h : Persistable r) :
    strstr (oldLine (some r)) (ascii "OLD NULL") = true ↔
      ascii "OLD" <:+ cstr r.roomName.val ∧ ascii "NULL" <+: cstr r.password.val := by
  have hneedle : ascii "OLD NULL" = ascii "OLD" ++ 32 :: ascii "NULL" := by decide
  have hO : (32 : UInt8) ∉ ascii "OLD" := by decide
  have hN : (32 : UInt8) ∉ ascii "NULL" := by decide
  have hname := space_not_mem h.nameSpace
  have hpass := space_not_mem h.passwordSpace
  rw [strstr_iff, hneedle]
  simp only [oldLine, recordText, List.append_assoc, List.cons_append]
  rw [infix_separated hO hO, infix_separated hO (space_not_mem_decimal _),
    infix_separated hO hname, infix_separated hO hpass,
    infix_separated hO (space_not_mem_decimal _)]
  constructor
  · rintro (⟨_, hp⟩ | ⟨hs, _⟩ | hboth | ⟨_, hp⟩ | ⟨hs, _⟩ | hlast)
    · exact absurd hp (null_not_prefix_decimal _ _)
    · exact absurd hs (old_not_suffix_decimal _)
    · exact ⟨hboth.1, (prefix_separated hN).mp hboth.2⟩
    · exact absurd hp (null_not_prefix_decimal _ _)
    · exact absurd hs (old_not_suffix_decimal _)
    · exact absurd hlast (not_infix_field (space_not_mem_decimal _))
  · intro hboth
    exact Or.inr (Or.inr (Or.inl ⟨hboth.1, (prefix_separated hN).mpr hboth.2⟩))

/-! ### The fields -/

private theorem head_decimal (z : Int) (rest : Bytes) :
    ∀ b, (decimalInt z ++ rest).head? = some b → isSpace b = false := by
  intro b hb
  obtain ⟨c, cs, hc⟩ := List.exists_cons_of_ne_nil (decimalInt_ne_nil z)
  simp only [hc, List.cons_append, List.head?_cons, Option.some.injEq] at hb
  exact not_isSpace_of_mem_decimalInt (z := z) (by simp [hc, hb])

private theorem head_token {tok : Bytes} (rest : Bytes) (hne : tok ≠ [])
    (htok : ∀ b ∈ tok, isSpace b = false) :
    ∀ b, (tok ++ rest).head? = some b → isSpace b = false := by
  intro b hb
  obtain ⟨c, cs, rfl⟩ := List.exists_cons_of_ne_nil hne
  simp only [List.cons_append, List.head?_cons, Option.some.injEq] at hb
  exact hb ▸ htok c List.mem_cons_self

private theorem head_space (rest : Bytes) : ∀ b, (32 :: rest : Bytes).head? = some b → isSpace b = true := by
  intro b hb
  simp only [List.head?_cons, Option.some.injEq] at hb
  subst hb
  decide

private theorem head_space_digit (rest : Bytes) :
    ∀ b, (32 :: rest : Bytes).head? = some b → isDigit b = false := by
  intro b hb
  simp only [List.head?_cons, Option.some.injEq] at hb
  subst hb
  decide

/-- The scan up to the name, whatever the password. -/
private theorem sscanf_to_name {r : RoomRecord} (h : Persistable r) (fmt : List Directive) :
    sscanf (literal (ascii "OLD") ++ .ws :: .d :: .ws :: .s 31 :: fmt) (oldLine (some r)) =
      .int r.roomId.toInt :: .str (cstr r.roomName.val) ::
        sscanf fmt (32 :: (cstr r.password.val ++ 32 :: (decimalInt r.isActive.toInt
          ++ 32 :: decimalInt r.userCount.toInt))) := by
  simp only [oldLine, recordText, List.append_assoc, List.cons_append]
  rw [sscanf_literal, sscanf_ws (by decide) _ (head_decimal _ _),
    sscanf_d _ _ _ (head_space_digit _),
    sscanf_ws (by decide) _ (head_token _ h.nameNonempty h.nameSpace),
    sscanf_s _ h.nameNonempty h.nameSpace h.nameLength (head_space _)]

/-- With a password every field is read back. -/
theorem sscanf_oldLine {r : RoomRecord} (h : Persistable r) (hp : cstr r.password.val ≠ []) :
    sscanf (literal (ascii "OLD") ++ [.ws, .d, .ws, .s 31, .ws, .s 63, .ws, .d, .ws, .d])
        (oldLine (some r)) =
      [.int r.roomId.toInt, .str (cstr r.roomName.val), .str (cstr r.password.val),
        .int r.isActive.toInt, .int r.userCount.toInt] := by
  have hlast : sscanf [.d] (decimalInt r.userCount.toInt) = [.int r.userCount.toInt] := by
    have := sscanf_d r.userCount.toInt [] [] (by simp)
    simpa [sscanf] using this
  have hhead : ∀ b, (decimalInt r.userCount.toInt).head? = some b → isSpace b = false := by
    simpa using head_decimal r.userCount.toInt []
  rw [sscanf_to_name h, sscanf_ws (by decide) _ (head_token _ hp h.passwordSpace),
    sscanf_s _ hp h.passwordSpace h.passwordLength (head_space _),
    sscanf_ws (by decide) _ (head_decimal _ _), sscanf_d _ _ _ (head_space_digit _),
    sscanf_ws (by decide) _ hhead, hlast]

private theorem decimal_flag_length {z : Int} (hz : z = 0 ∨ z = 1) :
    (decimalInt z).length ≤ 63 := by
  rcases hz with rfl | rfl <;> decide

/-- Without a password the text of `is_active` is read in its place. -/
theorem sscanf_oldLine_nil {r : RoomRecord} (h : Persistable r) (hp : cstr r.password.val = []) :
    ∃ fs, sscanf (literal (ascii "OLD") ++ [.ws, .d, .ws, .s 31, .ws, .s 63, .ws, .d, .ws, .d])
        (oldLine (some r)) =
      .int r.roomId.toInt :: .str (cstr r.roomName.val) :: .str (decimalInt r.isActive.toInt)
        :: fs := by
  have hflag : ∀ b ∈ decimalInt r.isActive.toInt, isSpace b = false :=
    fun b hb => not_isSpace_of_mem_decimalInt hb
  have hskip (fmt : List Directive) (xs : Bytes) :
      sscanf (.ws :: fmt) (32 :: 32 :: (decimalInt r.isActive.toInt ++ xs)) =
        sscanf fmt (decimalInt r.isActive.toInt ++ xs) := by
    have := dropWhile_isSpace_of_head (head_decimal r.isActive.toInt xs)
    simp [sscanf, isSpace, this]
  rw [sscanf_to_name h, hp, List.nil_append, hskip,
    sscanf_s _ (decimalInt_ne_nil _) hflag (decimal_flag_length h.isActive) (head_space _)]
  exact ⟨_, rfl⟩

theorem cstr_fit {n : Nat} {bs : Bytes} (h0 : (0 : UInt8) ∉ bs) (hlen : bs.length < n) :
    cstr (fit n bs).val = bs := by
  obtain ⟨k, hk⟩ : ∃ k, n - bs.length = k + 1 := ⟨n - bs.length - 1, by omega⟩
  simp only [fit, List.take_of_length_le (Nat.le_of_lt hlen), hk, List.replicate_succ]
  exact cstr_append_zero h0 _

theorem scanOld_view {r : RoomRecord} (h : Persistable r) (hp : cstr r.password.val ≠ []) :
    (scanOld (oldLine (some r))).view = r.view := by
  have hname := cstr_fit (n := maxRoomNameLen) (zero_not_mem_cstr r.roomName.val)
    (Nat.lt_of_le_of_lt h.nameLength (by decide))
  have hpass := cstr_fit (n := maxPasswordLen) (zero_not_mem_cstr r.password.val)
    (Nat.lt_of_le_of_lt h.passwordLength (by decide))
  simp only [scanOld, sscanf_oldLine h hp, RoomRecord.view, intField, strField,
    List.getElem?_cons_zero, List.getElem?_cons_succ, Option.getD_some, Int32.ofInt_toInt,
    hname, hpass]

theorem scanOld_password_ne_nil {r : RoomRecord} (h : Persistable r)
    (hp : cstr r.password.val = []) : (scanOld (oldLine (some r))).view.password ≠ [] := by
  obtain ⟨fs, hfs⟩ := sscanf_oldLine_nil h hp
  have h0 : (0 : UInt8) ∉ decimalInt r.isActive.toInt :=
    not_mem_decimalInt (by decide) (by decide)
  have hpass := cstr_fit (n := maxPasswordLen) h0
    (Nat.lt_of_le_of_lt (decimal_flag_length h.isActive) (by decide))
  simp only [scanOld, hfs, RoomRecord.view, strField, List.getElem?_cons_zero,
    List.getElem?_cons_succ, hpass]
  exact decimalInt_ne_nil _

/-- A record with a password that does not complete the marker is read back. -/
theorem Persistable.readsBack {r : RoomRecord} (h : Persistable r)
    (hp : cstr r.password.val ≠ [])
    (hboth : ¬ (ascii "OLD" <:+ cstr r.roomName.val ∧ ascii "NULL" <+: cstr r.password.val)) :
    ReadsBack r := by
  have hmark : strstr (oldLine (some r)) (ascii "OLD NULL") = false := by
    by_contra hc
    rw [Bool.not_eq_false] at hc
    exact hboth ((strstr_oldLine_iff h).mp hc)
  refine ⟨lines_oldLine h, hmark, ?_⟩
  simp only [restoredRecord, hmark, Bool.false_eq_true, if_false]
  exact scanOld_view h hp

/-- **Which records survive the log.**  A record the server can persist is
read back as itself exactly when it has a password and its name and password
do not spell the marker between them. -/
theorem oldLine_readsBack_iff (r : RoomRecord) (h : Persistable r) :
    ReadsBack r ↔
      cstr r.password.val ≠ [] ∧
      ¬ (ascii "OLD" <:+ cstr r.roomName.val ∧ ascii "NULL" <+: cstr r.password.val) := by
  constructor
  · rintro ⟨_, hmark, hview⟩
    refine ⟨?_, ?_⟩
    · intro hp
      apply scanOld_password_ne_nil h hp
      have hrest : (scanOld (oldLine (some r))).view = r.view := by
        simpa [restoredRecord, hmark] using hview
      rw [hrest]
      exact hp
    · intro hboth
      rw [(strstr_oldLine_iff h).mpr hboth] at hmark
      cases hmark
  · rintro ⟨hp, hboth⟩
    exact h.readsBack hp hboth

/-- A room record as `room_create` fills it, over zeroed memory. -/
def sampleRecord (id : Int32) (name password : Bytes) : RoomRecord where
  roomId := id
  roomName := fit _ name
  password := fit _ password
  isActive := 1
  userCount := 0

theorem sampleRecord_persistable :
    Persistable (sampleRecord 0 (ascii "room") (ascii "pass")) where
  roomId := by decide
  nameNonempty := by decide
  nameLength := by decide
  nameSpace := by decide +kernel
  passwordLength := by decide
  passwordSpace := by decide +kernel
  isActive := by decide
  userCount := by decide

theorem oldLine_readsBack_room_pass :
    ReadsBack (sampleRecord 0 (ascii "room") (ascii "pass")) :=
  (oldLine_readsBack_iff _ sampleRecord_persistable).mpr ⟨by decide, by decide⟩

/-- A room without a password, as `CREATE room` makes it, is not read back. -/
theorem not_readsBack_without_password :
    ¬ ∀ r, Persistable r → ReadsBack r := by
  intro hall
  have hper : Persistable (sampleRecord 0 (ascii "room") []) :=
    { roomId := by decide, nameNonempty := by decide, nameLength := by decide,
      nameSpace := by decide +kernel, passwordLength := by decide, passwordSpace := by decide +kernel,
      isActive := by decide, userCount := by decide }
  have hview := (hall _ hper).2.2
  exact absurd hview (by decide)

end EchoLink
