import EchoLink.CText

/-!
# Files of fixed-size records

A file is its bytes and the offset of the descriptor that is open on it.
`seek`, `read` and `write` follow `lseek`, `read` and `write`: a read past the
end is short, a write past the end fills the gap with zero bytes, and a seek
to a negative offset fails and leaves the offset where it was.

A program that keeps records of `w` bytes back to back sees the file as a
sequence of slots.  `slot_patch_self` and `slot_patch_of_ne` say what a write
at a slot boundary does to every slot, also when the write is cut short and
when the file ends inside a record.  `readLoop` is the loop that reads a file
record by record, and `readLoop_eq` reduces it to a recursion on the records.
-/

namespace RecordFile

open CText

/-- An open file: its contents and the offset of its descriptor. -/
structure File where
  data : Bytes
  pos : Nat
  deriving DecidableEq, Repr

/-- The contents after writing `bs` at offset `off`. -/
def patch (d : Bytes) (off : Nat) (bs : Bytes) : Bytes :=
  if bs = [] then d
  else d.take off ++ List.replicate (off - d.length) 0 ++ bs ++ d.drop (off + bs.length)

/-- `lseek(fd, off, SEEK_SET)`. -/
def File.seek (f : File) (off : Int) : File :=
  if off < 0 then f else { f with pos := off.toNat }

/-- `lseek(fd, 0, SEEK_END)`. -/
def File.seekEnd (f : File) : File := { f with pos := f.data.length }

/-- `read(fd, buf, n)`: the bytes transferred and the file after it. -/
def File.read (f : File) (n : Nat) : Bytes × File :=
  let bs := (f.data.drop f.pos).take n
  (bs, { f with pos := f.pos + bs.length })

/-- `write(fd, bs)` transferring all of `bs`. -/
def File.write (f : File) (bs : Bytes) : File :=
  { data := patch f.data f.pos bs, pos := f.pos + bs.length }

/-- The `i`-th record of `w` bytes, when the file holds all of it. -/
def slot (w : Nat) (d : Bytes) (i : Nat) : Option Bytes :=
  let bs := (d.drop (i * w)).take w
  if bs.length = w then some bs else none

/-- The number of whole records. -/
def slotCount (w : Nat) (d : Bytes) : Nat := d.length / w

@[simp] theorem seek_data (f : File) (off : Int) : (f.seek off).data = f.data := by
  unfold File.seek
  split <;> rfl

theorem seek_pos_natCast (f : File) (n : Nat) : (f.seek (n : Int)).pos = n := by
  have : ¬ (n : Int) < 0 := by omega
  simp [File.seek, this]

@[simp] theorem read_data (f : File) (n : Nat) : (f.read n).2.data = f.data := rfl

@[simp] theorem seekEnd_data (f : File) : f.seekEnd.data = f.data := rfl

theorem seek_write_data (f : File) (n : Nat) (bs : Bytes) :
    ((f.seek (n : Int)).write bs).data = patch f.data n bs := by
  simp [File.write, seek_pos_natCast]

/-! ### The length and the bytes of a patched file -/

theorem patch_nil (d : Bytes) (off : Nat) : patch d off [] = d := by simp [patch]

theorem length_patch {d : Bytes} {off : Nat} {bs : Bytes} (hne : bs ≠ []) :
    (patch d off bs).length = max d.length (off + bs.length) := by
  simp only [patch, hne, if_false, List.length_append, List.length_take, List.length_replicate,
    List.length_drop]
  omega

theorem length_patch_of_le {d : Bytes} {off : Nat} (bs : Bytes) (h : off ≤ d.length) :
    (patch d off bs).length = max d.length (off + bs.length) := by
  by_cases hne : bs = []
  · subst hne
    simp only [patch_nil, List.length_nil]
    omega
  · exact length_patch hne

theorem getElem?_patch {d : Bytes} {off : Nat} {bs : Bytes} (h : off ≤ d.length) (k : Nat) :
    (patch d off bs)[k]? =
      if off ≤ k ∧ k < off + bs.length then bs[k - off]? else d[k]? := by
  by_cases hne : bs = []
  · subst hne
    have : ¬ (off ≤ k ∧ k < off + ([] : Bytes).length) := by
      simp
    rw [patch_nil, if_neg this]
  · have hgap : off - d.length = 0 := by omega
    simp only [patch, hne, if_false, hgap, List.replicate_zero, List.append_nil]
    by_cases h1 : k < off
    · rw [if_neg (by omega), List.append_assoc,
        List.getElem?_append_left (by simp; omega), List.getElem?_take]
      simp [h1]
    · by_cases h2 : k < off + bs.length
      · rw [if_pos ⟨by omega, h2⟩, List.append_assoc,
          List.getElem?_append_right (by simp; omega),
          List.getElem?_append_left (by simp; omega)]
        simp [Nat.min_eq_left h]
      · rw [if_neg (by omega), List.getElem?_append_right (by simp; omega), List.getElem?_drop]
        congr 1
        simp only [List.length_append, List.length_take]
        omega

/-- Writing at the end appends. -/
theorem patch_length (d bs : Bytes) : patch d d.length bs = d ++ bs := by
  by_cases hne : bs = []
  · simp [patch, hne]
  · simp [patch, hne]

/-- Writing over a stretch of the same length replaces it. -/
theorem patch_middle {old new : Bytes} (pre post : Bytes) (h : new.length = old.length) :
    patch (pre ++ old ++ post) pre.length new = pre ++ new ++ post := by
  by_cases hne : new = []
  · subst hne
    have hold : old = [] := List.eq_nil_of_length_eq_zero h.symm
    simp [patch, hold]
  · have hdrop : (pre ++ old ++ post).drop (pre.length + new.length) = post := by
      rw [h, ← List.length_append, List.drop_left]
    have hgap : pre.length - (pre ++ old ++ post).length = 0 := by
      simp only [List.length_append]
      omega
    rw [patch, if_neg hne, hdrop, hgap, List.append_assoc pre, List.take_left]
    simp

/-! ### Single bytes -/

/-- A byte of the file; past its end a file reads as zeros once it grows. -/
def byteAt (d : Bytes) (x : Nat) : UInt8 := d.getD x 0

/-- A write changes the bytes it covers and no other, also past the end. -/
theorem byteAt_patch (d : Bytes) (off : Nat) (bs : Bytes) (x : Nat) :
    byteAt (patch d off bs) x =
      if off ≤ x ∧ x < off + bs.length then byteAt bs (x - off) else byteAt d x := by
  by_cases hne : bs = []
  · subst hne
    have : ¬ (off ≤ x ∧ x < off + ([] : Bytes).length) := by
      simp
    rw [patch_nil, if_neg this]
  · have hgap : (d.take off ++ List.replicate (off - d.length) 0).length = off := by
      simp only [List.length_append, List.length_take, List.length_replicate]
      omega
    rw [byteAt, patch, if_neg hne, List.append_assoc, List.getD_eq_getElem?_getD]
    by_cases hbefore : x < off
    · rw [if_neg (by omega), List.getElem?_append_left (by omega), byteAt, List.getD_eq_getElem?_getD]
      by_cases hin : x < d.length
      · rw [List.getElem?_append_left (by simp; omega), List.getElem?_take, if_pos hbefore]
      · rw [List.getElem?_append_right (by simp; omega), List.getElem?_replicate,
          if_pos (by simp; omega), List.getElem?_eq_none (by omega)]
        rfl
    · rw [List.getElem?_append_right (by omega), hgap]
      by_cases hcovered : x < off + bs.length
      · rw [if_pos ⟨by omega, hcovered⟩, List.getElem?_append_left (by omega), byteAt,
          List.getD_eq_getElem?_getD]
      · rw [if_neg (by omega), List.getElem?_append_right (by omega), List.getElem?_drop, byteAt,
          List.getD_eq_getElem?_getD]
        congr 2
        omega

/-! ### Slots -/

theorem slot_eq_some {w : Nat} {d : Bytes} {i : Nat} (h : i * w + w ≤ d.length) :
    slot w d i = some ((d.drop (i * w)).take w) := by
  have : ((d.drop (i * w)).take w).length = w := by
    simp only [List.length_take, List.length_drop]
    omega
  simp [slot, this]

theorem slot_eq_none {w : Nat} {d : Bytes} {i : Nat} (h : d.length < i * w + w) :
    slot w d i = none := by
  have hw : w ≠ 0 := by
    rintro rfl
    simp at h
  have : ((d.drop (i * w)).take w).length ≠ w := by
    simp only [List.length_take, List.length_drop]
    omega
  rw [slot, if_neg this]

theorem slot_length {w : Nat} {d : Bytes} {i : Nat} {bs : Bytes} (h : slot w d i = some bs) :
    bs.length = w := by
  unfold slot at h
  dsimp only at h
  split at h
  · rename_i hlen
    cases h
    exact hlen
  · cases h

theorem slot_le {w : Nat} {d : Bytes} {i : Nat} {bs : Bytes} (h : slot w d i = some bs) :
    i * w + w ≤ d.length := by
  by_contra hlt
  rw [slot_eq_none (by omega)] at h
  cases h

/-- A record whose bytes are all in the file is in its slot. -/
theorem slot_of_bytes {w : Nat} {d : Bytes} {i : Nat} {bs : Bytes} (hlen : bs.length = w)
    (hin : i * w + w ≤ d.length) (h : ∀ x, x < w → byteAt d (i * w + x) = byteAt bs x) :
    slot w d i = some bs := by
  rw [slot_eq_some hin, Option.some.injEq]
  apply List.ext_getElem
  · simp only [List.length_take, List.length_drop, hlen]
    omega
  · intro x hx hx'
    have hbyte := h x (by omega)
    rw [byteAt, byteAt, List.getD_eq_getElem?_getD, List.getD_eq_getElem?_getD,
      List.getElem?_eq_getElem (by omega), List.getElem?_eq_getElem hx'] at hbyte
    rw [List.getElem_take, List.getElem_drop]
    exact hbyte

/-- Two distinct slots do not overlap. -/
theorem slots_disjoint {w i j : Nat} (h : i ≠ j) : i * w + w ≤ j * w ∨ j * w + w ≤ i * w := by
  rcases Nat.lt_or_gt_of_ne h with h | h
  · left
    calc i * w + w = (i + 1) * w := by rw [Nat.succ_mul]
      _ ≤ j * w := Nat.mul_le_mul_right w h
  · right
    calc j * w + w = (j + 1) * w := by rw [Nat.succ_mul]
      _ ≤ i * w := Nat.mul_le_mul_right w h

/-- The bytes of a record that is in its slot. -/
theorem byteAt_slot {w : Nat} {d : Bytes} {i : Nat} {bs : Bytes} (h : slot w d i = some bs) {x : Nat}
    (hx : x < w) : byteAt d (i * w + x) = byteAt bs x := by
  rw [slot_eq_some (slot_le h), Option.some.injEq] at h
  rw [← h, byteAt, byteAt, List.getD_eq_getElem?_getD, List.getD_eq_getElem?_getD, List.getElem?_take,
    if_pos hx, List.getElem?_drop]

theorem length_le_patch (d : Bytes) (off : Nat) (bs : Bytes) : d.length ≤ (patch d off bs).length := by
  by_cases hne : bs = []
  · rw [hne, patch_nil]
  · rw [length_patch hne]
    exact Nat.le_max_left _ _

/-- A whole record written at its slot, also past the end of the file. -/
theorem slot_patch_whole {w : Nat} (hw : 0 < w) (d : Bytes) (i : Nat) {bs : Bytes} (hbs : bs.length = w) :
    slot w (patch d (i * w) bs) i = some bs := by
  have hne : bs ≠ [] := List.ne_nil_of_length_pos (by omega)
  refine slot_of_bytes hbs ?_ ?_
  · rw [length_patch hne, hbs]
    exact Nat.le_max_right _ _
  · intro x hx
    rw [byteAt_patch, if_pos ⟨Nat.le_add_right _ _, by omega⟩, Nat.add_sub_cancel_left]

/-- A record that is in its slot stays when another slot is written, also past
the end of the file. -/
theorem slot_patch_kept {w : Nat} {d : Bytes} {i j : Nat} {bs r : Bytes} (hbs : bs.length ≤ w)
    (hne : j ≠ i) (h : slot w d j = some r) : slot w (patch d (i * w) bs) j = some r := by
  have hdis := slots_disjoint (w := w) hne
  refine slot_of_bytes (slot_length h) (Nat.le_trans (slot_le h) (length_le_patch _ _ _)) ?_
  intro x hx
  rw [byteAt_patch, if_neg (by omega), byteAt_slot h hx]

/-- A write of at most one record at a slot boundary inside the file, or at
its end, leaves every other slot as it was. -/
theorem slot_patch_of_ne {w : Nat} {d : Bytes} {i j : Nat} {bs : Bytes}
    (hi : i * w ≤ d.length) (hbs : bs.length ≤ w) (hne : j ≠ i) :
    slot w (patch d (i * w) bs) j = slot w d j := by
  have hlen := length_patch_of_le bs hi
  have hdis := slots_disjoint (w := w) hne
  by_cases hj : j * w + w ≤ d.length
  · rw [slot_eq_some (by rw [hlen]; omega), slot_eq_some hj]
    congr 1
    apply List.ext_getElem?
    intro k
    simp only [List.getElem?_take, List.getElem?_drop]
    split
    · rw [getElem?_patch hi, if_neg (by omega)]
    · rfl
  · rw [slot_eq_none (by rw [hlen]; omega), slot_eq_none (by omega)]

/-- A record written whole is the record of its slot. -/
theorem slot_patch_self {w : Nat} {d : Bytes} {i : Nat} {bs : Bytes}
    (hi : i * w ≤ d.length) (hbs : bs.length = w) :
    slot w (patch d (i * w) bs) i = some bs := by
  have hlen := length_patch_of_le bs hi
  rw [slot_eq_some (by rw [hlen]; omega)]
  congr 1
  apply List.ext_getElem?
  intro k
  simp only [List.getElem?_take, List.getElem?_drop]
  split
  · rw [getElem?_patch hi, if_pos ⟨by omega, by omega⟩, Nat.add_sub_cancel_left]
  · exact (List.getElem?_eq_none (by omega)).symm

/-- A write cut short inside an existing record replaces only its first bytes. -/
theorem slot_patch_prefix {w : Nat} {d : Bytes} {i : Nat} {bs old : Bytes}
    (hold : slot w d i = some old) (hbs : bs.length ≤ w) :
    slot w (patch d (i * w) bs) i = some (bs ++ old.drop bs.length) := by
  have hw := slot_le hold
  have hi : i * w ≤ d.length := by omega
  have hlen := length_patch_of_le bs hi
  rw [slot_eq_some hw] at hold
  cases hold
  rw [slot_eq_some (by rw [hlen]; omega)]
  congr 1
  apply List.ext_getElem?
  intro k
  simp only [List.getElem?_take, List.getElem?_drop]
  by_cases hk : k < bs.length
  · rw [if_pos (by omega), getElem?_patch hi, if_pos ⟨by omega, by omega⟩,
      Nat.add_sub_cancel_left, List.getElem?_append_left hk]
  · rw [List.getElem?_append_right (by omega), List.getElem?_drop, List.getElem?_take,
      List.getElem?_drop, getElem?_patch hi]
    by_cases hkw : k < w
    · rw [if_pos hkw, if_neg (by omega), if_pos (by omega)]
      congr 1
      omega
    · rw [if_neg hkw, if_neg (by omega)]

/-- A write cut short at the end of the file does not make a whole record. -/
theorem slot_patch_short {w : Nat} {d : Bytes} {i : Nat} {bs : Bytes}
    (hi : i * w ≤ d.length) (hnone : slot w d i = none) (hbs : bs.length < w) :
    slot w (patch d (i * w) bs) i = none := by
  have hd : d.length < i * w + w := by
    by_contra h
    rw [slot_eq_some (by omega)] at hnone
    cases hnone
  apply slot_eq_none
  rw [length_patch_of_le bs hi]
  omega

/-- A later write of a whole record hides an earlier write to the same slot. -/
theorem patch_patch_self {w : Nat} {d : Bytes} {i : Nat} {bs bs' : Bytes}
    (hi : i * w ≤ d.length) (hbs : bs.length ≤ w) (hbs' : bs'.length = w) :
    patch (patch d (i * w) bs) (i * w) bs' = patch d (i * w) bs' := by
  have hlen := length_patch_of_le bs hi
  apply List.ext_getElem?
  intro k
  rw [getElem?_patch (by omega), getElem?_patch hi, getElem?_patch hi]
  split
  · rfl
  · rw [if_neg (by omega)]

/-- A write of a record changes nothing exactly if the record was there. -/
theorem patch_eq_self_iff {w : Nat} (hw : 0 < w) (d : Bytes) (i : Nat) {bs : Bytes} (hbs : bs.length = w) :
    patch d (i * w) bs = d ↔ slot w d i = some bs := by
  constructor
  · intro hsame
    have hwrite := slot_patch_whole hw d i hbs
    rwa [hsame] at hwrite
  · intro hslot
    have hle := slot_le hslot
    have hne : bs ≠ [] := by
      rintro rfl
      rw [List.length_nil] at hbs
      omega
    have hbytes : (d.drop (i * w)).take w = bs := by
      rw [slot_eq_some hle, Option.some.injEq] at hslot
      exact hslot
    have hpad : i * w - d.length = 0 := by omega
    rw [patch, if_neg hne, hpad, List.replicate_zero, List.append_nil, hbs, ← List.drop_drop, ← hbytes,
      List.append_assoc, List.take_append_drop, List.take_append_drop]

theorem slotCount_mul_le (w : Nat) (d : Bytes) : slotCount w d * w ≤ d.length :=
  Nat.div_mul_le_self _ _

/-! ### Reading record by record -/

variable {α β : Type*}

/-- `while (read(fd, &rec, w) == w) { ... }` for at most `fuel` records.  The
body goes on with new values of its variables (`inl`) or leaves the loop
(`inr`). -/
def readLoop (w : Nat) (body : α → Bytes → α ⊕ β) : Nat → File → α → (α ⊕ β) × File
  | 0, f, a => (.inl a, f)
  | fuel + 1, f, a =>
      let rd := f.read w
      if rd.1.length = w then
        match body a rd.1 with
        | .inl a' => readLoop w body fuel rd.2 a'
        | .inr b => (.inr b, rd.2)
      else (.inl a, rd.2)

/-- The loop of `readLoop` over a list of records. -/
def scanRecords (body : α → Bytes → α ⊕ β) : List Bytes → α → α ⊕ β
  | [], a => .inl a
  | bs :: rest, a =>
      match body a bs with
      | .inl a' => scanRecords body rest a'
      | .inr b => .inr b

/-- The whole records of a file, in order. -/
def records (w : Nat) (d : Bytes) : List Bytes :=
  (List.range (slotCount w d)).map fun i => (d.drop (i * w)).take w

theorem readLoop_data (w : Nat) (body : α → Bytes → α ⊕ β) (fuel : Nat) (f : File) (a : α) :
    (readLoop w body fuel f a).2.data = f.data := by
  induction fuel generalizing f a with
  | zero => rfl
  | succ fuel ih =>
      simp only [readLoop]
      split
      · split
        · rw [ih, read_data]
        · rfl
      · rfl

/-- **Reading record by record.**  From an offset behind which the file holds
the records `bss` and less than one record more, the loop runs over `bss`. -/
theorem readLoop_eq {w : Nat} (body : α → Bytes → α ⊕ β) {bss : List Bytes} (tail : Bytes)
    {fuel : Nat} {f : File} (a : α) (hdata : f.data.drop f.pos = bss.flatten ++ tail)
    (hlen : ∀ bs ∈ bss, bs.length = w) (htail : tail.length < w) (hfuel : bss.length < fuel) :
    (readLoop w body fuel f a).1 = scanRecords body bss a := by
  induction bss generalizing fuel f a with
  | nil =>
      obtain ⟨fuel, rfl⟩ : ∃ k, fuel = k + 1 := ⟨fuel - 1, by omega⟩
      have hread : (f.read w).1 = tail := by
        simp only [File.read, hdata, List.flatten_nil, List.nil_append]
        exact List.take_of_length_le (by omega)
      have hne : (f.read w).1.length ≠ w := by rw [hread]; omega
      simp only [readLoop, if_neg hne, scanRecords]
  | cons bs bss ih =>
      obtain ⟨fuel, rfl⟩ : ∃ k, fuel = k + 1 := ⟨fuel - 1, by omega⟩
      have hbs : bs.length = w := hlen bs List.mem_cons_self
      have hread : (f.read w).1 = bs := by
        simp only [File.read, hdata, List.flatten_cons, List.append_assoc]
        rw [List.take_append_of_le_length (by omega), List.take_of_length_le (by omega)]
      have hnext : (f.read w).2.data.drop (f.read w).2.pos = bss.flatten ++ tail := by
        have hpos : (f.read w).2.pos = f.pos + bs.length := by
          rw [← hread]
          rfl
        rw [read_data, hpos, ← List.drop_drop, hdata, List.flatten_cons, List.append_assoc,
          List.drop_left]
      simp only [readLoop, hread, hbs, if_true, scanRecords]
      cases body a bs with
      | inl a' =>
          simp only [List.length_cons] at hfuel
          exact ih a' hnext (fun b hb => hlen b (List.mem_cons_of_mem _ hb)) (by omega)
      | inr b => rfl

theorem getElem?_records {w : Nat} (hw : 0 < w) (d : Bytes) (i : Nat) :
    (records w d)[i]? = slot w d i := by
  simp only [records, List.getElem?_map]
  by_cases hi : i < slotCount w d
  · have hle : (i + 1) * w ≤ d.length :=
      Nat.le_trans (Nat.mul_le_mul_right w hi) (slotCount_mul_le w d)
    rw [List.getElem?_range hi, slot_eq_some (by rw [Nat.succ_mul] at hle; exact hle)]
    rfl
  · have hlt : d.length < (i + 1) * w :=
      (Nat.div_lt_iff_lt_mul hw).mp (by simp only [slotCount] at hi; omega)
    rw [List.getElem?_eq_none (by simpa using hi), slot_eq_none (by rw [Nat.succ_mul] at hlt; exact hlt)]
    rfl

theorem length_of_mem_records {w : Nat} {d bs : Bytes} (h : bs ∈ records w d) : bs.length = w := by
  obtain ⟨i, hi, rfl⟩ := List.mem_map.mp h
  have hle : (i + 1) * w ≤ d.length :=
    Nat.le_trans (Nat.mul_le_mul_right w (List.mem_range.mp hi)) (slotCount_mul_le w d)
  rw [Nat.succ_mul] at hle
  simp only [List.length_take, List.length_drop]
  omega

private theorem flatten_range_slices (w : Nat) (d : Bytes) (n : Nat) :
    ((List.range n).map fun i => (d.drop (i * w)).take w).flatten = d.take (n * w) := by
  induction n with
  | zero => simp
  | succ n ih =>
      rw [List.range_succ, List.map_append, List.flatten_append, ih, Nat.succ_mul, List.take_add]
      simp

/-- A file is its whole records and less than one record more. -/
theorem flatten_records {w : Nat} (d : Bytes) :
    d = (records w d).flatten ++ d.drop (slotCount w d * w) := by
  rw [records, flatten_range_slices, List.take_append_drop]

theorem drop_records_length {w : Nat} (hw : 0 < w) (d : Bytes) :
    (d.drop (slotCount w d * w)).length < w := by
  have hlt : d.length < (slotCount w d + 1) * w :=
    (Nat.div_lt_iff_lt_mul hw).mp (Nat.lt_succ_self _)
  rw [Nat.succ_mul] at hlt
  rw [List.length_drop]
  omega

theorem length_records (w : Nat) (d : Bytes) : (records w d).length = slotCount w d := by
  simp [records]

theorem length_flatten_of_lengths {w : Nat} {bss : List Bytes}
    (h : ∀ bs ∈ bss, bs.length = w) : bss.flatten.length = bss.length * w := by
  induction bss with
  | nil => simp
  | cons bs bss ih =>
      have hbs : bs.length = w := h bs List.mem_cons_self
      rw [List.flatten_cons, List.length_append, hbs,
        ih fun b hb => h b (List.mem_cons_of_mem _ hb), List.length_cons, Nat.succ_mul, Nat.add_comm]

/-- A file of whole records reads back as the records. -/
theorem records_flatten {w : Nat} (hw : 0 < w) {bss : List Bytes}
    (h : ∀ bs ∈ bss, bs.length = w) : records w bss.flatten = bss := by
  induction bss with
  | nil => simp [records, slotCount]
  | cons bs bss ih =>
      have hbs : bs.length = w := h bs List.mem_cons_self
      have htail : ∀ b ∈ bss, b.length = w := fun b hb => h b (List.mem_cons_of_mem _ hb)
      have hcount : slotCount w (bs :: bss).flatten = slotCount w bss.flatten + 1 := by
        simp only [slotCount, length_flatten_of_lengths h, length_flatten_of_lengths htail]
        rw [Nat.mul_div_cancel _ hw, Nat.mul_div_cancel _ hw, List.length_cons]
      have hhead : ((bs :: bss).flatten.drop (0 * w)).take w = bs := by
        rw [Nat.zero_mul, List.drop_zero, List.flatten_cons, ← hbs, List.take_left]
      have hrest : ∀ i, ((bs :: bss).flatten.drop (Nat.succ i * w)).take w =
          (bss.flatten.drop (i * w)).take w := by
        intro i
        have hshift : Nat.succ i * w = bs.length + i * w := by
          rw [hbs, Nat.succ_mul, Nat.add_comm]
        rw [hshift, ← List.drop_drop, List.flatten_cons, List.drop_left]
      rw [records, hcount, List.range_succ_eq_map, List.map_cons, List.map_map, hhead]
      simp only [Function.comp_def, hrest]
      exact congrArg (bs :: ·) (ih htail)

/-- Whole records and less than one more read back as the records. -/
theorem records_flatten_append {w : Nat} (hw : 0 < w) {bss : List Bytes} (tail : Bytes)
    (h : ∀ bs ∈ bss, bs.length = w) (htail : tail.length < w) : records w (bss.flatten ++ tail) = bss := by
  have hlen : bss.flatten.length = bss.length * w := length_flatten_of_lengths h
  have hcount : slotCount w (bss.flatten ++ tail) = slotCount w bss.flatten := by
    rw [slotCount, slotCount, List.length_append, hlen, Nat.mul_div_cancel _ hw, Nat.mul_comm,
      Nat.mul_add_div hw, Nat.div_eq_of_lt htail, Nat.add_zero]
  have hwhole : slotCount w bss.flatten = bss.length := by rw [slotCount, hlen, Nat.mul_div_cancel _ hw]
  calc records w (bss.flatten ++ tail) = records w bss.flatten := by
        rw [records, records, hcount]
        apply List.map_congr_left
        intro i hi
        have hle : (i + 1) * w ≤ bss.length * w :=
          Nat.mul_le_mul_right w (by have := List.mem_range.mp hi; omega)
        rw [Nat.succ_mul] at hle
        rw [List.drop_append_of_le_length (by omega),
          List.take_append_of_le_length (by rw [List.length_drop]; omega)]
    _ = bss := records_flatten hw h

/-- What is appended leaves the whole records, and continues the part behind them. -/
theorem records_append {w : Nat} (hw : 0 < w) (d x : Bytes) :
    records w (d ++ x) = records w d ++ records w (d.drop (slotCount w d * w) ++ x) := by
  have hrest := flatten_records (w := w) (d.drop (slotCount w d * w) ++ x)
  have hlengths : ∀ bs ∈ records w d ++ records w (d.drop (slotCount w d * w) ++ x), bs.length = w := by
    intro bs hbs
    rcases List.mem_append.mp hbs with hbs | hbs <;> exact length_of_mem_records hbs
  have hsplit : d ++ x = (records w d ++ records w (d.drop (slotCount w d * w) ++ x)).flatten ++
      (d.drop (slotCount w d * w) ++ x).drop
        (slotCount w (d.drop (slotCount w d * w) ++ x) * w) := by
    rw [List.flatten_append, List.append_assoc, ← hrest, ← List.append_assoc, ← flatten_records]
  have hrecords := records_flatten_append hw _ hlengths
    (drop_records_length hw (d.drop (slotCount w d * w) ++ x))
  rwa [← hsplit] at hrecords

/-- Bytes for one record, but not for two. -/
theorem records_single {w : Nat} (hw : 0 < w) {y : Bytes} (hle : w ≤ y.length) (hlt : y.length < w + w) :
    records w y = [y.take w] := by
  have hlengths : ∀ bs ∈ [y.take w], bs.length = w := by
    intro bs hbs
    rw [List.mem_singleton.mp hbs, List.length_take, Nat.min_eq_left hle]
  have hrecords := records_flatten_append hw (y.drop w) hlengths (by rw [List.length_drop]; omega)
  rwa [List.flatten_singleton, List.take_append_drop] at hrecords

/-- The loop from the start of any file. -/
theorem readLoop_start {w : Nat} (hw : 0 < w) (body : α → Bytes → α ⊕ β) (f : File) (a : α) :
    (readLoop w body (f.data.length + 1) (f.seek 0) a).1 = scanRecords body (records w f.data) a := by
  have hpos : (f.seek 0).pos = 0 := seek_pos_natCast f 0
  refine readLoop_eq body (f.data.drop (slotCount w f.data * w)) a ?_
    (fun bs hbs => length_of_mem_records hbs) (drop_records_length hw _) ?_
  · rw [seek_data, hpos, List.drop_zero]
    exact flatten_records f.data
  · rw [length_records, slotCount]
    exact Nat.lt_succ_of_le (Nat.div_le_self _ _)

end RecordFile
