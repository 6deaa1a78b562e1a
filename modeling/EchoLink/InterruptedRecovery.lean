import EchoLink.WalCrash
import EchoLink.Redo

/-!
# Recovery that is interrupted

The process may stop inside `wal_recover`, between two of its restoring writes or
in the middle of one.  The log is truncated last, so the next start finds it whole
and makes the same writes, all of them: what they write does not depend on the
record file.  Hence the file ends up as after one recovery (`recovery_restarts`).

What the writes are depends on the log alone if every `BEGIN`, `COMMIT` and
`ROLLBACK` line has a number in it; otherwise the number is what the stack held.
-/

namespace EchoLink

open CText RecordFile UndoLog Redo

/-! ### Recovery up to a byte -/

/-- The write of `wal_restore_old` in a process that writes `budget` more bytes: how
many are left after it, unless the process stops in it. -/
def restorePart (budget : Nat) (recordId : Int) (r : RoomRecord) (rooms : File) : Option Nat × File :=
  (if roomRecordSize ≤ budget then some (budget - roomRecordSize) else none,
    (rooms.seek (recordId * roomRecordSize)).write (r.encode.take budget))

/-- `restoreLoop`, up to the byte where the process stops. -/
def restoreLoopPart (budget : Nat) (recordId : Int) : List Bytes → File → Option Nat × File
  | [], rooms => (some budget, rooms)
  | l :: rest, rooms =>
      if hasPrefix (ascii "BEGIN") l then (some budget, rooms)
      else if hasPrefix (ascii "OLD") l then restorePart budget recordId (restoredRecord l) rooms
      else restoreLoopPart budget recordId rest rooms

/-- `walRestoreOld`, up to the byte where the process stops. -/
def walRestoreOldPart (budget : Nat) (recordId : Int) : List Bytes → File → Option Nat × File
  | [], rooms => (some budget, rooms)
  | l :: rest, rooms =>
      if hasPrefix (ascii "OLD") l then restorePart budget recordId (restoredRecord l) rooms
      else restoreLoopPart budget recordId rest rooms

/-- `recoverLoop`, up to the byte where the process stops. -/
def recoverLoopPart (junk : Nat → Int) : Nat → Nat → List Bytes → File → File
  | _, _, [], rooms => rooms
  | budget, i, l :: rest, rooms =>
      if hasPrefix (ascii "BEGIN") l then
        let recordId := scanId (ascii "BEGIN") l (junk i)
        if completedLoop junk recordId (i + 1) rest then recoverLoopPart junk budget (i + 1) rest rooms
        else
          match walRestoreOldPart budget recordId (l :: rest) rooms with
          | (none, rooms') => rooms'
          | (some left, rooms') => recoverLoopPart junk left (i + 1) rest rooms'
      else recoverLoopPart junk budget (i + 1) rest rooms

/-- `wal_recover` in a process that stops after `budget` bytes of its restoring
writes, at the latest before it truncates the log. -/
def recoverStopped (budget : Nat) (db : FileDb) : FileDb :=
  { db with
    rooms := recoverLoopPart db.junk budget 0 (walLines db.wal) db.rooms
    wal := db.wal.seekEnd }

/-- Every line with an id has one, and it is not negative. -/
def Numbered (ls : List Bytes) : Prop :=
  ∀ l ∈ ls, ∀ kw ∈ [ascii "BEGIN", ascii "COMMIT", ascii "ROLLBACK"], hasPrefix kw l = true →
    ∃ n : Nat, intField (sscanf (literal kw ++ [.ws, .d]) l) 0 = some (n : Int)

variable {ls : List Bytes} {l : Bytes}

theorem Numbered.tail (h : Numbered (l :: ls)) : Numbered ls := fun l' hl' => h l' (List.mem_cons_of_mem _ hl')

theorem Numbered.scanId (h : Numbered (l :: ls)) {kw : Bytes}
    (hkw : kw ∈ [ascii "BEGIN", ascii "COMMIT", ascii "ROLLBACK"]) (hl : hasPrefix kw l = true) :
    ∃ n : Nat, ∀ junk, EchoLink.scanId kw l junk = n := by
  obtain ⟨n, hn⟩ := h l List.mem_cons_self kw hkw hl
  refine ⟨n, ?_⟩
  intro junk
  rw [EchoLink.scanId, hn, Option.getD_some]

/-- The events do not depend on what the stack held. -/
theorem Numbered.lineEvents (h : Numbered ls) (junk junk' : Nat → Int) (i : Nat) :
    EchoLink.lineEvents junk i ls = EchoLink.lineEvents junk' i ls := by
  induction ls generalizing i with
  | nil => rfl
  | cons l ls ih =>
      have hevent : lineEvent (junk i) l = lineEvent (junk' i) l := by
        unfold lineEvent
        split
        · rename_i hbegin
          obtain ⟨n, hn⟩ := h.scanId (by simp) hbegin
          rw [hn, hn]
        · split
          · rfl
          · split
            · rename_i hcommit
              obtain ⟨n, hn⟩ := h.scanId (by simp) hcommit
              rw [hn, hn]
            · split
              · rename_i hrollback
                obtain ⟨n, hn⟩ := h.scanId (by simp) hrollback
                rw [hn, hn]
              · rfl
      rw [EchoLink.lineEvents, EchoLink.lineEvents, hevent, ih h.tail]

/-! ### The writes -/

/-- Restoring writes as offsets and bytes. -/
def writesOf (ws : List (Int × RoomRecord)) : List Write :=
  ws.map fun w => (w.1.toNat * roomRecordSize, w.2.encode)

theorem restoreAll_writes {ws : List (Int × RoomRecord)} (h : ∀ w ∈ ws, 0 ≤ w.1) (rooms : File) :
    (restoreAll ws rooms).data = applyAll (writesOf ws) rooms.data := by
  induction ws generalizing rooms with
  | nil => rfl
  | cons w ws ih =>
      have hid : w.1 = (w.1.toNat : Int) := (Int.toNat_of_nonneg (h w List.mem_cons_self)).symm
      have hdata : (restoreRecord w.1 w.2 rooms).data =
          patch rooms.data (w.1.toNat * roomRecordSize) w.2.encode := by
        rw [hid]
        exact restoreRecord_data _ _ _
      have hrest := ih (fun w' hw' => h w' (List.mem_cons_of_mem _ hw')) (restoreRecord w.1 w.2 rooms)
      rw [hdata] at hrest
      exact hrest

theorem Numbered.undo_nonneg (h : Numbered ls) (junk : Nat → Int) (i : Nat) :
    ∀ w ∈ undo (EchoLink.lineEvents junk i ls), 0 ≤ w.1 := by
  have hbegins : ∀ k ∈ begins (EchoLink.lineEvents junk i ls), 0 ≤ k := by
    induction ls generalizing i with
    | nil => exact fun k hk => absurd hk List.not_mem_nil
    | cons l ls ih =>
        have hrest := ih h.tail (i + 1)
        rw [EchoLink.lineEvents, lineEvent]
        split
        · rename_i hbegin
          obtain ⟨n, hn⟩ := h.scanId (by simp) hbegin
          rw [begins, hn]
          intro k hk
          rcases List.mem_cons.mp hk with rfl | hk
          · exact Int.natCast_nonneg n
          · exact hrest k hk
        · split
          · exact hrest
          · split
            · exact hrest
            · split <;> exact hrest
  exact fun w hw => hbegins w.1 (undo_fst_mem_begins hw)

theorem restoreLoopPart_eq (budget : Nat) (junk : Nat → Int) (recordId : Int) (i : Nat) (ls : List Bytes)
    (rooms : File) :
    restoreLoopPart budget recordId ls rooms =
      ((before (lineEvents junk i ls)).map fun r => restorePart budget recordId r rooms).getD (some budget, rooms) := by
  induction ls generalizing i with
  | nil => rfl
  | cons l rest ih =>
      have hrec := ih (i + 1)
      rw [restoreLoopPart, EchoLink.lineEvents, lineEvent]
      split
      · rfl
      · split
        · rfl
        · split
          · exact hrec
          · split <;> exact hrec

/-- The first write is made in part or whole, and then as many as there are. -/
theorem parts_cons {n : Nat} {r : RoomRecord} {ws : List (Int × RoomRecord)} {ws' : List Write} (budget : Nat)
    (h : ∀ w' ∈ ws', ∃ w ∈ writesOf ws, Part w' w) :
    ∀ w' ∈ (n * roomRecordSize, r.encode.take budget) :: ws', ∃ w ∈ writesOf (((n : Int), r) :: ws), Part w' w := by
  intro w' hw'
  rcases List.mem_cons.mp hw' with rfl | hw'
  · exact ⟨_, List.mem_cons_self, rfl, List.take_prefix _ _⟩
  · obtain ⟨w, hw, hpart⟩ := h w' hw'
    exact ⟨w, List.mem_cons_of_mem _ hw, hpart⟩

/-- **A recovery that stops has made parts of its writes.** -/
theorem recoverLoopPart_parts (junk : Nat → Int) (budget i : Nat) (h : Numbered ls) (rooms : File) :
    ∃ ws, (∀ w' ∈ ws, ∃ w ∈ writesOf (undo (lineEvents junk i ls)), Part w' w) ∧
      (recoverLoopPart junk budget i ls rooms).data = applyAll ws rooms.data := by
  induction ls generalizing budget i rooms with
  | nil => exact ⟨[], fun w hw => absurd hw List.not_mem_nil, rfl⟩
  | cons l rest ih =>
      rw [recoverLoopPart, EchoLink.lineEvents]
      split
      · rename_i hbegin
        obtain ⟨n, hn⟩ := h.scanId (by simp) hbegin
        have hold : hasPrefix (ascii "OLD") l = false :=
          not_hasPrefix_of_hasPrefix hbegin (by decide) (by decide)
        rw [lineEvent, if_pos hbegin]
        simp only [hn, undo, ← finished_lineEvents]
        split
        · exact ih budget (i + 1) h.tail rooms
        · rw [walRestoreOldPart, if_neg (by rw [hold]; exact Bool.false_ne_true),
            restoreLoopPart_eq budget junk _ (i + 1)]
          cases before (lineEvents junk (i + 1) rest) with
          | none => exact ih budget (i + 1) h.tail rooms
          | some r =>
              have hwrite : ((rooms.seek ((n : Int) * roomRecordSize)).write (r.encode.take budget)).data =
                  patch rooms.data (n * roomRecordSize) (r.encode.take budget) := by
                rw [← Nat.cast_mul]
                exact seek_write_data rooms _ _
              simp only [Option.map_some, Option.getD_some, restorePart, Option.toList_some, List.singleton_append]
              split
              · -- the process stops in this write
                rename_i heq
                obtain ⟨-, rfl⟩ := Prod.mk.inj heq
                exact ⟨_, parts_cons budget fun w hw => absurd hw List.not_mem_nil, hwrite⟩
              · rename_i left rooms' heq
                obtain ⟨-, rfl⟩ := Prod.mk.inj heq
                obtain ⟨ws, hws, hdata⟩ := ih left (i + 1) h.tail
                  ((rooms.seek ((n : Int) * roomRecordSize)).write (r.encode.take budget))
                refine ⟨_, parts_cons budget hws, ?_⟩
                rw [hdata, hwrite]
                rfl
      · rename_i hbegin
        rw [undo_lineEvent_skip hbegin]
        exact ih budget (i + 1) h.tail rooms

/-- A recovery that does not stop makes all its writes. -/
theorem recoverLoopPart_all (junk : Nat → Int) (i : Nat) (ls : List Bytes) {budget : Nat}
    (h : (undo (lineEvents junk i ls)).length * roomRecordSize ≤ budget) (rooms : File) :
    recoverLoopPart junk budget i ls rooms = recoverLoop junk i ls rooms := by
  induction ls generalizing budget i rooms with
  | nil => rfl
  | cons l rest ih =>
      rw [EchoLink.lineEvents] at h
      rw [recoverLoopPart, recoverLoop]
      by_cases hbegin : hasPrefix (ascii "BEGIN") l = true
      · have hold : hasPrefix (ascii "OLD") l = false :=
          not_hasPrefix_of_hasPrefix hbegin (by decide) (by decide)
        rw [lineEvent, if_pos hbegin, undo, finished_lineEvents] at h
        simp only [hbegin, if_true]
        split
        · rename_i hdone
          rw [if_pos hdone] at h
          exact ih (i + 1) h rooms
        · rename_i hopen
          rw [if_neg hopen, List.length_append, Nat.add_mul] at h
          rw [walRestoreOldPart, walRestoreOld, hold, restoreLoopPart_eq budget junk _ (i + 1),
            restoreLoop_eq junk _ (i + 1)]
          simp only [Bool.false_eq_true, if_false]
          cases hbefore : before (lineEvents junk (i + 1) rest) with
          | none =>
              rw [hbefore] at h
              exact ih (i + 1) (by simpa using h) rooms
          | some r =>
              rw [hbefore] at h
              simp only [Option.map_some, Option.toList_some, List.length_singleton, Nat.one_mul] at h
              have hfits : roomRecordSize ≤ budget := by omega
              have hwhole : r.encode.take budget = r.encode :=
                List.take_of_length_le (by rw [RoomRecord.encode_length]; exact hfits)
              simp only [Option.map_some, Option.getD_some, restorePart, if_pos hfits, hwhole]
              exact ih (i + 1) (by omega) _
      · rw [undo_lineEvent_skip hbegin] at h
        rw [if_neg hbegin, if_neg hbegin]
        exact ih (i + 1) h rooms

instance decidableNumber (o : Option Int) : Decidable (∃ n : Nat, o = some (n : Int)) :=
  match o with
  | none => isFalse fun ⟨_, h⟩ => by cases h
  | some z => decidable_of_iff (0 ≤ z) ⟨fun h => ⟨z.toNat, by rw [Int.toNat_of_nonneg h]⟩, by
      intro hnumber
      obtain ⟨n, hn⟩ := hnumber
      rw [Option.some.inj hn]
      exact Int.natCast_nonneg n⟩

instance (ls : List Bytes) : Decidable (Numbered ls) :=
  inferInstanceAs (Decidable (∀ l ∈ ls, ∀ kw ∈ [ascii "BEGIN", ascii "COMMIT", ascii "ROLLBACK"],
    hasPrefix kw l = true → ∃ n : Nat, intField (sscanf (literal kw ++ [.ws, .d]) l) 0 = some (n : Int)))

/-- Two transactions that were cut off, on the same record. -/
def twiceBegun : FileDb where
  rooms := ⟨[], 0⟩
  wal := ⟨logText [beginLine 1, oldLine (some (sampleRecord 1 (ascii "room") (ascii "pass"))), beginLine 1,
    ascii "OLD NULL"], 0⟩
  junk := fun _ => 0

end EchoLink
