import EchoLink.TornLog
import EchoLink.SequentialLog

/-!
# A log that could not be truncated

When `ftruncate` fails, `wal_recover` goes on and sets the offset to 0.  The calls
that follow write their lines over the old ones, and the next recovery reads a
splice: the new lines, then the end of the old log behind some byte of it.

The new transactions are finished.  Of the old log only the last transaction can be
unfinished, and a cut at any byte makes no other one of it (`restAfter_undo`).  If its
`BEGIN` line is still there it is undone a second time, over whatever the later calls
have stored.  `kept_log_iff` says when that leaves the record file as it was.
-/

namespace EchoLink

open CText RecordFile UndoLog

/-- `wal_recover` when `ftruncate` fails. -/
def walRecoverKept (db : FileDb) : FileDb :=
  if db.wal.data = [] then { db with wal := db.wal.seekEnd }
  else
    { db with
      rooms := recoverLoop db.junk 0 (walLines db.wal) db.rooms
      wal := { data := db.wal.data, pos := 0 } }

/-! ### Writing over a log -/

/-- The log holds the lines `ls`, written over the text `kept`. -/
structure LogOver (kept : Bytes) (wal : File) (ls : List Bytes) : Prop where
  data : wal.data = logText ls ++ kept.drop (logText ls).length
  pos : wal.pos = (logText ls).length
  whole : ∀ l ∈ ls, WholeLine l

variable {kept : Bytes} {db : FileDb} {ls : List Bytes}

theorem walRecoverKept_over (db : FileDb) : LogOver db.wal.data (walRecoverKept db).wal [] := by
  unfold walRecoverKept
  split
  · rename_i hnil
    exact ⟨by simp [hnil, logText], by simp [hnil, logText, File.seekEnd], by simp⟩
  · exact ⟨rfl, rfl, by simp⟩

/-- A log write covers the next bytes of the old text. -/
theorem LogOver.write (h : LogOver kept db.wal ls) {l : Bytes} (hl : WholeLine l) :
    LogOver kept (walWrite db l).wal (ls ++ [l]) := by
  have hne : l ++ [10] ≠ [] := by simp
  have htext : logText (ls ++ [l]) = logText ls ++ (l ++ [10]) := by simp [logText]
  have hgap : (logText ls).length - (logText ls ++ kept.drop (logText ls).length).length = 0 := by
    rw [List.length_append]
    omega
  refine ⟨?_, ?_, ?_⟩
  · simp only [walWrite, File.write, h.data, h.pos]
    rw [patch, if_neg hne, hgap, List.take_left, List.replicate_zero, List.append_nil, List.drop_append,
      List.drop_of_length_le (Nat.le_add_right _ _), List.nil_append, Nat.add_sub_cancel_left, List.drop_drop,
      htext, ← List.length_append]
  · simp only [walWrite, File.write, h.pos, htext, List.length_append]
  · intro l' hl'
    rcases List.mem_append.mp hl' with hmem | hmem
    · exact h.whole l' hmem
    · rw [List.mem_singleton.mp hmem]
      exact hl

/-- A call that commits. -/
theorem runAny_over {c : AnyCall} (h : LogOver kept db.wal ls) (hnew : OneLine c.record)
    (hold : ∀ old, (readRawAt db c.roomId).1 = some old → OneLine old) (hcommit : roomRecordSize ≤ c.wrote) :
    LogOver kept (runAny db c).wal (ls ++ anyLines db c) := by
  have hread : LogOver kept (readRawAt db c.roomId).2.wal ls := h
  have hbegun := ((hread.write (beginLine_whole c.roomId)).write (oldLine_oneLine hold)).write (newLine_whole hnew)
  have hstored : LogOver kept (storeAt c.wrote (walBegin (readRawAt db c.roomId).2 c.roomId
      (readRawAt db c.roomId).1 c.record) c.roomId c.record).wal
        (ls ++ [beginLine c.roomId, oldLine (readRawAt db c.roomId).1, newLine c.record]) := by
    simpa [storeAt, walBegin] using hbegun
  have hwhole : ¬ c.wrote < roomRecordSize := by omega
  have hdone := hstored.write (commitLine_whole c.roomId)
  rw [List.append_assoc] at hdone
  rw [runAny, writeRoomAt, if_neg hwhole, anyLines, if_neg hwhole]
  exact hdone

theorem runAnyAll_over {cs : List AnyCall} (h : LogOver kept db.wal ls) (hcs : OneLineAll db cs)
    (hcommit : ∀ c ∈ cs, roomRecordSize ≤ c.wrote) :
    LogOver kept (runAnyAll db cs).wal (ls ++ anyHistory db cs) := by
  induction cs generalizing db ls with
  | nil => simpa [runAnyAll, anyHistory] using h
  | cons c cs ih =>
      have hone := runAny_over h hcs.1 hcs.2.1 (hcommit c List.mem_cons_self)
      have hrest := ih hone hcs.2.2 fun c' hc' => hcommit c' (List.mem_cons_of_mem _ hc')
      simpa [runAnyAll, anyHistory] using hrest

/-! ### The lines of the old log -/

/-- The lines can be read as a log of a single writer, wherever they stand. -/
def SingleWriter (ls : List Bytes) : Prop :=
  ∀ (junk : Nat → Int) (i : Nat), Sequential (lineEvents junk i ls)

/-- No later byte of a `BEGIN` line starts the keyword again. -/
def BareBegin (l : Bytes) : Prop := hasPrefix (ascii "BEGIN") l = true → (66 : UInt8) ∉ l.tail

theorem BareBegin.take {l : Bytes} (h : BareBegin l) (k : Nat) : BareBegin (l.take k) := by
  intro hbegin hmem
  have hwhole : hasPrefix (ascii "BEGIN") l = true :=
    hasPrefix_iff.mpr ((hasPrefix_iff.mp hbegin).trans (List.take_prefix k l))
  have hsub : (l.take k).tail.Sublist l.tail := (List.take_sublist k l).tail
  exact h hwhole (hsub.subset hmem)

theorem BareBegin.drop {l : Bytes} (h : BareBegin l) (hbegin : hasPrefix (ascii "BEGIN") l = true) {p : Nat}
    (hp : p ≠ 0) : hasPrefix (ascii "BEGIN") (l.drop p) = false := by
  by_contra hagain
  rw [Bool.not_eq_false] at hagain
  obtain ⟨n, rfl⟩ := Nat.exists_eq_succ_of_ne_zero hp
  have hmem : (66 : UInt8) ∈ l.drop (n + 1) := (hasPrefix_iff.mp hagain).subset (by decide)
  rw [Nat.add_comm, ← List.drop_drop, List.drop_one] at hmem
  exact h hbegin ((List.drop_sublist n _).subset hmem)

/-- A line of which only a part is there. -/
def TornWell (l : Bytes) : Prop :=
  ∀ (junk : Int) (k : Nat), k ≠ 0 → Torn (lineEvent junk (l.take k)) (lineEvent junk l)

/-- What the lines of a call satisfy. -/
structure LogLine (l : Bytes) : Prop where
  whole : WholeLine l
  bare : BareBegin l
  torn : TornWell l

/-- Less than a keyword is none. -/
theorem keyword_cut : ∀ kw ∈ [ascii "BEGIN", ascii "OLD", ascii "COMMIT", ascii "ROLLBACK"],
    ∀ k < kw.length, ∀ kw' ∈ [ascii "BEGIN", ascii "OLD", ascii "COMMIT", ascii "ROLLBACK"],
      hasPrefix kw' (kw.take k) = false := by
  decide

/-- A line that starts with a keyword and was cut off in it, or behind it. -/
theorem tornWell_keyword (kw : Bytes) (hkw : kw ∈ [ascii "BEGIN", ascii "OLD", ascii "COMMIT", ascii "ROLLBACK"])
    (hevent : ∀ junk rest rest', Torn (lineEvent junk (kw ++ rest)) (lineEvent junk (kw ++ rest')))
    (rest : Bytes) : TornWell (kw ++ rest) := by
  intro junk k _
  by_cases hk : k < kw.length
  · have hcut := keyword_cut kw hkw k hk
    have hother : lineEvent junk ((kw ++ rest).take k) = .other := by
      rw [List.take_append_of_le_length (Nat.le_of_lt hk)]
      simp [lineEvent, hcut]
    rw [hother]
    exact Torn.lost _
  · rw [List.take_append, List.take_of_length_le (Nat.le_of_not_lt hk)]
    exact hevent junk _ rest

theorem beginLine_logLine (z : Int) : LogLine (beginLine z) where
  whole := beginLine_whole z
  bare := by
    intro _ hmem
    have hdigits : (66 : UInt8) ∉ decimalInt z := not_mem_decimalInt (by decide) (by decide)
    have htail : (beginLine z).tail = 69 :: 71 :: 73 :: 78 :: 32 :: decimalInt z := rfl
    rw [htail] at hmem
    simp [hdigits] at hmem
  torn := tornWell_keyword (ascii "BEGIN") (by decide) (fun _ _ _ => Torn.begin _ _) _

theorem bareBegin_of_keyword {kw : Bytes} (h : ¬ ascii "BEGIN" <+: kw ∧ ¬ kw <+: ascii "BEGIN") (rest : Bytes) :
    BareBegin (kw ++ rest) := by
  intro hbegin
  rw [not_hasPrefix_of_hasPrefix (hasPrefix_append kw rest) h.2 h.1] at hbegin
  cases hbegin

theorem commitLine_logLine (z : Int) : LogLine (commitLine z) where
  whole := commitLine_whole z
  bare := bareBegin_of_keyword (by decide) _
  torn := tornWell_keyword (ascii "COMMIT") (by decide) (fun _ _ _ => Torn.finish _ _) _

theorem rollbackLine_logLine (z : Int) : LogLine (rollbackLine z) where
  whole := rollbackLine_whole z
  bare := bareBegin_of_keyword (by decide) _
  torn := tornWell_keyword (ascii "ROLLBACK") (by decide) (fun _ _ _ => Torn.finish _ _) _

theorem oldLine_logLine {o : Option RoomRecord} (h : ∀ r, o = some r → OneLine r) : LogLine (oldLine o) := by
  obtain ⟨rest, hrest⟩ : ∃ rest, oldLine o = ascii "OLD" ++ rest := by
    cases o with
    | none => exact ⟨ascii " NULL", by decide⟩
    | some r => exact ⟨recordText r, rfl⟩
  refine ⟨oldLine_oneLine h, ?_, ?_⟩
  · rw [hrest]
    exact bareBegin_of_keyword (by decide) _
  · rw [hrest]
    exact tornWell_keyword (ascii "OLD") (by decide) (fun _ _ _ => Torn.old _ _) _

theorem newLine_logLine {r : RoomRecord} (h : OneLine r) : LogLine (newLine r) where
  whole := newLine_whole h
  bare := bareBegin_of_keyword (by decide) _
  torn := by
    intro junk k hk
    rw [lineEvent_new_cut junk r hk]
    exact Torn.lost _

theorem anyHistory_logLines {hist : List AnyCall} (h : OneLineAll db hist) : ∀ l ∈ anyHistory db hist, LogLine l := by
  induction hist generalizing db with
  | nil => exact fun l hl => absurd hl List.not_mem_nil
  | cons c hist ih =>
      intro l hl
      rcases List.mem_append.mp hl with hl | hl
      · simp only [anyLines, List.mem_cons, List.not_mem_nil, or_false] at hl
        rcases hl with rfl | rfl | rfl | rfl
        · exact beginLine_logLine _
        · exact oldLine_logLine h.2.1
        · exact newLine_logLine h.1
        · split
          · exact rollbackLine_logLine _
          · exact commitLine_logLine _
      · exact ih h.2.2 l hl

/-! ### Parts of the old log -/

/-- A log that starts one line later. -/
theorem lineEvents_shift (junk : Nat → Int) (i : Nat) (ls : List Bytes) :
    lineEvents (fun k => junk (k - 1)) (i + 1) ls = lineEvents junk i ls := by
  induction ls generalizing i with
  | nil => rfl
  | cons l ls ih =>
      have hrest := ih (i + 1)
      simp only [lineEvents, Nat.add_sub_cancel, hrest]

theorem lineEvents_take (junk : Nat → Int) (i : Nat) (ls : List Bytes) (n : Nat) :
    lineEvents junk i (ls.take n) = (lineEvents junk i ls).take n := by
  induction ls generalizing i n with
  | nil => simp [lineEvents]
  | cons l ls ih =>
      cases n with
      | zero => rfl
      | succ n => simp only [List.take_succ_cons, lineEvents, ih]

theorem SingleWriter.tail {l : Bytes} (h : SingleWriter (l :: ls)) : SingleWriter ls := by
  intro junk i
  rw [← lineEvents_shift]
  exact (h (fun k => junk (k - 1)) i).tail

theorem SingleWriter.drop (h : SingleWriter ls) (n : Nat) : SingleWriter (ls.drop n) := by
  induction n generalizing ls with
  | zero => exact h
  | succ n ih =>
      cases ls with
      | nil => exact h
      | cons l ls => exact ih h.tail

theorem SingleWriter.take (h : SingleWriter ls) (n : Nat) : SingleWriter (ls.take n) := by
  intro junk i
  rw [lineEvents_take]
  exact (h junk i).take n

theorem SingleWriter.torn {l : Bytes} (h : SingleWriter (ls ++ [l])) (hl : TornWell l) {k : Nat} (hk : k ≠ 0) :
    SingleWriter (ls ++ [l.take k]) := by
  intro junk i
  have hwhole := h junk i
  rw [lineEvents_append] at hwhole ⊢
  exact hwhole.torn (hl _ k hk)

theorem anyHistory_singleWriter (db : FileDb) (hist : List AnyCall) : SingleWriter (anyHistory db hist) := by
  intro junk i
  obtain ⟨txns, htxns⟩ := lineEvents_anyHistory junk i db hist hist.length
  rw [← anyHistory_length db hist, List.take_length] at htxns
  rw [htxns]
  exact sequential_closed txns

/-- The lines of a log that was cut off at any byte. -/
theorem cut_lines {ls : List Bytes} (hls : ∀ l ∈ ls, LogLine l) (hwriter : SingleWriter ls) (n : Nat) :
    SingleWriter (lines ((logText ls).take n)) ∧ (∀ l ∈ lines ((logText ls).take n), BareBegin l) := by
  obtain ⟨N, t, htake, ht⟩ := take_flatMap_lines ls n
  have hwhole : ∀ l ∈ ls.take N, WholeLine l := fun l hl => (hls l (List.mem_of_mem_take hl)).whole
  have hbare : ∀ l ∈ ls.take N, BareBegin l := fun l hl => (hls l (List.mem_of_mem_take hl)).bare
  rw [logText, htake, lines_flatMap_append hwhole]
  rcases ht with rfl | ⟨l, k, hl, hk, rfl⟩
  · rw [lines_nil, List.append_nil]
    exact ⟨hwriter.take N, hbare⟩
  · have hline := hls l (List.mem_of_getElem? hl)
    have hpart : lines (l.take k) = [l.take k] := by
      apply lines_single
      · simp only [ne_eq, List.take_eq_nil_iff, not_or]
        exact ⟨hk, hline.whole.1⟩
      · exact fun hmem => hline.whole.2.1 (List.mem_of_mem_take hmem)
      · exact fun hmem => hline.whole.2.2 (List.mem_of_mem_take hmem)
    have hnext : ls.take N ++ [l] = ls.take (N + 1) := by
      rw [List.take_add_one, hl]
      rfl
    rw [hpart]
    constructor
    · apply SingleWriter.torn _ hline.torn hk
      rw [hnext]
      exact hwriter.take (N + 1)
    · intro l' hl'
      rcases List.mem_append.mp hl' with hmem | hmem
      · exact hbare l' hmem
      · rw [List.mem_singleton.mp hmem]
        exact hline.bare.take k

theorem isBegin_lineEvent (junk : Int) (l : Bytes) :
    (lineEvent junk l).isBegin = hasPrefix (ascii "BEGIN") l := by
  unfold lineEvent
  split
  · rename_i hbegin
    rw [hbegin, isBegin_begin]
  · rename_i hbegin
    rw [Bool.not_eq_true] at hbegin
    rw [hbegin]
    split
    · rfl
    · split
      · rfl
      · split <;> rfl

/-- **What is left behind a byte of the old log** restores one record at most. -/
theorem rest_undo {old : Bytes} (h0 : (0 : UInt8) ∉ old) (hwriter : SingleWriter (lines old))
    (hbare : ∀ l ∈ lines old, BareBegin l) (junk : Nat → Int) (i n m : Nat) :
    undo (lineEvents junk i ((lines (old.drop n)).take m)) = [] ∨
      ∃ w, undo (lineEvents junk i ((lines (old.drop n)).take m)) = [w] := by
  obtain ⟨j, hwhole | ⟨l, p, hl, hp, hpart⟩⟩ := lines_drop h0 n
  · rw [hwhole]
    exact ((hwriter.drop j).take m junk i).undo
  · rw [hpart]
    cases m with
    | zero => exact Or.inl rfl
    | succ m =>
        have hfrom : (lines old).drop j = l :: (lines old).drop (j + 1) := by
          rw [List.drop_eq_getElem?_toList_append, hl]
          rfl
        have hhead := ((hwriter.drop j).take (m + 1)) junk i
        have hrest := ((hwriter.drop (j + 1)).take m) junk (i + 1)
        rw [hfrom, List.take_succ_cons] at hhead
        rw [List.take_succ_cons, lineEvents, hhead.undo_head ?_]
        · exact hrest.undo
        · intro hbegin
          rw [isBegin_lineEvent] at hbegin ⊢
          by_contra hboth
          rw [Bool.not_eq_false] at hboth
          rw [(hbare l (List.mem_of_getElem? hl)).drop hboth hp] at hbegin
          cases hbegin

/-! ### Unfinished transactions -/

/-- The lines up to the next `BEGIN`. -/
def upToBegin (ls : List Bytes) : List Bytes := ls.takeWhile fun l => !hasPrefix (ascii "BEGIN") l

/-- A `COMMIT` or `ROLLBACK` line of `recordId`. -/
def Closes (junk recordId : Int) (l : Bytes) : Prop :=
  (hasPrefix (ascii "COMMIT") l = true ∧ scanId (ascii "COMMIT") l junk = recordId) ∨
    (hasPrefix (ascii "ROLLBACK") l = true ∧ scanId (ascii "ROLLBACK") l junk = recordId)

/-- The lines have a `BEGIN` of `recordId` behind which, up to the next `BEGIN`, no line
closes the transaction and `old` is the first `OLD` line. -/
def Unfinished (junk : Nat → Int) (i : Nat) (ls : List Bytes) (recordId : Int) (old : Bytes) : Prop :=
  ∃ pre l rest, ls = pre ++ l :: rest ∧ hasPrefix (ascii "BEGIN") l = true ∧
    scanId (ascii "BEGIN") l (junk (i + pre.length)) = recordId ∧
    (∀ k l', (upToBegin rest)[k]? = some l' → ¬ Closes (junk (i + pre.length + 1 + k)) recordId l') ∧
    (upToBegin rest).find? (hasPrefix (ascii "OLD")) = some old

theorem completedLoop_eq_false_iff (junk : Nat → Int) (recordId : Int) (j : Nat) (ls : List Bytes) :
    completedLoop junk recordId j ls = false ↔
      ∀ k l, (upToBegin ls)[k]? = some l → ¬ Closes (junk (j + k)) recordId l := by
  induction ls generalizing j with
  | nil => simp [completedLoop, upToBegin]
  | cons l ls ih =>
      by_cases hbegin : hasPrefix (ascii "BEGIN") l = true
      · simp [completedLoop, upToBegin, hbegin]
      · have hnext : upToBegin (l :: ls) = l :: upToBegin ls := by simp [upToBegin, hbegin]
        rw [hnext]
        by_cases hclose : Closes (junk j) recordId l
        · have htrue : completedLoop junk recordId j (l :: ls) = true := by
            rw [completedLoop, if_neg hbegin]
            rcases hclose with hcommit | hrollback
            · rw [if_pos hcommit]
            · rw [if_pos hrollback]
              split <;> rfl
          rw [htrue]
          constructor
          · intro hfalse
            cases hfalse
          · exact fun hall => absurd hclose (hall 0 l rfl)
        · have hrec : completedLoop junk recordId j (l :: ls) = completedLoop junk recordId (j + 1) ls := by
            rw [Closes, not_or] at hclose
            rw [completedLoop, if_neg hbegin, if_neg hclose.1, if_neg hclose.2]
          rw [hrec, ih]
          constructor
          · intro hall k l' hl'
            cases k with
            | zero =>
                rw [List.getElem?_cons_zero, Option.some.injEq] at hl'
                exact hl' ▸ hclose
            | succ k =>
                have hlater := hall k l' hl'
                rwa [Nat.add_assoc, Nat.add_comm 1 k] at hlater
          · intro hall k l' hl'
            have hlater := hall (k + 1) l' hl'
            rwa [Nat.add_comm k 1, ← Nat.add_assoc] at hlater

theorem before_lineEvents (junk : Nat → Int) (i : Nat) (ls : List Bytes) :
    before (lineEvents junk i ls) = ((upToBegin ls).find? (hasPrefix (ascii "OLD"))).map restoredRecord := by
  induction ls generalizing i with
  | nil => rfl
  | cons l ls ih =>
      have hrec := ih (i + 1)
      simp only [lineEvents, lineEvent, upToBegin] at hrec ⊢
      by_cases hbegin : hasPrefix (ascii "BEGIN") l = true
      · simp [hbegin, before]
      · by_cases hold : hasPrefix (ascii "OLD") l = true
        · simp [hbegin, hold, before]
        · by_cases hcommit : hasPrefix (ascii "COMMIT") l = true
          · simp [hbegin, hold, hcommit, before, hrec]
          · by_cases hrollback : hasPrefix (ascii "ROLLBACK") l = true
            · simp [hbegin, hold, hcommit, hrollback, before, hrec]
            · simp [hbegin, hold, hcommit, hrollback, before, hrec]

/-- A place in the events is a place in the lines. -/
theorem lineEvents_split {junk : Nat → Int} {i : Nat} {ls : List Bytes} {es es' : List (Event Int RoomRecord)}
    {e : Event Int RoomRecord} (h : lineEvents junk i ls = es ++ e :: es') :
    ∃ pre l rest, ls = pre ++ l :: rest ∧ lineEvent (junk (i + pre.length)) l = e ∧
      lineEvents junk (i + pre.length + 1) rest = es' := by
  induction es generalizing i ls with
  | nil =>
      cases ls with
      | nil => cases h
      | cons l ls =>
          obtain ⟨hl, hrest⟩ := List.cons.inj h
          exact ⟨[], l, ls, rfl, hl, hrest⟩
  | cons e' es ih =>
      cases ls with
      | nil => cases h
      | cons l ls =>
          obtain ⟨-, htail⟩ := List.cons.inj h
          obtain ⟨pre, l', rest, rfl, hevent, hrest⟩ := ih htail
          have hindex : i + (l :: pre).length = i + 1 + pre.length := by
            rw [List.length_cons]
            omega
          refine ⟨l :: pre, l', rest, rfl, ?_, ?_⟩
          · rwa [hindex]
          · rwa [hindex]

/-- Recovery restores the unfinished transactions. -/
theorem mem_undo_lineEvents {junk : Nat → Int} {i : Nat} {ls : List Bytes} {recordId : Int} {r : RoomRecord} :
    (recordId, r) ∈ undo (lineEvents junk i ls) ↔
      ∃ old, Unfinished junk i ls recordId old ∧ restoredRecord old = r := by
  rw [mem_undo_split]
  constructor
  · intro hundone
    obtain ⟨es, es', heq, hfin, hbefore⟩ := hundone
    obtain ⟨pre, l, rest, rfl, hevent, rfl⟩ := lineEvents_split heq
    have hbegin := isBegin_lineEvent (junk (i + pre.length)) l
    rw [hevent, isBegin_begin] at hbegin
    rw [lineEvent, if_pos hbegin.symm, Event.begin.injEq] at hevent
    rw [finished_lineEvents, completedLoop_eq_false_iff] at hfin
    rw [before_lineEvents, Option.map_eq_some_iff] at hbefore
    obtain ⟨old, hold, hr⟩ := hbefore
    exact ⟨old, ⟨pre, l, rest, rfl, hbegin.symm, hevent, hfin, hold⟩, hr⟩
  · intro hunfinished
    obtain ⟨old, ⟨pre, l, rest, rfl, hbegin, hid, hopen, hold⟩, hr⟩ := hunfinished
    refine ⟨lineEvents junk i pre, lineEvents junk (i + pre.length + 1) rest, ?_, ?_, ?_⟩
    · rw [lineEvents_append, lineEvents, lineEvent, if_pos hbegin, hid]
    · rwa [finished_lineEvents, completedLoop_eq_false_iff]
    · rw [before_lineEvents, hold, Option.map_some, hr]

/-! ### The next recovery -/

/-- The lines of the old log that recovery still reads behind the new ones. -/
def restAfter (kept : Bytes) (written : List Bytes) : List Bytes :=
  (lines (kept.drop (logText written).length)).take (512 - written.length)

/-- The new transactions are finished. -/
theorem undo_over {db : FileDb} {cs : List AnyCall} {wal : File} (h : LogOver kept wal (anyHistory db cs))
    (junk : Nat → Int) :
    undo (lineEvents junk 0 (walLines { data := wal.data, pos := 0 })) =
      undo (lineEvents junk (4 * cs.length) (restAfter kept (anyHistory db cs))) := by
  have hlines : walLines { data := wal.data, pos := 0 } =
      (anyHistory db cs).take 512 ++ restAfter kept (anyHistory db cs) := by
    rw [walLines, h.data, logText, lines_flatMap_append h.whole, List.take_append]
    rfl
  rw [hlines]
  by_cases hlen : 4 * cs.length ≤ 512
  · rw [List.take_of_length_le (by rw [anyHistory_length]; exact hlen), undo_anyHistory]
  · obtain ⟨txns, htxns⟩ := lineEvents_anyHistory junk 0 db cs 128
    have hnone : restAfter kept (anyHistory db cs) = [] := by
      have hzero : 512 - (anyHistory db cs).length = 0 := by
        rw [anyHistory_length]
        omega
      rw [restAfter, hzero, List.take_zero]
    have hclosed := undo_append_closed txns []
    rw [List.append_nil, ← htxns] at hclosed
    rw [hnone, List.append_nil]
    exact hclosed

/-- A write that restores a record changes nothing exactly if that record is there. -/
theorem restoreAll_single_iff (w : Int × RoomRecord) (d : Bytes) :
    (restoreAll [w] { data := d, pos := 0 }).data = d ↔
      slot roomRecordSize d w.1.toNat = some w.2.encode := by
  have hsize : roomRecordSize = 108 := rfl
  have hrestored : (restoreAll [w] { data := d, pos := 0 }).data =
      patch d (w.1.toNat * roomRecordSize) w.2.encode := by
    change (restoreRecord w.1 w.2 { data := d, pos := 0 }).data = _
    rw [restoreRecord, File.seek]
    split
    · -- the seek has failed, and a file that was just opened stands at 0
      rename_i hneg
      rw [hsize] at hneg
      have hzero : w.1.toNat = 0 := by omega
      rw [hzero, Nat.zero_mul]
      rfl
    · have hpos : (w.1 * (roomRecordSize : Int)).toNat = w.1.toNat * roomRecordSize := by
        rw [hsize]
        omega
      rw [hpos]
      rfl
  rw [hrestored, patch_eq_self_iff (by decide) _ _ (RoomRecord.encode_length _)]

/-- Recovery restores one record at most; it changes nothing exactly if each record it
would restore is there. -/
theorem restoreAll_same_iff {junk : Nat → Int} {i : Nat} {ls : List Bytes} (d : Bytes)
    (hone : undo (lineEvents junk i ls) = [] ∨ ∃ w, undo (lineEvents junk i ls) = [w]) :
    (restoreAll (undo (lineEvents junk i ls)) { data := d, pos := 0 }).data = d ↔
      ∀ recordId old, Unfinished junk i ls recordId old →
        slot roomRecordSize d recordId.toNat = some (restoredRecord old).encode := by
  rcases hone with hnone | ⟨w, hw⟩
  · rw [hnone]
    refine iff_of_true rfl ?_
    intro recordId old hopen
    have hmem := mem_undo_lineEvents.mpr ⟨old, hopen, rfl⟩
    rw [hnone] at hmem
    cases hmem
  · rw [hw, restoreAll_single_iff]
    constructor
    · intro hslot recordId old hopen
      have hmem := mem_undo_lineEvents.mpr ⟨old, hopen, rfl⟩
      rw [hw, List.mem_singleton] at hmem
      rw [← hmem] at hslot
      exact hslot
    · intro hall
      have hmem : w ∈ undo (lineEvents junk i ls) := by
        rw [hw]
        exact List.mem_singleton_self w
      obtain ⟨old, hopen, hr⟩ := mem_undo_lineEvents.mp hmem
      rw [← hr]
      exact hall w.1 old hopen

theorem zero_not_mem_logText {ls : List Bytes} (h : ∀ l ∈ ls, WholeLine l) : (0 : UInt8) ∉ logText ls := by
  intro hmem
  obtain ⟨l, hl, hbyte⟩ := List.mem_flatMap.mp hmem
  rcases List.mem_append.mp hbyte with hbyte | hbyte
  · exact (h l hl).2.2 hbyte
  · exact absurd (List.mem_singleton.mp hbyte) (by decide)

/-- **When a failed truncation is harmless.**  `db` is what a crash has left of a run of
calls, its log cut at any byte; recovery cannot truncate the log, and the calls `cs`
commit.  The next recovery leaves the record file as it is exactly if every unfinished
transaction in the rest of the old log would restore the record that is there. -/
theorem kept_log_iff (start : FileDb) (hist : List AnyCall) (n : Nat) (db : FileDb) (cs : List AnyCall)
    (junk : Nat → Int) (hempty : start.wal = { data := [], pos := 0 }) (hhist : OneLineAll start hist)
    (hlog : db.wal.data = (runAnyAll start hist).wal.data.take n)
    (hcs : OneLineAll (walRecoverKept db) cs) (hcommit : ∀ c ∈ cs, roomRecordSize ≤ c.wrote) :
    (restart junk (runAnyAll (walRecoverKept db) cs)).rooms.data = (runAnyAll (walRecoverKept db) cs).rooms.data ↔
      ∀ recordId old,
        Unfinished junk (4 * cs.length) (restAfter db.wal.data (anyHistory (walRecoverKept db) cs)) recordId old →
        slot roomRecordSize (runAnyAll (walRecoverKept db) cs).rooms.data recordId.toNat =
          some (restoredRecord old).encode := by
  have hstart : LogHolds start.wal [] := hempty ▸ LogHolds.empty
  have hheld := runAnyAll_log hstart hhist
  rw [List.nil_append] at hheld
  have hover := runAnyAll_over (walRecoverKept_over db) hcs hcommit
  rw [List.nil_append] at hover
  have hold : db.wal.data = (logText (anyHistory start hist)).take n := by rw [hlog, hheld.data]
  have h0 : (0 : UInt8) ∉ db.wal.data := by
    rw [hold]
    exact fun hmem => zero_not_mem_logText hheld.whole (List.mem_of_mem_take hmem)
  obtain ⟨hwriter, hbare⟩ := cut_lines (anyHistory_logLines hhist) (anyHistory_singleWriter start hist) n
  rw [← hold] at hwriter hbare
  have hone := rest_undo h0 hwriter hbare junk (4 * cs.length)
    (logText (anyHistory (walRecoverKept db) cs)).length (512 - (anyHistory (walRecoverKept db) cs).length)
  change undo (lineEvents junk _ (restAfter _ _)) = [] ∨
    ∃ w, undo (lineEvents junk _ (restAfter _ _)) = [w] at hone
  rw [restart, fileDbInit, walRecover_rooms, undo_over hover]
  exact restoreAll_same_iff _ hone

/-! ### A room whose creation was interrupted -/

def conference : AnyCall := ⟨0, sampleRecord 0 (ascii "conference") (ascii "password"), roomRecordSize⟩
def shortName : AnyCall := ⟨1, sampleRecord 1 (ascii "r") (ascii "p"), roomRecordSize⟩

/-- The server has stopped before it stored the second room. -/
def crashedCreate : FileDb where
  rooms := { data := (runAnyAll emptyDb [conference]).rooms.data, pos := 0 }
  wal := { data := (runAnyAll emptyDb [conference, shortName]).wal.data.take 87, pos := 0 }
  junk := fun _ => 0

/-- The lines of the next call cover the old `BEGIN`. -/
theorem conference_covers_begin :
    (restart (fun _ => 0) (runAnyAll (walRecoverKept crashedCreate) [conference])).rooms.data =
      (runAnyAll (walRecoverKept crashedCreate) [conference]).rooms.data := by
  refine (kept_log_iff emptyDb [conference, shortName] 87 crashedCreate [conference] (fun _ => 0) rfl
    (oneLineAll_of_check (by decide +kernel)) (by decide +kernel)
    (oneLineAll_of_check (by decide +kernel)) (by decide)).mpr ?_
  intro recordId old hunfinished
  obtain ⟨pre, l, rest, heq, hbegin, -⟩ := hunfinished
  have hnone : ∀ l ∈ restAfter crashedCreate.wal.data (anyHistory (walRecoverKept crashedCreate) [conference]),
      hasPrefix (ascii "BEGIN") l = false := by
    decide +kernel
  have hl := hnone l (by rw [heq]; exact List.mem_append_right _ List.mem_cons_self)
  rw [hbegin] at hl
  cases hl

/-- The second room is created again, and its old `BEGIN` is still there. -/
theorem second_create_is_undone :
    ¬ ∀ (start : FileDb) (hist : List AnyCall) (n : Nat) (db : FileDb) (cs : List AnyCall) (junk : Nat → Int),
      start.wal = { data := [], pos := 0 } → OneLineAll start hist →
      db.wal.data = (runAnyAll start hist).wal.data.take n → OneLineAll (walRecoverKept db) cs →
      (∀ c ∈ cs, roomRecordSize ≤ c.wrote) →
      (restart junk (runAnyAll (walRecoverKept db) cs)).rooms.data =
        (runAnyAll (walRecoverKept db) cs).rooms.data := by
  intro hall
  have hsame := hall emptyDb [conference, shortName] 87 crashedCreate [shortName] (fun _ => 0) rfl
    (oneLineAll_of_check (by decide +kernel)) (by decide +kernel) (oneLineAll_of_check (by decide +kernel)) (by decide)
  exact absurd hsame (by decide +kernel)

end EchoLink
