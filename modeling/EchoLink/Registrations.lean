import EchoLink.UserTable
import EchoLink.Runs

/-!
# Registrations at the same time

`auth_add_user` reads `users.bin` from its start to see whether a name is
taken, and appends a record if it is not.  The workers share the descriptor
and its offset, and nothing keeps the reads and the write of one call together.
Here any number of calls run one system call at a time (`registerStep`).

The names stay unique if no read skips a record, every record is written at the
end of the file, and no other call for the name is between its reads and its
write then (`names_stay_unique`).  Two calls that both read the table before
either writes register a name twice (`name_registered_twice`).
-/

namespace EchoLink

open CText RecordFile Runs

/-- A call `auth_add_user(username, password, "USER")`. -/
structure RegisterCall where
  username : Bytes
  password : Bytes

/-- The next system call of a call: the first `lseek`, a `read` of the loop, the
`lseek` to the end, the `write`. -/
inductive RegisterPhase where
  | called
  | reading (userCount : Nat)
  | ending (userCount : Nat)
  | writing (userCount : Nat)
  | returned (result : Bool)
  deriving DecidableEq

/-- The table, the calls, and how many records from the start each has read. -/
structure Registrations (ι : Type) where
  users : File
  phase : ι → RegisterPhase
  seen : ι → Nat

variable {ι : Type}

def Registrations.start (users : File) : Registrations ι :=
  { users, phase := fun _ => .called, seen := fun _ => 0 }

variable [DecidableEq ι]

/-- A call has made a system call. -/
def Registrations.move (s : Registrations ι) (i : ι) (users : File) (next : RegisterPhase) :
    Registrations ι :=
  { s with users, phase := Function.update s.phase i next }

/-- The next system call of the call `i`; it transfers all it is asked to. -/
def registerStep (calls : ι → RegisterCall) (s : Registrations ι) (i : ι) : Option (Registrations ι) :=
  match s.phase i with
  | .called => some { s.move i (s.users.seek 0) (.reading 0) with seen := Function.update s.seen i 0 }
  | .reading userCount =>
      let rd := s.users.read userRecordSize
      if rd.1.length = userRecordSize then
        let rec' := UserRecord.decode rd.1
        if rec'.matches (calls i).username then some (s.move i rd.2 (.returned false))
        else
          some { s.move i rd.2 (.reading (if rec'.isActive ≠ 0 then userCount + 1 else userCount)) with
            seen := Function.update s.seen i (max (s.seen i) (s.users.pos / userRecordSize + 1)) }
      else some (s.move i rd.2 (.ending userCount))
  | .ending userCount => some (s.move i s.users.seekEnd (.writing userCount))
  | .writing userCount =>
      let new := newUser userCount (calls i).username (calls i).password (ascii "USER")
      some (s.move i (s.users.write new.encode) (.returned true))
  | .returned _ => none

/-! ### One call -/

variable {calls : ι → RegisterCall} {s s' : Registrations ι} {i : ι}

/-- The body of the loop that reads the table. -/
def countRecord (username : Bytes) (userCount : Nat) (bs : Bytes) : Nat ⊕ Unit :=
  if (UserRecord.decode bs).matches username then Sum.inr ()
  else Sum.inl (if (UserRecord.decode bs).isActive ≠ 0 then userCount + 1 else userCount)

/-- Where a call goes on after the loop. -/
def afterReads : Nat ⊕ Unit → RegisterPhase
  | .inl userCount => .ending userCount
  | .inr _ => .returned false

/-- The reads of a call that runs alone are the loop of `auth_add_user`. -/
theorem reads_alone (calls : ι → RegisterCall) (fuel : Nat) {userCount : Nat}
    (hfuel : s.users.data.length < s.users.pos + fuel)
    (hphase : s.phase i = .reading userCount) :
    ∃ n t, run (registerStep calls) s (List.replicate n i) = some t ∧
      t.users = (readLoop userRecordSize (countRecord (calls i).username) fuel s.users userCount).2 ∧
      t.phase i =
        afterReads (readLoop userRecordSize (countRecord (calls i).username) fuel s.users userCount).1 := by
  have hone : ∀ {u : Registrations ι} {t : Registrations ι}, registerStep calls u i = some t →
      run (registerStep calls) u (List.replicate 1 i) = some t := by
    intro u t hstep
    simp only [List.replicate, run, hstep, Option.bind_some]
  induction fuel generalizing s userCount with
  | zero =>
      have hempty : s.users.data.drop s.users.pos = [] := List.drop_eq_nil_of_le (by omega)
      have hread : s.users.read userRecordSize = ([], s.users) := by
        simp only [File.read, hempty, List.take_nil, List.length_nil, Nat.add_zero]
      refine ⟨1, s.move i s.users (.ending userCount), hone ?_, rfl, Function.update_self _ _ _⟩
      simp only [registerStep, hphase, hread]
      rfl
  | succ fuel ih =>
      by_cases hwhole : (s.users.read userRecordSize).1.length = userRecordSize
      · by_cases hmatch : (UserRecord.decode (s.users.read userRecordSize).1).matches (calls i).username = true
        · refine ⟨1, s.move i (s.users.read userRecordSize).2 (.returned false), hone ?_, ?_, ?_⟩
          · simp only [registerStep, hphase, hwhole, hmatch, if_true]
          · simp only [readLoop, countRecord, hwhole, hmatch, if_true]
            rfl
          · simp only [readLoop, countRecord, hwhole, hmatch, if_true]
            exact Function.update_self _ _ _
        · obtain ⟨u, hstep, husers, hnext⟩ : ∃ u, registerStep calls s i = some u ∧
              u.users = (s.users.read userRecordSize).2 ∧ u.phase i =
                .reading (if (UserRecord.decode (s.users.read userRecordSize).1).isActive ≠ 0 then userCount + 1
                  else userCount) := by
            simp only [registerStep, hphase, hwhole, hmatch, if_true]
            exact ⟨_, rfl, rfl, Function.update_self _ _ _⟩
          have hlater : u.users.data.length < u.users.pos + fuel := by
            have hpos : (s.users.read userRecordSize).2.pos =
                s.users.pos + (s.users.read userRecordSize).1.length := rfl
            have hsize : userRecordSize = 124 := rfl
            rw [husers, hpos, hwhole, hsize, read_data]
            omega
          obtain ⟨n, t, hrun, ht, hend⟩ := ih hlater hnext
          rw [husers] at ht hend
          refine ⟨n + 1, t, ?_, ?_, ?_⟩
          · rw [List.replicate_succ, run, hstep, Option.bind_some, hrun]
          · rw [ht, readLoop]
            simp only [hwhole, if_true, countRecord, hmatch]
            rfl
          · rw [hend, readLoop]
            simp only [hwhole, if_true, countRecord, hmatch]
            rfl
      · refine ⟨1, s.move i (s.users.read userRecordSize).2 (.ending userCount), hone ?_, ?_, ?_⟩
        · simp only [registerStep, hphase, hwhole, if_false]
        · simp only [readLoop, hwhole, if_false]
          rfl
        · simp only [readLoop, hwhole, if_false]
          exact Function.update_self _ _ _

/-- **A call that runs alone** does what `authAddUser` says. -/
theorem register_alone (hphase : s.phase i = .called) :
    ∃ n t, run (registerStep calls) s (List.replicate n i) = some t ∧
      t.users = (authAddUser userRecordSize s.users (calls i).username (calls i).password (ascii "USER")).2 ∧
      t.phase i = .returned
        (authAddUser userRecordSize s.users (calls i).username (calls i).password (ascii "USER")).1 := by
  obtain ⟨u, hstep, husers, hreading⟩ : ∃ u, registerStep calls s i = some u ∧ u.users = s.users.seek 0 ∧
      u.phase i = .reading 0 := by
    simp only [registerStep, hphase]
    exact ⟨_, rfl, rfl, Function.update_self _ _ _⟩
  have hpos : u.users.pos = 0 := by rw [husers]; exact seek_pos_natCast s.users 0
  have hfuel : u.users.data.length < u.users.pos + (s.users.data.length + 1) := by
    rw [hpos, husers, seek_data]
    omega
  obtain ⟨n, t, hrun, ht, hend⟩ := reads_alone calls (s.users.data.length + 1) hfuel hreading
  have hcount : countUsers s.users (calls i).username = readLoop userRecordSize
      (countRecord (calls i).username) (s.users.data.length + 1) u.users 0 := by rw [husers]; rfl
  rw [← hcount] at ht hend
  have hreads : run (registerStep calls) s (List.replicate (n + 1) i) = some t := by
    rw [List.replicate_succ, run, hstep, Option.bind_some, hrun]
  simp only [authAddUser]
  cases hresult : (countUsers s.users (calls i).username).1 with
  | inr _ =>
      rw [hresult] at hend
      exact ⟨n + 1, t, hreads, ht, hend⟩
  | inl userCount =>
      rw [hresult] at hend
      have hwhole : (newUser userCount (calls i).username (calls i).password (ascii "USER")).encode.take
          userRecordSize = (newUser userCount (calls i).username (calls i).password (ascii "USER")).encode :=
        List.take_of_length_le (Nat.le_of_eq (UserRecord.encode_length _))
      have hlast : run (registerStep calls) t (List.replicate 2 i) =
          some ((t.move i t.users.seekEnd (.writing userCount)).move i
            (t.users.seekEnd.write (newUser userCount (calls i).username (calls i).password
              (ascii "USER")).encode) (.returned true)) := by
        simp only [List.replicate, run, registerStep, hend, afterReads, Option.bind_some, Registrations.move,
          Function.update_self]
      refine ⟨(n + 1) + 2, _, by rw [List.replicate_add, run_append, hreads, Option.bind_some, hlast], ?_, ?_⟩
      · dsimp only
        rw [← ht, hwhole]
        rfl
      · dsimp only
        rw [decide_eq_true (Nat.le_refl _)]
        exact Function.update_self _ _ _

/-! ### The table -/

/-- The whole records of the file. -/
def userRecords (d : Bytes) : List UserRecord := (records userRecordSize d).map UserRecord.decode

/-- The names of the active records. -/
def activeNames (d : Bytes) : List Bytes :=
  ((userRecords d).filter fun r => r.isActive ≠ 0).map UserRecord.name

theorem matches_eq_true_iff {username : Bytes} {r : UserRecord} :
    r.matches username = true ↔ r.isActive ≠ 0 ∧ r.name = username := by
  simp only [UserRecord.matches, Bool.and_eq_true, decide_eq_true_iff, UserRecord.name]

theorem mem_activeNames {d username : Bytes} :
    username ∈ activeNames d ↔ ∃ r ∈ userRecords d, r.matches username = true := by
  simp only [activeNames, List.mem_map, List.mem_filter, decide_eq_true_iff, matches_eq_true_iff, and_assoc]

/-- The record at an offset that is a multiple of the size. -/
theorem userRecords_getElem? (d : Bytes) (k : Nat) :
    (userRecords d)[k]? = (slot userRecordSize d k).map UserRecord.decode := by
  rw [userRecords, List.getElem?_map, getElem?_records (by decide)]

/-- A record at the end of a file of whole records. -/
theorem userRecords_append {d : Bytes} (hwhole : d.length % userRecordSize = 0) (r : UserRecord) :
    userRecords (d ++ r.encode) = userRecords d ++ [r] := by
  have hd : d = (records userRecordSize d).flatten := by
    have hlen : d.drop (slotCount userRecordSize d * userRecordSize) = [] := by
      rw [slotCount, Nat.div_mul_cancel (Nat.dvd_of_mod_eq_zero hwhole)]
      exact List.drop_length
    have := flatten_records (w := userRecordSize) d
    rwa [hlen, List.append_nil] at this
  have hflat : d ++ r.encode = (records userRecordSize d ++ [r.encode]).flatten := by
    rw [List.flatten_append, ← hd, List.flatten_singleton]
  have hlengths : ∀ bs ∈ records userRecordSize d ++ [r.encode], bs.length = userRecordSize := by
    intro bs hbs
    rcases List.mem_append.mp hbs with hbs | hbs
    · exact length_of_mem_records hbs
    · rw [List.mem_singleton.mp hbs, r.encode_length]
  rw [userRecords, userRecords, hflat, records_flatten (by decide) hlengths, List.map_append,
    List.map_singleton, UserRecord.decode_encode]

/-- What `read` gets at a multiple of the size: the record there, or less. -/
theorem read_record (f : File) (haligned : f.pos % userRecordSize = 0) :
    (f.read userRecordSize).1.length = userRecordSize →
      (userRecords f.data)[f.pos / userRecordSize]? = some (UserRecord.decode (f.read userRecordSize).1) := by
  intro hwhole
  have hpos : f.pos / userRecordSize * userRecordSize = f.pos :=
    Nat.div_mul_cancel (Nat.dvd_of_mod_eq_zero haligned)
  have hslot : slot userRecordSize f.data (f.pos / userRecordSize) = some (f.read userRecordSize).1 := by
    rw [slot, hpos]
    exact if_pos hwhole
  rw [userRecords_getElem?, hslot, Option.map_some]

theorem read_short (f : File) (haligned : f.pos % userRecordSize = 0)
    (hshort : (f.read userRecordSize).1.length ≠ userRecordSize) :
    (userRecords f.data).length ≤ f.pos / userRecordSize := by
  have hpos : f.pos / userRecordSize * userRecordSize = f.pos :=
    Nat.div_mul_cancel (Nat.dvd_of_mod_eq_zero haligned)
  have hslot : slot userRecordSize f.data (f.pos / userRecordSize) = none := by
    rw [slot, hpos]
    exact if_neg hshort
  rw [← List.getElem?_eq_none_iff, userRecords_getElem?, hslot, Option.map_none]

/-- In a file of whole records such a read that is short gets nothing. -/
theorem read_short_pos (f : File) (hwhole : f.data.length % userRecordSize = 0)
    (haligned : f.pos % userRecordSize = 0) (hshort : (f.read userRecordSize).1.length ≠ userRecordSize) :
    (f.read userRecordSize).2.pos = f.pos := by
  have hlen : (f.read userRecordSize).1.length = min userRecordSize (f.data.length - f.pos) := by
    simp only [File.read, List.length_take, List.length_drop]
  have hnone : (f.read userRecordSize).1.length = 0 := by
    rw [show userRecordSize = 124 from rfl] at hwhole haligned hshort hlen ⊢
    omega
  change f.pos + (f.read userRecordSize).1.length = f.pos
  rw [hnone, Nat.add_zero]

/-! ### What every moment of a run keeps -/

/-- Whether a call has read the table and not yet written. -/
def RegisterPhase.decided : RegisterPhase → Bool
  | .ending _ => true
  | .writing _ => true
  | _ => false

/-- Whether a call is in the loop. -/
def RegisterPhase.isReading : RegisterPhase → Bool
  | .reading _ => true
  | _ => false

/-- A read skips no record, and a record is written at the end of the file while
no other call for the name is between its reads and its write. -/
def Unhindered (calls : ι → RegisterCall) (s : Registrations ι) (i : ι) : Prop :=
  ((s.phase i).isReading = true → s.users.pos ≤ s.seen i * userRecordSize) ∧
    ∀ userCount, s.phase i = .writing userCount → s.users.pos = s.users.data.length ∧
      ∀ j, j ≠ i → (calls j).username = (calls i).username → (s.phase j).decided = false

/-- The invariant of the calls on a table that was `d`. -/
structure RegisterInv (calls : ι → RegisterCall) (d : Bytes) (s : Registrations ι) : Prop where
  whole : s.users.data.length % userRecordSize = 0
  aligned : (∃ i, s.phase i ≠ .called) → s.users.pos % userRecordSize = 0
  unique : (activeNames s.users.data).Nodup
  inside : ∀ i, s.seen i ≤ (userRecords s.users.data).length
  seen : ∀ i, (s.phase i).isReading = true → ∀ r ∈ (userRecords s.users.data).take (s.seen i),
    r.matches (calls i).username = false
  absent : ∀ i, (s.phase i).decided = true → (calls i).username ∉ activeNames s.users.data
  present : ∀ username, username ∈ activeNames s.users.data ↔
    username ∈ activeNames d ∨ ∃ i, (calls i).username = username ∧ s.phase i = .returned true
  fresh : ∀ i, s.phase i = .returned true → (calls i).username ∉ activeNames d
  once : ∀ i j, s.phase i = .returned true → s.phase j = .returned true →
    (calls i).username = (calls j).username → i = j

variable {d : Bytes}

omit [DecidableEq ι] in
/-- At the start no call has done anything. -/
theorem RegisterInv.start {users : File} (hwhole : users.data.length % userRecordSize = 0)
    (hunique : (activeNames users.data).Nodup) :
    RegisterInv calls users.data (Registrations.start users) where
  whole := hwhole
  aligned := by
    rintro ⟨i, hi⟩
    exact absurd rfl hi
  unique := hunique
  inside := fun _ => Nat.zero_le _
  seen := by
    intro i hi
    cases hi
  absent := by
    intro i hi
    cases hi
  present := by
    intro username
    constructor
    · exact fun hmem => Or.inl hmem
    · rintro (hmem | ⟨i, _, hi⟩)
      · exact hmem
      · cases hi
  fresh := by
    intro i hi
    cases hi
  once := by
    intro i j hi
    cases hi

/-- A system call of the call `i` other than its write. -/
theorem RegisterInv.move (h : RegisterInv calls d s) {next : RegisterPhase} {k : Nat}
    (hdata : s'.users.data = s.users.data) (haligned : s'.users.pos % userRecordSize = 0)
    (hphase : s'.phase = Function.update s.phase i next) (hseen : s'.seen = Function.update s.seen i k)
    (hold : s.phase i ≠ .returned true) (hnew : next ≠ .returned true)
    (hinside : k ≤ (userRecords s.users.data).length)
    (hreads : next.isReading = true → ∀ r ∈ (userRecords s.users.data).take k,
      r.matches (calls i).username = false)
    (hdecides : next.decided = true → (calls i).username ∉ activeNames s.users.data) :
    RegisterInv calls d s' := by
  have hreturned : ∀ j, s'.phase j = .returned true ↔ s.phase j = .returned true := by
    intro j
    rw [hphase]
    by_cases hj : j = i
    · rw [hj, Function.update_self]
      exact ⟨fun hn => absurd hn hnew, fun ho => absurd ho hold⟩
    · rw [Function.update_of_ne hj]
  refine
    { whole := by rw [hdata]; exact h.whole
      aligned := fun _ => haligned
      unique := by rw [hdata]; exact h.unique
      inside := ?_
      seen := ?_
      absent := ?_
      present := ?_
      fresh := fun j hj => h.fresh j ((hreturned j).mp hj)
      once := fun j j' hj hj' => h.once j j' ((hreturned j).mp hj) ((hreturned j').mp hj') }
  · intro j
    rw [hdata, hseen]
    by_cases hj : j = i
    · rw [hj, Function.update_self]
      exact hinside
    · rw [Function.update_of_ne hj]
      exact h.inside j
  · intro j hj
    rw [hdata, hseen]
    rw [hphase] at hj
    by_cases hji : j = i
    · rw [hji, Function.update_self] at hj
      rw [hji, Function.update_self]
      exact hreads hj
    · rw [Function.update_of_ne hji] at hj
      rw [Function.update_of_ne hji]
      exact h.seen j hj
  · intro j hj
    rw [hdata]
    rw [hphase] at hj
    by_cases hji : j = i
    · rw [hji, Function.update_self] at hj
      rw [hji]
      exact hdecides hj
    · rw [Function.update_of_ne hji] at hj
      exact h.absent j hj
  · intro username
    rw [hdata, h.present]
    simp only [hreturned]

/-- A new record is appended. -/
theorem activeNames_append {d username : Bytes} (hwhole : d.length % userRecordSize = 0)
    (hname : FitsIn maxUsernameLen username) (n : Nat) (password role : Bytes) :
    activeNames (d ++ (newUser n username password role).encode) = activeNames d ++ [username] := by
  have hactive : (newUser n username password role).isActive ≠ 0 := (by decide : (1 : Int32) ≠ 0)
  rw [activeNames, userRecords_append hwhole, List.filter_append, List.map_append, List.filter_singleton]
  simp only [ne_eq, hactive, not_false_eq_true, decide_true, List.map_singleton, newUser_name hname, cond_true]
  rfl

/-- A call that is still on its way after the call `i` has returned is another
one, and was there before. -/
theorem test_move (test : RegisterPhase → Bool) (hdone : test (.returned true) = false) {users : File} {j : ι}
    (hj : test ((s.move i users (.returned true)).phase j) = true) : j ≠ i ∧ test (s.phase j) = true := by
  change test (Function.update s.phase i (.returned true) j) = true at hj
  by_cases hji : j = i
  · rw [hji, Function.update_self, hdone] at hj
    cases hj
  · rw [Function.update_of_ne hji] at hj
    exact ⟨hji, hj⟩

/-- The write of the call `i`. -/
theorem RegisterInv.write (h : RegisterInv calls d s) (hfits : ∀ j, FitsIn maxUsernameLen (calls j).username)
    {userCount : Nat} (hphase : s.phase i = .writing userCount) (hpos : s.users.pos = s.users.data.length)
    (halone : ∀ j, j ≠ i → (calls j).username = (calls i).username → (s.phase j).decided = false) :
    RegisterInv calls d (s.move i (s.users.write (newUser userCount (calls i).username (calls i).password
      (ascii "USER")).encode) (.returned true)) := by
  have hlen := (newUser userCount (calls i).username (calls i).password (ascii "USER")).encode_length
  have hdata : (s.users.write (newUser userCount (calls i).username (calls i).password
      (ascii "USER")).encode).data =
      s.users.data ++ (newUser userCount (calls i).username (calls i).password (ascii "USER")).encode := by
    rw [File.write, hpos, patch_length]
  have hnames := activeNames_append h.whole (hfits i) userCount (calls i).password (ascii "USER")
  have hrecords := userRecords_append h.whole
    (newUser userCount (calls i).username (calls i).password (ascii "USER"))
  have habsent : (calls i).username ∉ activeNames s.users.data := h.absent i (by rw [hphase]; rfl)
  generalize newUser userCount (calls i).username (calls i).password (ascii "USER") = new at *
  have hself : Function.update s.phase i (.returned true) i = .returned true := Function.update_self _ _ _
  have hother : ∀ j, j ≠ i → Function.update s.phase i (.returned true) j = s.phase j :=
    fun j hj => Function.update_of_ne hj _ _
  refine
    { whole := ?_, aligned := ?_, unique := ?_, inside := ?_, seen := ?_, absent := ?_, present := ?_,
      fresh := ?_, once := ?_ }
  · change (s.users.write new.encode).data.length % userRecordSize = 0
    rw [hdata, List.length_append, hlen, Nat.add_mod_right]
    exact h.whole
  · intro _
    change (s.users.pos + new.encode.length) % userRecordSize = 0
    rw [hlen, Nat.add_mod_right, hpos]
    exact h.whole
  · change (activeNames (s.users.write new.encode).data).Nodup
    rw [hdata, hnames]
    exact List.nodup_append.mpr ⟨h.unique, by simp, by
      intro a ha b hb hab
      rw [List.mem_singleton.mp hb] at hab
      exact habsent (hab ▸ ha)⟩
  · intro j
    change s.seen j ≤ (userRecords (s.users.write new.encode).data).length
    rw [hdata, hrecords, List.length_append]
    exact Nat.le_trans (h.inside j) (Nat.le_add_right _ _)
  · intro j hj
    change ∀ r ∈ (userRecords (s.users.write new.encode).data).take (s.seen j), _
    obtain ⟨_, hj⟩ := test_move RegisterPhase.isReading rfl hj
    rw [hdata, hrecords, List.take_append_of_le_length (h.inside j)]
    exact h.seen j hj
  · intro j hj
    obtain ⟨hji, hj⟩ := test_move RegisterPhase.decided rfl hj
    change (calls j).username ∉ activeNames (s.users.write new.encode).data
    rw [hdata, hnames, List.mem_append, not_or]
    refine ⟨h.absent j hj, ?_⟩
    intro hmem
    rw [halone j hji (List.mem_singleton.mp hmem)] at hj
    cases hj
  · intro username
    change username ∈ activeNames (s.users.write new.encode).data ↔ _ ∨ ∃ j, _ ∧
      Function.update s.phase i (.returned true) j = .returned true
    rw [hdata, hnames, List.mem_append, h.present, List.mem_singleton]
    constructor
    · rintro ((hbefore | ⟨j, hj, hdone⟩) | hnew)
      · exact Or.inl hbefore
      · refine Or.inr ⟨j, hj, ?_⟩
        rw [hother j (by rintro rfl; rw [hphase] at hdone; cases hdone), hdone]
      · exact Or.inr ⟨i, hnew.symm, hself⟩
    · rintro (hbefore | ⟨j, hj, hdone⟩)
      · exact Or.inl (Or.inl hbefore)
      · by_cases hji : j = i
        · exact Or.inr (by rw [← hj, hji])
        · rw [hother j hji] at hdone
          exact Or.inl (Or.inr ⟨j, hj, hdone⟩)
  · intro j hj hmem
    by_cases hji : j = i
    · exact habsent ((h.present _).mpr (Or.inl (hji ▸ hmem)))
    · change Function.update s.phase i (.returned true) j = .returned true at hj
      rw [hother j hji] at hj
      exact h.fresh j hj hmem
  · intro j j' hj hj' hname
    change Function.update s.phase i (.returned true) j = .returned true at hj
    change Function.update s.phase i (.returned true) j' = .returned true at hj'
    -- a call that returned 1 before has its name in the table
    have hold : ∀ u, u ≠ i → Function.update s.phase i (.returned true) u = .returned true →
        (calls u).username ≠ (calls i).username := by
      intro u hu hdone hsame
      rw [hother u hu] at hdone
      exact habsent ((h.present _).mpr (Or.inr ⟨u, hsame, hdone⟩))
    by_cases hji : j = i
    · by_cases hji' : j' = i
      · rw [hji, hji']
      · exact absurd (hname.symm.trans (by rw [hji])) (hold j' hji' hj')
    · by_cases hji' : j' = i
      · exact absurd (hname.trans (by rw [hji'])) (hold j hji hj)
      · rw [hother j hji] at hj
        rw [hother j' hji'] at hj'
        exact h.once j j' hj hj' hname

/-- **One system call** keeps the invariant. -/
theorem RegisterInv.step (h : RegisterInv calls d s) (hfits : ∀ j, FitsIn maxUsernameLen (calls j).username)
    (hfree : Unhindered calls s i) (hstep : registerStep calls s i = some s') : RegisterInv calls d s' := by
  have hkept : s.seen = Function.update s.seen i (s.seen i) := (Function.update_eq_self i s.seen).symm
  unfold registerStep at hstep
  cases hphase : s.phase i with
  | called =>
      rw [hphase] at hstep
      obtain rfl := Option.some.inj hstep
      refine h.move (seek_data _ _) ?_ rfl rfl (by rw [hphase]; nofun) (by nofun) (Nat.zero_le _) ?_ (by nofun)
      · change (s.users.seek 0).pos % userRecordSize = 0
        rw [show (s.users.seek 0).pos = 0 from seek_pos_natCast s.users 0, Nat.zero_mod]
      · intro _ r hr
        rw [List.take_zero] at hr
        cases hr
  | reading userCount =>
      have hread := hfree.1 (by rw [hphase]; rfl)
      have hseen := h.seen i (by rw [hphase]; rfl)
      have hold : s.phase i ≠ .returned true := by
        rw [hphase]
        nofun
      have haligned := h.aligned ⟨i, by rw [hphase]; nofun⟩
      have hpos : ∀ bs : Bytes, bs.length = userRecordSize →
          (s.users.pos + bs.length) % userRecordSize = 0 := by
        intro bs hbs
        rw [hbs, Nat.add_mod_right]
        exact haligned
      rw [hphase] at hstep
      dsimp only at hstep
      split at hstep
      · rename_i hwhole
        have hrecord := read_record s.users haligned hwhole
        split at hstep
        · obtain rfl := Option.some.inj hstep
          exact h.move rfl (hpos _ hwhole) rfl hkept hold (by nofun) (h.inside i) (by nofun) (by nofun)
        · rename_i hmatch
          obtain rfl := Option.some.inj hstep
          have hlt : s.users.pos / userRecordSize < (userRecords s.users.data).length :=
            (List.getElem?_eq_some_iff.mp hrecord).1
          refine h.move rfl (hpos _ hwhole) rfl rfl hold (by nofun) (Nat.max_le.mpr ⟨h.inside i, hlt⟩) ?_
            (by nofun)
          -- the record read is the one after those seen, or one of them
          intro _ r hr
          by_cases hnew : s.users.pos / userRecordSize < s.seen i
          · rw [Nat.max_eq_left hnew] at hr
            exact hseen r hr
          · have hnext : s.users.pos / userRecordSize = s.seen i := by
              have hle : s.users.pos / userRecordSize ≤ s.seen i :=
                Nat.div_le_of_le_mul (by rw [Nat.mul_comm]; exact hread)
              omega
            rw [hnext] at hrecord hr
            rw [Nat.max_eq_right (Nat.le_succ _), List.take_add_one, hrecord] at hr
            rcases List.mem_append.mp hr with hr | hr
            · exact hseen r hr
            · rw [List.mem_singleton.mp hr]
              exact Bool.eq_false_iff.mpr hmatch
      · rename_i hshort
        obtain rfl := Option.some.inj hstep
        have hend := read_short s.users haligned hshort
        have hlast : (s.users.read userRecordSize).2.pos % userRecordSize = 0 := by
          rw [read_short_pos s.users h.whole haligned hshort]
          exact haligned
        refine h.move rfl hlast rfl hkept hold (by nofun) (h.inside i) (by nofun) ?_
        -- all records have been read
        intro _ hmem
        obtain ⟨r, hr, hmatch⟩ := mem_activeNames.mp hmem
        have hle : s.users.pos / userRecordSize ≤ s.seen i :=
          Nat.div_le_of_le_mul (by rw [Nat.mul_comm]; exact hread)
        rw [List.take_of_length_le (Nat.le_trans hend hle)] at hseen
        rw [hseen r hr] at hmatch
        cases hmatch
  | ending userCount =>
      rw [hphase] at hstep
      obtain rfl := Option.some.inj hstep
      exact h.move rfl h.whole rfl hkept (by rw [hphase]; nofun) (by nofun) (h.inside i) (by nofun)
        fun _ => h.absent i (by rw [hphase]; rfl)
  | writing userCount =>
      rw [hphase] at hstep
      obtain rfl := Option.some.inj hstep
      obtain ⟨hend, halone⟩ := hfree.2 userCount hphase
      exact h.write hfits hphase hend halone
  | returned result =>
      rw [hphase] at hstep
      cases hstep

/-- What it means that the names stay unique: no name has two active records,
and a name has one exactly if it had one in the table `d` of the start, or if
exactly one of the calls for it has returned 1. -/
structure NamesUnique (calls : ι → RegisterCall) (d : Bytes) (s : Registrations ι) : Prop where
  unique : (activeNames s.users.data).Nodup
  present : ∀ username, username ∈ activeNames s.users.data ↔
    username ∈ activeNames d ∨ ∃! i, (calls i).username = username ∧ s.phase i = .returned true

omit [DecidableEq ι] in
theorem RegisterInv.namesUnique (h : RegisterInv calls d s) : NamesUnique calls d s where
  unique := h.unique
  present := by
    intro username
    rw [h.present]
    constructor
    · rintro (hbefore | ⟨i, hi, hdone⟩)
      · exact Or.inl hbefore
      · refine Or.inr ⟨i, ⟨hi, hdone⟩, ?_⟩
        rintro j ⟨hj, hdone'⟩
        exact h.once j i hdone' hdone (hj.trans hi.symm)
    · rintro (hbefore | ⟨i, hi, _⟩)
      · exact Or.inl hbefore
      · exact Or.inr ⟨i, hi⟩

/-- **Usernames stay unique**: on every table of whole records without a name
twice, for any number of registrations and every order of their system calls in
which none is hindered, at every moment. -/
theorem names_stay_unique (users : File) (hwhole : users.data.length % userRecordSize = 0)
    (hunique : (activeNames users.data).Nodup)
    (calls : ι → RegisterCall) (hfits : ∀ i, FitsIn maxUsernameLen (calls i).username) (steps : List ι)
    (halong : Along (registerStep calls) (Unhindered calls) (Registrations.start users) steps)
    (s : Registrations ι) (hrun : run (registerStep calls) (Registrations.start users) steps = some s) :
    NamesUnique calls users.data s := by
  have hinv := run_some_invariant (I := RegisterInv calls users.data)
    (fun _ _ _ h hfree hstep => h.step hfits hfree hstep) (RegisterInv.start hwhole hunique) halong hrun
  exact hinv.namesUnique

/-! ### Three registrations -/

/-- `Unhindered`, computed. -/
def checkUnhindered {n : Nat} (calls : Fin n → RegisterCall) (s : Registrations (Fin n)) (i : Fin n) : Bool :=
  match s.phase i with
  | .reading _ => decide (s.users.pos ≤ s.seen i * userRecordSize)
  | .writing _ =>
      decide (s.users.pos = s.users.data.length) &&
        decide (∀ j, j ≠ i → (calls j).username = (calls i).username → (s.phase j).decided = false)
  | _ => true

theorem unhindered_of_check {n : Nat} {calls : Fin n → RegisterCall} (s : Registrations (Fin n)) (i : Fin n)
    (h : checkUnhindered calls s i = true) : Unhindered calls s i := by
  unfold checkUnhindered at h
  constructor
  · intro hreading
    cases hphase : s.phase i with
    | reading userCount =>
        rw [hphase] at h
        exact of_decide_eq_true h
    | _ =>
        rw [hphase] at hreading
        cases hreading
  · intro userCount hphase
    rw [hphase] at h
    obtain ⟨hpos, halone⟩ := Bool.and_eq_true_iff.mp h
    exact ⟨of_decide_eq_true hpos, of_decide_eq_true halone⟩

/-- Bob, carol, and once more bob. -/
def threeCalls : Fin 3 → RegisterCall
  | 0 => ⟨ascii "bob", ascii "secret"⟩
  | 1 => ⟨ascii "carol", ascii "hidden"⟩
  | 2 => ⟨ascii "bob", ascii "other"⟩

theorem threeCalls_fit : ∀ i, FitsIn maxUsernameLen (threeCalls i).username
  | 0 => ⟨by decide, by decide⟩
  | 1 => ⟨by decide, by decide⟩
  | 2 => ⟨by decide, by decide⟩

/-- Bob and carol are registered at the same time, and bob once more after that. -/
def inOrder : List (Fin 3) := [0, 0, 1, 1, 0, 1, 0, 0, 1, 1, 2, 2, 2]

/-- Carol and one bob are in the table. -/
theorem names_unique_threeCalls :
    (∃ s, run (registerStep threeCalls) (Registrations.start startTable) inOrder = some s ∧
      NamesUnique threeCalls startTable.data s) ∧
    (run (registerStep threeCalls) (Registrations.start startTable) inOrder).map
      (fun s => (activeNames s.users.data, s.phase 2)) =
        some ([ascii "admin", ascii "bob", ascii "carol"], .returned false) := by
  have hend : (run (registerStep threeCalls) (Registrations.start startTable) inOrder).map
      (fun s => (activeNames s.users.data, s.phase 2)) =
        some ([ascii "admin", ascii "bob", ascii "carol"], .returned false) := by decide +kernel
  have hcheck : checkAlong (registerStep threeCalls) (checkUnhindered threeCalls)
      (Registrations.start startTable) inOrder = true := by decide +kernel
  obtain ⟨s, hs, _⟩ := Option.map_eq_some_iff.mp hend
  exact ⟨⟨s, hs, names_stay_unique startTable (by decide +kernel) (by decide +kernel) threeCalls threeCalls_fit inOrder
    (along_of_checkAlong unhindered_of_check hcheck) s hs⟩, hend⟩

/-- Two registrations of bob. -/
def twoBobs (_ : Fin 2) : RegisterCall := ⟨ascii "bob", ascii "secret"⟩

/-- The second reads the table before the first has written. -/
def bothRead : List (Fin 2) := [0, 0, 0, 1, 1, 1, 0, 0, 1, 1]

/-- Both return 1, and the table has two records of bob. -/
theorem name_registered_twice :
    ¬ ∀ (users : File), users.data.length % userRecordSize = 0 → (activeNames users.data).Nodup →
      ∀ calls : Fin 2 → RegisterCall, (∀ i, FitsIn maxUsernameLen (calls i).username) →
      ∀ steps s, run (registerStep calls) (Registrations.start users) steps = some s →
        (∀ i, ∃ result, s.phase i = .returned result) → NamesUnique calls users.data s := by
  intro hall
  have hend : (run (registerStep twoBobs) (Registrations.start startTable) bothRead).map
      (fun s => (s.phase 0, s.phase 1, activeNames s.users.data)) =
        some (.returned true, .returned true, [ascii "admin", ascii "bob", ascii "bob"]) := by decide +kernel
  obtain ⟨s, hs, hvalues⟩ := Option.map_eq_some_iff.mp hend
  obtain ⟨hfirst, hsecond, hnames⟩ : s.phase 0 = _ ∧ s.phase 1 = _ ∧ _ := by
    simpa only [Prod.mk.injEq] using hvalues
  have hdone : ∀ i, ∃ result, s.phase i = .returned result
    | 0 => ⟨true, hfirst⟩
    | 1 => ⟨true, hsecond⟩
  have hfits : FitsIn maxUsernameLen (ascii "bob") := ⟨by decide, by decide⟩
  have hunique := (hall startTable (by decide +kernel) (by decide +kernel) twoBobs (fun _ => hfits) bothRead s
    hs hdone).unique
  rw [hnames] at hunique
  exact absurd hunique (by decide)

end EchoLink
