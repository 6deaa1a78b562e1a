import EchoLink.WalInterleaving

/-!
# Record writes on a shared offset

`db_write_room` seeks and writes on `rooms_fd`, whose offset all threads
share, and takes an `fcntl` lock around the two calls.  Such a lock belongs to
the process: it is granted to every thread of the server at once.  Here the
calls are advanced one system call at a time (`syscall`), each on a room id of
its own.

A record lands in its slot when the offset is, at the write, still where the
call's own `lseek` put it.  If that holds of every write, both records are in
their slots and no other byte has changed (`concurrent_writes_land`); an
`lseek` of the other call between the two is enough to write the record
elsewhere (`write_lands_elsewhere`).
-/

namespace EchoLink

open CText RecordFile Runs

/-- The next system call of a call, with what the call keeps for later. -/
inductive WritePhase where
  | seekOld
  | readOld
  | logBegin (old : Option RoomRecord)
  | logOld (old : Option RoomRecord)
  | logNew
  | lock
  | seek
  | write
  | unlock (bytes : Nat)
  | finish (bytes : Nat)
  | returned (result : Bool)
  deriving DecidableEq

/-- The files, the process that holds the lock of each record's bytes, and the
calls. -/
structure SharedDb (ι : Type) where
  db : FileDb
  locks : Nat → Option Nat
  phase : ι → WritePhase

variable {ι : Type}

def SharedDb.start (db : FileDb) (locks : Nat → Option Nat) : SharedDb ι :=
  { db, locks, phase := fun _ => .seekOld }

/-- `fcntl(fd, F_SETLKW, ..)` on the bytes of a record by the process `pid`: it
waits for another process and never for a thread of its own. -/
def setLock (locks : Nat → Option Nat) (pid roomId : Nat) : Option (Nat → Option Nat) :=
  if locks roomId = none ∨ locks roomId = some pid then some (Function.update locks roomId (some pid))
  else none

variable [DecidableEq ι]

/-- A call has made a system call on `rooms_fd`. -/
def SharedDb.onRooms (s : SharedDb ι) (c : ι) (rooms : File) (next : WritePhase) : SharedDb ι :=
  { s with db := { s.db with rooms }, phase := Function.update s.phase c next }

/-- A call has written a line of the log. -/
def SharedDb.onLog (s : SharedDb ι) (c : ι) (line : Bytes) (next : WritePhase) : SharedDb ι :=
  { s with db := walWrite s.db line, phase := Function.update s.phase c next }

/-- The next system call of `c` by the process `pid`, when it does not wait.
The rollback of a call that has failed is one step. -/
def syscall (calls : ι → WriteCall) (pid : Nat) (s : SharedDb ι) (c : ι) : Option (SharedDb ι) :=
  let id := (calls c).roomId
  let sought := s.db.rooms.seek ((id * roomRecordSize : Nat) : Int)
  match s.phase c with
  | .seekOld => some (s.onRooms c sought .readOld)
  | .readOld =>
      let rd := s.db.rooms.read roomRecordSize
      some (s.onRooms c rd.2
        (.logBegin (if rd.1.length = roomRecordSize then some (RoomRecord.decode rd.1) else none)))
  | .logBegin old => some (s.onLog c (beginLine id) (.logOld old))
  | .logOld old => some (s.onLog c (oldLine old) .logNew)
  | .logNew => some (s.onLog c (newLine (calls c).record) .lock)
  | .lock =>
      (setLock s.locks pid id).map fun locks =>
        { s with locks, phase := Function.update s.phase c .seek }
  | .seek => some (s.onRooms c sought .write)
  | .write =>
      let bytes := min (calls c).wrote roomRecordSize
      some (s.onRooms c (s.db.rooms.write ((calls c).record.encode.take bytes)) (.unlock bytes))
  | .unlock bytes =>
      some { s with
        locks := Function.update s.locks id none
        phase := Function.update s.phase c (.finish bytes) }
  | .finish bytes =>
      if bytes < roomRecordSize then
        some { s with
          db := walRollback s.db id
          phase := Function.update s.phase c (.returned false) }
      else some (s.onLog c (commitLine id) (.returned true))
  | .returned _ => none

variable {calls : ι → WriteCall} {pid : Nat} {s s' : SharedDb ι} {c : ι}

/-- **A call that runs alone** does what `dbWriteRoom` says. -/
theorem syscalls_alone (hphase : s.phase c = .seekOld)
    (hlock : s.locks (calls c).roomId = none ∨ s.locks (calls c).roomId = some pid)
    (hwrote : (calls c).wrote ≤ roomRecordSize) :
    run (syscall calls pid) s (List.replicate 10 c) =
      some {
        db := runWrite s.db (calls c)
        locks := Function.update s.locks (calls c).roomId none
        phase := Function.update s.phase c (.returned (decide (roomRecordSize ≤ (calls c).wrote))) } := by
  have hmin : min (calls c).wrote roomRecordSize = (calls c).wrote := Nat.min_eq_left hwrote
  simp only [List.replicate, run, syscall, hphase, SharedDb.onRooms, SharedDb.onLog, Option.bind_some,
    Function.update_self, Function.update_idem, setLock, hlock, if_true, Option.map_some, hmin, runWrite,
    dbWriteRoom]
  by_cases hshort : (calls c).wrote < roomRecordSize
  · rw [if_pos hshort, if_pos hshort, decide_eq_false (by omega)]
    rfl
  · rw [if_neg hshort, if_neg hshort, decide_eq_true (by omega)]
    rfl

/-! ### What every moment of a run keeps -/

/-- Whether a call has stored its whole record. -/
def WritePhase.stored : WritePhase → Bool
  | .unlock bytes => decide (roomRecordSize ≤ bytes)
  | .finish bytes => decide (roomRecordSize ≤ bytes)
  | .returned result => result
  | _ => false

/-- Whether the record write of a call was short. -/
def WritePhase.short : WritePhase → Bool
  | .unlock bytes => decide (bytes < roomRecordSize)
  | .finish bytes => decide (bytes < roomRecordSize)
  | .returned result => !result
  | _ => false

/-- At a record write the offset is where the call's own `lseek` put it. -/
def Positioned (calls : ι → WriteCall) (s : SharedDb ι) (c : ι) : Prop :=
  s.phase c = .write → s.db.rooms.pos = (calls c).roomId * roomRecordSize

instance (calls : ι → WriteCall) (s : SharedDb ι) (c : ι) : Decidable (Positioned calls s c) :=
  inferInstanceAs (Decidable (s.phase c = .write → s.db.rooms.pos = (calls c).roomId * roomRecordSize))

/-- The records stored so far are in their slots, and the other bytes are those
of the start. -/
structure SlotsOk (calls : ι → WriteCall) (d : Bytes) (s : SharedDb ι) : Prop where
  stored : ∀ c, (s.phase c).stored = true →
    slot roomRecordSize s.db.rooms.data (calls c).roomId = some (calls c).record.encode
  others : ∀ x, (∀ c, (s.phase c).stored = true → x / roomRecordSize ≠ (calls c).roomId) →
    byteAt s.db.rooms.data x = byteAt d x

/-- No record write has been short. -/
def Whole (s : SharedDb ι) : Prop := ∀ c, (s.phase c).short = false

omit [DecidableEq ι] in
theorem SlotsOk.start (d : FileDb) (locks : Nat → Option Nat) :
    SlotsOk calls d.rooms.data (SharedDb.start d locks) where
  stored := by
    intro c hc
    cases hc
  others := fun _ _ => rfl

variable {d : Bytes}

/-- A step that changes neither the bytes of `rooms.bin` nor which records are
stored. -/
theorem SlotsOk.of_same (h : SlotsOk calls d s) {next : WritePhase}
    (hdata : s'.db.rooms.data = s.db.rooms.data) (hphase : s'.phase = Function.update s.phase c next)
    (hstored : next.stored = (s.phase c).stored) : SlotsOk calls d s' := by
  have hsame : ∀ c', (s'.phase c').stored = (s.phase c').stored := by
    intro c'
    rw [hphase]
    by_cases hc : c' = c
    · rw [hc, Function.update_self, hstored]
    · rw [Function.update_of_ne hc]
  constructor
  · intro c' hc'
    rw [hdata]
    exact h.stored c' (hsame c' ▸ hc')
  · intro x hx
    rw [hdata]
    exact h.others x fun c' hc' => hx c' (by rw [hsame, hc'])

/-- The write of a whole record at its own slot. -/
theorem SlotsOk.write (h : SlotsOk calls d s) (hids : Function.Injective fun c => (calls c).roomId)
    (hdata : s'.db.rooms.data =
      patch s.db.rooms.data ((calls c).roomId * roomRecordSize) (calls c).record.encode)
    (hphase : s'.phase = Function.update s.phase c (.unlock roomRecordSize)) : SlotsOk calls d s' := by
  have hlen := (calls c).record.encode_length
  constructor
  · intro c' hc'
    rw [hdata]
    by_cases hc : c' = c
    · rw [hc]
      exact slot_patch_whole (by decide) _ _ hlen
    · rw [hphase, Function.update_of_ne hc] at hc'
      exact slot_patch_kept (Nat.le_of_eq hlen) (fun hid => hc (hids hid)) (h.stored c' hc')
  · intro x hx
    have hother : x / roomRecordSize ≠ (calls c).roomId :=
      hx c (by rw [hphase, Function.update_self]; rfl)
    have hout : ¬ ((calls c).roomId * roomRecordSize ≤ x ∧
        x < (calls c).roomId * roomRecordSize + (calls c).record.encode.length) := by
      rintro ⟨hle, hlt⟩
      rw [hlen] at hlt
      exact hother (Nat.div_eq_of_lt_le hle (by rw [Nat.succ_mul]; exact hlt))
    rw [hdata, byteAt_patch, if_neg hout]
    refine h.others x fun c' hc' => hx c' ?_
    rw [hphase]
    by_cases hc : c' = c
    · rw [hc, Function.update_self]
      rfl
    · rw [Function.update_of_ne hc, hc']

/-- **One system call**: while no write is short, the records stored are in
their slots and the other bytes are those of the start. -/
theorem syscall_slots (hids : Function.Injective fun c => (calls c).roomId)
    (h : Whole s → SlotsOk calls d s) (hpos : Positioned calls s c)
    (hstep : syscall calls pid s c = some s') : Whole s' → SlotsOk calls d s' := by
  intro hwhole
  unfold syscall at hstep
  -- a short write is never made good, so none was short before
  have hbefore : ∀ next, s'.phase = Function.update s.phase c next → (s.phase c).short = false →
      SlotsOk calls d s := by
    intro next hnext hc
    refine h fun c' => ?_
    by_cases hc' : c' = c
    · rw [hc', hc]
    · have := hwhole c'
      rwa [hnext, Function.update_of_ne hc'] at this
  have hafter : ∀ next, s'.phase = Function.update s.phase c next → next.short = false := by
    intro next hnext
    have := hwhole c
    rwa [hnext, Function.update_self] at this
  cases hphase : s.phase c with
  | write =>
      rw [hphase] at hstep
      obtain rfl := Option.some.inj hstep
      have hshort := hafter _ rfl
      have hfull : roomRecordSize ≤ (calls c).wrote := by
        have : ¬ min (calls c).wrote roomRecordSize < roomRecordSize := of_decide_eq_false hshort
        omega
      refine (hbefore _ rfl (by rw [hphase]; rfl)).write hids (c := c) ?_ ?_
      · change (s.db.rooms.write _).data = _
        rw [Nat.min_eq_right hfull, encode_take_all (Nat.le_refl _), File.write, hpos hphase]
      · rw [SharedDb.onRooms, Nat.min_eq_right hfull]
  | lock =>
      rw [hphase] at hstep
      obtain ⟨locks, _, rfl⟩ := Option.map_eq_some_iff.mp hstep
      exact (hbefore _ rfl (by rw [hphase]; rfl)).of_same rfl rfl (by rw [hphase]; rfl)
  | finish bytes =>
      rw [hphase] at hstep
      dsimp only at hstep
      split at hstep
      · obtain rfl := Option.some.inj hstep
        cases hafter _ rfl
      · rename_i hfull
        obtain rfl := Option.some.inj hstep
        refine (hbefore _ rfl (by rw [hphase]; exact decide_eq_false hfull)).of_same rfl rfl ?_
        rw [hphase]
        exact (decide_eq_true (Nat.le_of_not_lt hfull)).symm
  | unlock bytes =>
      rw [hphase] at hstep
      obtain rfl := Option.some.inj hstep
      have hshort := hafter _ rfl
      exact (hbefore _ rfl (by rw [hphase]; exact hshort)).of_same rfl rfl (by rw [hphase]; rfl)
  | returned result =>
      rw [hphase] at hstep
      cases hstep
  | _ =>
      rw [hphase] at hstep
      obtain rfl := Option.some.inj hstep
      exact (hbefore _ rfl (by rw [hphase]; rfl)).of_same (by simp [SharedDb.onRooms, SharedDb.onLog, walWrite])
        rfl (by rw [hphase]; rfl)

/-- **Any number of calls on different ids**: once all have returned 1, each
record is in its slot and every byte of the other slots is as before. -/
theorem writes_land (hids : Function.Injective fun c => (calls c).roomId) (db : FileDb)
    (locks : Nat → Option Nat) (steps : List ι)
    (halong : Along (syscall calls pid) (Positioned calls) (SharedDb.start db locks) steps)
    (hrun : run (syscall calls pid) (SharedDb.start db locks) steps = some s)
    (hdone : ∀ c, s.phase c = .returned true) : SlotsOk calls db.rooms.data s := by
  refine run_some_invariant (I := fun s => Whole s → SlotsOk calls db.rooms.data s)
    (fun _ _ _ h hpos hstep => syscall_slots hids h hpos hstep) (fun _ => SlotsOk.start db locks) halong hrun ?_
  intro c
  rw [hdone c]
  rfl

/-! ### Two calls -/

/-- `rooms.bin` with the bytes `d'` holds `a` in slot `i` and `b` in slot `j`,
and the other slots are those of `d`; where `d` has ended, they are zeros. -/
structure Landed (d : Bytes) (i j : Nat) (a b : RoomRecord) (d' : Bytes) : Prop where
  first : slot roomRecordSize d' i = some a.encode
  second : slot roomRecordSize d' j = some b.encode
  others : ∀ x, x / roomRecordSize ≠ i → x / roomRecordSize ≠ j → byteAt d' x = byteAt d x

/-- The calls `db_write_room(i, a)` and `db_write_room(j, b)`, whose writes
transfer `m` and `n` bytes. -/
def twoCalls (i j : Nat) (a b : RoomRecord) (m n : Nat) : Bool → WriteCall
  | false => ⟨i, a, m⟩
  | true => ⟨j, b, n⟩

/-- **Concurrent record writes**: in every interleaving in which each record is
written at the offset its own call has sought, both records land in their slots
and no other slot changes. -/
theorem concurrent_writes_land (pid : Nat) (db : FileDb) (locks : Nat → Option Nat) (i j : Nat)
    (a b : RoomRecord) (m n : Nat) (hij : i ≠ j) (steps : List Bool) (s : SharedDb Bool)
    (halong : Along (syscall (twoCalls i j a b m n) pid) (Positioned (twoCalls i j a b m n))
      (SharedDb.start db locks) steps)
    (hrun : run (syscall (twoCalls i j a b m n) pid) (SharedDb.start db locks) steps = some s)
    (hfirst : s.phase false = .returned true) (hsecond : s.phase true = .returned true) :
    Landed db.rooms.data i j a b s.db.rooms.data := by
  have hids : Function.Injective fun c => (twoCalls i j a b m n c).roomId := by
    intro c c' hid
    cases c <;> cases c'
    · rfl
    · exact absurd hid hij
    · exact absurd hid.symm hij
    · rfl
  have hdone : ∀ c, s.phase c = .returned true := by
    intro c
    cases c
    · exact hfirst
    · exact hsecond
  have hslots := writes_land hids db locks steps halong hrun hdone
  refine ⟨hslots.stored false (by rw [hfirst]; rfl), hslots.stored true (by rw [hsecond]; rfl), ?_⟩
  intro x hi hj
  refine hslots.others x fun c _ => ?_
  cases c
  · exact hi
  · exact hj

/-- The calls overlap, and each seeks and writes before the other moves the
offset. -/
def overlapped : List Bool :=
  [false, true, true, false, true, false, false, true, false, true, false, false, false, true, true, true,
    true, false, true, false]

/-- Both records of the overlapping calls land. -/
theorem overlapped_writes_land :
    (run (syscall (twoCalls 0 1 (twoRooms 0) (twoRooms 1) 108 108) 7)
      (SharedDb.start emptyDb fun _ => none) overlapped).map
        (fun s => (s.phase false, s.phase true)) = some (.returned true, .returned true) ∧
    ∀ s, run (syscall (twoCalls 0 1 (twoRooms 0) (twoRooms 1) 108 108) 7)
        (SharedDb.start emptyDb fun _ => none) overlapped = some s →
      Landed [] 0 1 (twoRooms 0) (twoRooms 1) s.db.rooms.data := by
  have hend : (run (syscall (twoCalls 0 1 (twoRooms 0) (twoRooms 1) 108 108) 7)
      (SharedDb.start emptyDb fun _ => none) overlapped).map
        (fun s => (s.phase false, s.phase true)) = some (.returned true, .returned true) := by decide +kernel
  have halong : Along (syscall (twoCalls 0 1 (twoRooms 0) (twoRooms 1) 108 108) 7)
      (Positioned (twoCalls 0 1 (twoRooms 0) (twoRooms 1) 108 108)) (SharedDb.start emptyDb fun _ => none)
      overlapped := by
    have hcheck : checkAlong (syscall (twoCalls 0 1 (twoRooms 0) (twoRooms 1) 108 108) 7)
        (fun s c => decide (Positioned (twoCalls 0 1 (twoRooms 0) (twoRooms 1) 108 108) s c))
        (SharedDb.start emptyDb fun _ => none) overlapped = true := by decide +kernel
    exact along_of_checkAlong (fun _ _ h => of_decide_eq_true h) hcheck
  refine ⟨hend, ?_⟩
  intro s hs
  rw [hs, Option.map_some, Option.some.injEq, Prod.mk.injEq] at hend
  exact concurrent_writes_land 7 emptyDb (fun _ => none) 0 1 (twoRooms 0) (twoRooms 1) 108 108 (by decide)
    overlapped s halong hs hend.1 hend.2

/-- The second call seeks between the `lseek` and the `write` of the first,
inside the lock of the first. -/
def crossed : List Bool :=
  List.replicate 7 false ++ List.replicate 7 true ++ [false, true, false, true, false, true]

/-- Both calls return 1, and the first record is in the slot of the second. -/
theorem write_lands_elsewhere :
    ¬ ∀ (pid : Nat) (db : FileDb) (locks : Nat → Option Nat) (i j : Nat) (a b : RoomRecord) (m n : Nat),
      i ≠ j → ∀ (steps : List Bool) (s : SharedDb Bool),
        run (syscall (twoCalls i j a b m n) pid) (SharedDb.start db locks) steps = some s →
        s.phase false = .returned true → s.phase true = .returned true →
          Landed db.rooms.data i j a b s.db.rooms.data := by
  intro hall
  have hend : (run (syscall (twoCalls 0 1 (twoRooms 0) (twoRooms 1) 108 108) 7)
      (SharedDb.start emptyDb fun _ => none) crossed).map
        (fun s => (s.phase false, s.phase true, slot roomRecordSize s.db.rooms.data 1)) =
          some (.returned true, .returned true, some (twoRooms 0).encode) := by decide +kernel
  obtain ⟨s, hs, hvalues⟩ := Option.map_eq_some_iff.mp hend
  obtain ⟨hfirst, hsecond, hslot⟩ : s.phase false = _ ∧ s.phase true = _ ∧ _ := by
    simpa only [Prod.mk.injEq] using hvalues
  have hlanded := hall 7 emptyDb (fun _ => none) 0 1 (twoRooms 0) (twoRooms 1) 108 108 (by decide) crossed s hs
    hfirst hsecond
  rw [hlanded.second] at hslot
  exact absurd hslot (by decide +kernel)

end EchoLink
