import EchoLink.RoomIds
import EchoLink.RefCounts

/-!
# The names of rooms

A room keeps the name it was created with, and `CREATE` reads that name with `%31s`.
So in every state that operations reach, the name of a room is short and without white
space (`reachable_names`).
-/

namespace EchoLink

open CText RecordFile Runs Relation

variable {s t : Server} {l : List Ptr} {c : Ptr} {cl : Client} {line : Bytes}

/-- A name as `%31s` reads it. -/
structure NameOk (name : Bytes) : Prop where
  short : name.length < maxRoomNameLen
  space : ∀ b ∈ name, isSpace b = false
  zero : (0 : UInt8) ∉ name

def NamesOk (s : Server) : Prop := ∀ q x, s.roomMem q = some x → NameOk x.roomName

/-- Every room of `t` is a room of `s`, with the same name. -/
def SameNames (s t : Server) : Prop :=
  ∀ q x, t.roomMem q = some x → ∃ y, s.roomMem q = some y ∧ y.roomName = x.roomName

theorem SameNames.of_mem (h : t.roomMem = s.roomMem) : SameNames s t := by
  intro q x hq
  rw [h] at hq
  exact ⟨x, hq, rfl⟩

theorem SameNames.trans {u : Server} (h : SameNames s t) (h' : SameNames t u) : SameNames s u := by
  intro q x hq
  obtain ⟨y, hy, hyx⟩ := h' q x hq
  obtain ⟨z, hz, hzy⟩ := h q y hy
  exact ⟨z, hz, hzy.trans hyx⟩

theorem SameNames.namesOk (h : SameNames s t) (hs : NamesOk s) : NamesOk t := by
  intro q x hq
  obtain ⟨y, hy, hname⟩ := h q x hq
  rw [← hname]
  exact hs q y hy

/-- One room has changed, and its name has not. -/
theorem SameNames.update {p : Ptr} {r : Room} {x : Option Room} (hr : s.roomMem p = some r)
    (hmem : t.roomMem = Function.update s.roomMem p x) (hx : ∀ r', x = some r' → r'.roomName = r.roomName) :
    SameNames s t := by
  intro q y hq
  rw [hmem] at hq
  by_cases hqp : q = p
  · subst hqp
    rw [Function.update_self] at hq
    exact ⟨r, hr, (hx y hq).symm⟩
  · rw [Function.update_of_ne hqp] at hq
    exact ⟨y, hq, rfl⟩

theorem Removed.sameNames {p d : Ptr} {r r' : Room} (h : Removed s t p d r r') : SameNames s t := by
  refine SameNames.update h.room h.roomMem ?_
  intro x hx
  split at hx
  · cases hx
  · rw [← Option.some.inj hx, h.without.name]

theorem Leaves.sameNames (h : Leaves s t c cl) : SameNames s t := by
  rcases h with ⟨-, rfl⟩ | ⟨p, r, r', -, hremoved⟩
  · exact SameNames.of_mem rfl
  · exact hremoved.sameNames

theorem Entered.sameNames {p : Ptr} {r : Room} (h : Entered s t c p cl r) : SameNames s t := by
  refine SameNames.update h.room h.roomMem ?_
  intro x hx
  rw [← Option.some.inj hx]
  rfl

/-- A command keeps the names, or it makes a room. -/
theorem Effect.sameNames (h : Effect s c cl line t) :
    SameNames s t ∨ ∃ p r, s.roomMem p = none ∧ t.roomMem p = some r := by
  cases h with
  | quiet hquiet _ => exact Or.inl (SameNames.of_mem hquiet.roomMem)
  | blank => exact Or.inl (SameNames.of_mem rfl)
  | login _ _ _ hquiet _ =>
      have hmem := hquiet.roomMem
      exact Or.inl (SameNames.of_mem hmem)
  | register _ _ _ _ _ hquiet _ => exact Or.inl (SameNames.of_mem hquiet.roomMem)
  | logout _ leaves => exact Or.inl (leaves.sameNames.trans (SameNames.of_mem rfl))
  | leave leaves => exact Or.inl leaves.sameNames
  | join p r _ leaves _ enters => exact Or.inl (leaves.sameNames.trans enters.sameNames)
  | create p name password stack _ _ _ creates =>
      right
      refine ⟨p, newRoom (dbNextFreeRoomId s.db).1 name password, creates.fresh, ?_⟩
      rw [creates.roomMem, Function.update_self]
  | kick d dl _ _ leaves => exact Or.inl leaves.sameNames
  | mute d dl p r muted speakers _ _ room =>
      left
      refine SameNames.update room rfl ?_
      intro x hx
      rw [← Option.some.inj hx]
  | promote _ roomMem _ _ _ => exact Or.inl (SameNames.of_mem roomMem)

/-! ### `CREATE` -/

theorem isSpace_of_mem_strField {width : Nat} {fmt : List Directive} {xs : Bytes} :
    ∀ b ∈ strField (sscanf (.s width :: fmt) xs) 0, isSpace b = false := by
  intro b hb
  simp only [sscanf] at hb
  split at hb
  · exact absurd hb (by simp [strField])
  · simp only [strField, List.getElem?_cons_zero] at hb
    have hword := List.mem_takeWhile_imp (List.mem_of_mem_take hb)
    simpa using hword

theorem scanPair_nameOk {args : Option Bytes} (hargs : ∀ a, args = some a → (0 : UInt8) ∉ a) :
    NameOk (scanPair 31 63 args).1 := by
  obtain ⟨hshort, hzero⟩ := (scanPair_fits hargs 31 63).1
  refine ⟨hshort, ?_, hzero⟩
  cases args with
  | none => exact fun b hb => absurd hb List.not_mem_nil
  | some a => exact isSpace_of_mem_strField

theorem handleCreateRoom_names (h : RoomsOk s l) {env : Env} {args : Option Bytes} {resp : Response}
    (hfresh : ∀ p, env.malloc = some p → s.roomMem p = none) (hargs : ∀ a, args = some a → (0 : UInt8) ∉ a)
    (hs : NamesOk s) (hcreate : handleCreateRoom env s c args = some (resp, t)) : NamesOk t := by
  unfold handleCreateRoom at hcreate
  split at hcreate
  · cases hcreate
  · split at hcreate
    · cases hcreate
      exact hs
    · split at hcreate
      · cases hcreate
        exact hs
      · dsimp only at hcreate
        split at hcreate
        · cases hcreate
          exact hs
        · obtain ⟨hname, hpassword⟩ := scanPair_fits hargs 31 63
          obtain ⟨k, u, l', hroom, -, -, hcases⟩ := h.roomCreate hfresh hname.1 hpassword.1
          rw [hroom, Option.map_some] at hcreate
          obtain rfl := (Prod.mk.inj (Option.some.inj hcreate)).2
          rcases hcases with ⟨hmem, -⟩ | ⟨p, hcreated⟩
          · exact (SameNames.of_mem hmem).namesOk hs
          · intro q x hq
            rw [hcreated.roomMem] at hq
            by_cases hqp : q = p
            · rw [hqp, Function.update_self] at hq
              rw [← Option.some.inj hq]
              exact scanPair_nameOk hargs
            · rw [Function.update_of_ne hqp] at hq
              exact hs q x hq

theorem dispatch_createRoom {env : Env} {cmd : Bytes} {args : Option Bytes}
    (hcmd : strcaseeq cmd (ascii "CREATE") = true) :
    dispatch env s c cmd args = handleCreateRoom env s c args := by
  rw [dispatch, if_neg (strcaseeq_other hcmd (by decide)), if_neg (strcaseeq_other hcmd (by decide)),
    if_neg (strcaseeq_other hcmd (by decide)), if_pos hcmd]

/-! ### Operations -/

theorem runTask_names (h : ServerOk s l) (hc : s.Holds c cl) {env : Env}
    (hfresh : ∀ p, env.malloc = some p → s.roomMem p = none) {out : Option Response} (hs : NamesOk s)
    (htask : runTask env s c line = some (out, t)) : NamesOk t := by
  have heffect := runTask_effect h hc env hfresh line
  rw [htask] at heffect
  rw [runTask_active hc.2 (h.clients.active hc)] at htask
  rcases heffect.2.sameNames with hsame | ⟨p, r, hfree, hmade⟩
  · exact hsame.namesOk hs
  · cases hline : splitCommand line with
    | none =>
        rw [hline] at htask
        cases htask
        exact (SameNames.of_mem rfl).namesOk hs
    | some parts =>
        obtain ⟨cmd, args⟩ := parts
        rw [hline] at htask
        obtain ⟨⟨resp, u⟩, hdispatch, hout⟩ := Option.map_eq_some_iff.mp htask
        obtain rfl := (Prod.mk.inj hout).2
        by_cases hcmd : strcaseeq cmd (ascii "CREATE") = true
        · rw [dispatch_createRoom hcmd] at hdispatch
          exact handleCreateRoom_names h.rooms hfresh (splitCommand_args hline) hs hdispatch
        · -- only `CREATE` makes a room
          obtain ⟨y, hy, -⟩ := dispatch_makesNone env s c args hcmd _ _ hdispatch p r hmade
          rw [hfree] at hy
          cases hy

theorem disconnectClient_names (h : ServerOk s l) {fd : Nat} (hs : NamesOk s) (ht : disconnectClient s fd = some t) :
    NamesOk t := by
  rcases disconnectClient_cases h ht with hsame | ⟨-, d, dl, p, u, -, -, hheld, -, hp, hremove, hmem⟩
  · exact (SameNames.of_mem hsame).namesOk hs
  · obtain ⟨r, hr, hin⟩ := h.in_room hheld hp
    obtain ⟨u', l', r', hcode, -, -, hremoved⟩ := h.rooms.removeClientFromRoom hheld.2 hr hin
    obtain rfl : u = u' := Option.some.inj (hremove.symm.trans hcode)
    exact (hremoved.sameNames.trans (SameNames.of_mem hmem)).namesOk hs

theorem step_names (h : ServerOk s l) {o : Op × Env} (hfresh : Fresh s o) (hs : NamesOk s)
    (hstep : s.step o = some t) : NamesOk t := by
  have hs₀ : NamesOk { s with wrote := o.2.wrote } := hs
  have h₀ := h.with_wrote o.2.wrote
  obtain ⟨op, env⟩ := o
  cases op with
  | accept fd =>
      cases hstep
      exact (SameNames.of_mem (acceptNewClient_roomMem env _ fd)).namesOk hs₀
  | disconnect fd => exact disconnectClient_names h₀ hs₀ hstep
  | command slot line =>
      cases hslot : s.clients slot with
      | none =>
          simp only [Server.step, hslot] at hstep
          cases hstep
          exact hs₀
      | some c =>
          obtain ⟨cl, hc, -, -⟩ := h.clients.holds hslot
          simp only [Server.step, hslot] at hstep
          obtain ⟨⟨out, u⟩, htask, rfl⟩ := Option.map_eq_some_iff.mp hstep
          exact runTask_names h₀ hc (fun p hp => (hfresh p hp).2) hs₀ htask

/-- **Rooms have names of one word** in every state that operations reach. -/
theorem reachable_names {db : FileDb} {users : File} {ops : List (Op × Env)}
    (h : Along Server.step Fresh (Server.start db users) ops)
    (hrun : run Server.step (Server.start db users) ops = some s) : NamesOk s := by
  have hinv : (∃ l, ServerOk s l) ∧ NamesOk s := by
    refine run_some_invariant (I := fun s => (∃ l, ServerOk s l) ∧ NamesOk s) ?_
      ⟨⟨[], ServerOk.start db users⟩, ?_⟩ h hrun
    · intro s o s' hs hfresh hstep
      obtain ⟨⟨l, hok⟩, hnames⟩ := hs
      have hs' := step_ok hok hfresh
      rw [hstep] at hs'
      exact ⟨hs'.1, step_names hok hfresh hnames hstep⟩
    · intro q x hq
      cases hq
  exact hinv.2

end EchoLink
