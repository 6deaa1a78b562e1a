import EchoLink.ClientTable
import EchoLink.BoundedQueue
import EchoLink.Runs
import Mathlib.Algebra.BigOperators.Group.Finset.Piecewise

/-!
# The map from descriptors to slots

`network.c` keeps two indexes of its clients: `clients[]`, and `fd_to_slot[]`
for the way from a descriptor to its client.  `accept` gives the lowest
descriptor that is not open, and the descriptors of the clients and fewer than
4000 others are open, so every client's descriptor is below `FD_MAP_SIZE` and
has an entry in the map.  After any calls of `accept_new_client` and
`disconnect_client` the map finds what a scan of `clients[]` finds
(`fd_map_agrees`).
-/

namespace EchoLink

open PartialMap BoundedQueue Runs

/-- After `network_init`. -/
def Table.start : Table where
  clients := fun _ => none
  clientCount := 0
  fdToSlot := fun _ => none
  mem := fun _ => none

/-- The descriptor of the client in a slot. -/
def Table.fdOf (t : Table) (i : Fin maxClients) : Option Nat :=
  (t.clients i).bind fun c => (t.mem c).map Connection.fd

/-- The client that `handle_tcp_command` finds through the map. -/
def Table.lookup (t : Table) (fd : Nat) : Option Ptr := (t.slotOf fd).bind t.clients

/-- The client that a scan of `clients[]` finds. -/
def Table.scan (t : Table) (fd : Nat) : Option Ptr :=
  ((List.finRange maxClients).find? fun i => t.fdOf i = some fd).bind t.clients

/-- The number of clients in `clients[]`. -/
def Table.used (t : Table) : Nat := (Finset.univ.filter fun i => (t.clients i).isSome).card

/-! ### Calls -/

inductive TableOp where
  /-- `accept` returns `fd`, and `malloc` what is given -/
  | accept (fd : Nat) (malloc : Option Ptr)
  | disconnect (fd : Nat)

def Table.step (t : Table) : TableOp → Option Table
  | .accept fd malloc => some (t.accept malloc fd)
  | .disconnect fd => t.disconnect fd

/-- `fd` is the lowest descriptor that is not open, with `others` open besides
those of the clients. -/
def LowestFree (others : Finset Nat) (t : Table) (fd : Nat) : Prop :=
  (fd ∉ others ∧ ∀ i, t.fdOf i ≠ some fd) ∧ ∀ k < fd, k ∈ others ∨ ∃ i, t.fdOf i = some k

/-- What the system promises: `accept` returns the lowest descriptor that is not
open, fewer than 4000 are open for other purposes, and `malloc` returns memory
that is not in use.  Nothing is promised of the descriptor to disconnect. -/
def SystemOk (t : Table) : TableOp → Prop
  | .accept fd malloc =>
      (∃ others : Finset Nat, others.card < 4000 ∧ LowestFree others t fd) ∧
        ∀ c, malloc = some c → t.mem c = none
  | .disconnect _ => True

/-- **What the two indexes promise.** -/
structure TableAgrees (t : Table) : Prop where
  lookup : ∀ fd, t.lookup fd = t.scan fd
  fds : ∀ i j fd, t.fdOf i = some fd → t.fdOf j = some fd → i = j
  slots : ∀ i c, t.clients i = some c → ∃ x, t.mem c = some x ∧ x.slot = i
  count : t.clientCount = t.used
  bound : t.clientCount ≤ maxClients
  /-- the branch for a table without a free slot is not reached -/
  free : t.clientCount < maxClients → (List.finRange maxClients).find? (fun i => (t.clients i).isNone) ≠ none

/-! ### The invariant -/

/-- The invariant: the map is the inverse of `fdOf`. -/
structure TableInv (t : Table) : Prop where
  held : ∀ i c, t.clients i = some c → ∃ x, t.mem c = some x ∧ x.slot = i
  mapped : ∀ fd i, t.slotOf fd = some i ↔ t.fdOf i = some fd
  count : t.clientCount = t.used

theorem TableInv.start : TableInv Table.start where
  held := by
    rintro i c ⟨⟩
  mapped := by
    intro fd i
    have hslot : Table.start.slotOf fd = none := by
      unfold Table.slotOf
      split
      · rfl
      · rfl
    rw [hslot]
    constructor
    · rintro ⟨⟩
    · rintro ⟨⟩
  count := by simp [Table.start, Table.used]

variable {t : Table} {c : Ptr} {x : Connection} {i : Fin maxClients} {fd : Nat}

theorem fdOf_eq (hc : t.clients i = some c) (hx : t.mem c = some x) : t.fdOf i = some x.fd := by
  rw [Table.fdOf, hc, Option.bind_some, hx, Option.map_some]

theorem of_fdOf (h : t.fdOf i = some fd) :
    ∃ c x, t.clients i = some c ∧ t.mem c = some x ∧ x.fd = fd := by
  obtain ⟨c, hc, hmap⟩ := Option.bind_eq_some_iff.mp h
  obtain ⟨x, hx, hfd⟩ := Option.map_eq_some_iff.mp hmap
  exact ⟨c, x, hc, hx, hfd⟩

/-- A client is in one slot only. -/
theorem TableInv.one_slot (h : TableInv t) {j : Fin maxClients} (hi : t.clients i = some c)
    (hj : t.clients j = some c) : i = j := by
  obtain ⟨x, hx, hxi⟩ := h.held i c hi
  obtain ⟨y, hy, hyj⟩ := h.held j c hj
  rw [hx, Option.some.injEq] at hy
  rw [← hxi, ← hyj, hy]

/-- The number of clients when a slot changes. -/
theorem used_update {t' : Table} {y : Option Ptr} (h : t'.clients = Function.update t.clients i y) :
    t'.used + (if (t.clients i).isSome then 1 else 0) = t.used + (if y.isSome then 1 else 0) := by
  have hsum := sum_update (fun z : Option Ptr => if z.isSome then 1 else 0) t.clients i y
  simp only [Table.used, Finset.card_filter, h]
  exact hsum

/-- A lowest free descriptor has an entry in the map. -/
theorem LowestFree.lt_fdMapSize {others : Finset Nat} (h : LowestFree others t fd)
    (hothers : others.card < 4000) : fd < fdMapSize := by
  have hsub : Finset.range fd ⊆ others ∪ Finset.univ.image fun i => (t.fdOf i).getD 0 := by
    intro k hk
    rw [Finset.mem_union, Finset.mem_image]
    rcases h.2 k (Finset.mem_range.mp hk) with hother | ⟨i, hi⟩
    · exact Or.inl hother
    · exact Or.inr ⟨i, Finset.mem_univ i, by rw [hi, Option.getD_some]⟩
  have hclients : (Finset.univ.image fun i => (t.fdOf i).getD 0).card ≤ maxClients := by
    refine Nat.le_trans Finset.card_image_le ?_
    rw [Finset.card_univ, Fintype.card_fin]
  have hle := Nat.le_trans (Finset.card_le_card hsub) (Finset.card_union_le _ _)
  rw [Finset.card_range] at hle
  have hsize : 4000 + maxClients < fdMapSize := by decide
  omega

/-! ### The steps -/

variable {t' : Table}

/-- The descriptors when a slot and the memory of its client change. -/
theorem fdOf_update {y : Option Connection} {z : Option Ptr}
    (hother : ∀ j d, j ≠ i → t.clients j = some d → d ≠ c)
    (hclients : t'.clients = Function.update t.clients i z)
    (hmem : t'.mem = Function.update t.mem c y) (j : Fin maxClients) (hj : j ≠ i) :
    t'.fdOf j = t.fdOf j := by
  rw [Table.fdOf, Table.fdOf, hclients, Function.update_of_ne hj, hmem]
  cases hd : t.clients j with
  | none => rfl
  | some d => rw [Option.bind_some, Option.bind_some, Function.update_of_ne (hother j d hj hd)]

/-- A new client in an empty slot. -/
theorem TableInv.fill (h : TableInv t) (hempty : t.clients i = none) (hfree : t.mem c = none)
    (hslot : x.slot = i) (hfd : ∀ j, t.fdOf j ≠ some x.fd)
    (hclients : t'.clients = Function.update t.clients i (some c))
    (hmem : t'.mem = Function.update t.mem c (some x))
    (hslotOf : t'.slotOf = Function.update t.slotOf x.fd (some i))
    (hcount : t'.clientCount = t.clientCount + 1) : TableInv t' := by
  have hother : ∀ j d, t.clients j = some d → d ≠ c := by
    rintro j d hj rfl
    obtain ⟨y, hy, _⟩ := h.held j d hj
    rw [hfree] at hy
    cases hy
  have hself : t'.fdOf i = some x.fd :=
    fdOf_eq (by rw [hclients, Function.update_self]) (by rw [hmem, Function.update_self])
  have hrest := fdOf_update (fun j d _ => hother j d) hclients hmem
  refine ⟨?_, ?_, ?_⟩
  · intro j d hj
    rw [hclients] at hj
    rcases update_some_cases hj with ⟨rfl, rfl⟩ | ⟨_, hj⟩
    · exact ⟨x, by rw [hmem, Function.update_self], hslot⟩
    · rw [hmem, Function.update_of_ne (hother j d hj)]
      exact h.held j d hj
  · intro k j
    rw [hslotOf]
    by_cases hj : j = i
    · subst hj
      rw [hself, Option.some.injEq]
      by_cases hk : k = x.fd
      · rw [hk, Function.update_self]
        exact ⟨fun _ => rfl, fun _ => rfl⟩
      · have hnone : t.fdOf j = none := by rw [Table.fdOf, hempty, Option.bind_none]
        rw [Function.update_of_ne hk, h.mapped, hnone]
        exact ⟨by rintro ⟨⟩, fun heq => absurd heq.symm hk⟩
    · rw [hrest j hj]
      by_cases hk : k = x.fd
      · rw [hk, Function.update_self, Option.some.injEq]
        exact ⟨fun heq => absurd heq.symm hj, fun heq => absurd heq (hfd j)⟩
      · rw [Function.update_of_ne hk, h.mapped]
  · have hused := used_update hclients
    rw [hempty] at hused
    simp only [Option.isSome_none, Bool.false_eq_true, if_false, Nat.add_zero, Option.isSome_some,
      if_true] at hused
    rw [hcount, h.count, hused, Nat.cast_add, Nat.cast_one]

/-- The client of a slot is gone. -/
theorem TableInv.clear (h : TableInv t) (hc : t.clients i = some c) (hx : t.mem c = some x)
    {y : Option Connection} (hclients : t'.clients = Function.update t.clients i none)
    (hmem : t'.mem = Function.update t.mem c y)
    (hslotOf : t'.slotOf = Function.update t.slotOf x.fd none)
    (hcount : t'.clientCount = t.clientCount - 1) : TableInv t' := by
  have hother : ∀ j d, j ≠ i → t.clients j = some d → d ≠ c := by
    rintro j d hj hd rfl
    exact hj (h.one_slot hd hc)
  have hfd := fdOf_eq hc hx
  have hself : t'.fdOf i = none := by
    rw [Table.fdOf, hclients, Function.update_self, Option.bind_none]
  have hrest := fdOf_update hother hclients hmem
  refine ⟨?_, ?_, ?_⟩
  · intro j d hj
    rw [hclients] at hj
    obtain ⟨hji, hj⟩ := update_none_cases hj
    rw [hmem, Function.update_of_ne (hother j d hji hj)]
    exact h.held j d hj
  · intro k j
    rw [hslotOf]
    by_cases hk : k = x.fd
    · rw [hk, Function.update_self]
      by_cases hj : j = i
      · rw [hj, hself]
        exact ⟨by rintro ⟨⟩, by rintro ⟨⟩⟩
      · rw [hrest j hj, ← h.mapped, (h.mapped x.fd i).mpr hfd, Option.some.injEq]
        exact ⟨by rintro ⟨⟩, fun heq => absurd heq.symm hj⟩
    · rw [Function.update_of_ne hk, h.mapped]
      by_cases hj : j = i
      · rw [hj, hself, hfd, Option.some.injEq]
        exact ⟨fun heq => absurd heq.symm hk, by rintro ⟨⟩⟩
      · rw [hrest j hj]
  · have hused := used_update hclients
    rw [hc] at hused
    simp only [Option.isSome_none, Bool.false_eq_true, if_false, Nat.add_zero, Option.isSome_some,
      if_true] at hused
    have hold := h.count
    rw [← hused, Nat.cast_add, Nat.cast_one] at hold
    omega

/-- **A client is accepted.** -/
theorem TableInv.accept (h : TableInv t) {malloc : Option Ptr} (hok : SystemOk t (.accept fd malloc)) :
    TableInv (t.accept malloc fd) := by
  obtain ⟨⟨others, hcard, hlowest⟩, hfresh⟩ := hok
  have hsize := hlowest.lt_fdMapSize hcard
  unfold Table.accept
  split
  · exact h
  · split
    · rename_i slot c hslot
      have hempty : t.clients slot = none := by simpa using List.find?_some hslot
      refine h.fill hempty (hfresh c rfl) (x := ⟨fd, slot, true, 1⟩) rfl hlowest.1.2 rfl rfl ?_ rfl
      funext k
      simp only [Table.slotOf]
      by_cases hk : k = fd
      · rw [hk, if_pos hsize, Function.update_self, Function.update_self]
      · rw [Function.update_of_ne hk, Function.update_of_ne hk, Table.slotOf]
    · exact h

/-- **A client is disconnected**, whatever the descriptor. -/
theorem TableInv.disconnect (h : TableInv t) (fd : Nat) :
    ∃ t', t.disconnect fd = some t' ∧ TableInv t' := by
  unfold Table.disconnect
  cases hslot : t.slotOf fd with
  | none => exact ⟨t, rfl, h⟩
  | some i =>
      obtain ⟨c, x, hc, hx, hxfd⟩ := of_fdOf ((h.mapped fd i).mp hslot)
      subst hxfd
      simp only [hc, hx, if_true]
      refine ⟨_, rfl, h.clear hc hx rfl rfl ?_ rfl⟩
      funext k
      simp only [Table.slotOf]
      by_cases hk : k = x.fd
      · rw [hk, Function.update_self, Function.update_self, ite_self]
      · rw [Function.update_of_ne hk, Function.update_of_ne hk, Table.slotOf]

/-! ### What the invariant gives -/

theorem TableInv.agrees (h : TableInv t) : TableAgrees t := by
  have hused : t.used ≤ maxClients := by
    refine Nat.le_trans (Finset.card_le_univ _) ?_
    rw [Fintype.card_fin]
  have hfds : ∀ i j fd, t.fdOf i = some fd → t.fdOf j = some fd → i = j := by
    intro i j fd hi hj
    rw [← h.mapped] at hi hj
    rw [hi, Option.some.injEq] at hj
    exact hj
  refine ⟨?_, hfds, h.held, h.count, by rw [h.count]; exact_mod_cast hused, ?_⟩
  · intro fd
    unfold Table.lookup Table.scan
    congr 1
    cases hfind : (List.finRange maxClients).find? fun i => t.fdOf i = some fd with
    | some i =>
        have hi : t.fdOf i = some fd := by simpa using List.find?_some hfind
        exact (h.mapped fd i).mpr hi
    | none =>
        cases hslot : t.slotOf fd with
        | none => rfl
        | some i =>
            have hi := (h.mapped fd i).mp hslot
            have hno := List.find?_eq_none.mp hfind i (List.mem_finRange i)
            simp [hi] at hno
  · intro hlt hnone
    -- with every slot in use the count is `MAX_CLIENTS`
    have hall : ∀ i, (t.clients i).isSome = true := by
      intro i
      have hi := List.find?_eq_none.mp hnone i (List.mem_finRange i)
      simpa [Option.isSome_iff_ne_none] using hi
    have hfull : t.used = maxClients := by
      unfold Table.used
      rw [Finset.filter_true_of_mem fun i _ => hall i, Finset.card_univ, Fintype.card_fin]
    rw [h.count, hfull] at hlt
    exact lt_irrefl _ hlt

/-- **The map agrees with the table** after any calls. -/
theorem fd_map_agrees (ops : List TableOp) (h : Along Table.step SystemOk Table.start ops) :
    ∃ t, run Table.step Table.start ops = some t ∧ TableAgrees t := by
  obtain ⟨t, hrun, hok⟩ := run_invariant (I := TableInv) (by
    intro t op hok hsystem
    cases op with
    | accept fd malloc => exact ⟨_, rfl, hok.accept hsystem⟩
    | disconnect fd => exact hok.disconnect fd) TableInv.start h
  exact ⟨t, hrun, hok.agrees⟩

/-- Descriptors 0 to 4 are open; two clients connect, a descriptor without a
client and the first client's are disconnected, and a third client gets the
first one's descriptor and slot. -/
def threeClients : List TableOp :=
  [.accept 5 (some 1), .accept 6 (some 2), .disconnect 4, .disconnect 5, .accept 5 (some 3)]

/-- `SystemOk` with the descriptors below `n` open, computed. -/
def checkSystemOk (n : Nat) (t : Table) : TableOp → Bool
  | .accept fd malloc =>
      n < 4000 && (List.finRange maxClients).all (fun i => t.fdOf i ≠ some fd) && n ≤ fd &&
        (List.range fd).all (fun k => k < n || (List.finRange maxClients).any fun i => t.fdOf i = some k) &&
          malloc.all fun c => (t.mem c).isNone
  | .disconnect _ => true

theorem systemOk_of_check (n : Nat) (t : Table) (op : TableOp) (h : checkSystemOk n t op = true) :
    SystemOk t op := by
  cases op with
  | disconnect fd => trivial
  | accept fd malloc =>
      simp only [checkSystemOk, Bool.and_eq_true, decide_eq_true_eq, List.all_eq_true] at h
      obtain ⟨⟨⟨⟨hn, hfd⟩, hle⟩, hlower⟩, hfree⟩ := h
      refine ⟨⟨Finset.range n, by rw [Finset.card_range]; exact hn, ⟨?_, ?_⟩, ?_⟩, ?_⟩
      · rw [Finset.mem_range]
        exact Nat.not_lt.mpr hle
      · exact fun i => hfd i (List.mem_finRange i)
      · intro k hk
        rcases Bool.or_eq_true_iff.mp (hlower k (List.mem_range.mpr hk)) with hkn | hany
        · exact Or.inl (Finset.mem_range.mpr (by simpa using hkn))
        · obtain ⟨i, _, hi⟩ := List.any_eq_true.mp hany
          exact Or.inr ⟨i, by simpa using hi⟩
      · rintro c rfl
        simpa using hfree

/-- The third client is found under the descriptor of the first. -/
theorem fd_map_threeClients :
    (∃ t, run Table.step Table.start threeClients = some t ∧ TableAgrees t) ∧
      (run Table.step Table.start threeClients).map (fun t => (t.lookup 5, t.lookup 6, t.clientCount)) =
        some (some 3, some 2, 2) := by
  refine ⟨fd_map_agrees threeClients ?_, by decide +kernel⟩
  exact along_of_checkAlong (systemOk_of_check 5) (by decide +kernel)

end EchoLink
