import Mathlib.Data.List.Sort
import Mathlib.Data.Multiset.AddSub

/-!
# A bag that evicts its oldest item

Items arrive one at a time at a bag of limited capacity.  While there is room
they are added; then each arrival takes the place of an item with the least key,
even if its own key is smaller still.

Without the item that would go next, a full bag holds the newest arrivals, for
the eviction takes out nothing that belongs to them.  So after all arrivals it
holds the last one together with the newest of the others (`arrivals_full`), and
it holds the newest of all exactly when the last one is among them
(`keeps_newest_iff`).
-/

namespace Eviction

variable {α : Type*} (key : α → Nat)

/-- `a` is at least as new as `b`. -/
def Newer (a b : α) : Prop := key b ≤ key a

instance : DecidableRel (Newer key) := fun a b => inferInstanceAs (Decidable (key b ≤ key a))
instance : Std.Total (Newer key) := ⟨fun a b => Nat.le_total (key b) (key a)⟩
instance : IsTrans α (Newer key) := ⟨fun _ _ _ h h' => Nat.le_trans h' h⟩

/-- The newest items, the first of them first. -/
def newest (n : Nat) (items : List α) : List α := (items.insertionSort (Newer key)).take n

/-- Keys tell the items apart. -/
def Distinct (items : List α) : Prop := (items.map key).Nodup

variable {key} {items l l' : List α} {n : Nat} {z : α}

theorem Distinct.perm (h : Distinct key l) (hp : l.Perm l') : Distinct key l' :=
  (hp.map key).nodup_iff.mp h

theorem Distinct.injOn (h : Distinct key l) {a b : α} (ha : a ∈ l) (hb : b ∈ l) (hk : key a = key b) : a = b :=
  List.inj_on_of_nodup_map h ha hb hk

theorem Distinct.left (h : Distinct key (l ++ l')) : Distinct key l := by
  rw [Distinct, List.map_append] at h
  exact h.of_append_left

/-- With distinct keys there is one way to sort. -/
theorem eq_of_sorted (h : Distinct key l) (hl : l.Pairwise (Newer key)) (hl' : l'.Pairwise (Newer key))
    (hp : l.Perm l') : l = l' := by
  refine hp.eq_of_pairwise ?_ hl hl'
  intro a b ha hb hab hba
  exact h.injOn ha (hp.mem_iff.mpr hb) (Nat.le_antisymm hba hab)

theorem take_orderedInsert (n : Nat) (z : α) (l : List α) :
    (l.orderedInsert (Newer key) z).take n = ((l.take n).orderedInsert (Newer key) z).take n := by
  induction l generalizing n with
  | nil => simp
  | cons a l ih =>
      cases n with
      | zero => simp
      | succ n =>
          rw [List.take_succ_cons]
          by_cases hz : Newer key z a
          · rw [List.orderedInsert_cons_of_le _ _ hz, List.orderedInsert_cons_of_le _ _ hz,
              List.take_succ_cons, List.take_succ_cons]
            cases n with
            | zero => simp
            | succ n => simp [List.take_take]
          · rw [List.orderedInsert_of_not_le _ _ hz, List.orderedInsert_of_not_le _ _ hz,
              List.take_succ_cons, List.take_succ_cons, ih]

theorem newest_perm (h : Distinct key l) (hp : l.Perm l') (n : Nat) : newest key n l = newest key n l' := by
  have hsort : l.insertionSort (Newer key) = l'.insertionSort (Newer key) :=
    eq_of_sorted (h.perm (List.perm_insertionSort _ l).symm) (List.pairwise_insertionSort _ l)
      (List.pairwise_insertionSort _ l')
      ((List.perm_insertionSort _ l).trans (hp.trans (List.perm_insertionSort _ l').symm))
  rw [newest, newest, hsort]

/-- The newest items after one more. -/
theorem newest_snoc (h : Distinct key (l ++ [z])) (n : Nat) :
    newest key n (l ++ [z]) = ((newest key n l).orderedInsert (Newer key) z).take n := by
  rw [newest_perm h (List.perm_append_singleton z l) n, newest, List.insertionSort_cons, take_orderedInsert,
    newest]

theorem newest_length (n : Nat) (l : List α) : (newest key n l).length = min n l.length := by
  rw [newest, List.length_take, List.length_insertionSort]

theorem newest_sorted (n : Nat) (l : List α) : (newest key n l).Pairwise (Newer key) :=
  (List.pairwise_insertionSort _ l).sublist (List.take_sublist _ _)

theorem mem_of_mem_newest {x : α} (h : x ∈ newest key n l) : x ∈ l :=
  (List.mem_insertionSort _).mp (List.mem_of_mem_take h)

/-! ### A bag that is never overfull -/

/-- One arrival at a bag of capacity `k`: it is added, or takes the place of an
item with a least key. -/
inductive Arrives (key : α → Nat) (k : Nat) (bag : Multiset α) (z : α) : Multiset α → Prop
  | add (room : bag.card < k) : Arrives key k bag z (z ::ₘ bag)
  | evict (m : α) (rest : Multiset α) (full : bag.card = k) (split : bag = m ::ₘ rest)
      (least : ∀ x ∈ bag, key m ≤ key x) : Arrives key k bag z (z ::ₘ rest)

/-- Arrivals one after the other. -/
inductive Arrivals (key : α → Nat) (k : Nat) : Multiset α → List α → Multiset α → Prop
  | nil (bag : Multiset α) : Arrivals key k bag [] bag
  | cons {bag bag' bag'' : Multiset α} {z : α} {rest : List α} (first : Arrives key k bag z bag')
      (others : Arrivals key k bag' rest bag'') : Arrivals key k bag (z :: rest) bag''

variable {k : Nat} {bag bag' : Multiset α}

/-- What is in the bag after the arrivals `l`: all of them, or as many as fit,
sorted, and all of these but the last are the newest. -/
def Kept (key : α → Nat) (k : Nat) (l : List α) (bag : Multiset α) : Prop :=
  (l.length < k ∧ bag = ↑l) ∨
    (k ≤ l.length ∧ ∃ sorted : List α, sorted.Pairwise (Newer key) ∧ sorted.length = k ∧ bag = ↑sorted ∧
      sorted ⊆ l ∧ sorted.take (k - 1) = newest key (k - 1) l)

/-- A least item of a sorted list is its last one. -/
theorem least_is_last (hk : 0 < k) (hd : Distinct key l) {sorted : List α} (hs : sorted.Pairwise (Newer key))
    (hlen : sorted.length = k) (hsub : sorted ⊆ l) {m : α} {rest : Multiset α}
    (hsplit : (↑sorted : Multiset α) = m ::ₘ rest) (hleast : ∀ x ∈ sorted, key m ≤ key x) :
    rest = ↑(sorted.take (k - 1)) := by
  have hne : sorted ≠ [] := by
    rintro rfl
    simp at hlen
    omega
  have hcut : sorted = sorted.take (k - 1) ++ [sorted.getLast hne] := by
    rw [← hlen, ← List.dropLast_eq_take, List.dropLast_append_getLast]
  have hlast : ∀ x ∈ sorted, key (sorted.getLast hne) ≤ key x := by
    intro x hx
    rw [hcut] at hs hx
    rcases List.mem_append.mp hx with hx | hx
    · exact (List.pairwise_append.mp hs).2.2 x hx _ (List.mem_singleton_self _)
    · rw [List.mem_singleton.mp hx]
  have hm : m ∈ sorted := by
    rw [← Multiset.mem_coe, hsplit]
    exact Multiset.mem_cons_self m rest
  have hsame : m = sorted.getLast hne :=
    hd.injOn (hsub hm) (hsub (List.getLast_mem hne))
      (Nat.le_antisymm (hleast _ (List.getLast_mem hne)) (hlast m hm))
  have hbag : (↑sorted : Multiset α) = m ::ₘ ↑(sorted.take (k - 1)) := by
    rw [hsame, Multiset.cons_coe]
    conv_lhs => rw [hcut]
    exact Multiset.coe_eq_coe.mpr (List.perm_append_singleton _ _)
  rw [hbag] at hsplit
  exact ((Multiset.cons_inj_right m).mp hsplit).symm

/-- **One arrival.** -/
theorem Kept.arrives (hk : 0 < k) (h : Kept key k l bag) (hd : Distinct key (l ++ [z]))
    (harrives : Arrives key k bag z bag') :
    Kept key k (l ++ [z]) bag' ∧ (k ≤ l.length → bag' = z ::ₘ ↑(newest key (k - 1) l)) := by
  have hsnoc : (l ++ [z]).length = l.length + 1 := by simp
  rcases h with ⟨hlen, rfl⟩ | ⟨hlen, sorted, hs, hslen, rfl, hsub, htake⟩
  · cases harrives with
    | evict m rest full split least =>
        rw [Multiset.coe_card] at full
        omega
    | add room =>
        refine ⟨?_, fun hge => by omega⟩
        have hbag : z ::ₘ (↑l : Multiset α) = ↑(l ++ [z]) :=
          Multiset.coe_eq_coe.mpr (List.perm_append_singleton z l).symm
        by_cases hfull : l.length + 1 < k
        · exact Or.inl ⟨by omega, hbag⟩
        · refine Or.inr ⟨by omega, (l ++ [z]).insertionSort (Newer key), List.pairwise_insertionSort _ _, ?_, ?_,
            fun x hx => (List.mem_insertionSort _).mp hx, rfl⟩
          · rw [List.length_insertionSort]
            omega
          · rw [hbag]
            exact Multiset.coe_eq_coe.mpr (List.perm_insertionSort _ _).symm
  · cases harrives with
    | add room =>
        rw [Multiset.coe_card] at room
        omega
    | evict m rest full split least =>
        have hrest := least_is_last hk hd.left hs hslen hsub split least
        rw [htake] at hrest
        refine ⟨Or.inr ⟨by omega, (newest key (k - 1) l).orderedInsert (Newer key) z,
          (newest_sorted _ _).orderedInsert _ _, ?_, ?_, ?_, ?_⟩, fun _ => by rw [hrest]⟩
        · rw [List.orderedInsert_length, newest_length]
          omega
        · rw [hrest, Multiset.cons_coe]
          exact Multiset.coe_eq_coe.mpr (List.perm_orderedInsert _ _ _).symm
        · intro x hx
          rcases (List.mem_orderedInsert _).mp hx with rfl | hx
          · simp
          · exact List.mem_append_left _ (mem_of_mem_newest hx)
        · exact (newest_snoc hd (k - 1)).symm

theorem Kept.arrivals (hk : 0 < k) {rest : List α} (h : Kept key k l bag) (hd : Distinct key (l ++ rest))
    (harrivals : Arrivals key k bag rest bag') : Kept key k (l ++ rest) bag' := by
  induction harrivals generalizing l with
  | nil bag =>
      rw [List.append_nil]
      exact h
  | @cons bag bag₁ bag₂ z rest first others ih =>
      have hd' : Distinct key ((l ++ [z]) ++ rest) := by simpa using hd
      have hfirst := (h.arrives hk hd'.left first).1
      have hall := ih hfirst hd'
      simpa using hall

/-- The last arrival of several. -/
theorem arrivals_snoc (h : Arrivals key k bag (l ++ [z]) bag') :
    ∃ before, Arrivals key k bag l before ∧ Arrives key k before z bag' := by
  induction l generalizing bag with
  | nil =>
      cases h with
      | cons first others =>
          cases others
          exact ⟨bag, Arrivals.nil bag, first⟩
  | cons a l ih =>
      cases h with
      | cons first others =>
          obtain ⟨before, hbefore, hlast⟩ := ih others
          exact ⟨before, Arrivals.cons first hbefore, hlast⟩

theorem Kept.start (hk : 0 < k) : Kept key k [] (0 : Multiset α) := Or.inl ⟨hk, rfl⟩

/-- **What a full bag holds**: the last arrival and the newest of the others. -/
theorem arrivals_full (hk : 0 < k) (hd : Distinct key (l ++ [z])) (hlen : k ≤ l.length)
    (h : Arrivals key k 0 (l ++ [z]) bag) : bag = z ::ₘ ↑(newest key (k - 1) l) := by
  obtain ⟨before, hbefore, hlast⟩ := arrivals_snoc h
  have hkept := (Kept.start hk).arrivals hk (l := []) hd.left hbefore
  exact (hkept.arrives hk hd hlast).2 hlen

/-- As long as there is room, everything is held. -/
theorem arrivals_room (hlen : bag.card + l.length ≤ k) (h : Arrivals key k bag l bag') : bag' = bag + ↑l := by
  induction h with
  | nil bag => simp
  | @cons bag bag₁ bag₂ z rest first others ih =>
      rw [List.length_cons] at hlen
      cases first with
      | add room =>
          rw [ih (by rw [Multiset.card_cons]; omega), Multiset.cons_add, ← Multiset.cons_coe, Multiset.add_cons]
      | evict m rest full split least => omega

theorem take_orderedInsert_of_mem {sorted : List α} (hnew : z ∉ sorted)
    (hz : z ∈ (sorted.orderedInsert (Newer key) z).take n) :
    ((sorted.orderedInsert (Newer key) z).take n).Perm (z :: sorted.take (n - 1)) := by
  induction sorted generalizing n with
  | nil =>
      cases n with
      | zero => simp at hz
      | succ n => simp
  | cons a sorted ih =>
      rw [List.mem_cons, not_or] at hnew
      obtain ⟨hza, hnew⟩ := hnew
      cases n with
      | zero => simp at hz
      | succ n =>
          by_cases hle : Newer key z a
          · rw [List.orderedInsert_cons_of_le _ _ hle, List.take_succ_cons, Nat.add_sub_cancel]
          · rw [List.orderedInsert_of_not_le _ _ hle, List.take_succ_cons] at hz ⊢
            have htail := (List.mem_cons.mp hz).resolve_left hza
            cases n with
            | zero => simp at htail
            | succ n =>
                refine ((ih hnew htail).cons a).trans ?_
                rw [Nat.add_sub_cancel, Nat.add_sub_cancel, List.take_succ_cons]
                exact List.Perm.swap z a _

/-- A new item that is among the newest takes the place of the oldest of them. -/
theorem newest_snoc_of_mem (hd : Distinct key (l ++ [z])) (hz : z ∈ newest key k (l ++ [z])) :
    (↑(newest key k (l ++ [z])) : Multiset α) = z ::ₘ ↑(newest key (k - 1) l) := by
  have hnew : z ∉ l.insertionSort (Newer key) := by
    intro hmem
    rw [Distinct, List.map_append, List.nodup_append] at hd
    exact hd.2.2 (key z) (List.mem_map_of_mem ((List.mem_insertionSort _).mp hmem)) (key z) (by simp) rfl
  rw [newest_perm hd (List.perm_append_singleton z l) k, newest, List.insertionSort_cons] at hz ⊢
  exact Multiset.coe_eq_coe.mpr (take_orderedInsert_of_mem hnew hz)

/-- **When a bag keeps the newest**: there is room for all, or the last arrival
is one of the newest. -/
theorem keeps_newest_iff (hk : 0 < k) (hd : Distinct key (l ++ [z])) (h : Arrivals key k 0 (l ++ [z]) bag) :
    bag = ↑(newest key k (l ++ [z])) ↔ (l ++ [z]).length ≤ k ∨ z ∈ newest key k (l ++ [z]) := by
  by_cases hlen : (l ++ [z]).length ≤ k
  · refine iff_of_true ?_ (Or.inl hlen)
    have hall := arrivals_room (by simpa using hlen) h
    rw [hall, Multiset.zero_add, newest, List.take_of_length_le (by rw [List.length_insertionSort]; exact hlen)]
    exact Multiset.coe_eq_coe.mpr (List.perm_insertionSort _ _).symm
  · have hfull := arrivals_full hk hd (by simp at hlen; omega) h
    rw [or_iff_right hlen]
    constructor
    · intro hbag
      rw [← Multiset.mem_coe, ← hbag, hfull]
      exact Multiset.mem_cons_self _ _
    · intro hz
      rw [hfull, newest_snoc_of_mem hd hz]

end Eviction
