import Mathlib.Data.List.Basic
import Mathlib.Data.List.Nodup

/-!
# Doubly linked lists

Nodes of any type `P` with a `next` and a `prev` field, given as two
functions.  `Segment` is a stretch of nodes whose links agree, with what lies
before and after it; `Linked` is a whole list.  `segment_append` cuts a stretch
in two, which is how a link in the middle is changed.

The operations are those of a program: `walk` follows `next` until a test
succeeds, `Linked.snoc` links a node behind the last one, and `Linked.unlink`
takes a node out by rewriting the links of its neighbours.
-/

namespace LinkedList

variable {P : Type*}

/-- The links of the nodes `l`, with `before` in front of them and `after`
behind them. -/
def Segment (next prev : P → Option P) : Option P → List P → Option P → Prop
  | _, [], _ => True
  | before, p :: rest, after =>
      prev p = before ∧ next p = rest.head?.or after ∧ Segment next prev (some p) rest after

/-- The list that starts at `head`. -/
structure Linked (next prev : P → Option P) (head : Option P) (l : List P) : Prop where
  head_eq : head = l.head?
  links : Segment next prev none l none
  nodup : l.Nodup

/-- Follow `next` from `cur` until `test` succeeds.  There is no outcome when
a node cannot be read or when `fuel` nodes were not enough. -/
def walk (next : P → Option P) (test : P → Option Bool) : Nat → Option P → Option (Option P)
  | 0, _ => none
  | _ + 1, none => some none
  | fuel + 1, some p =>
      match test p with
      | none => none
      | some true => some (some p)
      | some false => walk next test fuel (next p)

/-- The first `fuel` nodes from `cur` on. -/
def chain (next : P → Option P) : Nat → Option P → List P
  | 0, _ => []
  | _ + 1, none => []
  | fuel + 1, some p => p :: chain next fuel (next p)

variable {next prev next' prev' : P → Option P} {head before after : Option P} {l l' : List P} {p : P}

/-! ### Segments -/

theorem segment_append :
    Segment next prev before (l ++ l') after ↔
      Segment next prev before l (l'.head?.or after) ∧
        Segment next prev (l.getLast?.or before) l' after := by
  induction l generalizing before with
  | nil => simp [Segment]
  | cons q l ih =>
      have hhead : (l ++ l').head?.or after = l.head?.or (l'.head?.or after) := by
        cases l <;> simp
      have hlast : (q :: l).getLast?.or before = l.getLast?.or (some q) := by
        cases l with
        | nil => simp
        | cons r l => simp [List.getLast?_cons]
      simp only [List.cons_append, Segment, ih, hhead, hlast, and_assoc]

/-- Links of other nodes do not matter. -/
theorem Segment.congr (h : Segment next prev before l after) (hnext : ∀ q ∈ l, next' q = next q)
    (hprev : ∀ q ∈ l, prev' q = prev q) : Segment next' prev' before l after := by
  induction l generalizing before with
  | nil => trivial
  | cons q l ih =>
      refine ⟨?_, ?_, ih h.2.2 (fun r hr => hnext r (List.mem_cons_of_mem _ hr))
        (fun r hr => hprev r (List.mem_cons_of_mem _ hr))⟩
      · rw [hprev q List.mem_cons_self, h.1]
      · rw [hnext q List.mem_cons_self, h.2.1]

/-- The walk finds the first node of the list that passes the test. -/
theorem Segment.walk {test : P → Option Bool} {t : P → Bool} {fuel : Nat}
    (h : Segment next prev before l none) (htest : ∀ q ∈ l, test q = some (t q))
    (hfuel : l.length < fuel) : walk next test fuel l.head? = some (l.find? t) := by
  induction l generalizing before fuel with
  | nil =>
      obtain ⟨fuel, rfl⟩ : ∃ k, fuel = k + 1 := ⟨fuel - 1, by omega⟩
      rfl
  | cons q l ih =>
      obtain ⟨fuel, rfl⟩ : ∃ k, fuel = k + 1 := ⟨fuel - 1, by omega⟩
      have hq := htest q List.mem_cons_self
      simp only [List.head?_cons, LinkedList.walk, hq]
      cases ht : t q with
      | true => simp [ht]
      | false =>
          have hnext : next q = l.head? := by rw [h.2.1, Option.or_none]
          simp only [List.length_cons] at hfuel
          rw [List.find?_cons_of_neg (by simp [ht]), hnext]
          exact ih h.2.2 (fun r hr => htest r (List.mem_cons_of_mem _ hr)) (by omega)

/-! ### Whole lists -/

/-- What a walk finds passes the test. -/
theorem walk_found {test : P → Option Bool} {fuel : Nat} {cur : Option P}
    (h : walk next test fuel cur = some (some p)) : test p = some true := by
  induction fuel generalizing cur with
  | zero => cases h
  | succ fuel ih =>
      cases cur with
      | none => cases h
      | some q =>
          rw [LinkedList.walk] at h
          split at h
          · cases h
          · rename_i htest
            cases h
            exact htest
          · exact ih h

theorem Linked.walk {test : P → Option Bool} {t : P → Bool} {fuel : Nat}
    (h : Linked next prev head l) (htest : ∀ q ∈ l, test q = some (t q)) (hfuel : l.length < fuel) :
    walk next test fuel head = some (l.find? t) := by
  rw [h.head_eq]
  exact h.links.walk htest hfuel

theorem Segment.chain {fuel : Nat} (h : Segment next prev before l none) (hfuel : l.length ≤ fuel) :
    chain next fuel l.head? = l := by
  induction l generalizing before fuel with
  | nil => cases fuel <;> rfl
  | cons p l ih =>
      obtain ⟨fuel, rfl⟩ : ∃ k, fuel = k + 1 := ⟨fuel - 1, by rw [List.length_cons] at hfuel; omega⟩
      have hnext : next p = l.head? := by rw [h.2.1, Option.or_none]
      rw [List.head?_cons, LinkedList.chain, hnext, ih h.2.2 (Nat.le_of_succ_le_succ hfuel)]

/-- Following the links gives the nodes in order. -/
theorem Linked.chain {fuel : Nat} (h : Linked next prev head l) (hfuel : l.length ≤ fuel) :
    chain next fuel head = l := by
  rw [h.head_eq]
  exact h.links.chain hfuel

theorem Linked.congr (h : Linked next prev head l) (hnext : ∀ q ∈ l, next' q = next q)
    (hprev : ∀ q ∈ l, prev' q = prev q) : Linked next' prev' head l :=
  ⟨h.head_eq, h.links.congr hnext hprev, h.nodup⟩

/-- The neighbours of a node are the ones its fields name. -/
theorem Linked.fields {l₁ l₂ : List P} (h : Linked next prev head (l₁ ++ p :: l₂)) :
    prev p = l₁.getLast? ∧ next p = l₂.head? := by
  obtain ⟨_, hp⟩ := segment_append.mp h.links
  exact ⟨by simpa using hp.1, by simpa using hp.2.1⟩

/-- The last node is the one without a `next`. -/
theorem Linked.next_eq_none_iff (h : Linked next prev head l) (hp : p ∈ l) :
    next p = none ↔ l.getLast? = some p := by
  obtain ⟨l₁, l₂, rfl⟩ := List.append_of_mem hp
  rw [h.fields.2]
  cases l₂ with
  | nil => simp
  | cons q l₂ =>
      have hlast : (l₁ ++ p :: q :: l₂).getLast? = (q :: l₂).getLast? := by
        simp [List.getLast?_append, List.getLast?_cons]
      simp only [List.head?_cons, reduceCtorEq, false_iff, hlast]
      intro hlast
      have hmem : p ∈ q :: l₂ := List.mem_of_getLast? hlast
      exact (List.nodup_cons.mp (List.nodup_append.mp h.nodup).2.1).1 hmem

variable [DecidableEq P]

/-- The last node of a stretch gets a new successor. -/
theorem Segment.setNext {q : P} (h : Segment next prev before (l ++ [q]) after)
    (hnodup : (l ++ [q]).Nodup) (after' : Option P) :
    Segment (Function.update next q after') prev before (l ++ [q]) after' := by
  obtain ⟨hl, hq⟩ := segment_append.mp h
  have hne : ∀ r ∈ l, r ≠ q := by
    intro r hr hrq
    exact (List.nodup_append.mp hnodup).2.2 r hr q (by simp) hrq
  refine segment_append.mpr ⟨?_, ?_⟩
  · exact hl.congr (fun r hr => Function.update_of_ne (hne r hr) _ _) (fun _ _ => rfl)
  · exact ⟨hq.1, by simp, trivial⟩

/-- The first node of a stretch gets a new predecessor. -/
theorem Segment.setPrev {q : P} (h : Segment next prev before (q :: l) after)
    (hnodup : (q :: l).Nodup) (before' : Option P) :
    Segment next (Function.update prev q before') before' (q :: l) after := by
  have hne : ∀ r ∈ l, r ≠ q := by
    intro r hr hrq
    exact (List.nodup_cons.mp hnodup).1 (hrq ▸ hr)
  exact ⟨by simp, h.2.1,
    h.2.2.congr (fun _ _ => rfl) fun r hr => Function.update_of_ne (hne r hr) _ _⟩

/-- **Linking behind the last node.** -/
theorem Linked.snoc {q : P} (h : Linked next prev head l) (hlast : l.getLast? = some q)
    (hp : p ∉ l) (hnext : next p = none) :
    Linked (Function.update next q (some p)) (Function.update prev p (some q)) head (l ++ [p]) := by
  obtain ⟨l₀, rfl⟩ : ∃ l₀, l = l₀ ++ [q] := by
    obtain ⟨l₀, hl₀⟩ := List.getLast?_eq_some_iff.mp hlast
    exact ⟨l₀, hl₀⟩
  have hqp : q ≠ p := fun hqp => hp (by simp [hqp])
  refine ⟨?_, ?_, ?_⟩
  · rw [h.head_eq]
    cases l₀ <;> simp
  · have hpre := h.links.setNext h.nodup (some p)
    refine segment_append.mpr ⟨?_, ?_⟩
    · refine hpre.congr (fun _ _ => rfl) fun r hr => ?_
      have hrp : r ≠ p := fun hrp => hp (hrp ▸ hr)
      exact Function.update_of_ne hrp _ _
    · refine ⟨by simp, ?_, trivial⟩
      rw [Function.update_of_ne (Ne.symm hqp), hnext]
      rfl
  · rw [List.nodup_append]
    refine ⟨h.nodup, by simp, ?_⟩
    intro r hr r' hr' hrr'
    rw [List.mem_singleton.mp hr'] at hrr'
    exact hp (hrr' ▸ hr)

omit [DecidableEq P] in
/-- A single node is a list. -/
theorem linked_singleton (hnext : next p = none) (hprev : prev p = none) :
    Linked next prev (some p) [p] :=
  ⟨rfl, ⟨hprev, by simpa using hnext, trivial⟩, by simp⟩

/-- `r->prev->next = r->next`, if there is a predecessor. -/
def bypassNext (next prev : P → Option P) (p : P) : P → Option P :=
  match prev p with
  | some q => Function.update next q (next p)
  | none => next

/-- `r->next->prev = r->prev`, if there is a successor. -/
def bypassPrev (next prev : P → Option P) (p : P) : P → Option P :=
  match next p with
  | some q => Function.update prev q (prev p)
  | none => prev

/-- The head of the list after `p` is taken out. -/
def bypassHead (next prev : P → Option P) (head : Option P) (p : P) : Option P :=
  match prev p with
  | some _ => head
  | none => next p

/-- **Unlinking a node.**  Its neighbours are linked to each other and the rest
of the list stays as it was. -/
theorem Linked.unlink {l₁ l₂ : List P} (h : Linked next prev head (l₁ ++ p :: l₂)) :
    Linked (bypassNext next prev p) (bypassPrev next prev p) (bypassHead next prev head p)
      (l₁ ++ l₂) := by
  obtain ⟨hprev, hnext⟩ := h.fields
  obtain ⟨hseg₁, hseg⟩ := segment_append.mp h.links
  have hseg₂ : Segment next prev (some p) l₂ none := hseg.2.2
  have hnd := List.nodup_append.mp h.nodup
  have hnd₂ := List.nodup_cons.mp hnd.2.1
  have hdisj : ∀ r ∈ l₁, ∀ r' ∈ l₂, r ≠ r' :=
    fun r hr r' hr' => hnd.2.2 r hr r' (List.mem_cons_of_mem _ hr')
  have hnodup : (l₁ ++ l₂).Nodup := List.nodup_append.mpr ⟨hnd.1, hnd₂.2, hdisj⟩
  -- the stretch before `p` now ends in front of the stretch after it
  have hnew₁ : Segment (bypassNext next prev p) prev none l₁ l₂.head? := by
    rcases List.eq_nil_or_concat l₁ with rfl | ⟨l₀, q, rfl⟩
    · trivial
    · rw [List.concat_eq_append] at hseg₁ hprev hnd ⊢
      have hq : prev p = some q := by rw [hprev]; simp
      rw [bypassNext, hq, hnext]
      exact hseg₁.setNext hnd.1 l₂.head?
  have hnew₂ : Segment next (bypassPrev next prev p) l₁.getLast? l₂ none := by
    cases l₂ with
    | nil => trivial
    | cons q l₂ =>
        have hq : next p = some q := by rw [hnext]; rfl
        rw [bypassPrev, hq, hprev]
        exact hseg₂.setPrev hnd₂.2 l₁.getLast?
  have hprev₁ : ∀ r ∈ l₁, bypassPrev next prev p r = prev r := by
    intro r hr
    rw [bypassPrev, hnext]
    cases l₂ with
    | nil => rfl
    | cons q l₂ => exact Function.update_of_ne (hdisj r hr q List.mem_cons_self) _ _
  have hnext₂ : ∀ r ∈ l₂, bypassNext next prev p r = next r := by
    intro r hr
    rw [bypassNext, hprev]
    cases hlast : l₁.getLast? with
    | none => rfl
    | some q =>
        exact Function.update_of_ne (Ne.symm (hdisj q (List.mem_of_getLast? hlast) r hr)) _ _
  refine ⟨?_, ?_, hnodup⟩
  · rw [bypassHead, hprev, hnext, h.head_eq]
    cases l₁ with
    | nil => rfl
    | cons q l₁ => simp [List.getLast?_cons]
  · refine segment_append.mpr ⟨?_, ?_⟩
    · rw [Option.or_none]
      exact hnew₁.congr (fun _ _ => rfl) hprev₁
    · rw [Option.or_none]
      exact hnew₂.congr hnext₂ fun _ _ => rfl

end LinkedList
