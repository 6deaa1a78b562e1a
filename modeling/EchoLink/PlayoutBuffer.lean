import EchoLink.Eviction

/-!
# Playout buffers

A playout buffer stands between a network, which delivers items late and
unevenly, and a player, which asks for one item at every tick.  It holds a bag of
limited capacity and plays an item with the least key.  When it has run empty it
waits until it holds a cushion of items before it plays again.

A buffer of this kind never changes the order of a stream: if the items arrive
in the order of their keys, then what is played and what still waits is a
sublist of what arrived (`Calls.in_order`).  And a steady stream is delayed by the
cushion and nothing else: with one arrival before every tick, the first ticks
fill the cushion, and from then on every tick plays the next item
(`steady_delay`).
-/

namespace Playout

variable {α : Type*}

/-- A playout buffer: what it holds, and whether it waits for its cushion. -/
structure Line (α : Type*) where
  held : Multiset α
  buffering : Bool

/-- An item arrives. -/
structure Line.Push (key : α → Nat) (capacity : Nat) (l : Line α) (a : α) (l' : Line α) : Prop where
  arrives : Eviction.Arrives key capacity l.held a l'.held
  buffering : l'.buffering = l.buffering

/-- The player asks for an item. -/
inductive Line.Pop (key : α → Nat) (cushion : Nat) (l : Line α) : Option α → Line α → Prop
  | empty (nothing : l.held = 0) : Pop key cushion l none ⟨l.held, true⟩
  | waits (some : l.held ≠ 0) (waiting : l.buffering = true) (few : l.held.card < cushion) :
      Pop key cushion l none l
  | plays (a : α) (rest : Multiset α) (split : l.held = a ::ₘ rest) (least : ∀ x ∈ l.held, key a ≤ key x)
      (ready : l.buffering = true → cushion ≤ l.held.card) : Pop key cushion l (some a) ⟨rest, false⟩

inductive Call (α : Type*) where
  | push (a : α)
  | pop (o : Option α)

/-- Calls of a buffer, with what the player got. -/
inductive Calls (key : α → Nat) (capacity cushion : Nat) : Line α → List (Call α) → Line α → Prop
  | nil (l : Line α) : Calls key capacity cushion l [] l
  | push {l l' l'' : Line α} {a : α} {cs : List (Call α)} (first : l.Push key capacity a l')
      (rest : Calls key capacity cushion l' cs l'') : Calls key capacity cushion l (.push a :: cs) l''
  | pop {l l' l'' : Line α} {o : Option α} {cs : List (Call α)} (first : l.Pop key cushion o l')
      (rest : Calls key capacity cushion l' cs l'') : Calls key capacity cushion l (.pop o :: cs) l''

def Call.pushed : Call α → Option α
  | .push a => some a
  | .pop _ => none

def Call.popped : Call α → Option α
  | .push _ => none
  | .pop o => o

/-- What arrived. -/
def arrived (cs : List (Call α)) : List α := cs.filterMap Call.pushed

/-- What was played. -/
def played (cs : List (Call α)) : List α := cs.filterMap Call.popped

variable {key : α → Nat} {capacity cushion : Nat} {l l' l'' : Line α} {w : List α} {a : α} {cs ds : List (Call α)}

theorem Calls.append (h : Calls key capacity cushion l cs l') (h' : Calls key capacity cushion l' ds l'') :
    Calls key capacity cushion l (cs ++ ds) l'' := by
  induction h with
  | nil => exact h'
  | push first rest ih => exact Calls.push first (ih h')
  | pop first rest ih => exact Calls.pop first (ih h')

/-! ### Streams in order -/

/-- The items are in the order of their keys, and no two have the same. -/
def KeysIncrease (key : α → Nat) (w : List α) : Prop := w.Pairwise fun x y => key x < key y

theorem KeysIncrease.nodup (h : KeysIncrease key w) : w.Nodup := by
  apply List.Pairwise.imp _ h
  intro x y hlt heq
  rw [heq] at hlt
  exact lt_irrefl _ hlt

/-- A least item of an increasing list is its first. -/
theorem KeysIncrease.first_least (h : KeysIncrease key w) {rest : Multiset α} (hsplit : (↑w : Multiset α) = a ::ₘ rest)
    (hleast : ∀ x ∈ w, key a ≤ key x) : ∃ w', w = a :: w' ∧ rest = ↑w' := by
  have hmem : a ∈ w := by
    rw [← Multiset.mem_coe, hsplit]
    exact Multiset.mem_cons_self a rest
  cases w with
  | nil => cases hmem
  | cons x w' =>
      have hx : x = a := by
        rcases List.mem_cons.mp hmem with rfl | hlater
        · rfl
        · have hlt := (List.pairwise_cons.mp h).1 a hlater
          have hle := hleast x List.mem_cons_self
          omega
      subst hx
      refine ⟨w', rfl, ?_⟩
      rw [← Multiset.cons_coe] at hsplit
      exact ((Multiset.cons_inj_right x).mp hsplit).symm

/-- An arrival at a buffer whose items are in order, and come before it. -/
theorem Line.Push.in_order (hpush : l.Push key capacity a l') (hheld : l.held = ↑w)
    (hincr : KeysIncrease key (w ++ [a])) :
    ∃ w', l'.held = ↑(w' ++ [a]) ∧ w'.Sublist w ∧ KeysIncrease key (w' ++ [a]) := by
  obtain ⟨harrives, -⟩ := hpush
  have hsnoc : ∀ w' : List α, (a ::ₘ (↑w' : Multiset α)) = ↑(w' ++ [a]) := by
    intro w'
    rw [Multiset.cons_coe, Multiset.coe_eq_coe]
    exact (List.perm_append_singleton a w').symm
  generalize hafter : l'.held = after at harrives
  cases harrives with
  | add room => exact ⟨w, by rw [hheld, hsnoc], List.Sublist.refl w, hincr⟩
  | evict m rest full split least =>
      rw [hheld] at split least
      have hw : KeysIncrease key w := (List.pairwise_append.mp hincr).1
      obtain ⟨w', rfl, rfl⟩ := hw.first_least split least
      have htail : w'.Sublist (m :: w') := List.sublist_cons_self m w'
      exact ⟨w', hsnoc w', htail, List.Pairwise.sublist (htail.append_right [a]) hincr⟩

/-- **A buffer keeps a stream in order.** -/
theorem Calls.in_order (h : Calls key capacity cushion l cs l') (hheld : l.held = ↑w)
    (hincr : KeysIncrease key (w ++ arrived cs)) :
    ∃ w' : List α, l'.held = ↑w' ∧ (played cs ++ w').Sublist (w ++ arrived cs) := by
  induction h generalizing w with
  | nil l => exact ⟨w, hheld, by simp [arrived, played]⟩
  | @push l₀ l₁ l₂ a cs first rest ih =>
      have hlist : w ++ arrived (.push a :: cs) = (w ++ [a]) ++ arrived cs := by
        rw [List.append_assoc]
        rfl
      rw [hlist] at hincr ⊢
      obtain ⟨w₁, hheld₁, hsub, hincr₁⟩ := first.in_order hheld (List.pairwise_append.mp hincr).1
      have hsub' : ((w₁ ++ [a]) ++ arrived cs).Sublist ((w ++ [a]) ++ arrived cs) :=
        (hsub.append_right [a]).append_right (arrived cs)
      obtain ⟨w', hheld', hplayed⟩ := ih hheld₁ (List.Pairwise.sublist hsub' hincr)
      exact ⟨w', hheld', hplayed.trans hsub'⟩
  | @pop l₀ l₁ l₂ o cs first rest ih =>
      have harrived : arrived (.pop o :: cs) = arrived cs := rfl
      rw [harrived] at hincr ⊢
      cases first with
      | empty nothing => exact ih hheld hincr
      | waits some waiting few => exact ih hheld hincr
      | plays a after split least ready =>
          rw [hheld] at split least
          obtain ⟨w₁, rfl, rfl⟩ := KeysIncrease.first_least (List.pairwise_append.mp hincr).1 split least
          rw [List.cons_append] at hincr
          obtain ⟨w', hheld', hplayed⟩ := ih rfl (List.pairwise_cons.mp hincr).2
          exact ⟨w', hheld', hplayed.cons_cons a⟩

/-! ### Steady streams -/

/-- One arrival before every tick. -/
def rounds (xs : List α) (os : List (Option α)) : List (Call α) :=
  (xs.zip os).flatMap fun x => [.push x.1, .pop x.2]

theorem Line.Push.room {capacity : Nat} (hpush : l.Push key capacity a l') (hheld : l.held = ↑w)
    (hroom : w.length < capacity) : l'.held = ↑(w ++ [a]) ∧ l'.buffering = l.buffering := by
  obtain ⟨harrives, hbuffering⟩ := hpush
  refine ⟨?_, hbuffering⟩
  have hcard : l.held.card = w.length := by rw [hheld, Multiset.coe_card]
  generalize l'.held = after at harrives
  cases harrives with
  | add room =>
      rw [hheld, Multiset.cons_coe, Multiset.coe_eq_coe]
      exact (List.perm_append_singleton a w).symm
  | evict m rest full split least => omega

/-- A round of a stream that plays: the next item is played. -/
theorem round_playing {x : α} {o : Option α} {l₁ l₂ : Line α} (hheld : l.held = ↑w) (hbuffering : l.buffering = false)
    (hroom : w.length < capacity) (hpush : l.Push key capacity x l₁) (hpop : l₁.Pop key cushion o l₂)
    (hincr : KeysIncrease key (w ++ [x])) :
    ∃ y w', w ++ [x] = y :: w' ∧ o = some y ∧ l₂ = ⟨↑w', false⟩ := by
  obtain ⟨hheld₁, hbuffering₁⟩ := hpush.room hheld hroom
  rw [hbuffering] at hbuffering₁
  cases hpop with
  | empty nothing =>
      rw [hheld₁, Multiset.coe_eq_zero] at nothing
      simp at nothing
  | waits some waiting few =>
      rw [hbuffering₁] at waiting
      cases waiting
  | plays y rest split least ready =>
      rw [hheld₁] at split least
      obtain ⟨w', hlist, rfl⟩ := hincr.first_least split least
      exact ⟨y, w', hlist, rfl, rfl⟩

/-- Once a stream plays, every tick plays the next item. -/
theorem steady_playing {xs : List α} {os : List (Option α)} (hlen : os.length = xs.length) (hheld : l.held = ↑w)
    (hbuffering : l.buffering = false) (hroom : w.length < capacity) (hincr : KeysIncrease key (w ++ xs))
    (h : Calls key capacity cushion l (rounds xs os) l') : os = ((w ++ xs).take xs.length).map some := by
  induction xs generalizing l w os with
  | nil => simpa using List.length_eq_zero_iff.mp hlen
  | cons x xs ih =>
      obtain ⟨o, os, rfl⟩ := List.exists_cons_of_length_eq_add_one hlen
      have hcalls : rounds (x :: xs) (o :: os) = .push x :: .pop o :: rounds xs os := rfl
      rw [hcalls] at h
      cases h with
      | push hpush h =>
          cases h with
          | pop hpop h =>
              have hlist : w ++ x :: xs = (w ++ [x]) ++ xs := by simp
              rw [hlist] at hincr ⊢
              obtain ⟨y, w', hfirst, rfl, rfl⟩ :=
                round_playing hheld hbuffering hroom hpush hpop (List.pairwise_append.mp hincr).1
              have hlen' : w'.length = w.length := by
                have hlens := congrArg List.length hfirst
                simp only [List.length_append, List.length_cons, List.length_nil] at hlens
                omega
              rw [hfirst, List.cons_append] at hincr ⊢
              rw [List.length_cons, List.take_succ_cons, List.map_cons]
              congr 1
              exact ih (Nat.succ.inj hlen) rfl rfl (by omega) (List.pairwise_cons.mp hincr).2 h

/-- **A steady stream is delayed by the cushion**, from a buffer that waits:
nothing is played until the cushion is there, then every tick plays the next
item. -/
theorem steady_delay {xs : List α} {os : List (Option α)} (hlen : os.length = xs.length) (hheld : l.held = ↑w)
    (hbuffering : l.buffering = true) (hfew : w.length < cushion) (hcushion : cushion ≤ capacity)
    (hincr : KeysIncrease key (w ++ xs)) (h : Calls key capacity cushion l (rounds xs os) l') :
    os = (List.replicate (cushion - 1 - w.length) none ++ (w ++ xs).map some).take xs.length := by
  induction xs generalizing l w os with
  | nil => simpa using List.length_eq_zero_iff.mp hlen
  | cons x xs ih =>
      obtain ⟨o, os, rfl⟩ := List.exists_cons_of_length_eq_add_one hlen
      have hcalls : rounds (x :: xs) (o :: os) = .push x :: .pop o :: rounds xs os := rfl
      rw [hcalls] at h
      cases h with
      | push hpush h =>
          cases h with
          | @pop _ l₂ _ _ _ hpop h =>
              have hlist : w ++ x :: xs = (w ++ [x]) ++ xs := by simp
              have hsnoc : (w ++ [x]).length = w.length + 1 := by simp
              obtain ⟨hheld₁, hbuffering₁⟩ := hpush.room hheld (by omega)
              rw [hbuffering] at hbuffering₁
              rw [hlist] at hincr ⊢
              have hcard : (↑(w ++ [x]) : Multiset α).card = w.length + 1 := by rw [Multiset.coe_card, hsnoc]
              cases hpop with
              | empty nothing =>
                  rw [hheld₁, Multiset.coe_eq_zero] at nothing
                  simp at nothing
              | waits some waiting few =>
                  -- the cushion is not there yet
                  rw [hheld₁, hcard] at few
                  have hmore : cushion - 1 - w.length = (cushion - 1 - (w ++ [x]).length) + 1 := by omega
                  have hrest := ih (Nat.succ.inj hlen) hheld₁ hbuffering₁ (by omega) hincr h
                  rw [hrest, hmore, List.replicate_succ, List.length_cons, List.cons_append, List.take_succ_cons]
              | plays y after split least ready =>
                  -- the cushion is there, and the stream plays from now on
                  have hready := ready hbuffering₁
                  rw [hheld₁, hcard] at hready
                  rw [hheld₁] at split least
                  obtain ⟨w', hfirst, rfl⟩ :=
                    KeysIncrease.first_least (List.pairwise_append.mp hincr).1 split least
                  have hlen' : w'.length = w.length := by
                    have hlens := congrArg List.length hfirst
                    simp only [List.length_append, List.length_cons, List.length_nil] at hlens
                    omega
                  have hzero : cushion - 1 - w.length = 0 := by omega
                  rw [hfirst, List.cons_append] at hincr ⊢
                  have hrest := steady_playing (Nat.succ.inj hlen) rfl rfl (by omega)
                    (List.pairwise_cons.mp hincr).2 h
                  rw [hrest, hzero, List.replicate_zero, List.nil_append, List.map_cons, List.length_cons,
                    List.take_succ_cons, List.map_take]

/-- Nothing is played of a buffer that has run empty and that nothing comes to. -/
theorem idle_silent {os : List (Option α)} (hheld : l.held = 0) (h : Calls key capacity cushion l (os.map .pop) l') :
    ∀ o ∈ os, o = none := by
  induction os generalizing l with
  | nil =>
      intro o ho
      cases ho
  | cons o os ih =>
      rw [List.map_cons] at h
      cases h with
      | pop first rest =>
          have hnothing : o = none ∧ ∀ o ∈ os, o = none := by
            cases first with
            | empty nothing => exact ⟨rfl, ih (l := ⟨l.held, true⟩) hheld rest⟩
            | waits some waiting few => exact absurd hheld some
            | plays a left split least ready =>
                rw [hheld] at split
                exact absurd split.symm (Multiset.cons_ne_zero)
          intro o' ho'
          rcases List.mem_cons.mp ho' with rfl | ho'
          · exact hnothing.1
          · exact hnothing.2 o' ho'

end Playout
