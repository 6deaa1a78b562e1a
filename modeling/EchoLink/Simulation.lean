import EchoLink.Runs
import Mathlib.Data.List.Induction

/-!
# Services and the machines that implement them

A service answers every event and goes on from a new state; it never gets
stuck.  `Implements` says that a partial step function with outputs does what a
service does, seen through an abstraction function, and `Implements.run`
carries that from one step to whole runs: the machine returns at every step,
puts out what the service answers and ends in a state that stands for the one
the service reaches.

`last_established` is the rule for questions about the past: a property that
holds at the end either held all along, or some event made it true and nothing
has made it false since.  `Since` says this of a run of a machine, and
`Implements.since` gets it from what the events of the service can do.

Where a service leaves a choice it is a relation, and `Refines` says that every
step of a machine is one of the steps the service allows for the event, or no
event at all and nothing to be seen.  Then a run of the machine is a `Path` of
the service (`Refines.run`), and what holds along paths holds of the machine.
-/

namespace Simulation

open Runs

variable {σ τ α β γ : Type*}

/-- The state of a service after the events. -/
def after (spec : τ → γ → List β × τ) : τ → List γ → τ
  | x, [] => x
  | x, e :: es => after spec (spec x e).2 es

/-- What a service answers to the events, in order. -/
def answers (spec : τ → γ → List β × τ) : τ → List γ → List β
  | _, [] => []
  | x, e :: es => (spec x e).1 ++ answers spec (spec x e).2 es

variable {spec : τ → γ → List β × τ} {x : τ} {es : List γ}

theorem after_append (spec : τ → γ → List β × τ) (x : τ) (es fs : List γ) :
    after spec x (es ++ fs) = after spec (after spec x es) fs := by
  induction es generalizing x with
  | nil => rfl
  | cons e es ih => exact ih (spec x e).2

/-- The invariant rule for services. -/
theorem after_invariant {I : τ → Prop} (hstep : ∀ x e, I x → I (spec x e).2) (hx : I x) (es : List γ) :
    I (after spec x es) := by
  induction es generalizing x with
  | nil => exact hx
  | cons e es ih => exact ih (hstep x e hx)

/-- **The last time a property came to hold.** -/
theorem last_established {Q : τ → Prop} (hend : Q (after spec x es)) :
    (∀ pre, pre <+: es → Q (after spec x pre)) ∨
      ∃ pre e post, es = pre ++ e :: post ∧ ¬ Q (after spec x pre) ∧
        ∀ mid, mid <+: post → Q (after spec x (pre ++ e :: mid)) := by
  induction es using List.reverseRecOn with
  | nil =>
      left
      intro pre hpre
      rw [List.prefix_nil.mp hpre]
      exact hend
  | append_singleton es e ih =>
      by_cases hbefore : Q (after spec x es)
      · rcases ih hbefore with hall | ⟨pre, e', post, rfl, hnot, hsince⟩
        · left
          intro pre hpre
          rcases List.prefix_concat_iff.mp hpre with rfl | hpre
          · exact hend
          · exact hall pre hpre
        · right
          refine ⟨pre, e', post ++ [e], by simp, hnot, ?_⟩
          intro mid hmid
          rcases List.prefix_concat_iff.mp hmid with rfl | hmid
          · have hlist : pre ++ e' :: (post ++ [e]) = (pre ++ e' :: post) ++ [e] := by simp
            rw [hlist]
            exact hend
          · exact hsince mid hmid
      · right
        refine ⟨es, e, [], rfl, hbefore, ?_⟩
        intro mid hmid
        rw [List.prefix_nil.mp hmid]
        exact hend

/-- **A machine implements a service**: from a state with the invariant an
admissible input is processed, the output is the service's answer, and the new
state stands for the service's. -/
def Implements (step : σ → α → Option σ) (out : σ → α → List β) (I : σ → Prop) (P : σ → α → Prop)
    (abs : σ → τ) (event : α → γ) (spec : τ → γ → List β × τ) : Prop :=
  ∀ s a, I s → P s a → ∃ s', step s a = some s' ∧ I s' ∧ out s a = (spec (abs s) (event a)).1 ∧
    abs s' = (spec (abs s) (event a)).2

variable {step : σ → α → Option σ} {out : σ → α → List β} {I : σ → Prop} {P : σ → α → Prop}
  {abs : σ → τ} {event : α → γ} {s : σ} {as : List α}

/-- **Whole runs** of a machine are those of the service it implements. -/
theorem Implements.run (h : Implements step out I P abs event spec) (hs : I s) (halong : Along step P s as) :
    ∃ s', run step s as = some s' ∧ I s' ∧ outputs step out s as = answers spec (abs s) (as.map event) ∧
      abs s' = after spec (abs s) (as.map event) := by
  induction as generalizing s with
  | nil => exact ⟨s, rfl, hs, rfl, rfl⟩
  | cons a as ih =>
      obtain ⟨t, ht, hI, hout, habs⟩ := h s a hs halong.1
      obtain ⟨s', hrun, hI', houts, habs'⟩ := ih hI (halong.2 t ht)
      refine ⟨s', ?_, hI', ?_, ?_⟩
      · rw [Runs.run, ht, Option.bind_some, hrun]
      · rw [outputs, ht, List.map_cons, answers, hout, ← habs, ← houts]
      · rw [habs', List.map_cons, after, habs]

/-- What a run in two parts puts out. -/
theorem outputs_append {bs : List α} {t : σ} (h : Runs.run step s as = some t) :
    outputs step out s (as ++ bs) = outputs step out s as ++ outputs step out t bs := by
  induction as generalizing s with
  | nil =>
      cases h
      rfl
  | cons a as ih =>
      rw [Runs.run] at h
      obtain ⟨u, hu, hrest⟩ := Option.bind_eq_some_iff.mp h
      simp only [List.cons_append, outputs, hu]
      rw [ih hrest, List.append_assoc]

/-- `Q` has held all along the run, or since a step that `E` describes. -/
def Since (step : σ → α → Option σ) (s : σ) (as : List α) (Q : σ → Prop) (E : σ → α → Prop) : Prop :=
  (∀ pre, pre <+: as → ∃ t, Runs.run step s pre = some t ∧ Q t) ∨
    ∃ pre a post t, as = pre ++ a :: post ∧ Runs.run step s pre = some t ∧ E t a ∧
      ∀ mid, mid <+: post → ∃ u, Runs.run step s (pre ++ a :: mid) = some u ∧ Q u

/-- What holds along a run holds along its first part. -/
theorem along_left {bs : List α} (h : Along step P s (as ++ bs)) : Along step P s as := by
  induction as generalizing s with
  | nil => trivial
  | cons a as ih => exact ⟨h.1, fun s' hs' => ih (h.2 s' hs')⟩

theorem along_right {bs : List α} {t : σ} (h : Along step P s (as ++ bs)) (hrun : Runs.run step s as = some t) :
    Along step P t bs := by
  induction as generalizing s with
  | nil =>
      cases hrun
      exact h
  | cons a as ih =>
      rw [Runs.run] at hrun
      obtain ⟨s', hs', hrest⟩ := Option.bind_eq_some_iff.mp hrun
      exact ih (h.2 s' hs') hrest

/-- **Where a property comes from**, for a machine that implements a service:
`E` describes the events that can make `Q` true. -/
theorem Implements.since (h : Implements step out I P abs event spec) (hs : I s) (halong : Along step P s as)
    {J : τ → Prop} (hJ : J (abs s)) (hstep : ∀ x e, J x → J (spec x e).2) {Q : τ → Prop} {E : τ → γ → Prop}
    (hE : ∀ x e, J x → ¬ Q x → Q (spec x e).2 → E x e) {t : σ} (hrun : Runs.run step s as = some t)
    (hend : Q (abs t)) : Since step s as (fun t => Q (abs t)) fun t a => E (abs t) (event a) := by
  -- every part of the run shows as the same part of the service's
  have hpart : ∀ pre, pre <+: as → ∃ u, Runs.run step s pre = some u ∧
      abs u = after spec (abs s) (pre.map event) := by
    intro pre hpre
    obtain ⟨post, rfl⟩ := hpre
    obtain ⟨u, hu, -, -, habs⟩ := h.run hs (along_left halong)
    exact ⟨u, hu, habs⟩
  obtain ⟨t', ht', habs⟩ := hpart as (List.prefix_refl as)
  obtain rfl : t' = t := Option.some.inj (ht'.symm.trans hrun)
  rw [habs] at hend
  rcases last_established hend with hall | ⟨pre, e, post, hlist, hnot, hsince⟩
  · left
    intro pre hpre
    obtain ⟨u, hu, hau⟩ := hpart pre hpre
    refine ⟨u, hu, ?_⟩
    dsimp only
    rw [hau]
    exact hall _ (hpre.map event)
  · right
    obtain ⟨as₁, rest, rfl, rfl, hrest⟩ := List.map_eq_append_iff.mp hlist
    obtain ⟨a, as₂, rfl, rfl, rfl⟩ := List.map_eq_cons_iff.mp hrest
    obtain ⟨u, hu, hau⟩ := hpart as₁ (List.prefix_append _ _)
    refine ⟨as₁, a, as₂, u, rfl, hu, ?_, ?_⟩
    · dsimp only
      rw [hau]
      apply hE _ _ (after_invariant hstep hJ _) hnot
      have hnow := hsince [] List.nil_prefix
      rw [after_append] at hnow
      exact hnow
    · intro mid hmid
      obtain ⟨v, hv, hav⟩ := hpart (as₁ ++ a :: mid)
        ((List.prefix_append_right_inj as₁).mpr ((List.prefix_cons_inj a).mpr hmid))
      refine ⟨v, hv, ?_⟩
      dsimp only
      rw [hav, List.map_append, List.map_cons]
      exact hsince _ (hmid.map event)

/-- A property that did not hold at the start comes from a step of the run. -/
theorem Since.of_not {Q : σ → Prop} {E : σ → α → Prop} (h : Since step s as Q E) (hs : ¬ Q s) :
    ∃ pre a post t, as = pre ++ a :: post ∧ Runs.run step s pre = some t ∧ E t a ∧
      ∀ mid, mid <+: post → ∃ u, Runs.run step s (pre ++ a :: mid) = some u ∧ Q u := by
  rcases h with hall | hstep
  · obtain ⟨t, ht, hQ⟩ := hall [] List.nil_prefix
    obtain rfl : s = t := Option.some.inj ht
    exact absurd hQ hs
  · exact hstep

/-! ### Services that leave a choice -/

/-- The steps of a service from one state to another, with the events and what
is answered to them. -/
inductive Path (Spec : τ → γ → List β → τ → Prop) : τ → List γ → List β → τ → Prop
  | nil (x : τ) : Path Spec x [] [] x
  | cons {x y z : τ} {e : γ} {es : List γ} {out outs : List β} (first : Spec x e out y)
      (rest : Path Spec y es outs z) : Path Spec x (e :: es) (out ++ outs) z

variable {Spec : τ → γ → List β → τ → Prop} {y z : τ} {outs outs' : List β}

/-- The invariant rule for paths. -/
theorem Path.invariant {I : τ → Prop} (hstep : ∀ x e out y, I x → Spec x e out y → I y)
    (h : Path Spec x es outs y) (hx : I x) : I y := by
  induction h with
  | nil => exact hx
  | cons first rest ih => exact ih (hstep _ _ _ _ hx first)

/-- A path in two parts. -/
theorem Path.split {fs : List γ} (h : Path Spec x (es ++ fs) outs z) :
    ∃ y outs₁ outs₂, outs = outs₁ ++ outs₂ ∧ Path Spec x es outs₁ y ∧ Path Spec y fs outs₂ z := by
  induction es generalizing x outs with
  | nil => exact ⟨x, [], outs, rfl, Path.nil x, h⟩
  | cons e es ih =>
      cases h with
      | @cons _ y _ _ _ out outs' first rest =>
          obtain ⟨y', outs₁, outs₂, rfl, hes, hfs⟩ := ih rest
          exact ⟨y', out ++ outs₁, outs₂, (List.append_assoc _ _ _).symm, Path.cons first hes, hfs⟩

/-- What a step of a machine is for the service: a step for the event, or
nothing. -/
def Seen (Spec : τ → γ → List β → τ → Prop) (x : τ) (e : Option γ) (out : List β) (y : τ) : Prop :=
  e.elim (out = [] ∧ y = x) fun e => Spec x e out y

/-- **A machine refines a service** that leaves a choice. -/
def Refines (step : σ → α → Option σ) (out : σ → α → List β) (I : σ → Prop) (P : σ → α → Prop)
    (abs : σ → τ) (event : σ → α → Option γ) (Spec : τ → γ → List β → τ → Prop) : Prop :=
  ∀ s a, I s → P s a → ∃ s', step s a = some s' ∧ I s' ∧ Seen Spec (abs s) (event s a) (out s a) (abs s')

/-- The events of a run, in order. -/
def eventsOf (step : σ → α → Option σ) (event : σ → α → Option γ) (s : σ) (as : List α) : List γ :=
  outputs step (fun s a => (event s a).toList) s as

theorem eventsOf_cons {event : σ → α → Option γ} {a : α} {t : σ} (h : step s a = some t) :
    eventsOf step event s (a :: as) = (event s a).toList ++ eventsOf step event t as := by
  rw [eventsOf, outputs, h]
  rfl

theorem eventsOf_append {event : σ → α → Option γ} {bs : List α} {t : σ} (h : Runs.run step s as = some t) :
    eventsOf step event s (as ++ bs) = eventsOf step event s as ++ eventsOf step event t bs :=
  outputs_append h

/-- **Whole runs** of a machine are paths of the service it refines. -/
theorem Refines.run {event : σ → α → Option γ} (h : Refines step out I P abs event Spec) (hs : I s)
    (halong : Along step P s as) :
    ∃ s', run step s as = some s' ∧ I s' ∧
      Path Spec (abs s) (eventsOf step event s as) (outputs step out s as) (abs s') := by
  induction as generalizing s with
  | nil => exact ⟨s, rfl, hs, Path.nil _⟩
  | cons a as ih =>
      obtain ⟨t, ht, hI, hshown⟩ := h s a hs halong.1
      obtain ⟨s', hrun, hI', hpath⟩ := ih hI (halong.2 t ht)
      refine ⟨s', by rw [Runs.run, ht, Option.bind_some, hrun], hI', ?_⟩
      rw [eventsOf, outputs, outputs, ht]
      cases he : event s a with
      | none =>
          rw [he] at hshown
          obtain ⟨hout, habs⟩ := hshown
          rw [hout, ← habs]
          exact hpath
      | some e =>
          rw [he] at hshown
          exact Path.cons hshown hpath

end Simulation
