import Mathlib.Data.Option.Basic

/-!
# Runs of a partial step function

A machine is a step function that may get stuck.  `run` takes a list of
inputs, `Along` says that a property of the state and the input holds before
every step, and `run_invariant` is the invariant rule: an invariant that every
such step keeps, without getting stuck, holds after every such run, and the
run does not get stuck.  `outputs` collects what the steps of a run put out,
and `outputs_invariant` and `outputs_forall` are the rules for invariants about
both.  `along_of_invariant` is the rule for what an invariant gives at every step,
and `checkAlong` computes `Along` on a given run.
-/

namespace Runs

variable {σ α β : Type*}

/-- The state after the inputs, unless a step gets stuck. -/
def run (step : σ → α → Option σ) : σ → List α → Option σ
  | s, [] => some s
  | s, a :: rest => (step s a).bind fun s' => run step s' rest

/-- `P` holds of the state and the input before each step of the run. -/
def Along (step : σ → α → Option σ) (P : σ → α → Prop) : σ → List α → Prop
  | _, [] => True
  | s, a :: rest => P s a ∧ ∀ s', step s a = some s' → Along step P s' rest

variable {step : σ → α → Option σ} {P : σ → α → Prop} {I : σ → Prop} {s : σ} {as : List α}

/-- **The invariant rule.** -/
theorem run_invariant (hstep : ∀ s a, I s → P s a → ∃ s', step s a = some s' ∧ I s') (hs : I s)
    (halong : Along step P s as) : ∃ s', run step s as = some s' ∧ I s' := by
  induction as generalizing s with
  | nil => exact ⟨s, rfl, hs⟩
  | cons a rest ih =>
      obtain ⟨s', hs', hI⟩ := hstep s a hs halong.1
      obtain ⟨s'', hrun, hI'⟩ := ih hI (halong.2 s' hs')
      refine ⟨s'', ?_, hI'⟩
      rw [run, hs', Option.bind_some, hrun]

/-- The invariant rule for runs that are known to end. -/
theorem run_some_invariant (hstep : ∀ s a s', I s → P s a → step s a = some s' → I s') (hs : I s)
    (halong : Along step P s as) {s' : σ} (hrun : run step s as = some s') : I s' := by
  induction as generalizing s with
  | nil =>
      cases hrun
      exact hs
  | cons a rest ih =>
      rw [run] at hrun
      obtain ⟨s₁, hs₁, hrest⟩ := Option.bind_eq_some_iff.mp hrun
      exact ih (hstep s a s₁ hs halong.1 hs₁) (halong.2 s₁ hs₁) hrest

/-- What the steps of a run put out, in order. -/
def outputs (step : σ → α → Option σ) (out : σ → α → List β) : σ → List α → List β
  | _, [] => []
  | s, a :: rest =>
      out s a ++
        match step s a with
        | none => []
        | some s' => outputs step out s' rest

/-- **The invariant rule** for the state and what has been put out. -/
theorem outputs_invariant {out : σ → α → List β} {J : σ → List β → Prop} (log : List β)
    (hstep : ∀ s a log, J s log → P s a → ∃ s', step s a = some s' ∧ J s' (log ++ out s a))
    (hs : J s log) (halong : Along step P s as) :
    ∃ s', run step s as = some s' ∧ J s' (log ++ outputs step out s as) := by
  induction as generalizing s log with
  | nil => exact ⟨s, rfl, by rw [outputs, List.append_nil]; exact hs⟩
  | cons a rest ih =>
      obtain ⟨s', hs', hJ⟩ := hstep s a log hs halong.1
      obtain ⟨s'', hrun, hJ'⟩ := ih _ hJ (halong.2 s' hs')
      refine ⟨s'', by rw [run, hs', Option.bind_some, hrun], ?_⟩
      rw [outputs, hs', ← List.append_assoc]
      exact hJ'

/-- What the steps put out has a property that follows from an invariant. -/
theorem outputs_forall {out : σ → α → List β} {Q : β → Prop}
    (hstep : ∀ s a, I s → P s a → (∀ x ∈ out s a, Q x) ∧ ∀ s', step s a = some s' → I s') (hs : I s)
    (halong : Along step P s as) : ∀ x ∈ outputs step out s as, Q x := by
  induction as generalizing s with
  | nil => exact fun x hx => absurd hx List.not_mem_nil
  | cons a rest ih =>
      obtain ⟨hout, hnext⟩ := hstep s a hs halong.1
      intro x hx
      rcases List.mem_append.mp hx with hx | hx
      · exact hout x hx
      · split at hx
        · cases hx
        · rename_i s' hs'
          exact ih (hnext s' hs') (halong.2 s' hs') x hx

/-- A run in two parts. -/
theorem run_append (step : σ → α → Option σ) (s : σ) (as bs : List α) :
    run step s (as ++ bs) = (run step s as).bind fun s' => run step s' bs := by
  induction as generalizing s with
  | nil => rfl
  | cons a as ih =>
      simp only [List.cons_append, run, Option.bind_assoc]
      congr 1
      funext s'
      exact ih s'

theorem along_append {bs : List α} (h : Along step P s as)
    (h' : ∀ s', run step s as = some s' → Along step P s' bs) : Along step P s (as ++ bs) := by
  induction as generalizing s with
  | nil => exact h' s rfl
  | cons a as ih =>
      refine ⟨h.1, ?_⟩
      intro s' hs'
      refine ih (h.2 s' hs') ?_
      intro s'' hs''
      apply h'
      rw [run, hs', Option.bind_some, hs'']

theorem along_true (step : σ → α → Option σ) (s : σ) (as : List α) : Along step (fun _ _ => True) s as := by
  induction as generalizing s with
  | nil => trivial
  | cons a rest ih => exact ⟨trivial, fun s' _ => ih s'⟩

theorem along_of_forall {Q : α → Prop} (h : ∀ a ∈ as, Q a) : Along step (fun _ a => Q a) s as := by
  induction as generalizing s with
  | nil => trivial
  | cons a rest ih =>
      exact ⟨h a List.mem_cons_self, fun s' _ => ih fun b hb => h b (List.mem_cons_of_mem _ hb)⟩

theorem along_imp {Q : σ → α → Prop} (hPQ : ∀ s a, P s a → Q s a) (h : Along step P s as) :
    Along step Q s as := by
  induction as generalizing s with
  | nil => trivial
  | cons a rest ih => exact ⟨hPQ s a h.1, fun s' hs' => ih (h.2 s' hs')⟩

/-- A property that an invariant gives at every step holds along the run. -/
theorem along_of_invariant {Q : σ → α → Prop}
    (hstep : ∀ s a s', I s → P s a → step s a = some s' → I s') (hQ : ∀ s a, I s → P s a → Q s a)
    (hs : I s) (h : Along step P s as) : Along step Q s as := by
  induction as generalizing s with
  | nil => trivial
  | cons a rest ih =>
      exact ⟨hQ s a hs h.1, fun s' hs' => ih (hstep s a s' hs h.1 hs') (h.2 s' hs')⟩

/-- `Along`, computed. -/
def checkAlong (step : σ → α → Option σ) (check : σ → α → Bool) : σ → List α → Bool
  | _, [] => true
  | s, a :: rest =>
      check s a &&
        match step s a with
        | none => true
        | some s' => checkAlong step check s' rest

theorem along_of_checkAlong {check : σ → α → Bool} (hcheck : ∀ s a, check s a = true → P s a)
    (h : checkAlong step check s as = true) : Along step P s as := by
  induction as generalizing s with
  | nil => trivial
  | cons a rest ih =>
      rw [checkAlong, Bool.and_eq_true] at h
      refine ⟨hcheck s a h.1, ?_⟩
      intro s' hs'
      rw [hs'] at h
      exact ih h.2

end Runs
