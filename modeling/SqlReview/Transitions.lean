import Mathlib

namespace SqlReview.Transitions

variable {σ α : Type} {step : σ → α → Option σ} {guard : σ → α → Prop}

-- `step s a` is the state after action `a`, or `none` where `a` is not possible in `s`.
def run (step : σ → α → Option σ) : σ → List α → Option σ
  | s,[] => some s
  | s,a :: rest => (step s a).bind (run step · rest)

-- A run each of whose actions meets `guard` in the state it is taken in.
inductive Runs (step : σ → α → Option σ) (guard : σ → α → Prop) : σ → List α → σ → Prop where
  | nil : Runs step guard s [] s
  | cons : guard s a → step s a = some t → Runs step guard t rest u → Runs step guard s (a :: rest) u

theorem Runs.invariant (runs : Runs step guard s actions t) (holds : σ → Prop) (start : holds s)
    (preserved : ∀ s a t, holds s → guard s a → step s a = some t → holds t) : holds t := by
  induction runs with
  | nil => exact start
  | cons allowed stepped _ ih => exact ih (preserved _ _ _ start allowed stepped)

theorem run_invariant (holds : σ → Prop) (start : holds s)
    (preserved : ∀ s a t, holds s → step s a = some t → holds t)
    (ran : run step s actions = some t) : holds t := by
  induction actions generalizing s with
  | nil =>
    cases Option.some.inj ran
    exact start
  | cons a rest ih =>
    obtain ⟨next,stepped,ran⟩ := Option.bind_eq_some_iff.mp ran
    exact ih (preserved _ _ _ start stepped) ran

theorem run_append (s : σ) (front back : List α) :
    run step s (front ++ back) = (run step s front).bind (run step · back) := by
  induction front generalizing s with
  | nil => rfl
  | cons a front ih =>
    rw [List.cons_append,run,run,Option.bind_assoc]
    exact congrArg _ (funext ih)

theorem Runs.run (runs : Runs step guard s actions t) : Transitions.run step s actions = some t := by
  induction runs with
  | nil => rfl
  | cons _ stepped _ ih =>
    rw [Transitions.run,stepped]
    exact ih

theorem Runs.append (first : Runs step guard s front t) (second : Runs step guard t back u) :
    Runs step guard s (front ++ back) u := by
  induction first with
  | nil => exact second
  | cons allowed stepped _ ih => exact .cons allowed stepped (ih second)

theorem Runs.single (allowed : guard s a) (stepped : step s a = some t) : Runs step guard s [a] t :=
  .cons allowed stepped .nil

-- Where some schedule always lowers a measure, some schedule reaches the end; `near n s` says that
-- the measure of `s` is `n`, with whatever else the schedules keep.
theorem reaches {near : Nat → σ → Prop} {done : σ → Prop}
    (progress : ∀ n s, near n s → done s ∨ ∃ actions t m, Runs step guard s actions t ∧ near m t ∧
    m < n) (here : near n s) :
    ∃ actions t m, Runs step guard s actions t ∧ near m t ∧ done t := by
  induction n using Nat.strong_induction_on generalizing s with
  | _ n ih =>
    rcases progress n s here with ended | ⟨front,next,m,ran,there,less⟩
    · exact ⟨[],s,n,.nil,here,ended⟩
    · obtain ⟨back,t,l,rested,last,ended⟩ := ih m less there
      exact ⟨front ++ back,t,l,ran.append rested,last,ended⟩

-- The run comes to `s` and goes on with `a`.
def Takes (step : σ → α → Option σ) (first : σ) (actions : List α) (s : σ) (a : α) : Prop :=
  ∃ early late, actions = early ++ a :: late ∧ run step first early = some s

-- Every action of a run is taken in a state that the run comes to.
theorem runs_of_takes (early : List α) (came : run step first early = some s)
    (ran : run step s actions = some t) :
    Runs step (Takes step first (early ++ actions)) s actions t := by
  induction actions generalizing early s with
  | nil =>
    cases Option.some.inj ran
    exact .nil
  | cons a rest ih =>
    obtain ⟨next,stepped,ran⟩ := Option.bind_eq_some_iff.mp ran
    have further : run step first (early ++ [a]) = some next := by
      rw [run_append,came,Option.bind_some,run,stepped]
      rfl
    have later := ih _ further ran
    rw [List.append_assoc] at later
    exact .cons ⟨early,rest,rfl,came⟩ stepped later

-- The executable form of a guarded run.
def obeys (step : σ → α → Option σ) (guard : σ → α → Prop) [∀ s a, Decidable (guard s a)] : σ → List α → Bool
  | _,[] => true
  | s,a :: rest => decide (guard s a) && (step s a).all (obeys step guard · rest)

theorem runs_of_run [∀ s a, Decidable (guard s a)] (s : σ) (actions : List α)
    (ran : run step s actions = some t)
    (obeyed : obeys step guard s actions = true) : Runs step guard s actions t := by
  induction actions generalizing s with
  | nil =>
    cases Option.some.inj ran
    exact .nil
  | cons a rest ih =>
    cases stepped : step s a with
    | none => simp [run,stepped] at ran
    | some next =>
      simp only [obeys,stepped,Option.all_some,Bool.and_eq_true,decide_eq_true_eq] at obeyed
      exact .cons obeyed.1 stepped (ih next (by simpa [run,stepped] using ran) obeyed.2)

-- One of several calls in progress, with those before and after it.
theorem split_at {calls : List α} (found : calls[i]? = some c) :
    ∃ l r, calls = l ++ c :: r ∧ i = l.length ∧ calls.take i = l ∧ calls.drop (i+1) = r := by
  obtain ⟨bound,rfl⟩ := List.getElem?_eq_some_iff.mp found
  refine ⟨calls.take i,calls.drop (i+1),?_,?_,rfl,rfl⟩
  · rw [← List.drop_eq_getElem_cons bound,List.take_append_drop]
  · rw [List.length_take,Nat.min_eq_left (Nat.le_of_lt bound)]

end SqlReview.Transitions
