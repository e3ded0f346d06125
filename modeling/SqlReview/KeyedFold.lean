import Mathlib

namespace SqlReview.KeyedFold

variable {κ α β γ : Type} [DecidableEq κ]

-- A slot holds something or nothing; an input changes it and may give an output.
def slotRun (slot : Option β → α → Option β × Option γ) : Option β → List α → Option β × List γ
  | b,[] => (b,[])
  | b,a :: rest =>
    let later := slotRun slot (slot b a).1 rest
    (later.1,(slot b a).2.toList ++ later.2)

-- One slot for each key, all fed by one list of inputs.
def keyedRun (key : α → κ) (slot : Option β → α → Option β × Option γ) :
    (κ → Option β) → List α → (κ → Option β) × List (κ × γ)
  | m,[] => (m,[])
  | m,a :: rest =>
    let next := slot (m (key a)) a
    let later := keyedRun key slot (Function.update m (key a) next.1) rest
    (later.1,next.2.toList.map (key a,·) ++ later.2)

def outputsAt (k : κ) (outputs : List (κ × γ)) : List γ := (outputs.filter (·.1 = k)).map Prod.snd

theorem outputsAt_append (k : κ) (one two : List (κ × γ)) :
    outputsAt k (one ++ two) = outputsAt k one ++ outputsAt k two := by
  simp [outputsAt]

theorem outputsAt_same (k : κ) (outputs : List γ) : outputsAt k (outputs.map (k,·)) = outputs := by
  induction outputs with
  | nil => rfl
  | cons out outputs ih => simpa [outputsAt] using ih

theorem outputsAt_other {k other : κ} (apart : other ≠ k) (outputs : List γ) :
    outputsAt k (outputs.map (other,·)) = [] := by
  simp [outputsAt,apart]

-- What happens at one key depends on the inputs with that key alone.
theorem keyedRun_slot (key : α → κ) (slot : Option β → α → Option β × Option γ) (k : κ)
    (m : κ → Option β) (inputs : List α) :
    ((keyedRun key slot m inputs).1 k,outputsAt k (keyedRun key slot m inputs).2) =
      slotRun slot (m k) (inputs.filter (key · = k)) := by
  induction inputs generalizing m with
  | nil => rfl
  | cons a rest ih =>
    have later := ih (Function.update m (key a) (slot (m (key a)) a).1)
    rw [Prod.mk.injEq] at later
    unfold keyedRun
    dsimp only
    rw [outputsAt_append,later.1,later.2]
    by_cases same : key a = k
    · subst same
      rw [outputsAt_same,Function.update_self,List.filter_cons_of_pos (by simp),slotRun]
    · rw [outputsAt_other same,Function.update_of_ne (Ne.symm same),
        List.filter_cons_of_neg (by simpa using same)]
      rfl

theorem update_keeps {inv : κ → β → Prop} {m : κ → Option β} {held : Option β} (k : κ)
    (before : ∀ k, ∀ b ∈ m k, inv k b) (new : ∀ b ∈ held, inv k b) :
    ∀ j, ∀ b ∈ Function.update m k held j, inv j b := by
  intro j b found
  by_cases same : j = k
  · subst same
    rw [Function.update_self] at found
    exact new b found
  · rw [Function.update_of_ne same] at found
    exact before j b found

-- What holds of every slot before a run, and is kept by each input, holds after it.
theorem keyedRun_keeps (inv : κ → β → Prop) (given : κ → γ → Prop) (key : α → κ)
    (slot : Option β → α → Option β × Option γ)
    (inputs : List α) {m : κ → Option β} (before : ∀ k, ∀ b ∈ m k, inv k b)
    (step : ∀ a ∈ inputs, ∀ held, (∀ b ∈ held, inv (key a) b) →
      (∀ b ∈ (slot held a).1, inv (key a) b) ∧ ∀ c ∈ (slot held a).2, given (key a) c) :
    ∀ out ∈ (keyedRun key slot m inputs).2, given out.1 out.2 := by
  induction inputs generalizing m with
  | nil => nofun
  | cons a rest ih =>
    obtain ⟨kept,gave⟩ := step a (by simp) (m (key a)) (before (key a))
    intro out found
    rcases List.mem_append.mp found with found | found
    · obtain ⟨c,now,rfl⟩ := List.mem_map.mp found
      exact gave c (Option.mem_toList.mp now)
    · exact ih (update_keeps (key a) before kept) (fun b later => step b (by simp [later])) out found

end SqlReview.KeyedFold
