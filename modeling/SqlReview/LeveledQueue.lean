import Mathlib

-- A queue with one list for each priority, that holds nothing twice.
namespace SqlReview.LeveledQueue

variable {ι τ : Type} [LinearOrder ι]

structure Queue (ι τ : Type) where
  levels : ι → List τ
  nodup : ∀ i,(levels i).Nodup
  disjoint : ∀ i j,i ≠ j → (levels i).Disjoint (levels j)

def Queue.Has (q : Queue ι τ) (x : τ) : Prop := ∃ i,x ∈ q.levels i

def Queue.none : Queue ι τ := ⟨fun _ => [],fun _ => List.nodup_nil,fun _ _ _ => List.disjoint_nil_left _⟩

def Queue.append (q : Queue ι τ) (i : ι) (x : τ) (fresh : ¬ q.Has x) : Queue ι τ where
  levels := Function.update q.levels i (q.levels i ++ [x])
  nodup j := by
    by_cases same : j = i
    · subst same
      rw [Function.update_self]
      apply (q.nodup j).append (List.nodup_singleton x)
      intro y inside single
      cases List.mem_singleton.mp single
      exact fresh ⟨j,inside⟩
    · rw [Function.update_of_ne same]
      exact q.nodup j
  disjoint j k apart := by
    have unlisted (k : ι) (away : k ≠ i) : (q.levels i ++ [x]).Disjoint (q.levels k) := by
      intro y inside later
      rcases List.mem_append.mp inside with old | single
      · exact q.disjoint i k (Ne.symm away) old later
      · cases List.mem_singleton.mp single
        exact fresh ⟨k,later⟩
    by_cases left : j = i
    · subst left
      rw [Function.update_self,Function.update_of_ne (Ne.symm apart)]
      exact unlisted k (Ne.symm apart)
    · rw [Function.update_of_ne left]
      by_cases right : k = i
      · subst right
        rw [Function.update_self]
        exact (unlisted j left).symm
      · rw [Function.update_of_ne right]
        exact q.disjoint j k apart

def Queue.remove (q : Queue ι τ) (i : ι) : Queue ι τ where
  levels := Function.update q.levels i (q.levels i).tail
  nodup j := by
    by_cases same : j = i
    · subst same
      rw [Function.update_self]
      exact (q.nodup j).tail
    · rw [Function.update_of_ne same]
      exact q.nodup j
  disjoint j k apart := by
    have smaller (j : ι) : Function.update q.levels i (q.levels i).tail j ⊆ q.levels j := by
      by_cases same : j = i
      · subst same
        rw [Function.update_self]
        exact List.tail_subset _
      · rw [Function.update_of_ne same]
        exact List.Subset.refl _
    intro x left right
    exact q.disjoint j k apart (smaller j left) (smaller k right)

theorem Queue.append_self (q : Queue ι τ) (i : ι) (x : τ) (fresh : ¬ q.Has x) :
    (q.append i x fresh).levels i = q.levels i ++ [x] := Function.update_self ..

theorem Queue.append_other (q : Queue ι τ) (x : τ) (fresh : ¬ q.Has x) (apart : j ≠ i) :
    (q.append i x fresh).levels j = q.levels j := Function.update_of_ne apart ..

theorem Queue.remove_self (q : Queue ι τ) (i : ι) : (q.remove i).levels i = (q.levels i).tail :=
  Function.update_self ..

theorem Queue.remove_other (q : Queue ι τ) (apart : j ≠ i) : (q.remove i).levels j = q.levels j :=
  Function.update_of_ne apart ..

theorem Queue.append_has (q : Queue ι τ) (i : ι) (x y : τ) (fresh : ¬ q.Has x) :
    (q.append i x fresh).Has y ↔ y = x ∨ q.Has y := by
  constructor
  · rintro ⟨j,inside⟩
    by_cases same : j = i
    · subst same
      rw [Queue.append_self] at inside
      rcases List.mem_append.mp inside with old | single
      · exact Or.inr ⟨j,old⟩
      · exact Or.inl (List.mem_singleton.mp single)
    · rw [Queue.append_other q x fresh same] at inside
      exact Or.inr ⟨j,inside⟩
  · rintro (rfl | ⟨j,inside⟩)
    · refine ⟨i,?_⟩
      rw [Queue.append_self]
      exact List.mem_append_right _ (List.mem_singleton_self _)
    · refine ⟨j,?_⟩
      by_cases same : j = i
      · subst same
        rw [Queue.append_self]
        exact List.mem_append_left _ inside
      · rwa [Queue.append_other q x fresh same]

theorem Queue.remove_has (q : Queue ι τ) (front : q.levels i = x :: rest) (y : τ) :
    (q.remove i).Has y ↔ y ≠ x ∧ q.Has y := by
  have first : x ∈ q.levels i := front ▸ List.mem_cons_self
  constructor
  · rintro ⟨j,inside⟩
    by_cases same : j = i
    · subst same
      rw [Queue.remove_self,front,List.tail_cons] at inside
      have gone := (List.nodup_cons.mp (front ▸ q.nodup j)).1
      refine ⟨fun equal => gone (equal ▸ inside),j,?_⟩
      rw [front]
      exact List.mem_cons_of_mem _ inside
    · rw [Queue.remove_other q same] at inside
      exact ⟨fun equal => q.disjoint j i same (equal ▸ inside) first,j,inside⟩
  · rintro ⟨other,j,inside⟩
    refine ⟨j,?_⟩
    by_cases same : j = i
    · subst same
      rw [front] at inside
      rw [Queue.remove_self,front,List.tail_cons]
      exact (List.mem_cons.mp inside).resolve_left other
    · rwa [Queue.remove_other q same]

-- The first entry of the least level of a range that has one.
structure Queue.First (q : Queue ι τ) (range : Set ι) (i : ι) (x : τ) : Prop where
  ranged : i ∈ range
  front : (q.levels i).head? = some x
  least : ∀ j ∈ range,j < i → q.levels j = []

theorem Queue.first_exists {q : Queue ι τ} {range : Set ι} (finite : range.Finite)
    (some_ : ¬ ∀ i ∈ range,q.levels i = []) :
    ∃ i x,q.First range i x := by
  have nonempty : {i ∈ range | q.levels i ≠ []}.Nonempty := by
    by_contra none_
    apply some_
    intro i ranged
    by_contra holds
    exact none_ ⟨i,ranged,holds⟩
  obtain ⟨i,⟨ranged,holds⟩,least⟩ := Set.exists_min_image _ id (finite.subset (Set.sep_subset _ _)) nonempty
  obtain ⟨x,rest,front⟩ := List.exists_cons_of_ne_nil holds
  refine ⟨i,x,ranged,by rw [front]; rfl,?_⟩
  intro j inside smaller
  by_contra other
  exact absurd (least j ⟨inside,other⟩) (not_le.mpr smaller)

inductive Event (ι τ : Type) where
  | accepted (i : ι) (x : τ)
  | refused (x : τ)
  | returned (i : ι) (x : τ)
  | empty

inductive Step (range : Set ι) (q : Queue ι τ) : Event ι τ → Queue ι τ → Prop where
  | accepted (fresh : ¬ q.Has x) : Step range q (.accepted i x) (q.append i x fresh)
  | refused : q.Has x → Step range q (.refused x) q
  | returned : q.First range i x → Step range q (.returned i x) (q.remove i)
  | empty : (∀ i ∈ range,q.levels i = []) → Step range q .empty q

inductive Run (range : Set ι) (start : Queue ι τ) : List (Event ι τ) → Queue ι τ → Prop where
  | nil : Run range start [] start
  | snoc : Run range start events q → Step range q event next → Run range start (events ++ [event]) next

def Event.acceptedAt (i : ι) : Event ι τ → List τ
  | .accepted j x => if j = i then [x] else []
  | _ => []

def Event.returnedAt (i : ι) : Event ι τ → List τ
  | .returned j x => if j = i then [x] else []
  | _ => []

-- What was accepted at a priority is, in this order, what was returned from it and what it still holds.
theorem Step.account {range : Set ι} {q next : Queue ι τ} (step : Step range q event next) (i : ι) :
    q.levels i ++ event.acceptedAt i = event.returnedAt i ++ next.levels i := by
  cases step with
  | @accepted x j fresh =>
    by_cases same : j = i
    · subst same
      simp [Event.acceptedAt,Event.returnedAt,Queue.append_self]
    · simp [Event.acceptedAt,Event.returnedAt,same,Queue.append_other q x fresh (Ne.symm same)]
  | refused => simp [Event.acceptedAt,Event.returnedAt]
  | @returned j x first =>
    obtain ⟨rest,front⟩ := List.head?_eq_some_iff.mp first.front
    by_cases same : j = i
    · subst same
      simp [Event.acceptedAt,Event.returnedAt,Queue.remove_self,front]
    · simp [Event.acceptedAt,Event.returnedAt,same,Queue.remove_other q (Ne.symm same)]
  | empty => simp [Event.acceptedAt,Event.returnedAt]

theorem Run.account {range : Set ι} {start q : Queue ι τ} (run : Run range start events q) (i : ι) :
    start.levels i ++ events.flatMap (Event.acceptedAt i) = events.flatMap (Event.returnedAt i) ++
      q.levels i := by
  induction run with
  | nil => simp
  | snoc _ step ih =>
    rw [List.flatMap_append,List.flatMap_append,← List.append_assoc,ih,List.flatMap_singleton,
      List.flatMap_singleton,
      List.append_assoc,List.append_assoc,step.account i]

end SqlReview.LeveledQueue
