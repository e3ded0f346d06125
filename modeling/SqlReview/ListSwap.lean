import Mathlib

-- Lists that differ in that some pieces are replaced by others.
namespace SqlReview.ListSwap

section
variable {α β ι : Type}

-- `old i` is replaced by `new i` at some places.
inductive Swaps (old new : ι → List α) : List α → List α → Prop where
  | text (s : List α) : Swaps old new s s
  | more (s : List α) (i : ι) : Swaps old new a b → Swaps old new (s ++ (old i ++ a)) (s ++ (new i ++ b))

variable {old new : ι → List α} {a b c d : List α}

theorem swaps_one (i : ι) : Swaps old new (old i) (new i) := by
  have one : Swaps old new ([] ++ (old i ++ [])) ([] ++ (new i ++ [])) := .more [] i (.text [])
  simpa using one

theorem Swaps.behind (swaps : Swaps old new a b) (s : List α) : Swaps old new (s ++ a) (s ++ b) := by
  cases swaps with
  | text _ => exact .text _
  | more t i rest =>
    have joined := Swaps.more (s ++ t) i rest
    rwa [List.append_assoc,List.append_assoc] at joined

theorem Swaps.append (first : Swaps old new a b) (second : Swaps old new c d) :
    Swaps old new (a ++ c) (b ++ d) := by
  induction first with
  | text s => exact second.behind s
  | more s i _ ih =>
    simp only [List.append_assoc]
    exact .more s i ih

theorem Swaps.reverse (swaps : Swaps old new a b) :
    Swaps (fun i => (old i).reverse) (fun i => (new i).reverse) a.reverse b.reverse := by
  induction swaps with
  | text s => exact .text s.reverse
  | more s i _ ih =>
    simp only [List.reverse_append]
    exact (ih.append (swaps_one i)).append (.text s.reverse)

theorem Swaps.flatMap (swaps : Swaps old new a b) (f : α → List β) :
    Swaps (fun i => (old i).flatMap f) (fun i => (new i).flatMap f) (a.flatMap f) (b.flatMap f) := by
  induction swaps with
  | text s => exact .text (s.flatMap f)
  | more s i _ ih =>
    simp only [List.flatMap_append]
    exact .more (s.flatMap f) i ih

theorem Swaps.filter (swaps : Swaps old new a b) (p : α → Bool) :
    Swaps (fun i => (old i).filter p) (fun i => (new i).filter p) (a.filter p) (b.filter p) := by
  induction swaps with
  | text s => exact .text (s.filter p)
  | more s i _ ih =>
    simp only [List.filter_append]
    exact .more (s.filter p) i ih

-- The first element stands in both lists, or a replaced piece comes first.
theorem Swaps.head (swaps : Swaps old new (x :: a) b) :
    (∃ y,b = x :: y ∧ Swaps old new a y) ∨ ∃ i y z,x :: a = old i ++ y ∧ b = new i ++ z ∧
      Swaps old new y z := by
  generalize whole : x :: a = l at swaps
  cases swaps with
  | text s =>
    subst whole
    exact .inl ⟨a,rfl,.text a⟩
  | @more y z s i rest =>
    cases s with
    | nil => exact .inr ⟨i,y,z,by simp,by simp,rest⟩
    | cons x' s =>
      obtain ⟨rfl,rfl⟩ := List.cons.inj whole
      exact .inl ⟨_,rfl,.more s i rest⟩

theorem Swaps.last (swaps : Swaps old new (a ++ [x]) b) :
    (∃ y,b = y ++ [x] ∧ Swaps old new a y) ∨ ∃ i y z,a ++ [x] = y ++ old i ∧ b = z ++ new i ∧
      Swaps old new y z := by
  have back (f : ι → List α) : (fun i => ((f i).reverse).reverse) = f :=
    funext fun i => List.reverse_reverse (f i)
  have flipped := swaps.reverse
  rw [List.reverse_concat] at flipped
  rcases flipped.head with ⟨y,same,rest⟩ | ⟨i,y,z,first,second,rest⟩
  · have rest := rest.reverse
    rw [back,back,List.reverse_reverse] at rest
    refine .inl ⟨y.reverse,?_,rest⟩
    rw [← List.reverse_reverse b,same]
    simp
  · have rest := rest.reverse
    rw [back,back] at rest
    refine .inr ⟨i,y.reverse,z.reverse,?_,?_,rest⟩
    · rw [← List.reverse_reverse (a ++ [x]),List.reverse_concat,first]
      simp
    · rw [← List.reverse_reverse b,second]
      simp

section
variable {p : α → Bool} (kept : ∀ i,∃ x y s t,old i = x :: s ∧ new i = y :: t ∧ p x = false ∧ p y = false)
include kept

theorem Swaps.dropWhile (swaps : Swaps old new a b) : Swaps old new (a.dropWhile p) (b.dropWhile p) := by
  induction a generalizing b with
  | nil =>
    generalize whole : ([] : List α) = l at swaps
    cases swaps with
    | text s => exact .text _
    | more s i rest =>
      obtain ⟨x,_,t,_,same,_⟩ := kept i
      rw [same] at whole
      simp at whole
  | cons x a ih =>
    rcases swaps.head with ⟨y,same,rest⟩ | ⟨i,y,z,first,second,rest⟩
    · rw [same,List.dropWhile_cons,List.dropWhile_cons]
      split
      · exact ih rest
      · exact rest.behind [x]
    · obtain ⟨u,w,s,t,own,own',stays,stays'⟩ := kept i
      rw [first,second,own,own',List.cons_append,List.cons_append,
        List.dropWhile_cons_of_neg (by simp [stays]),
        List.dropWhile_cons_of_neg (by simp [stays'])]
      have swapped := Swaps.more [] i rest
      rwa [own,own'] at swapped

end

theorem Swaps.rdropWhile {p : α → Bool} (kept : ∀ i,∃ x y s t,old i = s ++ [x] ∧ new i = t ++ [y] ∧
    p x = false ∧ p y = false)
    (swaps : Swaps old new a b) : Swaps old new (a.rdropWhile p) (b.rdropWhile p) := by
  have back (f : ι → List α) : (fun i => ((f i).reverse).reverse) = f :=
    funext fun i => List.reverse_reverse (f i)
  have flipped := swaps.reverse.dropWhile (p := p) (by
    intro i
    obtain ⟨x,y,s,t,own,own',stays,stays'⟩ := kept i
    exact ⟨x,y,s.reverse,t.reverse,by simp [own],by simp [own'],stays,stays'⟩)
  have again := flipped.reverse
  rwa [back,back] at again

end

end SqlReview.ListSwap
