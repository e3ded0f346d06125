import SqlReview.GoText

-- strings.Replace on a text that is written character by character, some of them as escapes.
namespace SqlReview.TextRewrite
open GoText

theorem replaceAll_apart {old : Text} (some_ : old ≠ []) (apart : c ∉ old) (s new : Text) :
    replaceAll (c :: s) old new = c :: replaceAll s old new := by
  apply replaceAll_miss
  cases old with
  | nil => contradiction
  | cons x old =>
    have first := (not_or.mp (mt List.mem_cons.mpr apart)).1
    simp [List.isPrefixOf,Ne.symm first]

-- No occurrence runs over a character that it does not have.
theorem replaceAll_split {old : Text} (some_ : old ≠ []) (apart : c ∉ old) (a b new : Text) :
    replaceAll (a ++ c :: b) old new = replaceAll a old new ++ c :: replaceAll b old new := by
  rw [← replaceAll_apart some_ apart]
  cases old with
  | nil => contradiction
  | cons x old => exact ListReplace.replaceAll_append (List.not_mem_of_not_mem_cons apart) a b new

theorem replaceAll_absent {old : Text} (some_ : old ≠ []) (absent : ∀ c ∈ s,c ∉ old.head?) (new : Text) :
    replaceAll s old new = s := by
  induction s with
  | nil => rfl
  | cons c s ih =>
    obtain ⟨own,later⟩ := List.forall_mem_cons.mp absent
    rw [replaceAll_miss,ih later]
    cases old with
    | nil => contradiction
    | cons x old =>
      have first : x ≠ c := by simpa using own
      simp [List.isPrefixOf,first]

-- The two texts differ at a place that both have.
def clashes : Text → Text → Bool
  | x :: s,y :: t => x != y || clashes s t
  | _,_ => false

-- An occurrence of old starts nowhere in t, whatever follows.
def inert (old : Text) : Text → Bool
  | [] => true
  | c :: t => clashes old (c :: t) && inert old t

theorem clashes_prefix (own : clashes old t = true) (rest : Text) : old.isPrefixOf (t ++ rest) = false := by
  induction old generalizing t with
  | nil => cases own
  | cons x old ih =>
    cases t with
    | nil => cases own
    | cons y t =>
      rw [List.cons_append,List.isPrefixOf_cons_cons]
      rcases Bool.or_eq_true_iff.mp own with other | later
      · have apart : (x == y) = false := by simpa using other
        rw [apart,Bool.false_and]
      · rw [ih later,Bool.and_false]

theorem replaceAll_inert (own : inert old t = true) (rest new : Text) :
    replaceAll (t ++ rest) old new = t ++ replaceAll rest old new := by
  induction t with
  | nil => rfl
  | cons c t ih =>
    obtain ⟨here,later⟩ := Bool.and_eq_true_iff.mp own
    have miss := clashes_prefix here rest
    rw [List.cons_append] at miss ⊢
    rw [replaceAll_miss _ _ _ miss,ih later,List.cons_append]

-- A way to write characters in which old stands as it is and nowhere else.
structure Writes (write : Char → Text) (old : Text) : Prop where
  some_ : old ≠ []
  slash : '\\' ∉ old
  each : ∀ c,write c = [c] ∨ (∃ t,write c = '\\' :: t) ∧ c ∉ old ∧ inert old (write c) = true

section Writes
variable {write : Char → Text} {old : Text} (writes : Writes write old)
include writes

theorem written_self {s : Text} (inside : s ⊆ old) : s.flatMap write = s := by
  induction s with
  | nil => rfl
  | cons c s ih =>
    obtain ⟨own,later⟩ := List.cons_subset.mp inside
    rcases writes.each c with plain | ⟨_,apart,_⟩
    · rw [List.flatMap_cons,plain,ih later,List.singleton_append]
    · exact absurd own apart

theorem written_prefix {part : Text} (inside : part ⊆ old) (s : Text) :
    part.isPrefixOf (s.flatMap write) = part.isPrefixOf s := by
  induction part generalizing s with
  | nil => simp
  | cons x part ih =>
    obtain ⟨own,later⟩ := List.cons_subset.mp inside
    cases s with
    | nil => rfl
    | cons c s =>
      rw [List.flatMap_cons]
      rcases writes.each c with plain | ⟨⟨t,escaped⟩,apart,_⟩
      · rw [plain,List.singleton_append,List.isPrefixOf_cons_cons,List.isPrefixOf_cons_cons,ih later]
      · have first : (x == '\\') = false := beq_eq_false_iff_ne.mpr fun same => writes.slash (same ▸ own)
        have second : (x == c) = false := beq_eq_false_iff_ne.mpr fun same => apart (same ▸ own)
        rw [escaped,List.cons_append,List.isPrefixOf_cons_cons,List.isPrefixOf_cons_cons,first,
          second,Bool.false_and,Bool.false_and]

-- Replacing in the written text is writing the replaced text.
theorem replaceAll_written {new : Text} (kept : new.flatMap write = new) (s : Text) :
    replaceAll (s.flatMap write) old new = (replaceAll s old new).flatMap write := by
  refine replaceAll_induction (motive := fun s t => replaceAll (s.flatMap write) old new =
    t.flatMap write) old new writes.some_ rfl ?_ ?_ s
  · intro r t later
    rw [List.flatMap_append,written_self writes (List.Subset.refl old),
      replaceAll_hit _ _ writes.some_,later,List.flatMap_append,kept]
  · intro c r t miss later
    rw [List.flatMap_cons,List.flatMap_cons,← later]
    rcases writes.each c with plain | ⟨_,_,passive⟩
    · have far : old.isPrefixOf (c :: r.flatMap write) = false := by
        have same := written_prefix writes (List.Subset.refl old) (c :: r)
        rw [List.flatMap_cons,plain,List.singleton_append] at same
        exact same.trans miss
      rw [plain,List.singleton_append,List.singleton_append,replaceAll_miss _ _ _ far]
    · exact replaceAll_inert passive _ _

end Writes

end SqlReview.TextRewrite
