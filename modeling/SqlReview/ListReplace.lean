import Mathlib.Data.List.Basic

-- Replacement of every occurrence of a list in another, from the left and without overlap.
namespace SqlReview.ListReplace

variable {α : Type} [BEq α]

-- `skip` items of an occurrence are still to be passed over.
def replaceFrom (old new : List α) : Nat → List α → List α
  | _,[] => []
  | skip+1,_ :: rest => replaceFrom old new skip rest
  | 0,c :: rest =>
    if old.isPrefixOf (c :: rest) then new ++ replaceFrom old new (old.length-1) rest
    else c :: replaceFrom old new 0 rest

def replaceAll (s old new : List α) : List α := replaceFrom old new 0 s

theorem replaceFrom_drop (old new : List α) (skip : Nat) (s : List α) :
    replaceFrom old new skip s = replaceAll (s.drop skip) old new := by
  induction s generalizing skip with
  | nil => simp [replaceFrom,replaceAll]
  | cons c s ih =>
    cases skip with
    | zero => rfl
    | succ skip => simpa [replaceFrom] using ih skip

theorem replaceAll_miss (c : α) (rest new : List α) (miss : old.isPrefixOf (c :: rest) = false) :
    replaceAll (c :: rest) old new = c :: replaceAll rest old new := by
  rw [replaceAll,replaceFrom,if_neg (by simp [miss])]
  rfl

variable [LawfulBEq α]

theorem replaceAll_hit {old : List α} (rest new : List α) (some : old ≠ []) :
    replaceAll (old ++ rest) old new = new ++ replaceAll rest old new := by
  cases old with
  | nil => contradiction
  | cons c old =>
    rw [List.cons_append,replaceAll,replaceFrom,if_pos (by simp [List.isPrefixOf_iff_prefix]),
      replaceFrom_drop]
    simp

-- Induction over a list in the steps the replacement takes.
theorem replaceAll_induction {motive : List α → List α → Prop} (old new : List α) (some : old ≠ [])
    (nil : motive [] [])
    (hit : ∀ r t,motive r t → motive (old ++ r) (new ++ t))
    (keep : ∀ c r t,old.isPrefixOf (c :: r) = false → motive r t → motive (c :: r) (c :: t)) (s : List α) :
    motive s (replaceAll s old new) := by
  induction size : s.length using Nat.strongRecOn generalizing s with
  | ind n ih =>
    subst size
    cases s with
    | nil => exact nil
    | cons c s =>
      by_cases starts : old.isPrefixOf (c :: s) = true
      · obtain ⟨rest,whole⟩ := List.isPrefixOf_iff_prefix.mp starts
        rw [← whole,replaceAll_hit rest new some]
        apply hit
        refine ih rest.length ?_ rest rfl
        have items := List.length_pos_iff.mpr some
        rw [← whole,List.length_append]
        omega
      · have miss := Bool.eq_false_iff.mpr starts
        rw [replaceAll_miss c s new miss]
        exact keep c s _ miss (ih s.length (by simp) s rfl)

theorem prefix_apart {old : List α} {h : α} (apart : h ∉ old) (s t : List α) :
    old.isPrefixOf (s ++ h :: t) = old.isPrefixOf s := by
  induction old generalizing s with
  | nil => simp
  | cons x old ih =>
    rw [List.mem_cons,not_or] at apart
    cases s with
    | nil => simp [List.isPrefixOf,Ne.symm apart.1]
    | cons c s =>
      rw [List.cons_append,List.isPrefixOf_cons_cons,List.isPrefixOf_cons_cons,ih apart.2]

-- No occurrence runs over an item that is none of its later ones.
theorem replaceAll_append {old : List α} {x h : α} (apart : h ∉ old) (s t new : List α) :
    replaceAll (s ++ h :: t) (x :: old) new =
      replaceAll s (x :: old) new ++ replaceAll (h :: t) (x :: old) new := by
  refine replaceAll_induction
    (motive := fun s r => replaceAll (s ++ h :: t) (x :: old) new = r ++ replaceAll (h :: t) (x :: old) new)
    (x :: old) new (List.cons_ne_nil x old) rfl ?_ ?_ s
  · intro r u later
    rw [List.append_assoc,replaceAll_hit _ _ (List.cons_ne_nil x old),later,List.append_assoc]
  · intro c r u miss later
    have far : (x :: old).isPrefixOf (c :: (r ++ h :: t)) = false := by
      rw [List.isPrefixOf_cons_cons] at miss ⊢
      rw [prefix_apart apart,miss]
    rw [List.cons_append,replaceAll_miss _ _ _ far,later,List.cons_append]

theorem replaceAll_one (s : List α) (c : α) (new : List α) :
    replaceAll s [c] new = s.flatMap fun b => if c == b then new else [b] := by
  refine replaceAll_induction (motive := fun s r => r = s.flatMap fun b => if c == b then new else [b])
    [c] new (List.cons_ne_nil c []) rfl ?_ ?_ s
  · intro r u later
    rw [List.singleton_append,List.flatMap_cons,if_pos BEq.rfl,later]
  · intro b r u miss later
    have other : ¬ (c == b) = true := by simpa [List.isPrefixOf] using miss
    rw [List.flatMap_cons,if_neg other,List.singleton_append,later]

end SqlReview.ListReplace
