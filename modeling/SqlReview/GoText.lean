import Mathlib
import SqlReview.ListReplace

namespace SqlReview.GoText

-- A Go string that is valid UTF-8, as its characters.
abbrev Text := List Char

def text (s : String) : Text := s.toList

-- strings.Index, with none for -1.
def index (s old : Text) : Option Nat :=
  if old.isPrefixOf s then some 0
  else match s with
    | [] => none
    | _ :: rest => (index rest old).map (·+1)

-- strings.Replace(s, old, new, -1) for an old that is not empty.
export ListReplace (replaceAll replaceFrom replaceAll_hit replaceAll_miss replaceAll_induction)

theorem index_prefix {s old : Text} (found : index s old = some k) : old.isPrefixOf (s.drop k) = true := by
  induction s generalizing k with
  | nil =>
    unfold index at found
    split at found
    · rename_i start
      cases Option.some.inj found
      exact start
    · cases found
  | cons c rest ih =>
    unfold index at found
    split at found
    · rename_i start
      cases Option.some.inj found
      exact start
    · obtain ⟨j,later,rfl⟩ := Option.map_eq_some_iff.mp found
      exact ih later

theorem replaceAll_delete (s : Text) (c : Char) : replaceAll s [c] [] = s.filter (· ≠ c) := by
  rw [ListReplace.replaceAll_one]
  induction s with
  | nil => rfl
  | cons d rest ih =>
    rw [List.flatMap_cons,ih]
    by_cases same : c = d
    · simp [same]
    · simp [same,Ne.symm same]

theorem replaceAll_self (s : Text) (c : Char) : replaceAll s [c] [c] = s := by
  rw [ListReplace.replaceAll_one]
  have same (d : Char) : (if c == d then [c] else [d]) = [d] := by
    split
    · rename_i found
      rw [eq_of_beq found]
    · rfl
  simp only [same,List.flatMap_singleton']

end SqlReview.GoText
