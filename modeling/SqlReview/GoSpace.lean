import SqlReview.GoBytes
import SqlReview.ListReplace

-- strings.TrimSpace and strings.Replace on bytes.
namespace SqlReview.GoSpace
open GoBytes

-- unicode.IsSpace
def isSpaceRune (r : Nat) : Bool :=
  (0x09 ≤ r && r ≤ 0x0D) || r == 0x20 || r == 0x85 || r == 0xA0 || r == 0x1680 ||
    (0x2000 ≤ r && r ≤ 0x200A) ||
    r == 0x2028 || r == 0x2029 || r == 0x202F || r == 0x205F || r == 0x3000

def spaced (piece : Nat × Bytes) : Bool := isSpaceRune piece.1

def joined (pieces : List (Nat × Bytes)) : Bytes := pieces.flatMap Prod.snd

def trimPieces (pieces : List (Nat × Bytes)) : List (Nat × Bytes) :=
  (pieces.dropWhile spaced).rdropWhile spaced

-- A byte that begins a rune never continues another one, so the runes found from the right, as
-- TrimSpace looks for them, are those found from the left.
def trimSpace (s : Bytes) : Bytes := joined (trimPieces (runes s))

def blank (s : Bytes) : Prop := ∀ piece ∈ runes s,spaced piece = true

theorem joined_append (a b : List (Nat × Bytes)) : joined (a ++ b) = joined a ++ joined b :=
  List.flatMap_append

theorem joined_runes (s : Bytes) : joined (runes s) = s := runes_join s

theorem trimPieces_right (pieces : List (Nat × Bytes)) (all : ∀ piece ∈ more,spaced piece = true) :
    trimPieces (pieces ++ more) = trimPieces pieces := by
  induction more using List.reverseRecOn with
  | nil => rw [List.append_nil]
  | append_singleton more last ih =>
    have before := ih fun piece mem => all piece (List.mem_append_left _ mem)
    have space : spaced last = true := all last (by simp)
    rw [← before,← List.append_assoc]
    generalize pieces ++ more = front
    unfold trimPieces
    by_cases none_ : front.dropWhile spaced = []
    · have whole : (front ++ [last]).dropWhile spaced = [] := by
        rw [List.dropWhile_append,none_]
        simp [space]
      rw [none_,whole]
    · have whole : (front ++ [last]).dropWhile spaced = front.dropWhile spaced ++ [last] := by
        rw [List.dropWhile_append]
        simp [none_]
      rw [whole,List.rdropWhile_concat_pos _ _ _ space]

theorem trimPieces_left (pieces : List (Nat × Bytes)) (all : ∀ piece ∈ more,spaced piece = true) :
    trimPieces (more ++ pieces) = trimPieces pieces := by
  rw [trimPieces,List.dropWhile_append_of_pos all]
  rfl

-- The ends of a trimmed text are not spaces.
def Bare (pieces : List (Nat × Bytes)) : Prop :=
  (∀ piece ∈ pieces.head?,spaced piece = false) ∧ ∀ piece ∈ pieces.getLast?,spaced piece = false

theorem trimPieces_bare (bare : Bare pieces) : trimPieces pieces = pieces := by
  have left : pieces.dropWhile spaced = pieces := by
    cases pieces with
    | nil => rfl
    | cons first rest => exact List.dropWhile_cons_of_neg (by simp [bare.1 first rfl])
  rw [trimPieces,left,List.rdropWhile_eq_self_iff]
  intro some_
  rw [bare.2 _ (List.getLast?_eq_some_getLast some_)]
  exact Bool.false_ne_true

theorem trimPieces_is_bare (pieces : List (Nat × Bytes)) : Bare (trimPieces pieces) := by
  constructor
  · intro piece first
    have start : (trimPieces pieces) <+: pieces.dropWhile spaced := List.rdropWhile_prefix _ _
    cases inner : trimPieces pieces with
    | nil =>
      rw [inner] at first
      cases first
    | cons head rest =>
      rw [inner] at first start
      cases first
      obtain ⟨more,whole⟩ := start
      have stop := List.head_dropWhile_not spaced (l := pieces) (by rw [← whole]; exact List.cons_ne_nil _ _)
      simpa [← whole] using stop
  · intro piece last
    have some_ : trimPieces pieces ≠ [] := by
      intro none_
      rw [none_] at last
      cases last
    rw [List.getLast?_eq_some_getLast some_] at last
    cases last
    have stop := List.rdropWhile_last_not spaced (pieces.dropWhile spaced) some_
    exact Bool.not_eq_true _ ▸ stop

theorem joined_length (pieces : List (Nat × Bytes)) (wide : ∀ piece ∈ pieces,1 ≤ piece.2.length) :
    pieces.length ≤ (joined pieces).length := by
  induction pieces with
  | nil => exact Nat.le_refl 0
  | cons piece rest ih =>
    obtain ⟨here,later⟩ := List.forall_mem_cons.mp wide
    have more := ih later
    simp only [joined,List.flatMap_cons,List.length_append,List.length_cons] at more ⊢
    omega

theorem trimPieces_split (pieces : List (Nat × Bytes)) :
    ∃ lead trail,pieces = lead ++ (trimPieces pieces ++ trail) := by
  obtain ⟨trail,inner⟩ : (trimPieces pieces) <+: pieces.dropWhile spaced := List.rdropWhile_prefix _ _
  refine ⟨pieces.takeWhile spaced,trail,?_⟩
  rw [inner,List.takeWhile_append_dropWhile]

theorem trimSpace_self_iff (s : Bytes) : trimSpace s = s ↔ Bare (runes s) := by
  constructor
  · intro same
    obtain ⟨lead,trail,whole⟩ := trimPieces_split (runes s)
    have wide : ∀ piece ∈ runes s,1 ≤ piece.2.length := fun piece mem => (runes_piece s piece mem).1
    have sizes := congrArg List.length (joined_runes s)
    have inner := congrArg List.length same
    rw [whole,joined_append,joined_append,List.length_append,List.length_append] at sizes
    have leads := joined_length lead fun piece mem => wide piece (by rw [whole]; simp [mem])
    have trails := joined_length trail fun piece mem => wide piece (by rw [whole]; simp [mem])
    rw [trimSpace] at inner
    have noLead : lead = [] := List.length_eq_zero_iff.mp (by omega)
    have noTrail : trail = [] := List.length_eq_zero_iff.mp (by omega)
    rw [noLead,noTrail,List.nil_append,List.append_nil] at whole
    rw [whole]
    exact trimPieces_is_bare _
  · intro bare
    rw [trimSpace,trimPieces_bare bare,joined_runes]

theorem trimSpace_length (s : Bytes) : (trimSpace s).length ≤ s.length := by
  obtain ⟨lead,trail,whole⟩ := trimPieces_split (runes s)
  have sizes := congrArg List.length (joined_runes s)
  rw [whole,joined_append,joined_append,List.length_append,List.length_append] at sizes
  rw [trimSpace]
  omega

-- Space behind a text begins with one byte here, and so does space in front of it.
theorem trimSpace_right (s : Bytes) (all : blank t) (ascii : ∀ c ∈ t.head?,c.toNat < 0x80) :
    trimSpace (s ++ t) = trimSpace s := by
  rw [trimSpace,runes_append_head s ascii,trimPieces_right _ all,trimSpace]

theorem trimSpace_left (s : Bytes) (all : blank t) (ascii : ∀ c ∈ t,c.toNat < 0x80) :
    trimSpace (t ++ s) = trimSpace s := by
  rw [trimSpace,runes_text_append ascii,trimPieces_left _ all,trimSpace]

-- A text that keeps its ends.
theorem trimSpace_between (s t u : Bytes)
    (start : runes (s ++ (t ++ u)) = runes s ++ runes (t ++ u)) (middle : runes (t ++ u) = runes t ++ runes u)
    (left : Bare (runes s)) (right : Bare (runes u)) (first : s ≠ []) (last : u ≠ []) :
    trimSpace (s ++ (t ++ u)) = s ++ (t ++ u) := by
  have someRunes {x : Bytes} (some_ : x ≠ []) : runes x ≠ [] := by
    intro none_
    apply some_
    rw [← joined_runes x,none_]
    rfl
  rw [trimSpace_self_iff,start,middle]
  constructor
  · intro piece head
    apply left.1
    rwa [List.head?_append_of_ne_nil _ (someRunes first)] at head
  · intro piece tail
    apply right.2
    rwa [← List.append_assoc,List.getLast?_append_of_ne_nil _ (someRunes last)] at tail

-- strings.Replace(s, old, new, -1) for an old that is not empty.
export ListReplace (replaceAll replaceFrom replaceAll_hit replaceAll_miss replaceAll_append)

theorem replaceAll_byte (s : Bytes) (c d : UInt8) :
    replaceAll s [c] [d] = s.map fun b => if b = c then d else b := by
  rw [ListReplace.replaceAll_one,List.map_eq_flatMap]
  congr
  funext b
  by_cases same : b = c
  · simp [same]
  · simp [same,Ne.symm same]

end SqlReview.GoSpace
