import SqlReview.GoSpace
import SqlReview.ListSwap

-- The residue of > and < that JsonDecode leaves, and its replacement in importToRedis.
namespace SqlReview.Unescape
open GoBytes GoSpace ListSwap

def residue : Bool → Bytes
  | true => str "u003e"
  | false => str "u003c"

def operator : Bool → Bytes
  | true => str ">"
  | false => str "<"

def unescape (line : Bytes) : Bytes :=
  replaceAll (replaceAll line (str "u003e") (str ">")) (str "u003c") (str "<")

abbrev Unescapes : Bytes → Bytes → Prop := Swaps residue operator

def last : Bool → UInt8
  | true => 0x65
  | false => 0x63

def sign : Bool → UInt8
  | true => 0x3E
  | false => 0x3C

theorem residue_eq (g : Bool) : residue g = [0x75,0x30,0x30,0x33,last g] := by
  cases g <;> decide +kernel

theorem operator_eq (g : Bool) : operator g = [sign g] := by
  cases g <;> decide +kernel

theorem residue_ascii (g : Bool) : ∀ b ∈ residue g,b.toNat < 0x80 := by
  rw [residue_eq]
  cases g <;> simp [last]

theorem operator_ascii (g : Bool) : ∀ b ∈ operator g,b.toNat < 0x80 := by
  rw [operator_eq]
  cases g <;> simp [sign]

theorem residue_runes (g : Bool) :
    runes (residue g) = (([0x75,0x30,0x30,0x33] : Bytes) ++ [last g]).map fun b => (b.toNat,[b]) := by
  rw [runes_text _ (residue_ascii g),residue_eq]
  rfl

theorem operator_runes (g : Bool) : runes (operator g) = [((sign g).toNat,[sign g])] := by
  rw [runes_text _ (operator_ascii g),operator_eq]
  rfl

-- One pass: the residue of one sign and the sign itself end as that sign.
def pass (g : Bool) (s : Bytes) : Bytes := replaceAll s (residue g) (operator g)

theorem unescape_passes (s : Bytes) : unescape s = pass false (pass true s) := rfl

theorem pass_eq (g : Bool) (s : Bytes) :
    pass g s = replaceAll s [0x75,0x30,0x30,0x33,last g] (operator g) := by
  rw [pass,residue_eq]

theorem pass_apart {h : UInt8} (apart : h ∉ [0x30,0x30,0x33,last g]) (s t : Bytes) :
    pass g (s ++ h :: t) = pass g s ++ pass g (h :: t) := by
  simp only [pass_eq]
  exact replaceAll_append apart s t (operator g)

theorem pass_other {c : UInt8} (other : c ≠ 0x75) (t : Bytes) : pass g (c :: t) = c :: pass g t := by
  simp only [pass_eq]
  apply replaceAll_miss
  simp [List.isPrefixOf,Ne.symm other]

theorem pass_residue (g : Bool) (s a : Bytes) :
    pass g (s ++ (residue g ++ a)) = pass g s ++ (operator g ++ pass g a) := by
  have hit : pass g (residue g ++ a) = operator g ++ pass g a := by
    simp only [pass_eq,residue_eq]
    exact replaceAll_hit a _ (List.cons_ne_nil _ _)
  rw [← hit,residue_eq]
  exact pass_apart (by cases g <;> decide) s _

theorem pass_sign (g h : Bool) (s a : Bytes) :
    pass g (s ++ (operator h ++ a)) = pass g s ++ (operator h ++ pass g a) := by
  have miss : pass g (sign h :: a) = sign h :: pass g a := pass_other (by cases h <;> decide) a
  rw [operator_eq]
  change pass g (s ++ sign h :: a) = _
  rw [pass_apart (by cases g <;> cases h <;> decide),miss]
  rfl

-- The pass for one sign leaves the other's residue.
theorem pass_foreign (g : Bool) (s a : Bytes) :
    pass g (s ++ (residue (!g) ++ a)) = pass g s ++ (residue (!g) ++ pass g a) := by
  have miss : (residue g).isPrefixOf (residue (!g) ++ a) = false := by
    rw [residue_eq,residue_eq]
    cases g <;> rfl
  rw [residue_eq] at miss ⊢
  change pass g (s ++ 0x75 :: ([0x30,0x30,0x33,last (!g)] ++ a)) = _
  rw [pass_apart (by cases g <;> decide)]
  have first : pass g (0x75 :: ([0x30,0x30,0x33,last (!g)] ++ a)) =
      0x75 :: pass g ([0x30,0x30,0x33,last (!g)] ++ a) := by
    simp only [pass_eq]
    apply replaceAll_miss
    rw [residue_eq] at miss
    exact miss
  rw [first]
  simp only [List.cons_append,List.nil_append]
  rw [pass_other (by decide),pass_other (by decide),pass_other (by decide),pass_other (by cases g <;> decide)]

theorem unescape_residue (g : Bool) (s a : Bytes) :
    unescape (s ++ (residue g ++ a)) = unescape s ++ (operator g ++ unescape a) := by
  simp only [unescape_passes]
  cases g with
  | true => rw [pass_residue,pass_sign]
  | false =>
    have foreign := pass_foreign true s a
    rw [Bool.not_true] at foreign
    rw [foreign,pass_residue]

theorem unescape_sign (g : Bool) (s a : Bytes) :
    unescape (s ++ (operator g ++ a)) = unescape s ++ (operator g ++ unescape a) := by
  simp only [unescape_passes]
  rw [pass_sign,pass_sign]

theorem unescape_same (swaps : Unescapes a b) : unescape a = unescape b := by
  induction swaps with
  | text s => rfl
  | more s g _ ih => rw [unescape_residue,unescape_sign,ih]

-- A text cut at its residues.
def chunksFrom : Nat → Bytes → Bytes × List (Bool × Bytes)
  | _,[] => ([],[])
  | skip+1,_ :: rest => chunksFrom skip rest
  | 0,c :: rest =>
    if (residue true).isPrefixOf (c :: rest) then
      let next := chunksFrom 4 rest
      ([],(true,next.1) :: next.2)
    else if (residue false).isPrefixOf (c :: rest) then
      let next := chunksFrom 4 rest
      ([],(false,next.1) :: next.2)
    else
      let next := chunksFrom 0 rest
      (c :: next.1,next.2)

def chunks (t : Bytes) : Bytes × List (Bool × Bytes) := chunksFrom 0 t

def whole (piece : Bool → Bytes) (s : Bytes) (rest : List (Bool × Bytes)) : Bytes :=
  s ++ rest.flatMap fun chunk => piece chunk.1 ++ chunk.2

theorem whole_cons (piece : Bool → Bytes) (s : Bytes) (g : Bool) (t : Bytes) (rest : List (Bool × Bytes)) :
    whole piece s ((g,t) :: rest) = s ++ (piece g ++ whole piece t rest) := by
  simp [whole]

theorem whole_swaps (s : Bytes) (rest : List (Bool × Bytes)) :
    Unescapes (whole residue s rest) (whole operator s rest) := by
  induction rest generalizing s with
  | nil => exact .text _
  | cons chunk rest ih =>
    rw [whole_cons,whole_cons]
    exact .more s chunk.1 (ih chunk.2)

theorem chunksFrom_drop (skip : Nat) (t : Bytes) : chunksFrom skip t = chunks (t.drop skip) := by
  induction t generalizing skip with
  | nil =>
    rw [List.drop_nil]
    cases skip <;> rfl
  | cons c t ih =>
    cases skip with
    | zero => rfl
    | succ skip => exact ih skip

-- What a pass writes behind other bytes than the sign was there before.
theorem pass_kept {front : Bytes} (absent : sign g ∉ front)
    (found : front.isPrefixOf (pass g t) = true) : front.isPrefixOf t = true := by
  induction front generalizing t with
  | nil => simp
  | cons x front ih =>
    rw [List.mem_cons,not_or] at absent
    cases t with
    | nil => simp [pass,replaceAll,replaceFrom] at found
    | cons c t =>
      by_cases starts : (residue g).isPrefixOf (c :: t) = true
      · obtain ⟨rest,whole⟩ := List.isPrefixOf_iff_prefix.mp starts
        have hit := pass_residue g [] rest
        rw [List.nil_append,whole,operator_eq] at hit
        rw [hit] at found
        change (x :: front).isPrefixOf (sign g :: pass g rest) = true at found
        rw [List.isPrefixOf_cons_cons,Bool.and_eq_true,beq_iff_eq] at found
        exact absurd found.1.symm absent.1
      · rw [pass,replaceAll_miss _ _ _ (Bool.eq_false_iff.mpr starts),List.isPrefixOf_cons_cons,
          Bool.and_eq_true] at found
        rw [List.isPrefixOf_cons_cons,Bool.and_eq_true]
        exact ⟨found.1,ih absent.2 found.2⟩

theorem unescape_miss (c : UInt8) (t : Bytes) (first : (residue true).isPrefixOf (c :: t) = false)
    (second : (residue false).isPrefixOf (c :: t) = false) :
    unescape (c :: t) = c :: unescape t := by
  have one : pass true (c :: t) = c :: pass true t := replaceAll_miss _ _ _ first
  rw [unescape_passes,one,unescape_passes]
  apply replaceAll_miss
  rw [← one]
  apply Bool.eq_false_iff.mpr
  intro found
  rw [pass_kept (by decide +kernel) found] at second
  cases second

theorem chunks_whole (t : Bytes) : whole residue (chunks t).1 (chunks t).2 = t ∧
    whole operator (chunks t).1 (chunks t).2 = unescape t := by
  have hit (g : Bool) (rest : Bytes) (c : UInt8) (t : Bytes) (same : residue g ++ rest =
      c :: t) : chunksFrom 4 t = chunks rest := by
    rw [chunksFrom_drop]
    rw [residue_eq] at same
    obtain ⟨_,tail⟩ := List.cons.inj same
    rw [← tail]
    rfl
  induction size : t.length using Nat.strongRecOn generalizing t with
  | ind n ih =>
    subst size
    cases t with
    | nil => exact ⟨rfl,rfl⟩
    | cons c t =>
      have starts (g : Bool) (rest : Bytes) (same : residue g ++ rest = c :: t)
        (cut : chunks (c :: t) = ([],(g,(chunks rest).1) :: (chunks rest).2)) :
          whole residue (chunks (c :: t)).1 (chunks (c :: t)).2 = c :: t ∧
            whole operator (chunks (c :: t)).1 (chunks (c :: t)).2 = unescape (c :: t) := by
        have shorter : rest.length < (c :: t).length := by
          rw [← same,residue_eq]
          simp
          omega
        obtain ⟨left,right⟩ := ih rest.length shorter rest rfl
        have replaced := unescape_residue g [] rest
        rw [List.nil_append] at replaced
        rw [cut,whole_cons,whole_cons,left,right,← same,replaced]
        exact ⟨rfl,rfl⟩
      by_cases first : (residue true).isPrefixOf (c :: t) = true
      · obtain ⟨rest,same⟩ := List.isPrefixOf_iff_prefix.mp first
        apply starts true rest same
        rw [chunks,chunksFrom,if_pos first,hit true rest c t same]
      · by_cases second : (residue false).isPrefixOf (c :: t) = true
        · obtain ⟨rest,same⟩ := List.isPrefixOf_iff_prefix.mp second
          apply starts false rest same
          rw [chunks,chunksFrom,if_neg first,if_pos second,hit false rest c t same]
        · obtain ⟨left,right⟩ := ih t.length (by simp) t rfl
          have cut : chunks (c :: t) = (c :: (chunks t).1,(chunks t).2) := by
            rw [chunks,chunksFrom,if_neg first,if_neg second]
            rfl
          rw [cut,unescape_miss c t (Bool.eq_false_iff.mpr first) (Bool.eq_false_iff.mpr second),← right]
          exact ⟨congrArg (c :: ·) left,rfl⟩

theorem unescape_swaps (t : Bytes) : Unescapes t (unescape t) := by
  obtain ⟨left,right⟩ := chunks_whole t
  have swaps := whole_swaps (chunks t).1 (chunks t).2
  rwa [left,right] at swaps

-- TrimSpace keeps the relation.
theorem runes_swaps (swaps : Unescapes a b) :
    Swaps (fun g => runes (residue g)) (fun g => runes (operator g)) (runes a) (runes b) := by
  induction swaps with
  | text s => exact .text _
  | more s g _ ih =>
    rw [runes_append_text s _ (by rw [residue_eq]; exact nofun) (residue_ascii g),
      runes_append_text s _ (by rw [operator_eq]; exact nofun) (operator_ascii g)]
    exact .more (runes s) g ih

theorem trimSpace_swaps (swaps : Unescapes a b) : Unescapes (trimSpace a) (trimSpace b) := by
  have ink (g : Bool) : spaced ((last g).toNat,[last g]) = false ∧
      spaced ((sign g).toNat,[sign g]) = false := by
    cases g <;> decide
  have trimmed : Swaps (fun g => runes (residue g)) (fun g => runes (operator g))
      (trimPieces (runes a)) (trimPieces (runes b)) := by
    apply Swaps.rdropWhile
    · intro g
      exact ⟨_,_,[(0x75,[0x75]),(0x30,[0x30]),(0x30,[0x30]),(0x33,[0x33])],[],residue_runes g,
        operator_runes g,(ink g).1,(ink g).2⟩
    · apply Swaps.dropWhile
      · intro g
        exact ⟨_,_,_,_,residue_runes g,operator_runes g,by decide,(ink g).2⟩
      · exact runes_swaps swaps
  have text := trimmed.flatMap Prod.snd
  have left (f : Bool → Bytes) : (fun g => (runes (f g)).flatMap Prod.snd) = f :=
    funext fun g => runes_join (f g)
  rwa [left,left] at text

end SqlReview.Unescape
