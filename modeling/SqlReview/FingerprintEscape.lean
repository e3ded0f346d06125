import SqlReview.FingerprintTwin
import SqlReview.FingerprintSigns
import SqlReview.Unescape

-- A query with residues of > and < beside the query with the operators themselves.
namespace SqlReview.FingerprintEscape
open GoBytes GoSpace ListSwap Unescape Fingerprint FingerprintView FingerprintLiteral
  FingerprintPending FingerprintRegular FingerprintNumber FingerprintTwin
open FingerprintSigns

-- A previous rune that no test but that for whitespace asks for.
def quiet (r : Nat) : Bool := !prRunes.contains r && !decide (hexPrefix r)

-- The previous runes: the same, or two of whitespace, or the end of a residue and a rune that is
-- not asked for.
def Follows (r r' : Nat) : Prop :=
  r = r' ∨ (∃ g,r = (last g).toNat ∧ quiet r' = true) ∨ (isSpace r = true ∧ isSpace r' = true)

theorem follows_sign (g : Bool) : Follows (last g).toNat (sign g).toNat :=
  .inr (.inl ⟨g,rfl,by cases g <;> decide⟩)

def escaped : Texts := ⟨Unescapes,Unescapes,Unescapes,Follows,(· = ·)⟩

section
variable {a b : Bytes}

theorem swaps_ends (swaps : Unescapes a b) :
    (a = [] ∧ b = []) ∨ (∃ x y c,a = x ++ [c] ∧ b = y ++ [c] ∧ Unescapes x y) ∨
    ∃ g x y,a = x ++ [last g] ∧ b = y ++ [sign g] := by
  rcases List.eq_nil_or_concat a with rfl | ⟨x,c,rfl⟩
  · left
    generalize whole : ([] : Bytes) = l at swaps
    cases swaps with
    | text _ =>
      subst whole
      exact ⟨rfl,rfl⟩
    | more s g _ =>
      rw [residue_eq] at whole
      simp at whole
  · right
    rw [List.concat_eq_append] at swaps ⊢
    rcases swaps.last with ⟨y,same,rest⟩ | ⟨g,y,z,first,second,_⟩
    · exact .inl ⟨x,y,c,rfl,same,rest⟩
    · refine .inr ⟨g,y ++ [0x75,0x30,0x30,0x33],z,?_,?_⟩
      · rw [first,residue_eq]
        simp
      · rw [second,operator_eq]

theorem swaps_nil (swaps : Unescapes a b) : a = [] ↔ b = [] := by
  rcases swaps_ends swaps with ⟨rfl,rfl⟩ | ⟨x,y,c,rfl,rfl,_⟩ | ⟨g,x,y,rfl,rfl⟩ <;> simp

theorem swaps_last (swaps : Unescapes a b) {f : UInt8 → Bool} (same : ∀ g,f (last g) = f (sign g)) :
    a.getLast?.any f = b.getLast?.any f := by
  rcases swaps_ends swaps with ⟨rfl,rfl⟩ | ⟨x,y,c,rfl,rfl,_⟩ | ⟨g,x,y,rfl,rfl⟩
  · rfl
  · simp
  · simp [same g]

-- Texts that end alike agree before their ends.
theorem swaps_cancel (t : Bytes) (swaps : Unescapes (a ++ t) (b ++ t)) : Unescapes a b := by
  induction t using List.reverseRecOn with
  | nil => simpa using swaps
  | append_singleton t c ih =>
    apply ih
    rw [← List.append_assoc,← List.append_assoc] at swaps
    rcases swaps_ends swaps with ⟨bad,_⟩ | ⟨x,y,d,left,right,rest⟩ | ⟨g,x,y,left,right⟩
    · simp at bad
    · obtain ⟨rfl,_⟩ := List.append_inj' left rfl
      obtain ⟨rfl,_⟩ := List.append_inj' right rfl
      exact rest
    · obtain ⟨_,one⟩ := List.append_inj' left rfl
      obtain ⟨_,two⟩ := List.append_inj' right rfl
      rw [one] at two
      exact absurd two (by cases g <;> decide)

-- A tail of signs stands in both texts.
theorem swaps_signs (t : Bytes) (like : ∀ c ∈ t,signLike c = true) (swaps : Unescapes (a ++ t) b) :
    ∃ y,b = y ++ t ∧ Unescapes a y := by
  induction t using List.reverseRecOn generalizing b with
  | nil => exact ⟨b,by simp,by simpa using swaps⟩
  | append_singleton t c ih =>
    obtain ⟨before,own⟩ := List.forall_mem_append.mp like
    rw [← List.append_assoc] at swaps
    rcases swaps_ends swaps with ⟨bad,_⟩ | ⟨x,y,d,left,rfl,rest⟩ | ⟨g,x,y,left,_⟩
    · simp at bad
    · obtain ⟨rfl,same⟩ := List.append_inj' left rfl
      obtain ⟨z,rfl,front⟩ := ih before rest
      exact ⟨z,by simp [same],front⟩
    · obtain ⟨_,same⟩ := List.append_inj' left rfl
      have bad := own c (List.mem_singleton.mpr rfl)
      rw [List.singleton_inj.mp same] at bad
      exact absurd bad (by cases g <;> decide)

theorem swaps_back (swaps : Unescapes a b) (ends : Ends k a) :
    Unescapes (a.take (a.length-k)) (b.take (b.length-k)) ∧ a.drop (a.length-k) = b.drop (b.length-k) := by
  have split : Unescapes (a.take (a.length-k) ++ a.drop (a.length-k)) b := by rwa [List.take_append_drop]
  obtain ⟨y,same,front⟩ := swaps_signs _ ends split
  have size : (a.drop (a.length-k)).length = a.length-(a.length-k) := List.length_drop
  have length := congrArg List.length same
  rw [List.length_append,size] at length
  by_cases short : a.length ≤ k
  · have none_ : a.take (a.length-k) = [] := by simp [Nat.sub_eq_zero_of_le short]
    have empty := (swaps_nil front).mp none_
    rw [empty] at length
    have short' : b.length-k = 0 := by
      rw [List.length_nil] at length
      omega
    rw [short',none_,List.take_zero,List.drop_zero]
    refine ⟨.text [],?_⟩
    rw [same,empty,List.nil_append]
  · have long : b.length-k = y.length := by omega
    rw [long,same,List.take_left',List.drop_left']
    · exact ⟨front,rfl⟩
    · rfl
    · rfl

theorem swaps_foreign (swaps : Unescapes a b) : a = b ∨ (byte '0' ∈ a ∧ ∃ g,sign g ∈ b) := by
  cases swaps with
  | text _ => exact .inl rfl
  | more s g _ =>
    refine .inr ⟨?_,g,?_⟩
    · rw [residue_eq]
      simp [byte]
    · rw [operator_eq]
      simp

theorem toLower_piece (lower : Nat → Nat) (s a : Bytes) {n : Bytes} (some_ : n ≠ [])
    (ascii : ∀ b ∈ n,b.toNat < 0x80) :
    toLower lower (s ++ (n ++ a)) = toLower lower s ++ (n.map lowerByte ++ toLower lower a) := by
  rw [← toLower_ascii lower n ascii,toLower,runes_append_text s a some_ ascii,List.flatMap_append,
    List.flatMap_append]
  rfl

theorem toLower_residue (lower : Nat → Nat) (g : Bool) (s a : Bytes) :
    toLower lower (s ++ (residue g ++ a)) = toLower lower s ++ (residue g ++ toLower lower a) := by
  have same : (residue g).map lowerByte = residue g := by
    rw [residue_eq]
    cases g <;> rfl
  rw [toLower_piece lower s a (by rw [residue_eq]; exact nofun) (residue_ascii g),same]

theorem toLower_operator (lower : Nat → Nat) (g : Bool) (s a : Bytes) :
    toLower lower (s ++ (operator g ++ a)) = toLower lower s ++ (operator g ++ toLower lower a) := by
  have same : (operator g).map lowerByte = operator g := by
    rw [operator_eq]
    cases g <;> rfl
  rw [toLower_piece lower s a (by rw [operator_eq]; exact nofun) (operator_ascii g),same]

theorem toLower_swaps (swaps : Unescapes a b) (lower : Nat → Nat) :
    Unescapes (toLower lower a) (toLower lower b) := by
  induction swaps with
  | text s => exact .text _
  | more s g _ ih =>
    rw [toLower_residue,toLower_operator]
    exact .more _ g ih

-- Lower case makes both texts longer by as much.
theorem toLower_size (swaps : Unescapes a b) (lower : Nat → Nat) :
    (toLower lower a).length+b.length = (toLower lower b).length+a.length := by
  induction swaps with
  | text s => rfl
  | more s g _ ih =>
    rw [toLower_residue,toLower_operator]
    simp only [List.length_append]
    omega

end

theorem words_same {words : List Bytes} (zero : foreign words (byte '0') = true)
    (signs : ∀ g,foreign words (sign g) = true) (swaps : Unescapes a b)
    (listed : word ∈ words) : a = word ↔ b = word := by
  rcases swaps_foreign swaps with rfl | ⟨digit,g,op⟩
  · exact Iff.rfl
  · exact iff_of_false (foreign_ne zero digit listed) (foreign_ne (signs g) op listed)

theorem escaped_lawful (env : Env) : Lawful env escaped where
  nil := .text []
  start := .text []
  first := .text []
  ends := by
    intro a b swaps word listed
    exact words_same (by decide) (by decide) (toLower_swaps swaps env.lower) listed
  ascs := by
    intro a b swaps word listed
    exact words_same (by decide) (by decide) (toLower_swaps (toLower_swaps swaps env.lower) env.lower) listed
  comma := by
    intro a b swaps
    have same := swaps_last (toLower_swaps swaps env.lower) (f := fun c => c == byte ',') (by decide)
    have any (s : Bytes) : s.getLast? = some (byte ',') ↔ (s.getLast?.any fun c => c == byte ',') = true := by
      cases s.getLast? <;> simp
    rw [any,any,same]
  prev := by
    intro a b swaps word listed
    exact words_same (by decide) (by decide) swaps listed
  append := by
    intro a b text swaps
    exact swaps.append (.text text)
  inked := by
    intro a b swaps
    exact swaps_last swaps (by decide)

theorem escaped_pieces (r : Nat) (bs : Bytes) : Pieces escaped r r bs bs where
  runes := .inl rfl
  chars _ := rfl
  more swaps := swaps.append (.text bs)
  rest := .text _
  length := rfl

theorem space_quiet (space : isSpace r = true) : quiet r = true := by
  simp only [isSpace,Bool.or_eq_true,beq_iff_eq] at space
  rcases space with ((rfl | rfl) | rfl) | rfl <;> decide

theorem follows_quiet (follows : Follows p p') : p = p' ∨ (quiet p = true ∧ quiet p' = true) := by
  rcases follows with same | ⟨g,rfl,other⟩ | ⟨left,right⟩
  · exact .inl same
  · exact .inr ⟨by cases g <;> decide,other⟩
  · exact .inr ⟨space_quiet left,space_quiet right⟩

theorem follows_tests (follows : Follows p p') (r : Nat)
    (spaces : isSpace r = true → isSpace p = isSpace p') : Tests p p' r r where
  digit := rfl
  space := rfl
  quote := Iff.rfl
  same _ _ := Iff.rfl
  prSame c listed := by
    rcases follows_quiet follows with rfl | ⟨left,right⟩
    · exact Iff.rfl
    · have other {q : Nat} (quiet_ : quiet q = true) : q ≠ c := by
        rintro rfl
        simp [quiet,listed] at quiet_
      exact iff_of_false (other left) (other right)
  prSpace := spaces

theorem escaped_agrees (twin : Twin escaped v w) (r : Nat)
    (spaces : isSpace r = true → isSpace v.pr = isSpace w.pr) : Agrees v w r r where
  toTests := follows_tests twin.pr r spaces
  numeral _ := ⟨rfl,fun _ => rfl⟩
  closes _ _ := by
    have char : v.quoteChar = w.quoteChar := twin.char
    rw [char]
  hex _ _ := by
    rcases follows_quiet twin.pr with same | ⟨left,right⟩
    · rw [same]
    · simp only [quiet,Bool.and_eq_true,Bool.not_eq_true',decide_eq_false_iff_not] at left right
      exact iff_of_false left.2 right.2

theorem fit_fits (room : w.length ≤ n) : fit n w = w ++ List.replicate (n-w.length) 0 := by
  rw [fit,List.take_of_length_le room]

theorem fit_swaps (swaps : Unescapes a b) (lower : Nat → Nat)
    (fits : a = b ∨ (toLower lower a).length ≤ a.length) :
    Unescapes (fit a.length (toLower lower a)) (fit b.length (toLower lower b)) := by
  rcases fits with rfl | room
  · exact .text _
  · have size := toLower_size swaps lower
    rw [fit_fits room,fit_fits (by omega),show b.length-(toLower lower b).length =
      a.length-(toLower lower a).length by omega]
    exact (toLower_swaps swaps lower).append (.text _)

theorem afterCopy_escaped (env : Env) (twin : Twin escaped v w) (same : v.pend = w.pend) :
    Twin escaped (v.afterCopy env) (w.afterCopy env) := by
  have listed : wordIn env.lower v.prevWord listWords = true ↔
      wordIn env.lower w.prevWord listWords = true := by
    have swaps := toLower_swaps (twin.word : Unescapes v.prevWord w.prevWord) env.lower
    have each (word : Bytes) (mem : word ∈ listWords) : toLower env.lower v.prevWord = word ↔
        toLower env.lower w.prevWord = word :=
      words_same (by decide) (by decide) swaps mem
    simp only [wordIn,List.contains_iff_mem]
    constructor
    · intro mem
      rw [(each _ mem).mp rfl]
      exact mem
    · intro mem
      rw [(each _ mem).mpr rfl]
      exact mem
  unfold View.afterCopy
  refine twin_ite (and_congr listed (by rw [twin.sqlState])) (fun _ => ?list) fun _ =>
    twin_ite (by rw [twin.addSpace]) (fun _ => ?space) fun _ => twin
  case list =>
    exact twin.set (fun u =>
      {u with addSpace := false,s := .inValues,sqlState := .inValues}) fun _ _ _ _ _ _ => rfl
  case space =>
    have wrote := write_twin (escaped_lawful env) twin [byte ' ']
    have rest : Unescapes (v.pend.drop 1) (w.pend.drop 1) := by
      rw [same]
      exact .text _
    exact (wrote.setPend rest).set (fun u => {u with addSpace := false}) fun _ _ _ _ _ _ => rfl

theorem ready_split (ready : Ready u bs pre) : u.pend = [] ∨ ∃ x,u.pend = x ++ bs ∧
    ∀ back,u.plan = some back → Ends back x := by
  rcases ready.cut with none_ | here | both
  · exact .inl none_
  · exact .inr ⟨[],here,fun back _ => ends_nil back⟩
  · exact .inr ⟨pre,both⟩

theorem copySlice_escaped {v w : View} (env : Env) (twin : Twin escaped v w)
    (ready : Ready v bs pre) (ready' : Ready w bs pre')
    (fits : v.pend.take (v.due bs) = w.pend.take (w.due bs) ∨
      (toLower env.lower (v.pend.take (v.due bs))).length ≤ (v.pend.take (v.due bs)).length) :
    Twin escaped (v.copySlice env bs) (w.copySlice env bs) := by
  have swaps : Unescapes v.pend w.pend := twin.pend
  have idle {u : View} (none_ : u.pend = []) : u.due bs = 0 := by
    unfold View.due
    rw [none_]
    split <;> simp
  rcases ready_split ready with none_ | ⟨x,pend,plan⟩
  · have none' := (swaps_nil swaps).mp none_
    rw [copySlice_idle env (idle none_),copySlice_idle env (idle none')]
    exact twin
  rcases ready_split ready' with none' | ⟨y,pend',plan'⟩
  · have none_ := (swaps_nil swaps).mpr none'
    rw [copySlice_idle env (idle none_),copySlice_idle env (idle none')]
    exact twin
  cases planned : v.plan with
  | none =>
    have idle {u : View} (none_ : u.plan = none) : u.due bs = 0 := by
      unfold View.due
      rw [none_]
    rw [copySlice_idle env (idle planned),copySlice_idle env (idle (twin.plan.trans planned))]
    exact twin
  | some back =>
    have planned' : w.plan = some back := twin.plan.trans planned
    have before : Unescapes x y := by
      rw [pend,pend'] at swaps
      exact swaps_cancel bs swaps
    obtain ⟨front,tail⟩ := swaps_back before (plan back planned)
    have due := due_split planned pend
    have due' := due_split planned' pend'
    have slice : v.pend.take (v.due bs) = x.take (x.length-back) := by
      rw [due,pend,List.take_append_of_le_length (by omega)]
    have slice' : w.pend.take (w.due bs) = y.take (y.length-back) := by
      rw [due',pend',List.take_append_of_le_length (by omega)]
    have rest : v.pend.drop (v.due bs) = w.pend.drop (w.due bs) := by
      rw [due,due',pend,pend',List.drop_append_of_le_length (by omega),
        List.drop_append_of_le_length (by omega),tail]
    rw [slice,slice'] at fits
    have length : v.due bs = (x.take (x.length-back)).length := by
      rw [due,List.length_take]
      omega
    have length' : w.due bs = (y.take (y.length-back)).length := by
      rw [due',List.length_take]
      omega
    have both : 0 < v.due bs ↔ 0 < w.due bs := by
      rw [length,length',List.length_pos_iff,List.length_pos_iff]
      exact not_congr (swaps_nil front)
    unfold View.copySlice
    dsimp only
    refine twin_ite both (fun _ => ?_) fun _ => twin
    rw [slice,slice']
    apply afterCopy_escaped
    · refine ((twin.setWord (toLower_swaps front env.lower)).setOut ?_).setPend ?_
      · rw [length,length']
        exact (twin.out : Unescapes v.out w.out).append (fit_swaps front env.lower fits)
      · rw [rest]
        exact .text _
    · exact rest

structure Good (v : View) : Prop where
  regular : Regular v
  signed : Signed v

theorem step_good (good : Good v) (piece : Piece r bs) (step : View.step env v r bs = .ok w) : Good w :=
  ⟨step_regular good.regular step,step_signed good.regular good.signed piece step⟩

-- At "ASC," in ORDER BY no operator was written last; copied text with a residue does not grow in lower case.
def copiesAlike (env : Env) (v w : View) (r : Nat) (bs : Bytes) : Bool :=
  (!isSpace r || v.sqlState ≠ .orderBy || !ascComma env v.pend ||
    (w.out.getLast?.all fun b => b ≠ sign true && b ≠ sign false)) &&
  (v.copied env r bs = w.copied env r bs || (toLower env.lower (v.copied env r bs)).length ≤
    (v.copied env r bs).length)

theorem back_swaps (swaps : Unescapes a b)
    (other : (b.getLast?.all fun c => c ≠ sign true && c ≠ sign false) = true) :
    Unescapes a.dropLast b.dropLast := by
  rcases swaps_ends swaps with ⟨rfl,rfl⟩ | ⟨x,y,c,rfl,rfl,rest⟩ | ⟨g,x,y,rfl,rfl⟩
  · exact .text []
  · rw [List.dropLast_concat,List.dropLast_concat]
    exact rest
  · rw [List.getLast?_concat] at other
    cases g <;> simp at other

theorem step_escaped (good : Good v) (good' : Good w) (twin : Twin escaped v w) (piece : Piece r bs)
    (spaces : isSpace r = true → isSpace v.pr = isSpace w.pr) (safe : copiesAlike env v w r bs = true) :
    Paired escaped (View.step env v r bs) (View.step env w r bs) := by
  simp only [copiesAlike,Bool.and_eq_true,Bool.or_eq_true,Bool.not_eq_true',decide_eq_true_eq] at safe
  obtain ⟨back,fits⟩ := safe
  apply step_paired (escaped_lawful env) twin (escaped_pieces r bs) (escaped_agrees twin r spaces)
  · intro _
    refine ⟨fun space order listed => ?_,fun _ _ => twin.pend⟩
    apply back_swaps twin.out
    rcases back with ((no | other) | unlisted) | last
    · rw [space] at no
      cases no
    · exact absurd order other
    · rw [listed] at unlisted
      cases unlisted
    · simpa using last
  · rintro a b twin ⟨c,through,changed⟩ ⟨d,through',changed'⟩
    obtain ⟨_,_,_,ready⟩ := through_cut good.regular good.signed piece through changed
    obtain ⟨_,_,_,ready'⟩ := through_cut good'.regular good'.signed piece through' changed'
    apply copySlice_escaped env twin ready ready'
    rwa [View.copied_eq through changed,View.copied_eq through' changed'] at fits

-- What an iteration returns, without the view in which it stops.
def outcome (turn : Except Stop View) : Except Exit View := turn.mapError Stop.exit

theorem outcome_paired (paired : Paired T one two) (same : outcome two = outcome three) :
    Paired T one three := by
  cases paired with
  | ok twin =>
    cases three with
    | ok u =>
      cases same
      exact .ok twin
    | error stop => cases same
  | error exit =>
    cases three with
    | ok u => cases same
    | error stop =>
      obtain ⟨u,exit⟩ := stop
      cases same
      exact .error exit
  | call texts =>
    cases three with
    | ok u => cases same
    | error stop =>
      obtain ⟨u,exit⟩ := stop
      cases same
      exact .call texts

theorem outcome_ite {c d : Prop} [Decidable c] [Decidable d] {x x' y y' : Except Stop View}
    (same : c ↔ d) (yes : c → outcome x = outcome x')
    (no : ¬ c → outcome y = outcome y') : outcome (if c then x else y) = outcome (if d then x' else y') :=
  rel_ite (R := fun x y => outcome x = outcome y) same yes no

theorem outcome_then {f : View → View} {one two : Except Stop View} (same : outcome one = outcome two) :
    outcome (one >>= fun u => .ok (f u)) = outcome (two >>= fun u => .ok (f u)) := by
  cases one with
  | ok u =>
    cases two with
    | ok t =>
      cases same
      rfl
    | error stop => cases same
  | error stop =>
    cases two with
    | ok t => cases same
    | error other =>
      obtain ⟨_,exit⟩ := stop
      obtain ⟨_,exit'⟩ := other
      cases same
      rfl

theorem outcome_branch {c : Prop} [Decidable c] {f : View → Except Stop View}
    {x x' y y' : Except Stop View} (yes : c → outcome (x >>= f) = outcome (x' >>= f))
    (no : ¬ c → outcome (y >>= f) = outcome (y' >>= f)) :
    outcome ((if c then x else y) >>= f) = outcome ((if c then x' else y') >>= f) := by
  by_cases h : c
  · rw [if_pos h,if_pos h]
    exact yes h
  · rw [if_neg h,if_neg h]
    exact no h

-- The end of a word does not ask for the state.
theorem endWord_outcome (env : Env) (v : View) (s : State) (bs : Bytes) :
    outcome (v.endWord env bs) = outcome (View.endWord env {v with s := s} bs) := by
  refine outcome_branch (fun _ => rfl) fun _ => outcome_branch (fun _ => ?null) fun _ =>
    outcome_branch (fun _ => rfl) fun _ =>
    outcome_branch (fun _ => outcome_branch (fun _ => rfl) fun _ => rfl) fun _ =>
      outcome_branch (fun _ => rfl) fun _ => rfl
  case null =>
    rw [View.nullValue_eq,View.nullValue_eq]
    rfl

-- Behind an operator and in a word the same happens, but for a digit, a point and an opening parenthesis.
theorem operator_changes (env : Env) {v : View} (state : v.s = .inOp) (slash : v.pr ≠ rune '\\')
    (digit : isDigit r = false) (dot : r ≠ rune '.')
    (par : r = rune '(' → v.prevWord = str "call") :
    outcome (v.changeState env r bs) = outcome (View.changeState env {v with s := .inWord} r bs) := by
  unfold View.changeState
  have other : ¬ isDigit r = true := by rw [digit]; exact Bool.false_ne_true
  rw [if_neg other,if_neg other]
  refine outcome_ite Iff.rfl (fun _ => ?space) fun _ =>
    outcome_ite Iff.rfl (fun _ => ?quote) fun _ => outcome_ite Iff.rfl (fun _ => ?tick) fun _ =>
    outcome_ite Iff.rfl (fun _ => ?operator) fun _ => outcome_ite Iff.rfl (fun _ => rfl) fun _ =>
    outcome_ite (and_congr Iff.rfl (by rw [state]; simp)) (fun _ => rfl) fun _ =>
      outcome_ite Iff.rfl (fun _ => rfl) fun _ =>
    outcome_ite Iff.rfl (fun _ => rfl) fun _ => ?rest
  case space =>
    have left : v.onSpace env bs = v.endWord env bs := by rw [View.onSpace,state]
    rw [left]
    exact endWord_outcome env v .inWord bs
  case quote =>
    have opens : v.pr ≠ rune '\\' ∧ v.s ≠ .inQuote := ⟨slash,by rw [state]; decide⟩
    have opens' : ({v with s := .inWord} : View).pr ≠ rune '\\' ∧
        ({v with s := .inWord} : View).s ≠ .inQuote :=
      ⟨slash,by simp⟩
    unfold View.onQuote
    rw [if_pos opens,if_pos opens']
    by_cases hex : v.pr = rune 'x' ∨ v.pr = rune 'b'
    · rw [if_pos hex,if_pos (by exact hex)]
    · rw [if_neg hex,if_neg (by exact hex)]
      rfl
  case tick =>
    unfold View.onBacktick
    have opens : v.pr ≠ rune '\\' ∧ v.s ≠ .inBackticks := ⟨slash,by rw [state]; decide⟩
    have opens' : ({v with s := .inWord} : View).pr ≠ rune '\\' ∧
        ({v with s := .inWord} : View).s ≠ .inBackticks :=
      ⟨slash,by simp⟩
    rw [if_pos opens,if_pos opens']
  case operator =>
    unfold View.onOperator
    rw [if_neg (by rw [state]; simp),if_neg (by simp)]
  case rest =>
    rw [if_neg dot,if_neg dot]
    refine outcome_ite Iff.rfl (fun opens => ?call) fun _ => ?last
    case call =>
      rw [View.onOpenPar,if_pos (par opens),View.onOpenPar,if_pos (by exact par opens)]
      rfl
    refine outcome_ite (and_congr Iff.rfl (by rw [state]; simp)) (fun both => ?_) fun _ =>
      outcome_ite Iff.rfl (fun _ => rfl) fun _ =>
      outcome_ite Iff.rfl (fun _ => rfl) fun _ => ?_
    · rw [state] at both
      cases both.2
    · unfold View.onOther
      rw [if_neg (by rw [state]; simp),if_neg (by simp)]

theorem operator_step (env : Env) {v : View} (bs : Bytes) (state : v.s = .inOp)
    (ink : isSpace v.pr = false) (slash : v.pr ≠ rune '\\')
    (digit : isDigit r = false) (dot : r ≠ rune '.') (par : r = rune '(' → v.prevWord = str "call") :
    outcome (View.step env v r bs) = outcome (View.step env {v with s := .inWord} r bs) := by
  have step (u : View) (calm : skips u.s = false) (ink : isSpace u.pr = false) :
      View.step env u r bs = (u.read bs).changeState env r bs >>= fun t => .ok (t.finish env r bs) := by
    have part := view_skipPart_other (u.read bs) r bs calm
    rw [show isSpace (u.read bs).pr = false from ink,Bool.and_false,if_neg Bool.false_ne_true] at part
    exact step_enters part
  rw [step v (by rw [state]; rfl) ink,step {v with s := .inWord} rfl ink]
  exact outcome_then (operator_changes env (v := v.read bs) state slash digit dot par)

end SqlReview.FingerprintEscape
