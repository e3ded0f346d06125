import SqlReview.FingerprintTwin
import SqlReview.GoSpace

-- A query and the text that ExcuteUnique passes to Fingerprint for it.
namespace SqlReview.FingerprintQuotes
open GoBytes Fingerprint FingerprintView FingerprintLiteral FingerprintPending FingerprintRegular
  FingerprintNumber FingerprintTwin

def sqlStr (info : Bytes) : Bytes :=
  GoSpace.replaceAll (GoSpace.replaceAll info (str "'") (str "\"")) (str "\"") (str "\"")

def double (b : UInt8) : UInt8 := if b = byte '\'' then byte '"' else b

def doubleRune (r : Nat) : Nat := if r = rune '\'' then rune '"' else r

theorem sqlStr_eq (info : Bytes) : sqlStr info = info.map double := by
  change GoSpace.replaceAll (GoSpace.replaceAll info [byte '\''] [byte '"']) [byte '"'] [byte '"'] = _
  rw [GoSpace.replaceAll_byte,GoSpace.replaceAll_byte]
  have same (s : Bytes) : s.map (fun b => if b = byte '"' then byte '"' else b) = s := by
    conv => rhs; rw [← List.map_id s]
    apply List.map_congr_left
    intro b _
    split
    · rename_i quote
      exact quote.symm
    · rfl
  rw [same]
  rfl

theorem double_self {s : Bytes} (absent : byte '\'' ∉ s) : s.map double = s := by
  conv => rhs; rw [← List.map_id s]
  apply List.map_congr_left
  intro b mem
  apply if_neg
  intro quote
  rw [quote] at mem
  exact absent mem

theorem double_split (f r : Bytes) :
    (f ++ byte '\'' :: r).map double = f.map double ++ byte '"' :: r.map double := by
  rw [List.map_append,List.map_cons]
  rfl

theorem runes_self (absent : byte '\'' ∉ s) :
    (runes s).map (fun piece => (doubleRune piece.1,piece.2.map double)) = runes s := by
  conv => rhs; rw [← List.map_id (runes s)]
  apply List.map_congr_left
  intro piece mem
  have bytes : ∀ b ∈ piece.2,b ∈ s := by
    intro b own
    rw [← runes_join s]
    exact List.mem_flatMap.mpr ⟨piece,mem,own⟩
  have other : piece.1 ≠ rune '\'' := by
    intro quote
    have one := (runes_piece s piece mem).2 (by rw [quote]; decide)
    rw [quote] at one
    exact absent (bytes (byte '\'') (by rw [one]; exact List.mem_singleton.mpr rfl))
  have rest : piece.2.map double = piece.2 := double_self fun own => absent (bytes _ own)
  rw [rest,doubleRune,if_neg other]
  rfl

theorem runes_double (s : Bytes) : runes (s.map double) = (runes s).map fun piece =>
    (doubleRune piece.1,piece.2.map double) := by
  by_cases quote : byte '\'' ∈ s
  · obtain ⟨f,r,split⟩ := List.append_of_mem quote
    have shorter : f.length < s.length ∧ r.length < s.length := by
      rw [split,List.length_append,List.length_cons]
      omega
    have front := runes_double f
    have back := runes_double r
    rw [split,double_split,runes_append_ascii _ _ (by decide),runes_append_ascii _ _ (by decide),
      List.map_append,List.map_cons,front,back]
    rfl
  · rw [double_self quote,runes_self quote]
termination_by s.length
decreasing_by
  · exact shorter.1
  · exact shorter.2

theorem last_quote (mem : byte '\'' ∈ s) : ∃ f r,s = f ++ byte '\'' :: r ∧ byte '\'' ∉ r := by
  induction s with
  | nil => exact absurd mem List.not_mem_nil
  | cons c s ih =>
    by_cases later : byte '\'' ∈ s
    · obtain ⟨f,r,split,none⟩ := ih later
      exact ⟨c :: f,r,by rw [split,List.cons_append],none⟩
    · have first := (List.mem_cons.mp mem).resolve_right later
      exact ⟨[],s,by rw [first,List.nil_append],later⟩

def doubled : Texts :=
  plain (fun a b => b = a.map double) (fun r r' => r' = doubleRune r) fun r r' => r' = doubleRune r

theorem doubled_level : Level fun a b => b = a.map double where
  length := by
    intro a b same
    rw [same,List.length_map]
  drop := by
    intro a b n same
    rw [same,List.map_drop]

theorem doubled_ends (own : foreign words (byte '\'') = true)
    (own' : foreign words (byte '"') = true) (lower : Nat → Nat) (a : Bytes) (word : Bytes)
    (listed : word ∈ words) : toLower lower a = word ↔ toLower lower (a.map double) = word := by
  by_cases quote : byte '\'' ∈ a
  · obtain ⟨f,r,split,_⟩ := last_quote quote
    have quote' : byte '"' ∈ a.map double := by
      rw [split,double_split]
      exact List.mem_append_right _ List.mem_cons_self
    exact iff_of_false (foreign_ne own (foreign_lower own quote lower) listed)
      (foreign_ne own' (foreign_lower own' quote' lower) listed)
  · rw [double_self quote]

theorem doubled_ascs (own : foreign words (byte '\'') = true)
    (own' : foreign words (byte '"') = true) (lower : Nat → Nat) (a : Bytes) (word : Bytes)
    (listed : word ∈ words) : toLower lower (toLower lower a) = word ↔
    toLower lower (toLower lower (a.map double)) = word := by
  by_cases quote : byte '\'' ∈ a
  · obtain ⟨f,r,split,_⟩ := last_quote quote
    have quote' : byte '"' ∈ a.map double := by
      rw [split,double_split]
      exact List.mem_append_right _ List.mem_cons_self
    exact iff_of_false (foreign_ne own (foreign_lower own (foreign_lower own quote lower) lower) listed)
      (foreign_ne own' (foreign_lower own' (foreign_lower own' quote' lower) lower) listed)
  · rw [double_self quote]

theorem doubled_comma (lower : Nat → Nat) (a : Bytes) :
    (toLower lower a).getLast? = some (byte ',') ↔
      (toLower lower (a.map double)).getLast? = some (byte ',') := by
  by_cases quote : byte '\'' ∈ a
  · obtain ⟨f,r,split,none⟩ := last_quote quote
    rw [split,double_split,double_self none,toLower_append _ _ _ (by decide),toLower_append _ _ _ (by decide)]
    simp only [List.getLast?_append,List.getLast?_cons]
    cases (toLower lower r).getLast? with
    | none =>
      rw [Option.some_or,Option.some_or]
      exact iff_of_false (by decide) (by decide)
    | some b => exact Iff.rfl
  · rw [double_self quote]

theorem doubled_lawful (env : Env) : Lawful env doubled := by
  apply plain_lawful (P := fun a b => b = a.map double) rfl
  · rintro a b rfl
    exact doubled_ends (by decide) (by decide) env.lower a
  · rintro a b rfl
    exact doubled_ascs (by decide) (by decide) env.lower a
  · rintro a b rfl
    exact doubled_comma env.lower a

theorem doubleRune_test {f : Nat → Prop} (single : ¬ f (rune '\'')) (two : ¬ f (rune '"')) :
    f r ↔ f (doubleRune r) := by
  unfold doubleRune
  by_cases quote : r = rune '\''
  · rw [if_pos quote,quote]
    exact iff_of_false single two
  · rw [if_neg quote]

theorem doubleRune_flag {f : Nat → Bool} (same : f (rune '\'') = f (rune '"')) : f r = f (doubleRune r) := by
  unfold doubleRune
  by_cases quote : r = rune '\''
  · rw [if_pos quote,quote,same]
  · rw [if_neg quote]

theorem doubleRune_quoting (r : Nat) : quoting r ↔ quoting (doubleRune r) := by
  have same := @doubleRune_flag r (fun r => decide (quoting r)) (by decide)
  exact decide_eq_decide.mp same

theorem doubled_tests (p r : Nat) : Tests p (doubleRune p) r (doubleRune r) where
  digit := doubleRune_flag (by decide)
  space := doubleRune_flag (by decide)
  quote := doubleRune_quoting r
  same c listed := doubleRune_test (f := fun r => r = c)
    (by rintro rfl; exact absurd listed (by decide)) (by rintro rfl; exact absurd listed (by decide))
  prSame c listed := doubleRune_test (f := fun r => r = c)
    (by rintro rfl; exact absurd listed (by decide)) (by rintro rfl; exact absurd listed (by decide))
  prSpace _ := doubleRune_flag (by decide)

def Requoted (p q : Nat × Bytes) : Prop := q = (doubleRune p.1,p.2.map double)

theorem requoted_pieces (r : Nat) (bs : Bytes) : Pieces doubled r (doubleRune r) bs (bs.map double) where
  runes := rfl
  chars _ := rfl
  more := by
    rintro a b rfl
    exact List.map_append.symm
  rest := List.map_drop.symm
  length := (List.length_map _).symm

-- Inside a literal no quote but its own closes it; no copied text and no name behind CALL holds a
-- single quote.
def quoteSafe (env : Env) (v _w : View) (p _q : Nat × Bytes) : Bool :=
  (v.s ≠ .inQuote || v.escape || !decide (quoting p.1) || p.1 = v.quoteChar) &&
  (!passes v.s || p.1 ≠ rune '(' || v.prevWord ≠ str "call" || !v.pend.contains (byte '\'')) &&
  !(v.copied env p.1 p.2).contains (byte '\'')

theorem doubleRune_inj (same : doubleRune r = doubleRune c) (own : quoting r → r = c) : r = c := by
  by_cases quote : quoting r
  · exact own quote
  · have other : doubleRune r = r := if_neg fun single => quote (.inl single)
    by_cases single : c = rune '\''
    · rw [other,doubleRune,if_pos single] at same
      exact absurd (.inr same) quote
    · rwa [other,doubleRune,if_neg single] at same

theorem step_doubled (twin : Twin doubled v w) (requoted : Requoted p q)
    (safe : quoteSafe env v w p q = true) :
    Paired doubled (View.step env v p.1 p.2) (View.step env w q.1 q.2) := by
  simp only [quoteSafe,Bool.and_eq_true,Bool.or_eq_true,Bool.not_eq_true',decide_eq_true_eq,
    decide_eq_false_iff_not] at safe
  obtain ⟨⟨closes,call⟩,copy⟩ := safe
  have pr : w.pr = doubleRune v.pr := twin.pr
  have char : w.quoteChar = doubleRune v.quoteChar := twin.char
  have pend : w.pend = v.pend.map double := twin.pend
  rw [requoted]
  have agrees : Agrees v w p.1 (doubleRune p.1) := by
    refine ⟨by rw [pr]; exact doubled_tests _ _,
      fun _ => ⟨doubleRune_flag (by decide),fun _ => doubleRune_flag (by decide)⟩,fun state escape => ?_,
      fun _ _ => ?_⟩
    · rw [char]
      constructor
      · exact congrArg doubleRune
      · intro same
        apply doubleRune_inj same
        intro quote
        rcases closes with ((other | escaped) | other) | own
        · exact absurd state other
        · rw [escape] at escaped
          exact absurd escaped Bool.false_ne_true
        · exact absurd quote other
        · exact own
    · rw [pr]
      exact doubleRune_test (f := hexPrefix) (by decide) (by decide)
  have pieces := requoted_pieces p.1 p.2
  apply step_paired (doubled_lawful env) twin pieces agrees
  · intro reaches
    have out : v.out = w.out := twin.out
    refine ⟨fun _ _ _ => congrArg List.dropLast out,fun par named => ?_⟩
    rcases call with ((closed | other) | other) | free
    · rw [reaches] at closed
      exact Bool.noConfusion closed
    · exact absurd par other
    · exact absurd named other
    · have absent : byte '\'' ∉ v.pend := by simpa using free
      change v.pend = w.pend
      rw [pend,double_self absent]
  · intro a b twin reaches _
    have pend : b.pend = a.pend.map double := twin.pend
    apply copySlice_plain doubled_level env twin pieces.length
    intro _
    obtain ⟨_,through,changed⟩ := reaches
    rw [View.copied_eq through changed] at copy
    have absent : byte '\'' ∉ a.pend.take (a.due p.2) := by simpa using copy
    rw [pend,← List.map_take,double_self absent]

def quotesKept (env : Env) (q : Bytes) : Bool :=
  lockstep env (quoteSafe env) (runes (q ++ [byte ' '])) (runes (sqlStr q ++ [byte ' '])) .start .start

theorem quotes_normalised {env : Env} {q : Bytes} (kept : quotesKept env q = true)
    (command : run env q ≠ .error .adminCommand)
    (left : Completes (run env q)) (right : Completes (run env (sqlStr q))) :
    fingerprint env (sqlStr q) = fingerprint env q := by
  have spaced : sqlStr q ++ [byte ' '] = (q ++ [byte ' ']).map double := by
    rw [sqlStr_eq,List.map_append]
    rfl
  have pairs : List.Forall₂ Requoted (runes (q ++ [byte ' '])) (runes (sqlStr q ++ [byte ' '])) := by
    rw [spaced,runes_double,List.forall₂_map_right_iff]
    exact List.forall₂_same.mpr fun _ _ => rfl
  have start : Twin doubled .start .start := ⟨rfl,rfl,rfl,rfl,rfl,rfl⟩
  have paired := run_paired (fun _ _ _ _ => step_doubled) pairs start kept
  exact (paired.same.fingerprint command left right).symm

theorem quoted_values_normalised :
    quotesKept asciiEnv (str "select a from t where b='x' and c in('y',\"z\")") = true ∧
    fingerprint asciiEnv (sqlStr (str "select a from t where b='x' and c in('y',\"z\")")) =
      fingerprint asciiEnv (str "select a from t where b='x' and c in('y',\"z\")") := by
  have kept : quotesKept asciiEnv (str "select a from t where b='x' and c in('y',\"z\")") = true := by
    decide +kernel
  exact ⟨kept,quotes_normalised kept (by decide +kernel) (by decide +kernel) (by decide +kernel)⟩

theorem quote_in_literal_exposed :
    fingerprint asciiEnv (str "select 'a\"b' from t where c='d'") = some (str "select ? from t where c=?") ∧
    fingerprint asciiEnv (sqlStr (str "select 'a\"b' from t where c='d'")) = some (str "select ??d") ∧
    fingerprint asciiEnv (str "select \x60a'b\x60 from t") = some (str "select \x60a'b\x60 from t") ∧
    fingerprint asciiEnv (sqlStr (str "select \x60a'b\x60 from t")) =
      some (str "select \x60a\"b\x60 from t") := by
  decide +kernel

end SqlReview.FingerprintQuotes
