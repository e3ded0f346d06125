import SqlReview.GoText

-- The values of an INSERT as MySQL reads them with its default sql_mode.
namespace SqlReview.SqlLiteral
open GoText

-- What a backslash and the character behind it stand for.
def escaped (c : Char) : Text :=
  if c = '0' then [Char.ofNat 0]
  else if c = 'b' then [Char.ofNat 8]
  else if c = 'n' then ['\n']
  else if c = 'r' then ['\r']
  else if c = 't' then ['\t']
  else if c = 'Z' then [Char.ofNat 26]
  else if c = '%' ∨ c = '_' then ['\\',c]
  else [c]

-- A literal behind its opening quote: its string and what follows the closing quote.
def readLiteral : Text → Option (Text × Text)
  | [] => none
  | c :: rest =>
    if c = '\'' then
      match rest with
      | '\'' :: s => (readLiteral s).map fun out => ('\'' :: out.1,out.2)
      | _ => some ([],rest)
    else if c = '\\' then
      match rest with
      | [] => none
      | d :: s => (readLiteral s).map fun out => (escaped d ++ out.1,out.2)
    else (readLiteral rest).map fun out => (c :: out.1,out.2)

inductive Token where
  | literal (s : Text)
  | bare (s : Text)
  deriving DecidableEq

def separator (c : Char) : Bool := c == ',' || c == ')'

def readToken (s : Text) : Option (Token × Text) :=
  match s with
  | '\'' :: rest => (readLiteral rest).map fun out => (.literal out.1,out.2)
  | _ => some (.bare (s.takeWhile fun c => !separator c),s.dropWhile fun c => !separator c)

-- Exactly n values, the closing parenthesis and the end of the statement.
def readRow : Nat → Text → Option (List Token)
  | 0,_ => none
  | n+1,s =>
    match readToken s with
    | none => none
    | some (token,rest) =>
      if n = 0 then if rest = [')'] then some [token] else none
      else match rest with
        | ',' :: more => (readRow n more).map (token :: ·)
        | _ => none

-- A number with blanks around it.
def blank (c : Char) : Bool := c == ' ' || c == '\t' || c == '\n' || c == '\r'

def trimmed (s : Text) : Text := ((s.dropWhile blank).reverse.dropWhile blank).reverse

def unsigned (s : Text) : Text :=
  match s with
  | '+' :: rest | '-' :: rest => rest
  | _ => s

def exponent (s : Text) : Bool :=
  match s with
  | [] => true
  | c :: rest => (c == 'e' || c == 'E') && unsigned rest != [] && (unsigned rest).all Char.isDigit

def fraction (whole : Text) (s : Text) : Bool :=
  match s with
  | '.' :: rest =>
    (whole != [] || rest.takeWhile Char.isDigit != []) && exponent (rest.dropWhile Char.isDigit)
  | _ => whole != [] && exponent s

def numeric (s : Text) : Bool :=
  let body := unsigned (trimmed s)
  fraction (body.takeWhile Char.isDigit) (body.dropWhile Char.isDigit)

example : numeric (text " -10.50e3 ") = true ∧ numeric [] = false ∧
    numeric (text "1,2") = false := by
  decide +kernel

theorem readLiteral_plain (c : Char) (s : Text) (quote : c ≠ '\'') (slash : c ≠ '\\') :
    readLiteral (c :: s) = (readLiteral s).map fun out => (c :: out.1,out.2) := by
  rw [readLiteral.eq_def]
  simp [quote,slash]

theorem readLiteral_escape (d : Char) (s : Text) :
    readLiteral ('\\' :: d :: s) = (readLiteral s).map fun out => (escaped d ++ out.1,out.2) := by
  rw [readLiteral.eq_def]
  simp

theorem readLiteral_double (s : Text) :
    readLiteral ('\'' :: '\'' :: s) = (readLiteral s).map fun out => ('\'' :: out.1,out.2) := by
  rw [readLiteral.eq_def]
  simp

theorem readLiteral_close (c : Char) (s : Text) (other : c ≠ '\'') :
    readLiteral ('\'' :: c :: s) = some ([],c :: s) := by
  rw [readLiteral.eq_def]
  simp [other]

theorem readLiteral_end : readLiteral ['\''] = some ([],[]) := by
  rw [readLiteral.eq_def]
  simp

theorem readLiteral_slash : readLiteral ['\\'] = none := by
  rw [readLiteral.eq_def]
  simp

-- Induction over a text in the units of a literal.
theorem unit_induction {motive : Text → Prop} (s : Text) (nil : motive [])
    (quote : ∀ s,motive s → motive s.tail → motive ('\'' :: s)) (slash : motive ['\\'])
    (pair : ∀ d s,motive s → motive ('\\' :: d :: s))
    (char : ∀ c s,c ≠ '\'' → c ≠ '\\' → motive s → motive (c :: s)) : motive s := by
  induction size : s.length using Nat.strongRecOn generalizing s with
  | ind n ih =>
    subst size
    cases s with
    | nil => exact nil
    | cons c s =>
      have later := ih s.length (by simp) s rfl
      by_cases isQuote : c = '\''
      · subst isQuote
        apply quote s later
        exact ih s.tail.length (by simp) s.tail rfl
      · by_cases back : c = '\\'
        · subst back
          cases s with
          | nil => exact slash
          | cons d s => exact pair d s (ih s.length (by simp) s rfl)
        · exact char c s isQuote back later

def plain (c : Char) : Bool := c != '\'' && c != '\\'

-- The characters of a text that no quoting adds or removes.
def weight (s : Text) : Nat := s.countP plain

theorem weight_append (s t : Text) : weight (s ++ t) = weight s + weight t := List.countP_append

theorem weight_cons (c : Char) (s : Text) : weight (c :: s) = (if plain c then 1 else 0) + weight s := by
  rw [weight,List.countP_cons,Nat.add_comm]
  rfl

theorem escaped_weight (c : Char) : weight (escaped c) = if plain c then 1 else 0 := by
  unfold escaped
  split_ifs <;> simp_all [weight,plain]

theorem escaped_length (c : Char) : (escaped c).length ≤ 2 := by
  unfold escaped
  split_ifs <;> simp

-- What is read is a front of the text; quoting aside nothing is lost.
theorem readLiteral_front (s : Text) (read : readLiteral s = some (t,rest)) :
    rest <:+ s ∧ weight s = weight t + weight rest ∧ t.length + rest.length < s.length := by
  induction s using unit_induction generalizing t with
  | nil => cases read
  | quote s _ ih =>
    cases s with
    | nil =>
      rw [readLiteral_end] at read
      cases read
      simp [weight,plain]
    | cons c s =>
      by_cases twice : c = '\''
      · subst twice
        rw [readLiteral_double] at read
        obtain ⟨out,found,same⟩ := Option.map_eq_some_iff.mp read
        cases same
        obtain ⟨front,weights,lengths⟩ := ih found
        refine ⟨front.trans ((List.suffix_cons _ _).trans (List.suffix_cons _ _)),?_,?_⟩
        · rw [List.tail_cons] at weights
          rw [weight_cons,weight_cons,weight_cons,weights]
          simp [plain]
        · simp only [List.length_cons,List.tail_cons] at lengths ⊢
          omega
      · rw [readLiteral_close c s twice] at read
        cases read
        refine ⟨List.suffix_cons _ _,?_,by simp⟩
        simp [weight,plain]
  | slash =>
    rw [readLiteral_slash] at read
    cases read
  | pair d s ih =>
    rw [readLiteral_escape] at read
    obtain ⟨out,found,same⟩ := Option.map_eq_some_iff.mp read
    cases same
    obtain ⟨front,weights,lengths⟩ := ih found
    have short := escaped_length d
    refine ⟨front.trans ((List.suffix_cons _ _).trans (List.suffix_cons _ _)),?_,?_⟩
    · rw [weight_cons,weight_cons,weight_append,escaped_weight]
      simp [plain,weights]
      omega
    · simp only [List.length_cons,List.length_append]
      omega
  | char c s quote slash ih =>
    rw [readLiteral_plain c s quote slash] at read
    obtain ⟨out,found,same⟩ := Option.map_eq_some_iff.mp read
    cases same
    obtain ⟨front,weights,lengths⟩ := ih found
    refine ⟨front.trans (List.suffix_cons _ _),?_,?_⟩
    · rw [weight_cons,weight_cons,weights,Nat.add_assoc]
    · simp only [List.length_cons]
      omega

def wild (c : Char) : Bool := c == '%' || c == '_'

-- No backslash except before % or _, where it stands for itself.
def tame : Text → Bool
  | [] => true
  | c :: rest => (c != '\\' || rest.head?.any wild) && tame rest

def kept (s : Text) : Bool := tame s && !s.contains '\''

theorem tame_slash (d : Char) (s : Text) : tame ('\\' :: d :: s) = (wild d && tame s) := by
  by_cases wilds : wild d = true
  · have other : d ≠ '\\' := by
      rintro rfl
      cases wilds
    simp [tame,wilds,other]
  · simp [tame,wilds]

theorem tame_char (c : Char) (s : Text) (slash : c ≠ '\\') : tame (c :: s) = tame s := by
  simp [tame,slash]

theorem escaped_wild (wilds : wild d = true) : escaped d = ['\\',d] := by
  simp only [wild,Bool.or_eq_true,beq_iff_eq] at wilds
  rcases wilds with rfl | rfl <;> rfl

theorem escaped_single (other : wild d = false) : ∃ e,escaped d = [e] := by
  have neither : ¬ (d = '%' ∨ d = '_') := by simpa [wild] using other
  unfold escaped
  rw [if_neg neither]
  split_ifs <;> exact ⟨_,rfl⟩

-- strings.Replace(s, "'", "\\'", -1)
def quoted (s : Text) : Text := s.flatMap fun c => if c = '\'' then ['\\','\''] else [c]

theorem quoted_nil : quoted [] = [] := rfl

theorem quoted_quote (s : Text) : quoted ('\'' :: s) = '\\' :: '\'' :: quoted s := rfl

theorem quoted_char (c : Char) (s : Text) (other : c ≠ '\'') : quoted (c :: s) = c :: quoted s := by
  simp [quoted,other]

theorem quoted_replace (s : Text) : replaceAll s ['\''] ['\\','\''] = quoted s := by
  unfold replaceAll
  induction s with
  | nil => rfl
  | cons c s ih =>
    by_cases quote : c = '\''
    · subst quote
      simpa [replaceFrom,quoted_quote] using ih
    · simpa [replaceFrom,quoted_char c s quote,Ne.symm quote] using ih

section
variable {sep : Char} (stops : separator sep = true) (rest : Text)
include stops

theorem separator_plain : sep ≠ '\'' ∧ sep ≠ '\\' := by
  simp only [separator,Bool.or_eq_true,beq_iff_eq] at stops
  rcases stops with rfl | rfl <;> decide

theorem readLiteral_done : readLiteral ('\'' :: sep :: rest) = some ([],sep :: rest) :=
  readLiteral_close sep rest (separator_plain stops).1

omit stops in
-- No literal ends behind itself.
theorem readLiteral_longer (s : Text) (long : s.length < t.length + rest.length + 1) :
    readLiteral s ≠ some (t,rest) := by
  intro read
  have lengths := (readLiteral_front s read).2.2
  omega

-- A string between quotes as it is.
theorem readLiteral_raw (s : Text) : readLiteral (s ++ '\'' :: sep :: rest) = some (s,sep :: rest) ↔
    kept s = true := by
  induction s using unit_induction with
  | nil => exact iff_of_true (readLiteral_done stops rest) rfl
  | quote s _ _ =>
    refine iff_of_false ?_ (by simp [kept])
    intro read
    cases s with
    | nil =>
      rw [List.singleton_append,readLiteral_double] at read
      obtain ⟨⟨t,after⟩,found,same⟩ := Option.map_eq_some_iff.mp read
      cases same
      exact readLiteral_longer _ _ (by simp) found
    | cons c s =>
      rw [List.cons_append,List.cons_append] at read
      by_cases twice : c = '\''
      · subst twice
        rw [readLiteral_double] at read
        obtain ⟨⟨t,after⟩,found,same⟩ := Option.map_eq_some_iff.mp read
        cases same
        exact readLiteral_longer _ _ (by simp; omega) found
      · rw [readLiteral_close _ _ twice] at read
        cases read
  | slash =>
    refine iff_of_false ?_ (by decide)
    rw [List.singleton_append,readLiteral_escape]
    intro read
    obtain ⟨⟨t,after⟩,_,same⟩ := Option.map_eq_some_iff.mp read
    cases same
  | pair d s ih =>
    rw [List.cons_append,List.cons_append,readLiteral_escape]
    by_cases wilds : wild d = true
    · have quote : d ≠ '\'' := by
        rintro rfl
        cases wilds
      have same : kept ('\\' :: d :: s) = kept s := by simp [kept,tame_slash,wilds,Ne.symm quote]
      rw [same,← ih,escaped_wild wilds]
      simp
    · refine iff_of_false ?_ (by simp [kept,tame_slash,wilds])
      obtain ⟨e,single⟩ := escaped_single (Bool.not_eq_true _ ▸ wilds)
      rw [single]
      intro read
      obtain ⟨⟨t,after⟩,found,same⟩ := Option.map_eq_some_iff.mp read
      cases same
      exact readLiteral_longer _ _ (by simp; omega) found
  | char c s quote slash ih =>
    have same : kept (c :: s) = kept s := by simp [kept,tame_char,slash,Ne.symm quote]
    rw [same,← ih,List.cons_append,readLiteral_plain c _ quote slash]
    simp

omit stops in
-- Behind an escaped backslash the quote of an escaped quote is not escaped.
theorem readLiteral_unquoted (s : Text) : readLiteral ('\'' :: (quoted s ++ '\'' :: sep :: rest)) ≠
    some (t,sep :: rest) := by
  intro read
  cases s with
  | nil =>
    rw [quoted_nil,List.nil_append,readLiteral_double] at read
    obtain ⟨⟨t,after⟩,found,same⟩ := Option.map_eq_some_iff.mp read
    cases same
    exact readLiteral_longer _ _ (by simp) found
  | cons c s =>
    obtain ⟨d,more,start,other⟩ : ∃ d more,quoted (c :: s) = d :: more ∧ d ≠ '\'' := by
      by_cases quote : c = '\''
      · subst quote
        exact ⟨_,_,quoted_quote s,by decide⟩
      · exact ⟨_,_,quoted_char c s quote,quote⟩
    rw [start,List.cons_append,readLiteral_close _ _ other] at read
    have lengths := congrArg (fun out => out.map fun pair => pair.2.length) read
    simp at lengths
    omega

theorem readLiteral_short (s : Text)
    (read : readLiteral (quoted s ++ '\'' :: sep :: rest) = some (t,sep :: rest)) :
    t.length ≤ s.length := by
  induction s using unit_induction generalizing t with
  | nil =>
    rw [quoted_nil,List.nil_append,readLiteral_done stops rest] at read
    cases read
    exact Nat.le_refl _
  | quote s ih _ =>
    rw [quoted_quote,List.cons_append,List.cons_append,readLiteral_escape] at read
    obtain ⟨⟨t,after⟩,found,same⟩ := Option.map_eq_some_iff.mp read
    cases same
    exact Nat.succ_le_succ (ih found)
  | slash =>
    rw [quoted_char _ _ (by decide),quoted_nil,List.singleton_append,readLiteral_escape] at read
    obtain ⟨⟨t,after⟩,found,same⟩ := Option.map_eq_some_iff.mp read
    cases same
    exact absurd found (readLiteral_longer _ _ (by simp))
  | pair d s ih =>
    rw [quoted_char _ _ (by decide)] at read
    by_cases quote : d = '\''
    · subst quote
      rw [quoted_quote,List.cons_append,List.cons_append,List.cons_append,readLiteral_escape] at read
      obtain ⟨⟨t,after⟩,found,same⟩ := Option.map_eq_some_iff.mp read
      cases same
      exact absurd found (readLiteral_unquoted rest s)
    · rw [quoted_char d s quote,List.cons_append,List.cons_append,readLiteral_escape] at read
      obtain ⟨⟨t,after⟩,found,same⟩ := Option.map_eq_some_iff.mp read
      cases same
      have short := escaped_length d
      have tail := ih found
      simp only [List.length_append,List.length_cons]
      omega
  | char c s quote slash ih =>
    rw [quoted_char c s quote,List.cons_append,readLiteral_plain c _ quote slash] at read
    obtain ⟨⟨t,after⟩,found,same⟩ := Option.map_eq_some_iff.mp read
    cases same
    exact Nat.succ_le_succ (ih found)

-- A string whose quotes were escaped.
theorem readLiteral_quoted (s : Text) : readLiteral (quoted s ++ '\'' :: sep :: rest) =
    some (s,sep :: rest) ↔ tame s = true := by
  induction s using unit_induction with
  | nil => exact iff_of_true (readLiteral_done stops rest) rfl
  | quote s ih _ =>
    rw [quoted_quote,List.cons_append,List.cons_append,readLiteral_escape,tame_char _ _ (by decide),← ih]
    simp [escaped]
  | slash =>
    refine iff_of_false ?_ (by decide)
    rw [quoted_char _ _ (by decide),quoted_nil,List.singleton_append,readLiteral_escape]
    intro read
    obtain ⟨⟨t,after⟩,_,same⟩ := Option.map_eq_some_iff.mp read
    cases same
  | pair d s ih =>
    rw [quoted_char _ _ (by decide),tame_slash]
    by_cases quote : d = '\''
    · subst quote
      refine iff_of_false ?_ (by simp [wild])
      rw [quoted_quote,List.cons_append,List.cons_append,List.cons_append,readLiteral_escape]
      intro read
      obtain ⟨⟨t,after⟩,found,same⟩ := Option.map_eq_some_iff.mp read
      cases same
      exact absurd found (readLiteral_unquoted rest s)
    · rw [quoted_char d s quote,List.cons_append,List.cons_append,readLiteral_escape]
      by_cases wilds : wild d = true
      · rw [escaped_wild wilds,wilds,Bool.true_and,← ih]
        simp
      · refine iff_of_false ?_ (by simp [wilds])
        obtain ⟨e,single⟩ := escaped_single (Bool.not_eq_true _ ▸ wilds)
        rw [single]
        intro read
        obtain ⟨⟨t,after⟩,found,same⟩ := Option.map_eq_some_iff.mp read
        cases same
        have short := readLiteral_short stops rest s found
        simp at short
  | char c s quote slash ih =>
    rw [quoted_char c s quote,List.cons_append,readLiteral_plain c _ quote slash,tame_char c s slash,← ih]
    simp

end

def Token.weight : Token → Nat
  | .literal s | .bare s => SqlLiteral.weight s

theorem readToken_front (s : Text) (read : readToken s = some (t,rest)) :
    rest <:+ s ∧ weight s = t.weight + weight rest := by
  unfold readToken at read
  split at read
  · obtain ⟨⟨u,after⟩,found,same⟩ := Option.map_eq_some_iff.mp read
    cases same
    obtain ⟨front,weights,_⟩ := readLiteral_front _ found
    refine ⟨front.trans (List.suffix_cons _ _),?_⟩
    rw [weight_cons,weights]
    simp [plain,Token.weight]
  · cases read
    refine ⟨List.dropWhile_suffix _,?_⟩
    change _ = weight _ + weight _
    rw [← weight_append,List.takeWhile_append_dropWhile]

theorem readToken_quote (s : Text) (t : Text) (rest : Text) :
    readToken ('\'' :: s) = some (.literal t,rest) ↔ readLiteral s = some (t,rest) := by
  unfold readToken
  simp

theorem readRow_one (s : Text) (t : Token) : readRow 1 s = some [t] ↔ readToken s = some (t,[')']) := by
  unfold readRow
  cases readToken s with
  | none => simp
  | some out =>
    obtain ⟨u,rest⟩ := out
    by_cases last : rest = [')'] <;> simp [last]

theorem readRow_more (n : Nat) (s : Text) (t : Token) (ts : List Token) :
    readRow (n+2) s = some (t :: ts) ↔ ∃ more,readToken s = some (t,',' :: more) ∧
      readRow (n+1) more = some ts := by
  rw [readRow]
  cases readToken s with
  | none => simp
  | some out =>
    obtain ⟨u,rest⟩ := out
    simp only [Nat.add_eq_zero_iff,one_ne_zero,and_false,if_false]
    split
    · rename_i more
      simp only [Option.map_eq_some_iff,List.cons.injEq,Option.some.injEq,Prod.mk.injEq,true_and]
      constructor
      · rintro ⟨us,found,rfl,rfl⟩
        exact ⟨more,⟨rfl,rfl⟩,found⟩
      · rintro ⟨_,⟨rfl,rfl⟩,found⟩
        exact ⟨ts,found,rfl,rfl⟩
    · rename_i other
      constructor
      · intro read
        cases read
      · rintro ⟨more,same,_⟩
        cases same
        exact absurd rfl (other more)

def weights (ts : List Token) : Nat := (ts.map Token.weight).sum

theorem readRow_weight (t : Token) (ts : List Token) (s : Text)
    (read : readRow (ts.length+1) s = some (t :: ts)) :
    weight s = weights (t :: ts) + (ts.length+1) := by
  induction ts generalizing t s with
  | nil =>
    obtain ⟨_,total⟩ := readToken_front s ((readRow_one s t).mp read)
    rw [total]
    rfl
  | cons u ts ih =>
    obtain ⟨more,first,later⟩ := (readRow_more ts.length s t (u :: ts)).mp read
    obtain ⟨_,total⟩ := readToken_front s first
    rw [total,weight_cons,ih u more later]
    simp only [weights,List.map_cons,List.sum_cons,List.length_cons]
    simp [plain]
    omega

-- Two ends of one text that start with a separator and weigh the same.
theorem same_end (left : c :: r <:+ s) (right : d :: q <:+ s) (first : plain c = true)
    (second : plain d = true)
    (same : weight (c :: r) = weight (d :: q)) : c :: r = d :: q := by
  have shorter : ∀ {c d : Char} {r q : Text},c :: r <:+ d :: q → plain d = true →
    weight (c :: r) = weight (d :: q) →
      c :: r = d :: q := by
    rintro c d r q ⟨front,whole⟩ head same
    cases front with
    | nil => exact whole
    | cons e front =>
      rw [← whole,weight_append,weight_cons e] at same
      cases (List.cons.inj whole).1
      rw [head] at same
      simp at same
  rcases List.suffix_or_suffix_of_suffix left right with inner | outer
  · exact shorter inner second same
  · exact (shorter outer first same.symm).symm

-- One value of the row: its text, the token it should be read as, and when it is.
structure Slot where
  shown : Text
  token : Token
  exact : Prop
  weighs : weight shown = token.weight
  reads : ∀ {sep : Char},separator sep = true → ∀ rest,
    readToken (shown ++ sep :: rest) = some (token,sep :: rest) ↔ exact

def Slot.raw (s : Text) : Slot where
  shown := '\'' :: s ++ ['\'']
  token := .literal s
  exact := kept s = true
  weighs := by simp [weight,plain,Token.weight]
  reads stops rest := by
    rw [List.cons_append,List.cons_append,List.append_assoc,readToken_quote]
    exact readLiteral_raw stops rest s

theorem quoted_weight (s : Text) : weight (quoted s) = weight s := by
  induction s with
  | nil => rfl
  | cons c s ih =>
    by_cases quote : c = '\''
    · subst quote
      rw [quoted_quote,weight_cons,weight_cons,weight_cons,ih]
      simp [plain]
    · rw [quoted_char c s quote,weight_cons,weight_cons,ih]

def Slot.quoted (s : Text) : Slot where
  shown := '\'' :: SqlLiteral.quoted s ++ ['\'']
  token := .literal s
  exact := tame s = true
  weighs := by
    rw [List.cons_append,weight_cons,weight_append,quoted_weight]
    simp [weight,plain,Token.weight]
  reads stops rest := by
    rw [List.cons_append,List.cons_append,List.append_assoc,readToken_quote]
    exact readLiteral_quoted stops rest s

theorem readToken_other (s : Text) (other : s.head? ≠ some '\'') :
    readToken s = some (.bare (s.takeWhile fun c => !separator c),s.dropWhile fun c => !separator c) := by
  unfold readToken
  split
  · exact absurd rfl other
  · rfl

-- A text without quotes around it that should be read as t.
theorem readToken_bare (s t : Text) (stops : separator sep = true) (rest : Text) :
    readToken (s ++ sep :: rest) = some (.bare t,sep :: rest) ↔ t = s ∧ s.head? ≠ some '\'' ∧
      s.all (!separator ·) = true := by
  by_cases quote : s.head? = some '\''
  · obtain ⟨u,rfl⟩ := List.head?_eq_some_iff.mp quote
    refine iff_of_false ?_ fun holds => holds.2.1 quote
    rw [List.cons_append,readToken]
    intro read
    obtain ⟨out,_,same⟩ := Option.map_eq_some_iff.mp read
    cases same
  · have other : (s ++ sep :: rest).head? ≠ some '\'' := by
      cases s with
      | nil => simpa using (separator_plain stops).1
      | cons c s => exact quote
    rw [readToken_other _ other]
    constructor
    · intro read
      obtain ⟨taken,left⟩ := Prod.mk.inj (Option.some.inj read)
      have taken := Token.bare.inj taken
      have whole := List.takeWhile_append_dropWhile (p := fun c => !separator c) (l := s ++ sep :: rest)
      rw [taken,left] at whole
      have same := List.append_cancel_right whole
      refine ⟨same,quote,List.all_eq_true.mpr ?_⟩
      intro c member
      rw [← same,← taken] at member
      exact List.mem_takeWhile_imp (p := fun c => !separator c) member
    · rintro ⟨rfl,_,free⟩
      have free := List.all_eq_true.mp free
      rw [List.takeWhile_append_of_pos free,List.dropWhile_append_of_pos free]
      simp [stops]

def Slot.bare (s t : Text) (same : weight s = weight t) : Slot where
  shown := s
  token := .bare t
  exact := t = s ∧ s.head? ≠ some '\'' ∧ s.all (!separator ·) = true
  weighs := same
  reads stops rest := readToken_bare s t stops rest

def renderRow (slot : Slot) : List Slot → Text
  | [] => slot.shown ++ [')']
  | next :: slots => slot.shown ++ ',' :: renderRow next slots

theorem renderRow_weight (slot : Slot) (slots : List Slot) :
    weight (renderRow slot slots) = weights ((slot :: slots).map Slot.token) + (slots.length+1) := by
  induction slots generalizing slot with
  | nil =>
    rw [renderRow,weight_append,slot.weighs]
    rfl
  | cons next slots ih =>
    rw [renderRow,weight_append,weight_cons,ih,slot.weighs]
    simp only [weights,List.map_cons,List.sum_cons,List.length_cons]
    simp [plain]
    omega

theorem readRow_exact (slot : Slot) (slots : List Slot) :
    readRow (slots.length+1) (renderRow slot slots) = some ((slot :: slots).map Slot.token) ↔
      ∀ one ∈ slot :: slots,one.exact := by
  induction slots generalizing slot with
  | nil =>
    rw [renderRow,List.map_cons,List.map_nil,List.length_nil,readRow_one,slot.reads rfl]
    simp
  | cons next slots ih =>
    have comma : separator ',' = true := rfl
    rw [renderRow,List.map_cons,List.length_cons,readRow_more,List.forall_mem_cons,← ih next,
      ← slot.reads comma (renderRow next slots)]
    constructor
    · rintro ⟨more,first,later⟩
      obtain ⟨front,_⟩ := readToken_front _ first
      have total := readRow_weight next.token (slots.map Slot.token) more (by simpa using later)
      have same : ',' :: more = ',' :: renderRow next slots := by
        apply same_end front (List.suffix_append _ _) rfl rfl
        rw [weight_cons,weight_cons,total,renderRow_weight]
        simp
      cases same
      exact ⟨first,later⟩
    · rintro ⟨first,later⟩
      exact ⟨_,first,later⟩

theorem tame_plain (front rest : Text) (all : front.all plain = true) : tame (front ++ rest) = tame rest := by
  induction front with
  | nil => rfl
  | cons c front ih =>
    rw [List.all_cons,Bool.and_eq_true] at all
    have slash : c ≠ '\\' := by
      rintro rfl
      cases all.1
    rw [List.cons_append,tame_char _ _ slash]
    exact ih all.2

-- A replacement that neither quoting nor the two wild characters can tell from the text it replaces.
structure Harmless (old new : Text) : Prop where
  some : old ≠ []
  shown : new ≠ []
  plainOld : old.all plain = true
  plainNew : new.all plain = true
  wildOld : old.head?.any wild = false
  wildNew : new.head?.any wild = false

theorem tame_replace (harmless : Harmless old new) (s : Text) : tame (replaceAll s old new) = tame s := by
  have both :=
    replaceAll_induction (motive := fun s t => tame t = tame s ∧ t.head?.any wild = s.head?.any wild) old new
    harmless.some ⟨rfl,rfl⟩ (fun r t ih => ?hit) (fun c r t _ ih => ?keep) s
  · exact both.1
  case hit =>
    rw [tame_plain _ _ harmless.plainOld,tame_plain _ _ harmless.plainNew,
      List.head?_append_of_ne_nil _ harmless.some,
      List.head?_append_of_ne_nil _ harmless.shown,harmless.wildOld,harmless.wildNew]
    exact ⟨ih.1,rfl⟩
  case keep =>
    rw [tame,tame,ih.1,ih.2]
    exact ⟨rfl,rfl⟩

theorem quotes_replace (harmless : Harmless old new) (s : Text) :
    (replaceAll s old new).contains '\'' = s.contains '\'' := by
  have absent (t : Text) (all : t.all plain = true) : t.contains '\'' = false := by
    refine Bool.eq_false_iff.mpr fun found => ?_
    have member : '\'' ∈ t := by simpa using found
    cases List.all_eq_true.mp all _ member
  apply replaceAll_induction (motive := fun s t => t.contains '\'' = s.contains '\'') old new harmless.some
  · rfl
  · intro r t ih
    rw [List.contains_append,List.contains_append,absent _ harmless.plainOld,absent _ harmless.plainNew,ih]
  · intro c r t _ ih
    rw [List.contains_cons,List.contains_cons,ih]

theorem kept_replace (harmless : Harmless old new) (s : Text) : kept (replaceAll s old new) = kept s := by
  rw [kept,tame_replace harmless,quotes_replace harmless,kept]

def numberChar (c : Char) : Bool :=
  c.isDigit || c == '+' || c == '-' || c == '.' || c == 'e' || c == 'E' || blank c

theorem unsigned_chars (s : Text) (later : ∀ c ∈ unsigned s,numberChar c = true) :
    ∀ c ∈ s,numberChar c = true := by
  unfold unsigned at later
  split at later
  · exact List.forall_mem_cons.mpr ⟨rfl,later⟩
  · exact List.forall_mem_cons.mpr ⟨rfl,later⟩
  · exact later

theorem digits_chars {s : Text} (digits : ∀ c ∈ s,c.isDigit = true) : ∀ c ∈ s,numberChar c = true := by
  intro c member
  simp [numberChar,digits c member]

theorem exponent_chars (own : exponent s = true) : ∀ c ∈ s,numberChar c = true := by
  unfold exponent at own
  split at own
  · intro c member
    cases member
  · rename_i c rest
    simp only [Bool.and_eq_true,Bool.or_eq_true,beq_iff_eq] at own
    refine List.forall_mem_cons.mpr ⟨?_,unsigned_chars rest (digits_chars (List.all_eq_true.mp own.2))⟩
    rcases own.1.1 with rfl | rfl <;> rfl

theorem takeWhile_digits (s : Text) (later : ∀ c ∈ s.dropWhile Char.isDigit,numberChar c = true) :
    ∀ c ∈ s,numberChar c = true := by
  intro c member
  rw [← List.takeWhile_append_dropWhile (p := Char.isDigit) (l := s)] at member
  rcases List.mem_append.mp member with digit | rest
  · simp [numberChar,List.mem_takeWhile_imp digit]
  · exact later c rest

theorem numeric_chars (number : numeric s = true) : ∀ c ∈ s,numberChar c = true := by
  have trimmed_ : ∀ c ∈ trimmed s,numberChar c = true := by
    apply unsigned_chars
    apply takeWhile_digits
    unfold numeric fraction at number
    dsimp only at number
    split at number
    · rename_i rest found
      rw [found]
      refine List.forall_mem_cons.mpr ⟨rfl,takeWhile_digits rest (exponent_chars ?_)⟩
      exact (Bool.and_eq_true_iff.mp number).2
    · exact exponent_chars (Bool.and_eq_true_iff.mp number).2
  have blanks : ∀ t : Text,∀ c ∈ t,c ∈ t.dropWhile blank ∨ blank c = true := by
    intro t c member
    rw [← List.takeWhile_append_dropWhile (p := blank) (l := t)] at member
    rcases List.mem_append.mp member with front | rest
    · exact Or.inr (List.mem_takeWhile_imp front)
    · exact Or.inl rest
  intro c member
  have space : blank c = true → numberChar c = true := fun own => by simp [numberChar,own]
  rcases blanks s c member with inside | own
  · rcases blanks _ c (List.mem_reverse.mpr inside) with middle | own
    · exact trimmed_ c (List.mem_reverse.mpr middle)
    · exact space own
  · exact space own

theorem number_bare {s : Text} (chars : ∀ c ∈ s,numberChar c = true) :
    s.head? ≠ some '\'' ∧ s.all (!separator ·) = true := by
  constructor
  · intro head
    obtain ⟨rest,rfl⟩ := List.head?_eq_some_iff.mp head
    cases chars '\'' List.mem_cons_self
  · refine List.all_eq_true.mpr fun c member => ?_
    have own := chars c member
    by_cases stops : separator c = true
    · simp only [separator,Bool.or_eq_true,beq_iff_eq] at stops
      rcases stops with rfl | rfl <;> cases own
    · simp [stops]

end SqlReview.SqlLiteral
