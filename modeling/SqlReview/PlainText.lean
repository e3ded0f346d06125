import SqlReview.Fingerprint

namespace SqlReview.PlainText
open GoBytes Fingerprint

def space (b : UInt8) : Bool := isSpace b.toNat
def letter (b : UInt8) : Bool :=
  (0x41 ≤ b.toNat && b.toNat ≤ 0x5A) || (0x61 ≤ b.toNat && b.toNat ≤ 0x7A) || b == byte '_'
def sign (b : UInt8) : Bool := b == byte '+' || b == byte '-' || b == byte '/'
def comparison (b : UInt8) : Bool := b == byte '=' || b == byte '<' || b == byte '>'
def mark (b : UInt8) : Bool :=
  b == byte '*' || b == byte ',' || b == byte ')' || b == byte '%' || b == byte ';'

def textByte (b : UInt8) : Bool := letter b || mark b || space b || sign b || comparison b || b == byte '('

-- strings.FieldsFunc, with the field that is being read.
def fieldsFrom (sep : UInt8 → Bool) (field : Bytes) : Bytes → List Bytes
  | [] => if field = [] then [] else [field]
  | b :: rest =>
    if sep b then (if field = [] then fieldsFrom sep [] rest else field :: fieldsFrom sep [] rest)
    else fieldsFrom sep (field ++ [b]) rest

def fieldsFunc (sep : UInt8 → Bool) (s : Bytes) : List Bytes := fieldsFrom sep [] s

-- strings.Join(words, " ")
def joinSpace : List Bytes → Bytes
  | [] => []
  | [w] => w
  | w :: ws => w ++ byte ' ' :: joinSpace ws

-- Lower case, runs of whitespace as one space, no whitespace at the ends.
def canonical (lower : Nat → Nat) (q : Bytes) : Bytes := joinSpace (fieldsFunc space (toLower lower q))

-- A sign is dropped with the text before it unless whitespace or a sign follows, and a
-- comparison is dropped in front of a parenthesis.
def loses (a b : UInt8) : Bool := (sign a && !space b && !sign b) || (comparison a && b == byte '(')

def unbroken : Bytes → Bool
  | a :: b :: rest => !loses a b && unbroken (b :: rest)
  | _ => true

-- A single space in front of a leading sign stays.
def indented : Bytes → Bool
  | a :: b :: _ => space a && sign b
  | _ => false

def keepsText (q : Bytes) : Bool := unbroken q && !indented q

inductive Mode where
  | fresh | lead | gap | word | compare | sign
  deriving DecidableEq,Repr

-- What the machine does with plain text: `out` is written and `pend` waits for the end of the word.
structure Tape where
  mode : Mode
  out : Bytes
  pend : Bytes
  deriving DecidableEq,Repr

def Tape.keep (t : Tape) (mode : Mode) (kept : Bool) (b : UInt8) : Tape :=
  {t with mode := mode,pend := if kept then t.pend ++ [b] else [b]}

def Tape.read (t : Tape) (b : UInt8) : Tape :=
  if space b then
    match t.mode with
    | .fresh => ⟨.lead,t.out,[b]⟩
    | .lead => ⟨.lead,t.out,[]⟩
    | .gap => t
    | _ => ⟨.gap,t.out ++ t.pend.map lowerByte ++ [byte ' '],[]⟩
  else if PlainText.sign b then t.keep .sign true b
  else if PlainText.comparison b then t.keep .compare (t.mode = .word || t.mode = .compare) b
  else t.keep .word (t.mode = .word || (t.mode = .compare && b != byte '(')) b

def Tape.run (t : Tape) (q : Bytes) : Tape := q.foldl Tape.read t

def blank : Tape := ⟨.fresh,[],[]⟩

def ink (s : Bytes) : Nat := s.countP fun b => !space b

theorem ink_append (s t : Bytes) : ink (s ++ t) = ink s+ink t := List.countP_append

theorem byte_kinds : ∀ b : UInt8, (space b = true → sign b = false ∧ comparison b = false ∧ b ≠ byte '(') ∧
    (sign b = true → comparison b = false) ∧ space (lowerByte b) = space b ∧
      (space b = true → lowerByte b = b) :=
  every_byte (by decide +kernel)

theorem ink_lower (s : Bytes) : ink (s.map lowerByte) = ink s := by
  unfold ink
  rw [List.countP_map]
  congr 1
  funext b
  simp [(byte_kinds b).2.2.1]

-- The modes agree with the text that was read, of which a is the last byte.
structure Tape.After (a : UInt8) (t : Tape) : Prop where
  lead : t.mode = .lead → t.out = [] ∧ ink t.pend = 0
  gap : t.mode = .gap → t.pend = []
  word : t.mode = .word ∨ t.mode = .compare ∨ t.mode = .sign → 0 < ink t.pend
  started : t.mode ≠ .fresh
  sign : t.mode = .sign ↔ sign a = true
  compare : t.mode = .compare ↔ comparison a = true
  blank : t.mode = .lead ∨ t.mode = .gap ↔ space a = true

theorem ink_single {b : UInt8} (text : space b = false) : ink [b] = 1 := by simp [ink,text]

theorem keep_after {t : Tape} (text : space b = false) (mode : Mode) (kept : Bool)
    (state : mode = .word ∨ mode = .compare ∨ mode = .sign) (isSign : mode = .sign ↔ sign b = true)
    (isCompare : mode = .compare ↔ comparison b = true) : (t.keep mode kept b).After b := by
  have notLead : mode ≠ .lead ∧ mode ≠ .gap ∧ mode ≠ .fresh := by
    rcases state with rfl | rfl | rfl <;> decide
  refine ⟨fun bad => absurd bad notLead.1,fun bad => absurd bad notLead.2.1,fun _ => ?_,notLead.2.2,
    isSign,isCompare,
    by simp [Tape.keep,notLead,text]⟩
  have one := ink_single text
  cases kept with
  | false => simp [Tape.keep,one]
  | true => simp only [Tape.keep,if_true,ink_append,one]; omega

theorem read_space (t : Tape) (text : space b = true) : t.read b = match t.mode with
    | .fresh => ⟨.lead,t.out,[b]⟩
    | .lead => ⟨.lead,t.out,[]⟩
    | .gap => t
    | _ => ⟨.gap,t.out ++ t.pend.map lowerByte ++ [byte ' '],[]⟩ := if_pos text

theorem read_after {t : Tape} (b : UInt8) (known : t = blank ∨ ∃ a, t.After a) : (t.read b).After b := by
  have kinds := byte_kinds b
  cases text : space b with
  | true =>
    have plain := kinds.1 text
    have signs : ∀ m : Mode, m ≠ .sign → m ≠ .compare → (m = .sign ↔ sign b = true) ∧
        (m = .compare ↔ comparison b = true) := by
      intro m notSign notCompare
      simp [notSign,notCompare,plain]
    rw [read_space t text]
    rcases known with rfl | ⟨a,after⟩
    · change (Tape.mk .lead [] [b]).After b
      exact ⟨fun _ => ⟨rfl,by simp [ink,text]⟩,nofun,by simp,nofun,(signs .lead (by decide) (by decide)).1,
        (signs .lead (by decide) (by decide)).2,by simp [text]⟩
    · cases mode : t.mode with
      | fresh => exact absurd mode after.started
      | lead =>
        exact ⟨fun _ => ⟨(after.lead mode).1,rfl⟩,nofun,by simp,nofun,(signs .lead (by decide) (by decide)).1,
          (signs .lead (by decide) (by decide)).2,by simp [text]⟩
      | gap =>
        dsimp only
        refine ⟨fun bad => absurd (mode.symm.trans bad) (by decide),after.gap,fun bad => ?_,
          after.started,?_,?_,?_⟩
        · rw [mode] at bad; simp at bad
        · rw [mode]; exact (signs .gap (by decide) (by decide)).1
        · rw [mode]; exact (signs .gap (by decide) (by decide)).2
        · simp [mode,text]
      | word | compare | sign =>
        exact ⟨nofun,fun _ => rfl,by simp,nofun,(signs .gap (by decide) (by decide)).1,
          (signs .gap (by decide) (by decide)).2,by simp [text]⟩
  | false =>
    unfold Tape.read
    rw [if_neg (by simp [text])]
    cases isSign : sign b with
    | true =>
      rw [if_pos rfl]
      exact keep_after text .sign true (by decide) (by simp [isSign]) (by simp [kinds.2.1 isSign])
    | false =>
      rw [if_neg (by simp)]
      cases isCompare : comparison b with
      | true =>
        rw [if_pos rfl]
        exact keep_after text .compare _ (by decide) (by simp [isSign]) (by simp [isCompare])
      | false =>
        rw [if_neg (by simp)]
        exact keep_after text .word _ (by decide) (by simp [isSign]) (by simp [isCompare])

def Tape.word (t : Tape) : Bytes :=
  match t.mode with
  | .fresh | .lead => []
  | _ => t.pend

def lowered (words : List Bytes) : List Bytes := words.map (List.map lowerByte)
def emit (words : List Bytes) : Bytes := words.flatMap (· ++ [byte ' '])

-- Nothing pending is lost: the word that is being read goes on.
theorem keep_word {t : Tape} (after : t.After a) (text : space b = false) (kept : loses a b = false)
    (flush : t.mode = .lead → sign b = true → t.pend = []) :
    (t.read b).out = t.out ∧ (t.read b).word = t.word ++ [b] := by
  have kinds := byte_kinds b
  unfold Tape.read
  rw [if_neg (by simp [text])]
  cases isSign : sign b with
  | true =>
    rw [if_pos rfl]
    refine ⟨rfl,?_⟩
    change t.pend ++ [b] = _
    unfold Tape.word
    cases mode : t.mode with
    | fresh => exact absurd mode after.started
    | lead => rw [flush mode isSign]
    | gap | word | compare | sign => rfl
  | false =>
    have notSign : t.mode ≠ .sign := by
      intro state
      rw [loses,after.sign.mp state,text,isSign] at kept
      cases kept
    rw [if_neg (by simp)]
    cases isCompare : comparison b with
    | true =>
      rw [if_pos rfl]
      refine ⟨rfl,?_⟩
      change (if _ then t.pend ++ [b] else [b]) = _
      unfold Tape.word
      cases mode : t.mode with
      | fresh => exact absurd mode after.started
      | lead => rfl
      | gap => rw [after.gap mode]; rfl
      | word | compare => rfl
      | sign => exact absurd mode notSign
    | false =>
      rw [if_neg (by simp)]
      refine ⟨rfl,?_⟩
      change (if _ then t.pend ++ [b] else [b]) = _
      unfold Tape.word
      cases mode : t.mode with
      | fresh => exact absurd mode after.started
      | lead => rfl
      | gap => rw [after.gap mode]; rfl
      | word => rfl
      | compare =>
        have notPar : (b == byte '(') = false := by
          rw [loses,after.compare.mp mode] at kept
          simpa using (Bool.or_eq_false_iff.mp kept).2
        simp [bne,notPar]
      | sign => exact absurd mode notSign

-- A whole word is written with a space behind it.
theorem end_word {t : Tape} (after : t.After a) (text : space b = true) (words : Bytes → List Bytes) :
    (t.read b).out ++ emit (lowered (words (t.read b).word)) =
      t.out ++ emit (lowered (if t.word = [] then words [] else t.word :: words [])) := by
  rw [read_space t text]
  have some : t.mode = .word ∨ t.mode = .compare ∨ t.mode = .sign → t.pend ≠ [] := by
    intro state empty
    have ink := after.word state
    rw [empty] at ink
    cases ink
  unfold Tape.word
  cases mode : t.mode with
  | fresh => exact absurd mode after.started
  | lead => rfl
  | gap =>
    have empty := after.gap mode
    simp [mode,empty]
  | word | compare | sign =>
    have pend := some (by simp [mode])
    simp [pend,emit,lowered]

theorem lead_pend {t : Tape} (after : t.After a) (lead : (t.read b).mode = .lead) : (t.read b).pend = [] := by
  have next := read_after b (.inr ⟨a,after⟩)
  have text := next.blank.mp (.inl lead)
  rw [read_space t text] at lead ⊢
  cases mode : t.mode with
  | fresh => exact absurd mode after.started
  | lead => rfl
  | gap => exact after.gap mode
  | word | compare | sign => rfl

theorem run_kept (rest : Bytes) {t : Tape} (after : t.After a) (whole : unbroken (a :: rest) = true)
    (flush : t.mode = .lead → t.pend = [] ∨ ∀ b ∈ rest.head?, sign b = false) :
    (t.run (rest ++ [byte ' '])).out = t.out ++ emit (lowered (fieldsFrom space t.word rest)) := by
  induction rest generalizing t a with
  | nil =>
    have ends := end_word after (b := byte ' ') (by decide) fun _ => []
    simpa [Tape.run,fieldsFrom,emit,lowered] using ends
  | cons b rest ih =>
    rw [unbroken,Bool.and_eq_true,Bool.not_eq_true'] at whole
    have run := ih (read_after b (.inr ⟨a,after⟩)) whole.2 fun lead => .inl (lead_pend after lead)
    change ((t.read b).run (rest ++ [byte ' '])).out = _
    rw [run,fieldsFrom]
    cases text : space b with
    | true =>
      rw [if_pos rfl]
      exact end_word after text fun field => fieldsFrom space field rest
    | false =>
      obtain ⟨out,word⟩ := keep_word after text whole.1 fun lead isSign => by
        rcases flush lead with empty | plain
        · exact empty
        · rw [plain b rfl] at isSign; cases isSign
      rw [if_neg (by simp),out,word]

def Tape.ink (t : Tape) : Nat := PlainText.ink t.out+PlainText.ink t.pend

theorem keep_ink (t : Tape) (mode : Mode) (kept : Bool) (b : UInt8) :
    (t.keep mode kept b).ink = ink t.out+(if kept then ink t.pend else 0)+ink [b] := by
  cases kept with
  | false => simp [Tape.keep,Tape.ink]
  | true => simp [Tape.keep,Tape.ink,ink_append,Nat.add_assoc]

-- Where a byte is lost the pending text goes, which is not blank.
theorem keep_loses {t : Tape} (mode : Mode) {kept : Bool}
    (lost : loses a b = true → kept = false ∧ 0 < ink t.pend) :
    (t.keep mode kept b).ink+(loses a b).toNat ≤ t.ink+ink [b] := by
  rw [keep_ink,Tape.ink]
  cases loss : loses a b with
  | true =>
    obtain ⟨rfl,some⟩ := lost loss
    simp only [Bool.false_eq_true,if_false,Bool.toNat_true]
    omega
  | false => cases kept <;> simp

theorem read_ink {t : Tape} (after : t.After a) (b : UInt8) :
    (t.read b).ink+(loses a b).toNat ≤ t.ink+ink [b] := by
  have kinds := byte_kinds b
  cases text : space b with
  | true =>
    have plain := kinds.1 text
    have kept : loses a b = false := by simp [loses,text,plain.2.2]
    rw [read_space t text,kept]
    cases mode : t.mode with
    | fresh => exact absurd mode after.started
    | lead => simp [Tape.ink,ink]; omega
    | gap => simp
    | word | compare | sign =>
      have one : ink [byte ' '] = 0 := rfl
      have none : ink [] = 0 := rfl
      simp only [Tape.ink,ink_append,ink_lower,one,none,Bool.toNat_false]
      omega
  | false =>
    have lost : loses a b = true → (t.mode = .sign ∧ sign b = false) ∨
        (t.mode = .compare ∧ b = byte '(') := by
      intro lost
      rw [loses,Bool.or_eq_true] at lost
      rcases lost with lost | lost
      · simp only [Bool.and_eq_true,Bool.not_eq_true'] at lost
        exact .inl ⟨after.sign.mpr lost.1.1,lost.2⟩
      · rw [Bool.and_eq_true,beq_iff_eq] at lost
        exact .inr ⟨after.compare.mpr lost.1,lost.2⟩
    unfold Tape.read
    rw [if_neg (by simp [text])]
    cases isSign : sign b with
    | true =>
      rw [if_pos rfl]
      refine keep_loses .sign fun loss => ?_
      rcases lost loss with ⟨_,bad⟩ | ⟨_,rfl⟩
      · rw [isSign] at bad; cases bad
      · exact absurd isSign (by decide)
    | false =>
      rw [if_neg (by simp)]
      cases isCompare : comparison b with
      | true =>
        rw [if_pos rfl]
        refine keep_loses .compare fun loss => ?_
        rcases lost loss with ⟨mode,_⟩ | ⟨_,rfl⟩
        · exact ⟨by simp [mode],after.word (by simp [mode])⟩
        · exact absurd isCompare (by decide)
      | false =>
        rw [if_neg (by simp)]
        refine keep_loses .word fun loss => ?_
        rcases lost loss with ⟨mode,_⟩ | ⟨mode,rfl⟩
        · exact ⟨by simp [mode],after.word (by simp [mode])⟩
        · exact ⟨by simp [mode],after.word (by simp [mode])⟩

theorem run_ink (rest : Bytes) {t : Tape} (after : t.After a) :
    (t.run rest).ink+(!unbroken (a :: rest)).toNat ≤ t.ink+ink rest := by
  induction rest generalizing t a with
  | nil => simp [Tape.run,unbroken]
  | cons b rest ih =>
    have step := read_ink after b
    have run := ih (read_after b (.inr ⟨a,after⟩))
    have split : ink (b :: rest) = ink [b]+ink rest := ink_append [b] rest
    have cases : (!unbroken (a :: b :: rest)).toNat ≤ (loses a b).toNat+(!unbroken (b :: rest)).toNat := by
      rw [unbroken]
      cases loses a b <;> cases unbroken (b :: rest) <;> decide
    change ((t.read b).run rest).ink+_ ≤ _
    omega

theorem fields_ink (field rest : Bytes) : ink (emit (fieldsFrom space field rest)) = ink field+ink rest := by
  have blank : ink [byte ' '] = 0 := rfl
  have none : ink [] = 0 := rfl
  have joins (w : Bytes) (ws : List Bytes) : ink (emit (w :: ws)) = ink w+ink (emit ws) := by
    change ink (w ++ [byte ' '] ++ emit ws) = _
    rw [ink_append,ink_append,blank]
    rfl
  induction rest generalizing field with
  | nil =>
    unfold fieldsFrom
    split
    · rename_i empty
      rw [empty]
      rfl
    · exact joins field []
  | cons b rest ih =>
    have split : ink (b :: rest) = ink [b]+ink rest := ink_append [b] rest
    rw [fieldsFrom,split]
    cases text : space b with
    | true =>
      have zero : ink [b] = 0 := by simp [ink,text]
      rw [if_pos rfl]
      by_cases empty : field = []
      · rw [if_pos empty,ih,empty,none,zero]
        omega
      · rw [if_neg empty,joins,ih,none,zero]
    | false =>
      rw [if_neg (by simp),ih,ink_append]
      omega

theorem fields_lower (field rest : Bytes) :
    fieldsFrom space (field.map lowerByte) (rest.map lowerByte) = lowered (fieldsFrom space field rest) := by
  induction rest generalizing field with
  | nil => by_cases empty : field = [] <;> simp [fieldsFrom,lowered,empty]
  | cons b rest ih =>
    have same := (byte_kinds b).2.2.1
    have keep := ih (field ++ [b])
    have fresh := ih []
    rw [List.map_append] at keep
    rw [List.map_cons,fieldsFrom,fieldsFrom,same]
    cases space b with
    | true =>
      rw [if_pos rfl,if_pos rfl]
      by_cases empty : field = []
      · rw [if_pos (List.map_eq_nil_iff.mpr empty),if_pos empty]; exact fresh
      · rw [if_neg (mt List.map_eq_nil_iff.mp empty),if_neg empty]; exact congrArg _ fresh
    | false =>
      rw [if_neg (by simp),if_neg (by simp)]
      exact keep

theorem joinSpace_emit {words : List Bytes} (some : words ≠ []) :
    emit words = joinSpace words ++ [byte ' '] := by
  induction words with
  | nil => exact absurd rfl some
  | cons w words ih =>
    cases words with
    | nil => simp [emit,joinSpace]
    | cons v words =>
      have tail := ih (by simp)
      change w ++ [byte ' '] ++ emit (v :: words) = w ++ byte ' ' :: joinSpace (v :: words) ++ [byte ' ']
      rw [tail]
      simp

def Ends (w : Bytes) : Prop := ∃ b, w.getLast? = some b ∧ space b = false

theorem fields_end (field rest : Bytes) (ends : field = [] ∨ Ends field) :
    ∀ w ∈ fieldsFrom space field rest, Ends w := by
  induction rest generalizing field with
  | nil =>
    intro w found
    rcases ends with rfl | ends
    · cases found
    · unfold fieldsFrom at found
      split at found
      · cases found
      · rw [List.mem_singleton] at found
        rwa [found]
  | cons b rest ih =>
    intro w found
    rw [fieldsFrom] at found
    cases text : space b with
    | true =>
      rw [text,if_pos rfl] at found
      split at found
      · exact ih [] (.inl rfl) w found
      · rename_i some
        rcases List.mem_cons.mp found with rfl | found
        · exact ends.resolve_left some
        · exact ih [] (.inl rfl) w found
    | false =>
      rw [text,if_neg (by simp)] at found
      exact ih _ (.inr ⟨b,by simp,text⟩) w found

theorem joinSpace_end {words : List Bytes} (some : words ≠ []) (ends : ∀ w ∈ words, Ends w) :
    Ends (joinSpace words) := by
  induction words with
  | nil => exact absurd rfl some
  | cons w words ih =>
    cases words with
    | nil => exact ends w (by simp)
    | cons v words =>
      obtain ⟨b,last,text⟩ := ih (by simp) fun u found => ends u (by simp_all)
      refine ⟨b,?_,text⟩
      change (w ++ byte ' ' :: joinSpace (v :: words)).getLast? = _
      rw [List.getLast?_append_of_ne_nil _ (by simp),List.getLast?_cons,last]
      rfl

theorem trim_emit {words : List Bytes} (ends : ∀ w ∈ words, Ends w) :
    (emit words).rdropWhile space = joinSpace words := by
  by_cases none : words = []
  · rw [none]; rfl
  · obtain ⟨b,last,text⟩ := joinSpace_end none ends
    rw [joinSpace_emit none,List.rdropWhile_concat_pos _ _ _ (by decide),List.rdropWhile_eq_self_iff]
    intro some
    rw [List.getLast?_eq_some_getLast some,Option.some.injEq] at last
    simp [last,text]

theorem joinSpace_fields_cons (x : UInt8) (rest : Bytes) {field : Bytes} (some : field ≠ []) :
    joinSpace (fieldsFrom space (x :: field) rest) = x :: joinSpace (fieldsFrom space field rest) := by
  have first (ws : List Bytes) : joinSpace ((x :: field) :: ws) = x :: joinSpace (field :: ws) := by
    cases ws <;> rfl
  induction rest generalizing field with
  | nil => simp [fieldsFrom,some,joinSpace]
  | cons b rest ih =>
    rw [fieldsFrom,fieldsFrom,if_neg (List.cons_ne_nil _ _),if_neg some]
    cases space b with
    | true => rw [if_pos rfl,if_pos rfl,first]
    | false =>
      rw [if_neg (by simp),if_neg (by simp)]
      have first (ws : List Bytes) : joinSpace ((x :: (field ++ [b])) :: ws) =
          x :: joinSpace ((field ++ [b]) :: ws) := by
        cases ws <;> rfl
      exact ih (by simp) first

theorem read_cases {motive : Tape → Prop} (t : Tape) (b : UInt8) (first : motive ⟨.lead,t.out,[b]⟩)
    (lead : motive ⟨.lead,t.out,[]⟩) (gap : t.mode = .gap → motive t)
    (ends : motive ⟨.gap,t.out ++ t.pend.map lowerByte ++ [byte ' '],[]⟩)
    (keep : ∀ mode kept, motive (t.keep mode kept b)) : motive (t.read b) := by
  unfold Tape.read
  split
  · cases mode : t.mode with
    | fresh => exact first
    | lead => exact lead
    | gap => exact gap mode
    | word | compare | sign => exact ends
  · exact iteInduction (fun _ => keep _ _) fun _ => iteInduction (fun _ => keep _ _) fun _ => keep _ _

def Tape.Clean (t : Tape) : Prop := (∀ c ∈ t.out, c ≠ 0) ∧ ∀ c ∈ t.pend, c ≠ 0

theorem read_clean {t : Tape} (clean : t.Clean) (some : b ≠ 0) : (t.read b).Clean := by
  have lowers : ∀ c : UInt8, c ≠ 0 → lowerByte c ≠ 0 := every_byte (by decide +kernel)
  have single : ∀ c ∈ [b], c ≠ 0 := by simp [some]
  refine read_cases t b ⟨clean.1,single⟩ ⟨clean.1,by simp⟩ (fun _ => clean)
    ⟨?_,by simp⟩ fun mode kept => ⟨clean.1,?_⟩
  · intro c found
    simp only [List.mem_append,List.mem_map,List.mem_singleton] at found
    rcases found with (found | ⟨d,found,rfl⟩) | rfl
    · exact clean.1 c found
    · exact lowers d (clean.2 d found)
    · decide
  · cases kept with
    | false => exact single
    | true =>
      intro c found
      rcases List.mem_append.mp found with found | found
      · exact clean.2 c found
      · exact single c found

theorem run_clean (rest : Bytes) {t : Tape} (clean : t.Clean) (some : ∀ b ∈ rest, b ≠ 0) :
    (t.run rest).Clean := by
  induction rest generalizing t with
  | nil => exact clean
  | cons b rest ih => exact ih (read_clean clean (some b (by simp))) fun c found => some c (by simp [found])

theorem read_size (t : Tape) (b : UInt8) :
    (t.read b).out.length+(t.read b).pend.length ≤ t.out.length+t.pend.length+1 := by
  refine read_cases (motive := fun next => next.out.length+next.pend.length ≤
    t.out.length+t.pend.length+1) t b
    (by simp) (by simp; omega) (fun _ => Nat.le_succ _) (by simp [Nat.add_assoc]) fun mode kept => ?_
  cases kept <;> simp [Tape.keep,Nat.add_assoc]

theorem run_size (rest : Bytes) (t : Tape) :
    (t.run rest).out.length ≤ t.out.length+t.pend.length+rest.length := by
  induction rest generalizing t with
  | nil => exact Nat.le_add_right _ _
  | cons b rest ih =>
    have step := read_size t b
    have run := ih (t.read b)
    change ((t.read b).run rest).out.length ≤ _
    rw [List.length_cons]
    omega

-- The fingerprint once trailing spaces and zero bytes are gone.
def Tape.text (t : Tape) : Bytes := (t.out.rdropWhile space).filter (· ≠ 0)

theorem text_ink (t : Tape) : ink t.text ≤ ink t.out :=
  ((List.filter_sublist.trans (List.rdropWhile_prefix _ _).sublist).countP_le)

theorem blank_read (a : UInt8) : (blank.read a).out = [] ∧ (blank.read a).pend = [a] ∧
    (blank.read a).word = if space a then [] else [a] := by
  cases text : space a with
  | true =>
    rw [read_space blank text]
    exact ⟨rfl,rfl,rfl⟩
  | false =>
    unfold Tape.read
    rw [if_neg (by simp [text])]
    cases sign a <;> cases comparison a <;> exact ⟨rfl,rfl,rfl⟩

-- The words read so far, and a final space, give the joined words once trimmed.
theorem kept_text (rest : Bytes) {t : Tape} (clean : t.Clean) (some : ∀ b ∈ rest, b ≠ 0)
    (after : t.After a) (empty : t.out = [])
    (whole : unbroken (a :: rest) = true) (flush : t.mode = .lead → t.pend = [] ∨ ∀ b ∈ rest.head?,
    sign b = false)
    (ends : t.word = [] ∨ Ends (t.word.map lowerByte)) :
    (t.run (rest ++ [byte ' '])).text =
      joinSpace (fieldsFrom space (t.word.map lowerByte) (rest.map lowerByte)) := by
  have out := run_kept rest after whole flush
  rw [empty,List.nil_append,← fields_lower] at out
  have trims :=
    trim_emit (fields_end (t.word.map lowerByte) (rest.map lowerByte) (ends.imp_left fun none =>
      by simp [none]))
  have zero :=
    (run_clean (rest ++ [byte ' ']) clean fun c found => (List.mem_append.mp found).elim (some c) (by
    rintro found; rw [List.mem_singleton] at found; rw [found]; decide)).1
  unfold Tape.text
  rw [List.filter_eq_self.mpr fun c found =>
    decide_eq_true (zero c ((List.rdropWhile_prefix _ _).subset found)),out,trims]

theorem canonical_ascii (lower : Nat → Nat) {q : Bytes} (ascii : ∀ b ∈ q, b.toNat < 0x80) :
    canonical lower q = joinSpace (fieldsFunc space (q.map lowerByte)) := by
  rw [canonical,toLower_ascii lower q ascii]

theorem canonical_ink (lower : Nat → Nat) {q : Bytes} (ascii : ∀ b ∈ q, b.toNat < 0x80) :
    ink (canonical lower q) = ink q := by
  have fields := fields_ink [] (q.map lowerByte)
  rw [canonical_ascii lower ascii]
  change ink (emit (fieldsFunc space (q.map lowerByte))) = 0+_ at fields
  rw [ink_lower,Nat.zero_add] at fields
  by_cases none : fieldsFunc space (q.map lowerByte) = []
  · rw [none] at fields ⊢; exact fields
  · rw [joinSpace_emit none,ink_append] at fields; exact fields

theorem text_indented {a b : UInt8} (rest : Bytes) (some : ∀ c ∈ a :: b :: rest, c ≠ 0)
    (left : space a = true)
    (isSign : sign b = true) (whole : unbroken (a :: b :: rest) = true) :
    (blank.run (a :: b :: rest ++ [byte ' '])).text =
      lowerByte a :: joinSpace (fieldsFunc space ((a :: b :: rest).map lowerByte)) := by
  have text : space b = false := by
    cases bad : space b with
    | false => rfl
    | true => rw [((byte_kinds b).1 bad).1] at isSign; cases isSign
  have first : blank.read a = ⟨.lead,[],[a]⟩ := read_space blank left
  have second : Tape.read ⟨.lead,[],[a]⟩ b = ⟨.sign,[],[a,b]⟩ := by simp [Tape.read,text,isSign,Tape.keep]
  have after := read_after b (.inr ⟨a,read_after a (.inl rfl)⟩)
  rw [first,second] at after
  rw [unbroken,Bool.and_eq_true] at whole
  have spaces (c : UInt8) := (byte_kinds c).2.2.1
  have start : ∀ c ∈ [a,b], c ≠ 0 := fun c found => some c (List.mem_append_left rest found)
  have kept := kept_text rest ⟨by simp,start⟩ (fun c found => some c (by simp [found]))
    after rfl whole.2 nofun (.inr ⟨lowerByte b,rfl,(spaces b).trans text⟩)
  change (((blank.read a).read b).run (rest ++ [byte ' '])).text = _
  rw [first,second,kept]
  change joinSpace (fieldsFrom space [lowerByte a,lowerByte b] (rest.map lowerByte)) = _
  rw [joinSpace_fields_cons _ _ (by simp)]
  simp [fieldsFunc,fieldsFrom,spaces,left,text]

theorem text_kept {a : UInt8} (rest : Bytes) (some : ∀ c ∈ a :: rest, c ≠ 0)
    (keeps : keepsText (a :: rest) = true) :
    (blank.run (a :: rest ++ [byte ' '])).text =
      joinSpace (fieldsFunc space ((a :: rest).map lowerByte)) := by
  obtain ⟨out,pend,word⟩ := blank_read a
  have after := read_after a (.inl rfl)
  have same := (byte_kinds a).2.2.1
  rw [keepsText,Bool.and_eq_true,Bool.not_eq_true'] at keeps
  have kept := kept_text rest ⟨by simp [out],fun c found => some c (by rw [pend] at found; simp_all)⟩
    (fun c found => some c (by simp [found])) after out keeps.1 (fun lead => .inr ?_) ?_
  · change ((blank.read a).run (rest ++ [byte ' '])).text = _
    rw [kept,word,List.map_cons,fieldsFunc,fieldsFrom,same]
    cases space a <;> rfl
  · intro b found
    have left := after.blank.mp (.inl lead)
    cases rest with
    | nil => cases found
    | cons c rest =>
      cases found
      simpa [indented,left] using keeps.2
  · rw [word]
    cases text : space a with
    | true => exact .inl rfl
    | false => exact .inr ⟨lowerByte a,rfl,same.trans text⟩

theorem unbroken_append {a : UInt8} (rest more : Bytes) (whole : unbroken (a :: (rest ++ more)) = true) :
    unbroken (a :: rest) = true := by
  induction rest generalizing a with
  | nil => rfl
  | cons b rest ih =>
    rw [List.cons_append,unbroken,Bool.and_eq_true] at whole
    rw [unbroken,whole.1,ih whole.2]
    rfl

theorem text_lost {a : UInt8} (rest : Bytes) (broken : unbroken (a :: rest) = false) :
    ink (blank.run (a :: rest ++ [byte ' '])).text < ink (a :: rest) := by
  obtain ⟨out,pend,_⟩ := blank_read a
  have run := run_ink (rest ++ [byte ' ']) (read_after a (.inl rfl))
  have still : unbroken (a :: (rest ++ [byte ' '])) = false := by
    cases whole : unbroken (a :: (rest ++ [byte ' '])) with
    | false => rfl
    | true => rw [unbroken_append rest _ whole] at broken; cases broken
  have total : ink (a :: rest) = ink [a]+ink rest := ink_append [a] rest
  have first : (blank.read a).ink = ink [a] := by rw [Tape.ink,out,pend]; exact Nat.zero_add _
  have blanks : ink [byte ' '] = 0 := rfl
  rw [still,first,ink_append,blanks] at run
  calc ink (blank.run (a :: rest ++ [byte ' '])).text
      ≤ ink (blank.run (a :: rest ++ [byte ' '])).out := text_ink _
    _ ≤ ((blank.read a).run (rest ++ [byte ' '])).ink := Nat.le_add_right _ _
    _ < ink (a :: rest) := by rw [total]; exact Nat.lt_of_succ_le run

theorem text_canonical (lower : Nat → Nat) (q : Bytes) (ascii : ∀ b ∈ q, b.toNat < 0x80)
    (some : ∀ b ∈ q, b ≠ 0) :
    (blank.run (q ++ [byte ' '])).text = canonical lower q ↔ keepsText q = true := by
  cases q with
  | nil => exact ⟨fun _ => rfl,fun _ => rfl⟩
  | cons a rest =>
    constructor
    · intro same
      cases whole : unbroken (a :: rest) with
      | false =>
        have lost := text_lost rest whole
        rw [same,canonical_ink lower ascii] at lost
        exact absurd lost (Nat.lt_irrefl _)
      | true =>
        cases left : indented (a :: rest) with
        | false => rw [keepsText,whole,left]; rfl
        | true =>
          cases rest with
          | nil => cases left
          | cons b rest =>
            rw [indented,Bool.and_eq_true] at left
            rw [text_indented rest some left.1 left.2 whole,canonical_ascii lower ascii] at same
            exact absurd (congrArg List.length same) (by simp)
    · intro keeps
      rw [text_kept rest some keeps,canonical_ascii lower ascii]

end SqlReview.PlainText
