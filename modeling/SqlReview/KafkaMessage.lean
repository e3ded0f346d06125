import SqlReview.Intake
import SqlReview.JsonRewrite
import SqlReview.TextRewrite

namespace SqlReview.KafkaMessage
open GoText Records Json Intake ExplainDb TextRewrite

-- The five fields of a message, as a consumer of the topic reads them.
structure Message where
  arr : SqlInfo
  branch : Text
  db : Text
  expl : Text
  route : Text

def Message.of (kafkaData : ExplainsResult) (some_ : kafkaData.arr ≠ []) : Message :=
  ⟨kafkaData.arr.head some_,kafkaData.branch,kafkaData.db,kafkaData.expl,kafkaData.route⟩

def messageFields : List (FieldCodec Message) := [
  Wire.sqlInfo.field (text "arr") Message.arr (fun x v => {x with arr := v}),
  Codec.text.field (text "branch") Message.branch (fun x v => {x with branch := v}),
  Codec.text.field (text "db") Message.db (fun x v => {x with db := v}),
  Codec.text.field (text "expl") Message.expl (fun x v => {x with expl := v}),
  Codec.text.field (text "route") Message.route (fun x v => {x with route := v})]

def message : Codec Message :=
  .record messageFields
    ⟨Wire.sqlInfo.decode [],[],[],[],[]⟩
    (by decide)
    (by simp [messageFields,FieldCodec.Apart,Codec.field])
    (fun _ => by simp [messageFields,Codec.field])

-- The text that handler sends to Kafka.
def sent (nil : List Nat → Bool) (kafkaData : ExplainsResult) (some_ : kafkaData.arr ≠ []) : Text :=
  kafkaText (render (kafkaValue nil kafkaData (kafkaData.arr.head some_)))

theorem kafkaMessage_sent (nil : List Nat → Bool) (data : GoBytes.Bytes) (some_ : (decode data).1.arr ≠ []) :
    kafkaMessage nil data = .done (sent nil (decode data).1 some_) := by
  unfold kafkaMessage
  dsimp only
  split
  · contradiction
  · rename_i first rest arr
    have head : (decode data).1.arr.head some_ = first := by simp [arr]
    rw [sent,head]

def Message.texts (x : Message) : List Text := x.arr.texts ++ [x.branch,x.db,x.expl,x.route]

def tracesChange (g : Text → Text) (x : Traces) : Traces := ⟨g x.file,x.line,g x.function,g x.class_,g x.type⟩

def sqlInfoChange (g : Text → Text) (x : SqlInfo) : SqlInfo :=
  ⟨g x.info,x.trace.map (tracesChange g),g x.route,g x.branch,g x.dsn⟩

def Message.change (g : Text → Text) (x : Message) : Message :=
  ⟨sqlInfoChange g x.arr,g x.branch,g x.db,g x.expl,g x.route⟩

-- The characters that Marshal escapes for HTML only.
def html (c : Char) : Bool := c == '<' || c == '>' || c == '&'

def residues : List (Text × Text) :=
  [(text "u003c",text "<"),(text "u003e",text ">"),(text "&lt",text "<"),(text "&gt",text ">"),
    (text "u0026",text "&")]

theorem kafkaText_eq (s : Text) : kafkaText s = replaceEach s residues := rfl

-- Marshal without the escapes for HTML.
def bare (c : Char) : Text := if html c then [c] else escape c

theorem residues_some : ∀ pair ∈ residues,pair.1 ≠ [] := by decide

section
variable {pairs : List (Text × Text)}

theorem replaceEach_split (some_ : ∀ pair ∈ pairs,pair.1 ≠ []) (apart : ∀ pair ∈ pairs,c ∉ pair.1)
    (a b : Text) :
    replaceEach (a ++ c :: b) pairs = replaceEach a pairs ++ c :: replaceEach b pairs := by
  induction pairs generalizing a b with
  | nil => rfl
  | cons pair pairs ih =>
    obtain ⟨own,later⟩ := List.forall_mem_cons.mp some_
    obtain ⟨first,rest⟩ := List.forall_mem_cons.mp apart
    have split := replaceAll_split own first a b pair.2
    unfold replaceEach
    rw [List.foldl_cons,split]
    exact ih later rest _ _

theorem replaceEach_nil (pairs : List (Text × Text)) : replaceEach [] pairs = [] := by
  induction pairs with
  | nil => rfl
  | cons pair pairs ih => exact ih

theorem replaceEach_cons (some_ : ∀ pair ∈ pairs,pair.1 ≠ []) (apart : ∀ pair ∈ pairs,c ∉ pair.1) (s : Text) :
    replaceEach (c :: s) pairs = c :: replaceEach s pairs := by
  have split := replaceEach_split some_ apart [] s
  rwa [replaceEach_nil,List.nil_append] at split

theorem replaceEach_inert (passive : ∀ pair ∈ pairs,inert pair.1 t = true) (s : Text) :
    replaceEach (t ++ s) pairs = t ++ replaceEach s pairs := by
  induction pairs generalizing s with
  | nil => rfl
  | cons pair pairs ih =>
    obtain ⟨own,later⟩ := List.forall_mem_cons.mp passive
    have kept := replaceAll_inert own s pair.2
    unfold replaceEach
    rw [List.foldl_cons,kept]
    exact ih later _

theorem replaceEach_absent (absent : ∀ pair ∈ pairs,pair.1 ≠ [] ∧ ∀ c ∈ s,c ∉ pair.1.head?) :
    replaceEach s pairs = s := by
  induction pairs with
  | nil => rfl
  | cons pair pairs ih =>
    obtain ⟨own,later⟩ := List.forall_mem_cons.mp absent
    have kept := replaceAll_absent own.1 own.2 pair.2
    unfold replaceEach
    rw [List.foldl_cons,kept]
    exact ih later

theorem replaceEach_written {write : Char → Text}
    (writes : ∀ pair ∈ pairs,Writes write pair.1 ∧ pair.2.flatMap write = pair.2)
    (s : Text) : replaceEach (s.flatMap write) pairs = (replaceEach s pairs).flatMap write := by
  induction pairs generalizing s with
  | nil => rfl
  | cons pair pairs ih =>
    obtain ⟨own,later⟩ := List.forall_mem_cons.mp writes
    have written := replaceAll_written own.1 own.2 s
    unfold replaceEach
    rw [List.foldl_cons,written]
    exact ih later _

end

-- No escape that Marshal makes for JSON holds the beginning of a residue.
theorem escape_inert (special : unescaped c = false) (plain : html c = false) :
    ∀ pair ∈ residues,c ∉ pair.1 ∧ inert pair.1 (escape c) = true := by
  have low : ∀ n < 0x20,∀ pair ∈ residues,Char.ofNat n ∉ pair.1 ∧
      inert pair.1 (escape (Char.ofNat n)) = true := by
    decide +kernel
  have others (d : Char) (t : Text) (written : escape d = t)
      (passive : ∀ pair ∈ residues,d ∉ pair.1 ∧ inert pair.1 t = true) :
      ∀ pair ∈ residues,d ∉ pair.1 ∧ inert pair.1 (escape d) = true := by
    rw [written]
    exact passive
  have number (n : Nat) (same : c.toNat = n) : c = Char.ofNat n := by
    rw [← same,Char.ofNat_toNat]
  simp only [unescaped,Bool.not_eq_false',Bool.or_eq_true,beq_iff_eq,decide_eq_true_eq] at special
  simp only [html,Bool.or_eq_false_iff,beq_eq_false_iff_ne] at plain
  rcases special with ((((((quote | slash) | less) | more) | ampersand) | control) | line) | paragraph
  · rw [quote]
    exact others '"' (text "\\\"") rfl (by decide)
  · rw [slash]
    exact others '\\' (text "\\\\") rfl (by decide)
  · exact absurd less plain.1.1
  · exact absurd more plain.1.2
  · exact absurd ampersand plain.2
  · rw [number _ rfl]
    exact low _ control
  · rw [number _ line]
    exact others _ (text "\\u2028") rfl (by decide)
  · rw [number _ paragraph]
    exact others _ (text "\\u2029") rfl (by decide)

theorem bare_writes : ∀ pair ∈ residues,Writes bare pair.1 ∧ pair.2.flatMap bare = pair.2 := by
  intro pair member
  have slash : ∀ pair ∈ residues,'\\' ∉ pair.1 := by decide
  have kept : ∀ pair ∈ residues,pair.2.flatMap bare = pair.2 := by decide +kernel
  refine ⟨⟨residues_some pair member,slash pair member,?_⟩,kept pair member⟩
  intro c
  unfold bare
  split
  · exact Or.inl rfl
  · rename_i plain
    cases own : unescaped c with
    | true => exact Or.inl (if_pos own)
    | false =>
      obtain ⟨apart,passive⟩ := escape_inert own (Bool.eq_false_iff.mpr plain) pair member
      refine Or.inr ⟨?_,apart,passive⟩
      unfold escape
      rw [if_neg (by simp [own])]
      split_ifs <;> exact ⟨_,rfl⟩

theorem bare_spelling (c : Char) : Spelling c (bare c) := by
  unfold bare
  split
  · rename_i own
    refine ⟨.char c,fun _ => rfl,fun s => ?_⟩
    simp only [html,Bool.or_eq_true,beq_iff_eq] at own
    rw [List.singleton_append,readPieces.eq_def]
    rcases own with (rfl | rfl) | rfl
    all_goals simp [Option.map_eq_bind]
  · exact readPieces_escape c

theorem escape_bare {s : Text} (clean : s.all (!html ·) = true) : s.flatMap escape = s.flatMap bare := by
  induction s with
  | nil => rfl
  | cons c s ih =>
    obtain ⟨own,later⟩ := Bool.and_eq_true_iff.mp (List.all_cons ▸ clean)
    rw [List.flatMap_cons,List.flatMap_cons,ih later,bare,if_neg (by simpa using own)]

-- A residue in front is passed over by the replacements before its own and leaves its character to
-- those behind it.
theorem residue_replaced {old s : Text} (before : List (Text × Text))
    (all : residues = before ++ (old,[c]) :: after) (passive : ∀ pair ∈ before,inert pair.1 old = true)
    (apart : ∀ pair ∈ after,c ∉ pair.1) : ∃ t,kafkaText (old ++ s) = c :: t := by
  have some_ : ∀ pair ∈ (old,[c]) :: after,pair.1 ≠ [] := by
    intro pair member
    apply residues_some
    rw [all]
    exact List.mem_append_right _ member
  obtain ⟨own,later⟩ := List.forall_mem_cons.mp some_
  refine ⟨replaceEach (replaceAll (replaceEach s before) old [c]) after,?_⟩
  calc kafkaText (old ++ s) = replaceEach (replaceAll (replaceEach (old ++ s) before) old [c]) after := by
        rw [kafkaText_eq,all,replaceEach,List.foldl_append]
        rfl
    _ = replaceEach (c :: replaceAll (replaceEach s before) old [c]) after := by
        rw [replaceEach_inert passive,replaceAll_hit _ _ own]
        rfl
    _ = c :: replaceEach (replaceAll (replaceEach s before) old [c]) after := replaceEach_cons later apart _

-- The letters behind the backslash of an escape for HTML are a residue, and only the backslash is left of it.
theorem html_residue (own : html c = true) (s : Text) : ∃ t,kafkaText ((escape c).tail ++ s) = c :: t := by
  simp only [html,Bool.or_eq_true,beq_iff_eq] at own
  rcases own with (rfl | rfl) | rfl
  · exact residue_replaced [] rfl (by decide) (by decide)
  · exact residue_replaced [_] rfl (by decide) (by decide)
  · exact residue_replaced [_,_,_,_] rfl (by decide) (by decide)

theorem html_escape (own : html c = true) : escape c = '\\' :: (escape c).tail := by
  simp only [html,Bool.or_eq_true,beq_iff_eq] at own
  rcases own with (rfl | rfl) | rfl
  all_goals rfl

theorem readPieces_html (own : html c = true) (s : Text) : readPieces ('\\' :: c :: s) = none := by
  simp only [html,Bool.or_eq_true,beq_iff_eq] at own
  rcases own with (rfl | rfl) | rfl
  all_goals
    rw [readPieces.eq_def]
    rfl

theorem string_read (s rest : Text) :
    readString (kafkaText (s.flatMap escape) ++ '"' :: rest) = (guarded (!html ·) kafkaText s).map
      (·,rest) := by
  by_cases clean : s.all (!html ·) = true
  · rw [escape_bare clean,kafkaText_eq,replaceEach_written bare_writes,
      readString_spelled bare_spelling,guarded_some clean]
    rfl
  · -- The string is read up to its first escape for HTML.
    obtain ⟨c,found⟩ : ∃ c,s.find? html = some c := by
      apply Option.isSome_iff_exists.mp
      simpa [List.find?_isSome] using clean
    obtain ⟨own,a,b,whole,before⟩ := List.find?_eq_some_iff_append.mp found
    have plain : a.all (!html ·) = true := List.all_eq_true.mpr before
    obtain ⟨t,left⟩ := html_residue own (b.flatMap escape)
    obtain ⟨pieces,_,read⟩ := readPieces_spelled bare_spelling (replaceEach a residues)
    have shape : kafkaText (s.flatMap escape) = (replaceEach a residues).flatMap bare ++ '\\' :: c :: t := by
      rw [whole,List.flatMap_append,List.flatMap_cons,html_escape own,List.cons_append,kafkaText_eq,
        replaceEach_split residues_some (by decide),escape_bare plain,
          replaceEach_written bare_writes,← kafkaText_eq ((escape c).tail ++ _),left]
    rw [readString,shape,List.append_assoc,List.cons_append,List.cons_append,read,
      readPieces_html own,guarded,if_neg clean]
    rfl

theorem number_absent (numeric : isNumber literal = true) :
    ∀ pair ∈ residues,pair.1 ≠ [] ∧ ∀ c ∈ literal,c ∉ pair.1.head? := by
  have chars : literal.all (fun c => c != 'u' && c != '&') = true := by
    apply (number_over _ ⟨rfl,rfl,rfl,rfl,rfl⟩ numeric).2
    intro c digit
    have letter : c ≠ 'u' := by
      rintro rfl
      cases digit
    have ampersand : c ≠ '&' := by
      rintro rfl
      cases digit
    simp [letter,ampersand]
  have heads : ∀ pair ∈ residues,pair.1.head? = some 'u' ∨ pair.1.head? = some '&' := by decide
  intro pair member
  refine ⟨residues_some pair member,?_⟩
  intro c inside
  have own := List.all_eq_true.mp chars c inside
  simp only [Bool.and_eq_true,bne_iff_ne] at own
  rcases heads pair member with head | head
  · rw [head]
    intro same
    exact own.1 (Option.some.inj same).symm
  · rw [head]
    intro same
    exact own.2 (Option.some.inj same).symm

theorem kafka_rewrites : Rewrites kafkaText (guarded (!html ·) kafkaText) where
  nil := rfl
  splits a c b own := by
    have marks : ∀ pair ∈ residues,pair.1.all (!mark ·) = true := by decide
    apply replaceEach_split residues_some
    intro pair member inside
    have other := List.all_eq_true.mp (marks pair member) c inside
    rw [own] at other
    cases other
  atoms literal value known := by
    unfold atom at known
    split at known
    · rename_i numeric
      exact replaceEach_absent (number_absent numeric)
    split at known
    · rename_i word
      rw [word]
      rfl
    split at known
    · rename_i word
      rw [word]
      rfl
    split at known
    · rename_i word
      rw [word]
      rfl
    · cases known
  strings := string_read

theorem traces_restrings : Wire.traces.Restrings (!html ·) kafkaText (tracesChange kafkaText) := by
  apply record_restrings
  · intro f member
    simp only [Wire.tracesFields,List.mem_cons,List.not_mem_nil,or_false] at member
    rcases member with rfl | rfl | rfl | rfl | rfl
    case inr.inl => exact field_restrings (number_restrings _ _) fun _ => rfl
    all_goals exact field_restrings text_restrings fun _ => rfl
  · decide +kernel

theorem sqlInfo_restrings : Wire.sqlInfo.Restrings (!html ·) kafkaText (sqlInfoChange kafkaText) := by
  apply record_restrings
  · intro f member
    simp only [Wire.sqlInfoFields,List.mem_cons,List.not_mem_nil,or_false] at member
    rcases member with rfl | rfl | rfl | rfl | rfl
    case inr.inl => exact field_restrings (slice_restrings traces_restrings) fun _ => rfl
    all_goals exact field_restrings text_restrings fun _ => rfl
  · decide +kernel

theorem message_restrings : message.Restrings (!html ·) kafkaText (Message.change kafkaText) := by
  apply record_restrings
  · intro f member
    simp only [messageFields,List.mem_cons,List.not_mem_nil,or_false] at member
    rcases member with rfl | rfl | rfl | rfl | rfl
    · exact field_restrings sqlInfo_restrings fun _ => rfl
    all_goals exact field_restrings text_restrings fun _ => rfl
  · decide +kernel

theorem message_spells {p : Char → Prop} (x : Message) : Spells p (message.texts x) ↔ Spells p x.texts := by
  simp [message,Codec.record,messageFields,Codec.field,Codec.text,Message.texts,Wire.sqlInfo_spells]

theorem not_html : (!html c) = true ↔ c ≠ '<' ∧ c ≠ '>' ∧ c ≠ '&' := by
  simp [html,and_assoc]

theorem clean_texts {x : Message} (own : x.texts.all (·.all (!html ·)) = true) :
    ∀ t ∈ x.texts,∀ c ∈ t,c ≠ '<' ∧ c ≠ '>' ∧ c ≠ '&' := by
  intro t member c inside
  exact not_html.mp (List.all_eq_true.mp (List.all_eq_true.mp own t member) c inside)

-- The message is JSON, and holds the fields without their residues, unless a string has a character
-- that Marshal escapes for HTML: the letters of the escape are replaced and its backslash stays.
theorem kafka_message_exact (nil : List Nat → Bool) (kafkaData : ExplainsResult)
    (some_ : kafkaData.arr ≠ []) :
    (∀ data,(decode data).1 = kafkaData → kafkaMessage nil data = .done (sent nil kafkaData some_)) ∧
    ((parse (sent nil kafkaData some_)).isSome = true ↔
      ∀ t ∈ (Message.of kafkaData some_).texts,∀ c ∈ t,c ≠ '<' ∧ c ≠ '>' ∧ c ≠ '&') ∧
    (unmarshal message (sent nil kafkaData some_) = ((Message.of kafkaData some_).change kafkaText,none) ↔
      ∀ t ∈ (Message.of kafkaData some_).texts,∀ c ∈ t,c ≠ '<' ∧ c ≠ '>' ∧ c ≠ '&') := by
  have same : sent nil kafkaData some_ =
  kafkaText (marshal message (fun path => nil path.tail) (Message.of kafkaData some_)) :=
    rfl
  have clean : Spells (fun c => (!html c) = true) (message.texts (Message.of kafkaData some_)) ↔
      ∀ t ∈ (Message.of kafkaData some_).texts,∀ c ∈ t,c ≠ '<' ∧ c ≠ '>' ∧ c ≠ '&' := by
    rw [message_spells]
    simp only [Spells,not_html]
  refine ⟨?_,?_⟩
  · rintro data rfl
    exact kafkaMessage_sent nil data some_
  · rw [same,← clean]
    exact marshal_rewritten kafka_rewrites (by decide) message_restrings _ _

-- A query with a residue of an escape and nothing that Marshal escapes for HTML.
def residueResult : ExplainsResult :=
  ⟨text "select a where b u003c ?",[⟨text "select a where b u003c 3",[],[],[],[]⟩],[],[],[],0,[],[],[],[]⟩

theorem residue_delivered :
    unmarshal message (sent (fun _ => true) residueResult (by decide)) =
      ((Message.of residueResult (by decide)).change kafkaText,none) :=
  (kafka_message_exact (fun _ => true) residueResult (by decide)).2.2.mpr (clean_texts (by decide +kernel))

-- The same query as it was meant: the message is cut to a backslash before the sign, which is no JSON.
def comparedResult : ExplainsResult :=
  ⟨text "select a where b < ?",[⟨text "select a where b < 3",[],[],[],[]⟩],[],[],[],0,[],[],[],[]⟩

theorem comparison_broken :
    sent (fun _ => true) comparedResult (by decide) =
      text "\x7b\"arr\":\x7b\"info\":\"select a where b \\< 3\",\"trace\":null,\"route\":\"\",\"branch\":\"\",\"dsn\":\"\"\x7d,\"branch\":\"\",\"db\":\"\",\"expl\":\"select a where b \\< ?\",\"route\":\"\"\x7d" ∧
    (parse (sent (fun _ => true) comparedResult (by decide))).isSome = false := by
  constructor
  · decide +kernel
  · decide +kernel

end SqlReview.KafkaMessage
