import SqlReview.ExplainDb
import SqlReview.SqlLiteral

namespace SqlReview.InsertStatement
open GoText Records ExplainDb SqlLiteral Json

def insertInto : Text :=
  text "INSERT INTO sqlexplain(`expl`,`route`,`sql_info`,`explain`,`last_query_cost`,`level`,`score`,`content`,`branch`,`db`,`flag`,`daytime`,`create_datetime`) VALUES("

-- fmt.Sprintf of the row: every string between quotes as it is, the cost without quotes.
def sqlStr (row : Row) : Text :=
  insertInto ++ text "'" ++ row.expl ++ text "','" ++ row.route ++ text "','" ++ row.sqlInfo ++
    text "','" ++ row.explain ++
    text "'," ++ row.lastQueryCost ++ text ",'" ++ row.level ++ text "'," ++
      decimal row.score.toInt ++ text ",'" ++
    row.content ++ text "','" ++ row.branch ++ text "','" ++ row.db ++ text "'," ++
      decimal row.flag ++ text ",'" ++
    row.daytime ++ text "','" ++ row.createDatetime ++ text "')"

def replacements : List (Text × Text) :=
  [(text "u003c",text "<"),(text "u003e",text ">"),(text "&lt",text "<"),
  (text "&gt",text ">"),(text "u0026",text "&")]

-- A column of JSON before its quotes are escaped.
def jsonText (s : Text) : Text := replaceEach s replacements

theorem jsonColumn_quoted (s : Text) : jsonColumn s = quoted (jsonText s) := quoted_replace (jsonText s)

-- now.Format("2006/01/02") and now.Format("2006/01/02 15:04:05")
structure Clock where
  year : Nat
  month : Nat
  day : Nat
  hour : Nat
  minute : Nat
  second : Nat

def padded (width n : Nat) : Text := (Nat.toDigits 10 n).leftpad width '0'

def Clock.date (t : Clock) : Text := padded 4 t.year ++ '/' :: padded 2 t.month ++ '/' :: padded 2 t.day

def Clock.time (t : Clock) : Text := padded 2 t.hour ++ ':' :: padded 2 t.minute ++ ':' :: padded 2 t.second

def Clock.now (t : Clock) : Now := ⟨t.date,t.date ++ ' ' :: t.time⟩

example : (Clock.now ⟨2019,3,7,8,5,0⟩).createDatetime = text "2019/03/07 08:05:00" := by decide +kernel

-- The statement as MySQL reads it.
def readInsert (s : Text) : Option (List Token) :=
  if insertInto.isPrefixOf s then readRow 13 (s.drop insertInto.length) else none

section
variable (sql : ExplainsResult) (nil : List Nat → Bool) (clock : Clock) (flag : Nat)

def row : Row := {Row.of sql nil clock.now with flag := flag}

def sqlInfoText : Text := jsonText (marshal Wire.sqlInfo.slice (fun path => nil (1 :: path)) sql.arr)

def explainText : Text := jsonText (marshal Wire.explains.slice (fun path => nil (2 :: path)) sql.explain)

-- The thirteen values: the strings of the code, and a number where the cost stands.
def Carries : Prop := ∃ cost,numeric cost = true ∧ readInsert (sqlStr (row sql nil clock flag)) = some [
  .literal (explColumn sql.expl),.literal sql.route,.literal (sqlInfoText sql nil),
    .literal (explainText sql nil),.bare cost,
  .literal sql.level,.bare (decimal sql.score.toInt),.literal sql.content,.literal sql.branch,
    .literal sql.db,.bare (decimal flag),
  .literal clock.date,.literal clock.now.createDatetime]

end

-- No string that is spliced in as it is holds a quote or a live backslash, no string of the JSON
-- columns one that Marshal escapes, and the cost is a number.
structure Spliceable (sql : ExplainsResult) : Prop where
  expl : kept sql.expl = true
  route : kept sql.route = true
  arr : ∀ s ∈ sql.arr.flatMap SqlInfo.texts,∀ c ∈ s,unescaped c = true
  explain : ∀ s ∈ sql.explain.flatMap Explains.texts,∀ c ∈ s,unescaped c = true
  cost : numeric sql.lastQueryCost = true
  level : kept sql.level = true
  content : kept sql.content = true
  branch : kept sql.branch = true
  db : kept sql.db = true

def spliceable (sql : ExplainsResult) : Bool :=
  [sql.expl,sql.route,sql.level,sql.content,sql.branch,sql.db].all kept &&
    (sql.arr.flatMap SqlInfo.texts ++ sql.explain.flatMap Explains.texts).all (fun s => s.all unescaped) &&
    numeric sql.lastQueryCost

theorem spliceable_iff : spliceable sql = true ↔ Spliceable sql := by
  simp only [spliceable,Bool.and_eq_true,List.all_eq_true,List.forall_mem_append,List.forall_mem_cons]
  constructor
  · rintro ⟨⟨⟨expl,route,level,content,branch,db,_⟩,arr,explain⟩,cost⟩
    exact ⟨expl,route,arr,explain,cost,level,content,branch,db⟩
  · rintro ⟨expl,route,arr,explain,cost,level,content,branch,db⟩
    exact ⟨⟨⟨expl,route,level,content,branch,db,List.forall_mem_nil _⟩,arr,explain⟩,cost⟩

instance (sql : ExplainsResult) : Decidable (Spliceable sql) := decidable_of_iff _ spliceable_iff

theorem tame_suffix (a b : Text) (own : tame (a ++ b) = true) : tame b = true := by
  induction a with
  | nil => exact own
  | cons c a ih =>
    rw [List.cons_append,tame,Bool.and_eq_true] at own
    exact ih own.2

theorem escape_slash (special : unescaped c = false) : ∃ d more,escape c = '\\' :: d :: more ∧
    wild d = false := by
  unfold escape
  rw [if_neg (by simp [special])]
  split_ifs with own
  · refine ⟨c,[],rfl,?_⟩
    rcases Bool.or_eq_true _ _ ▸ own with quote | slash
    · rw [eq_of_beq quote]
      rfl
    · rw [eq_of_beq slash]
      rfl
  all_goals exact ⟨_,_,rfl,rfl⟩

theorem unescaped_tame (s rest : Text) (own : tame (s.flatMap escape ++ rest) = true) :
    ∀ c ∈ s,unescaped c = true := by
  induction s with
  | nil =>
    intro c member
    cases member
  | cons c s ih =>
    rw [List.flatMap_cons,List.append_assoc] at own
    refine List.forall_mem_cons.mpr ⟨?_,ih (tame_suffix _ _ own)⟩
    refine Bool.eq_true_of_not_eq_false fun special => ?_
    obtain ⟨d,more,start,other⟩ := escape_slash special
    rw [start,List.cons_append,List.cons_append,tame_slash,other] at own
    cases own

theorem commas_split {ts : List Text} (member : t ∈ ts) : ∃ a b,commas ts = a ++ (t ++ b) := by
  induction ts using commas.induct with
  | case1 => cases member
  | case2 u =>
    cases List.mem_singleton.mp member
    exact ⟨[],[],by simp [commas]⟩
  | case3 u us rest ih =>
    rw [commas]
    · rcases List.mem_cons.mp member with rfl | later
      · exact ⟨[],_,rfl⟩
      · obtain ⟨a,b,split⟩ := ih later
        exact ⟨u ++ ',' :: a,b,by simp [split]⟩
    · exact rest

theorem tame_member {ts : List Text} (member : t ∈ ts) (own : tame (o :: (commas ts ++ [e]) ++ rest) = true) :
    ∃ after,tame (t ++ after) = true := by
  obtain ⟨a,b,split⟩ := commas_split member
  refine ⟨b ++ e :: rest,tame_suffix (o :: a) _ ?_⟩
  rw [split] at own
  simpa using own

-- A text of JSON that is tame was written without an escape.
theorem tame_render (made : Over p depth v) (own : tame (render v ++ rest) = true) :
    Over (fun c => unescaped c = true) depth v := by
  induction made generalizing rest with
  | null => exact .null
  | bool => exact .bool
  | number literal => exact .number literal
  | string chars =>
    refine .string (unescaped_tame _ ('"' :: rest) (tame_suffix ['"'] _ ?_))
    simpa [render,quote] using own
  | array inside ih =>
    refine .array fun item member => ?_
    rw [render,renderItems_map] at own
    obtain ⟨after,alone⟩ := tame_member (List.mem_map_of_mem member) own
    exact ih item member alone
  | object names inside ih =>
    rw [render,renderFields_map] at own
    have field {f : Text × Value} (member : f ∈ _) := tame_member (List.mem_map_of_mem member) own
    refine .object (fun f member => ?_) fun f member => ?_
    · obtain ⟨after,alone⟩ := field member
      refine unescaped_tame f.1 ('"' :: ':' :: (render f.2 ++ after)) (tame_suffix ['"'] _ ?_)
      simpa [renderField,quote] using alone
    · obtain ⟨after,alone⟩ := field member
      apply ih f member
      apply tame_suffix (quote f.1 ++ [':'])
      simpa [renderField] using alone

theorem tame_free {s : Text} (free : ∀ c ∈ s,c ≠ '\\') : tame s = true := by
  induction s with
  | nil => rfl
  | cons c s ih =>
    obtain ⟨own,later⟩ := List.forall_mem_cons.mp free
    rw [tame_char c s own]
    exact ih later

theorem nameChar_unescaped (name : nameChar c = true) : unescaped c = true :=
  (Wire.altered_eq_false.mp (Wire.nameChar_kept name)).2

theorem tame_marshal (codec : Codec α) (nil : List Nat → Bool) (x : α) :
    tame (marshal codec nil x) = true ↔ Spells (fun c => unescaped c = true) (codec.texts x) := by
  constructor
  · intro own
    have plain := tame_render (codec.made (Nat.le_refl _) nil x) (List.append_nil (marshal codec nil x) ▸ own)
    have stored := codec.decodes [codec.encode nil x] (List.forall_mem_singleton.mpr ⟨_,plain⟩)
    rwa [codec.exact] at stored
  · intro spells
    apply tame_free
    refine render_chars ?_ ?_ (codec.encodes (fun _ => nameChar_unescaped) (Nat.le_refl _) nil x spells)
    · rintro c frame rfl
      cases frame
    · intro c plain d member
      rw [escape,if_pos plain] at member
      cases List.mem_singleton.mp member
      rintro rfl
      cases plain

theorem slice_spells {codec : Codec α} {texts : α → List Text}
    (each : ∀ {p : Char → Prop} (x : α),Spells p (codec.texts x) ↔ Spells p (texts x))
    {p : Char → Prop} (xs : List α) :
    Spells p (codec.slice.texts xs) ↔ Spells p (xs.flatMap texts) := by
  simp [Codec.slice,each]

theorem replacements_harmless : ∀ pair ∈ replacements,Harmless pair.1 pair.2 := by
  have each : ∀ pair ∈ replacements,pair.1 ≠ [] ∧ pair.2 ≠ [] ∧ pair.1.all plain = true ∧
    pair.2.all plain = true ∧
      pair.1.head?.any wild = false ∧ pair.2.head?.any wild = false := by decide
  intro pair member
  obtain ⟨some,shown,plainOld,plainNew,wildOld,wildNew⟩ := each pair member
  exact ⟨some,shown,plainOld,plainNew,wildOld,wildNew⟩

theorem tame_each (pairs : List (Text × Text)) (known : pairs ⊆ replacements) (s : Text) :
    tame (replaceEach s pairs) = tame s ∧ kept (replaceEach s pairs) = kept s := by
  induction pairs generalizing s with
  | nil => exact ⟨rfl,rfl⟩
  | cons pair pairs ih =>
    obtain ⟨first,later⟩ := List.cons_subset.mp known
    have harmless := replacements_harmless pair first
    obtain ⟨tames,keeps⟩ := ih later (replaceAll s pair.1 pair.2)
    exact ⟨tames.trans (tame_replace harmless s),keeps.trans (kept_replace harmless s)⟩

theorem tame_jsonText (codec : Codec α) (nil : List Nat → Bool) (x : α) :
    tame (jsonText (marshal codec nil x)) = true ↔ Spells (fun c => unescaped c = true) (codec.texts x) := by
  have same := (tame_each replacements (List.Subset.refl _) (marshal codec nil x)).1
  exact (Bool.eq_iff_iff.mp same).trans (tame_marshal codec nil x)

theorem kept_explColumn (s : Text) : kept (explColumn s) = kept s := (tame_each _ (by decide) s).2

theorem padded_digits (width n : Nat) : ∀ c ∈ padded width n,c.isDigit = true := by
  intro c member
  rw [padded,List.leftpad] at member
  rcases List.mem_append.mp member with zero | digit
  · cases List.eq_of_mem_replicate zero
    rfl
  · exact List.all_eq_true.mp (toDigits_digits n) c digit

theorem kept_plain {s : Text} (all : ∀ c ∈ s,plain c = true) : kept s = true := by
  have tames : tame s = true := tame_free fun c member => by
    rintro rfl
    cases all _ member
  have quote : '\'' ∉ s := fun member => by cases all _ member
  simp [kept,tames,quote]

theorem digit_plain (digit : c.isDigit = true) : plain c = true := by
  have quote : c ≠ '\'' := by
    rintro rfl
    cases digit
  have slash : c ≠ '\\' := by
    rintro rfl
    cases digit
  simp [plain,quote,slash]

theorem date_plain (t : Clock) : ∀ c ∈ t.date,plain c = true := by
  have digits (width n : Nat) : ∀ c ∈ padded width n,plain c = true :=
    fun c member => digit_plain (padded_digits width n c member)
  simp only [Clock.date,List.forall_mem_append,List.forall_mem_cons]
  exact ⟨⟨digits 4 t.year,rfl,digits 2 t.month⟩,rfl,digits 2 t.day⟩

theorem datetime_plain (t : Clock) : ∀ c ∈ t.now.createDatetime,plain c = true := by
  have digits (width n : Nat) : ∀ c ∈ padded width n,plain c = true :=
    fun c member => digit_plain (padded_digits width n c member)
  simp only [Clock.now,Clock.time,List.forall_mem_append,List.forall_mem_cons]
  exact ⟨date_plain t,rfl,⟨digits 2 t.hour,rfl,digits 2 t.minute⟩,rfl,digits 2 t.second⟩

theorem decimal_chars (i : Int) : ∀ c ∈ decimal i,numberChar c = true := by
  have digits := digits_chars (List.all_eq_true.mp (toDigits_digits i.natAbs))
  unfold decimal
  split
  · exact List.forall_mem_cons.mpr ⟨rfl,digits⟩
  · exact digits

theorem numeric_digits {s : Text} (some_ : s ≠ []) (digits : s.all Char.isDigit = true)
    (sign : Text) (signed : sign = [] ∨ sign = ['-']) :
    numeric (sign ++ s) = true := by
  have each := List.all_eq_true.mp digits
  obtain ⟨c,rest,rfl⟩ := List.exists_cons_of_ne_nil some_
  have first := each c List.mem_cons_self
  have inked : ∀ d ∈ sign ++ c :: rest,blank d = false := by
    intro d member
    rcases List.mem_append.mp member with front | own
    · rcases signed with rfl | rfl
      · cases front
      · cases List.mem_singleton.mp front
        rfl
    · have digit := each d own
      rw [Bool.eq_false_iff]
      intro blank_
      simp only [blank,Bool.or_eq_true,beq_iff_eq] at blank_
      rcases blank_ with ((rfl | rfl) | rfl) | rfl <;> cases digit
  have whole : trimmed (sign ++ c :: rest) = sign ++ c :: rest := by
    have same (t : Text) (inked : ∀ d ∈ t,blank d = false) : t.dropWhile blank = t := by
      cases t with
      | nil => rfl
      | cons d t => rw [List.dropWhile_cons,inked d List.mem_cons_self,if_neg Bool.false_ne_true]
    rw [trimmed,same _ inked,same _ fun d member => inked d (List.mem_reverse.mp member),List.reverse_reverse]
  have body : unsigned (sign ++ c :: rest) = c :: rest := by
    rcases signed with rfl | rfl
    · unfold unsigned
      split
      · rename_i found
        cases found
        cases first
      · rename_i found
        cases found
        cases first
      · rfl
    · rfl
  have front : (c :: rest).takeWhile Char.isDigit = c :: rest := List.takeWhile_eq_self_iff.mpr each
  have behind : (c :: rest).dropWhile Char.isDigit = [] := List.dropWhile_eq_nil_iff.mpr each
  unfold numeric
  dsimp only
  rw [whole,body,front,behind]
  rfl

theorem numeric_decimal (i : Int) : numeric (decimal i) = true := by
  have some_ : Nat.toDigits 10 i.natAbs ≠ [] := Nat.toDigits_ne_nil
  unfold decimal
  split
  · exact numeric_digits some_ (toDigits_digits _) ['-'] (.inr rfl)
  · exact numeric_digits some_ (toDigits_digits _) [] (.inl rfl)

section
variable (sql : ExplainsResult) (nil : List Nat → Bool) (clock : Clock) (flag : Nat)

-- The row as slots, the cost to be read as another text of its weight.
def slots (cost : Text) (same : weight sql.lastQueryCost = weight cost) : List Slot := [.raw sql.route,
  .quoted (sqlInfoText sql nil),.quoted (explainText sql nil),.bare sql.lastQueryCost cost same,
    .raw sql.level,
  .bare (decimal sql.score.toInt) (decimal sql.score.toInt) rfl,.raw sql.content,.raw sql.branch,.raw sql.db,
  .bare (decimal flag) (decimal flag) rfl,.raw clock.date,.raw clock.now.createDatetime]

theorem sqlStr_slots (same : weight sql.lastQueryCost = weight cost) : sqlStr (row sql nil clock flag) =
    insertInto ++ renderRow (.raw (explColumn sql.expl)) (slots sql nil clock flag cost same) := by
  have opened : text "'" = ['\''] := rfl
  have between : text "','" = ['\'',',','\''] := rfl
  have closed : text "'," = ['\'',','] := rfl
  have reopened : text ",'" = [',','\''] := rfl
  have ended : text "')" = ['\'',')'] := rfl
  unfold sqlStr
  generalize insertInto = front
  simp only [row,Row.of,jsonColumn_quoted,opened,between,closed,reopened,ended,slots,renderRow,
    Slot.raw,Slot.quoted,Slot.bare,
    sqlInfoText,explainText,List.append_assoc,List.cons_append,List.nil_append]
  rfl

theorem readInsert_behind (s : Text) : readInsert (insertInto ++ s) = readRow 13 s := by
  have opens : insertInto.isPrefixOf (insertInto ++ s) = true :=
    List.isPrefixOf_iff_prefix.mpr (List.prefix_append _ _)
  rw [readInsert,if_pos opens,List.drop_left]

def tokens (cost : Text) : List Token :=
  [.literal sql.route,.literal (sqlInfoText sql nil),.literal (explainText sql nil),
  .bare cost,.literal sql.level,.bare (decimal sql.score.toInt),.literal sql.content,
    .literal sql.branch,.literal sql.db,
  .bare (decimal flag),.literal clock.date,.literal clock.now.createDatetime]

-- The weight of the whole statement leaves no choice for the weight of the cost.
theorem cost_weight (read : readInsert (sqlStr (row sql nil clock flag)) =
    some (.literal (explColumn sql.expl) :: tokens sql nil clock flag cost)) :
    weight sql.lastQueryCost = weight cost := by
  rw [sqlStr_slots sql nil clock flag rfl,readInsert_behind] at read
  have total := readRow_weight (.literal (explColumn sql.expl)) (tokens sql nil clock flag cost) _ read
  rw [renderRow_weight] at total
  simp only [weights,slots,tokens,Slot.raw,Slot.quoted,Slot.bare,Token.weight,List.map_cons,
    List.map_nil,List.sum_cons,List.sum_nil,
    List.length_cons,List.length_nil] at total
  omega

theorem insert_exact (same : weight sql.lastQueryCost = weight cost) :
    readInsert (sqlStr (row sql nil clock flag)) =
    some (.literal (explColumn sql.expl) :: tokens sql nil clock flag cost) ↔
    ∀ slot ∈ Slot.raw (explColumn sql.expl) :: slots sql nil clock flag cost same,slot.exact := by
  rw [sqlStr_slots sql nil clock flag same,readInsert_behind]
  exact readRow_exact (.raw (explColumn sql.expl)) (slots sql nil clock flag cost same)

theorem slots_exact (number : numeric cost = true) (same : weight sql.lastQueryCost = weight cost) :
    (∀ slot ∈ Slot.raw (explColumn sql.expl) :: slots sql nil clock flag cost same,slot.exact) ↔
    cost = sql.lastQueryCost ∧ Spliceable sql := by
  have score := number_bare (decimal_chars sql.score.toInt)
  have flags := number_bare (decimal_chars flag)
  have date := kept_plain (date_plain clock)
  have datetime := kept_plain (datetime_plain clock)
  simp only [slots,List.forall_mem_cons,Slot.raw,Slot.quoted,Slot.bare,kept_explColumn,sqlInfoText,
    explainText,tame_jsonText,
    slice_spells Wire.sqlInfo_spells,slice_spells Wire.explains_spells]
  constructor
  · rintro ⟨expl,route,arr,explain,⟨rfl,_⟩,level,_,content,branch,db,_⟩
    exact ⟨rfl,expl,route,arr,explain,number,level,content,branch,db⟩
  · rintro ⟨rfl,expl,route,arr,explain,cost,level,content,branch,db⟩
    have bare := number_bare (numeric_chars cost)
    refine ⟨expl,route,arr,explain,⟨rfl,bare⟩,level,⟨trivial,score⟩,content,branch,db,
      ⟨trivial,flags⟩,date,datetime,?_⟩
    intro slot member
    cases member

-- The row that a statement with these values stores.
def values : List Token := .literal (explColumn sql.expl) :: tokens sql nil clock flag sql.lastQueryCost

theorem spliceable_reads (spliceable : Spliceable sql) :
    readInsert (sqlStr (row sql nil clock flag)) = some (values sql nil clock flag) :=
  (insert_exact sql nil clock flag rfl).mpr
    ((slots_exact sql nil clock flag spliceable.cost rfl).mpr ⟨rfl,spliceable⟩)

theorem insert_carries_data : Carries sql nil clock flag ↔ Spliceable sql := by
  constructor
  · rintro ⟨cost,number,read⟩
    have same := cost_weight sql nil clock flag read
    have exact := (insert_exact sql nil clock flag same).mp read
    exact ((slots_exact sql nil clock flag number same).mp exact).2
  · intro spliceable
    exact ⟨sql.lastQueryCost,spliceable.cost,spliceable_reads sql nil clock flag spliceable⟩

end

-- A fingerprint of a query with a quoted name, a cost of 10.50 and a trace from a namespaced class.
def quotedExpl : ExplainsResult :=
  ⟨text "select `it's` from t",[],[],text "10.50",text "info",0,[],text "master",text "db",[]⟩

def namespaced : ExplainsResult := {quotedExpl with expl := text "select ?",arr := [
  ⟨text "select 1",[⟨text "a.php",1,text "run",text "app\\Task",text "->"⟩],[],text "master",[]⟩]}

def uncosted : ExplainsResult := {quotedExpl with expl := text "select ?",lastQueryCost := []}

def noon : Clock := ⟨2019,3,7,12,0,0⟩

-- The quote ends the literal, the escaped backslash is read once too often, and nothing stands for the cost.
theorem splices_lost : ¬ Carries quotedExpl (fun _ => false) noon 1 ∧
    ¬ Carries namespaced (fun _ => false) noon 1 ∧
    ¬ Carries uncosted (fun _ => false) noon 1 := by
  refine ⟨?_,?_,?_⟩
  · rintro ⟨cost,_,read⟩
    have ends : readInsert (sqlStr (row quotedExpl (fun _ => false) noon 1)) = none := by decide +kernel
    cases ends.symm.trans read
  · rintro ⟨cost,_,read⟩
    have lost : (readInsert (sqlStr (row namespaced (fun _ => false) noon 1))).bind (·[2]?) ≠
      some (.literal (sqlInfoText namespaced fun _ => false)) := by decide +kernel
    rw [read] at lost
    exact lost rfl
  · rintro ⟨cost,number,read⟩
    have empty : (readInsert (sqlStr (row uncosted (fun _ => false) noon 1))).bind (·[4]?) =
        some (.bare []) := by
      decide +kernel
    rw [read] at empty
    cases empty
    cases number

end SqlReview.InsertStatement
