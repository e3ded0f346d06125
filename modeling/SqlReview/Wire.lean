import SqlReview.JsonCodec
import SqlReview.Records

namespace SqlReview.Wire
open GoText Records Json

def tracesFields : List (FieldCodec Traces) := [
  Codec.text.field (text "file") Traces.file (fun x v => {x with file := v}),
  Codec.int64.field (text "line") Traces.line (fun x v => {x with line := v}),
  Codec.text.field (text "function") Traces.function (fun x v => {x with function := v}),
  Codec.text.field (text "class") Traces.class_ (fun x v => {x with class_ := v}),
  Codec.text.field (text "type") Traces.type (fun x v => {x with type := v})]

def traces : Codec Traces :=
  .record tracesFields
    ⟨[],0,[],[],[]⟩
    (by decide)
    (by simp [tracesFields,FieldCodec.Apart,Codec.field])
    (fun _ => by simp [tracesFields,Codec.field])

def sqlInfoFields : List (FieldCodec SqlInfo) := [
  Codec.text.field (text "info") SqlInfo.info (fun x v => {x with info := v}),
  traces.slice.field (text "trace") SqlInfo.trace (fun x v => {x with trace := v}),
  Codec.text.field (text "route") SqlInfo.route (fun x v => {x with route := v}),
  Codec.text.field (text "branch") SqlInfo.branch (fun x v => {x with branch := v}),
  Codec.text.field (text "dsn") SqlInfo.dsn (fun x v => {x with dsn := v})]

def sqlInfo : Codec SqlInfo :=
  .record sqlInfoFields
    ⟨[],[],[],[],[]⟩
    (by decide)
    (by simp [sqlInfoFields,FieldCodec.Apart,Codec.field])
    (fun _ => by simp [sqlInfoFields,Codec.field])

def explainsFields : List (FieldCodec Explains) := [
  Codec.uint64.field (text "id") Explains.id (fun x v => {x with id := v}),
  Codec.text.field (text "select_type") Explains.selectType (fun x v => {x with selectType := v}),
  Codec.text.field (text "table") Explains.table (fun x v => {x with table := v}),
  Codec.text.field (text "type") Explains.type (fun x v => {x with type := v}),
  Codec.text.field (text "possible_keys") Explains.possibleKeys (fun x v => {x with possibleKeys := v}),
  Codec.text.field (text "key") Explains.key (fun x v => {x with key := v}),
  Codec.text.field (text "key_len") Explains.keyLen (fun x v => {x with keyLen := v}),
  Codec.text.field (text "ref") Explains.ref (fun x v => {x with ref := v}),
  Codec.uint64.field (text "rows") Explains.rows (fun x v => {x with rows := v}),
  Codec.text.field (text "extra") Explains.extra (fun x v => {x with extra := v})]

def explains : Codec Explains :=
  .record explainsFields
    ⟨0,[],[],[],[],[],[],[],0,[]⟩
    (by decide)
    (by simp [explainsFields,FieldCodec.Apart,Codec.field])
    (fun _ => by simp [explainsFields,Codec.field])

def explainsResultFields : List (FieldCodec ExplainsResult) := [
  Codec.text.field (text "expl") ExplainsResult.expl (fun x v => {x with expl := v}),
  sqlInfo.slice.field (text "arr") ExplainsResult.arr (fun x v => {x with arr := v}),
  explains.slice.field (text "explain") ExplainsResult.explain (fun x v => {x with explain := v}),
  Codec.text.field (text "last_query_cost") ExplainsResult.lastQueryCost
    (fun x v => {x with lastQueryCost := v}),
  Codec.text.field (text "level") ExplainsResult.level (fun x v => {x with level := v}),
  Codec.int64.field (text "score") ExplainsResult.score (fun x v => {x with score := v}),
  Codec.text.field (text "content") ExplainsResult.content (fun x v => {x with content := v}),
  Codec.text.field (text "branch") ExplainsResult.branch (fun x v => {x with branch := v}),
  Codec.text.field (text "db") ExplainsResult.db (fun x v => {x with db := v}),
  Codec.text.field (text "route") ExplainsResult.route (fun x v => {x with route := v})]

def explainsResult : Codec ExplainsResult :=
  .record explainsResultFields
    ⟨[],[],[],[],[],0,[],[],[],[]⟩
    (by decide)
    (by simp [explainsResultFields,FieldCodec.Apart,Codec.field])
    (fun _ => by simp [explainsResultFields,Codec.field])

-- What both decoders do to a text in which no string starts with a brace.
def repaired (data : Text) : Text :=
  if index data (text "\"\x7b") = none then
    replaceAll (replaceAll (replaceAll data (text "^") []) (text "\\") []) (text "\"") (text "\"")
  else data

def jsonEncode (nil : List Nat → Bool) (sql : SqlInfo) : Text := marshal sqlInfo nil sql

def jsonDecode (data : Text) : SqlInfo × Option Failure := unmarshal sqlInfo (repaired data)

def jsonSqlExpEncode (nil : List Nat → Bool) (sql : ExplainsResult) : Text := marshal explainsResult nil sql

def jsonSqlExpDecode (data : Text) : ExplainsResult × Option Failure :=
  unmarshal explainsResult (repaired data)

-- The characters a string loses on the way, unless the text is left alone.
def altered (c : Char) : Bool := c == '^' || !unescaped c

theorem altered_eq_false : altered c = false ↔ c ≠ '^' ∧ unescaped c = true := by
  simp [altered]

theorem nameChar_kept (name : nameChar c = true) : altered c = false := by
  simp only [nameChar,Bool.or_eq_true,beq_iff_eq] at name
  rcases name with lower | rfl
  · have word : atomChar c = true := by simp [atomChar,Char.isAlphanum,Char.isAlpha,lower]
    refine altered_eq_false.mpr ⟨?_,atomChar_unescaped word⟩
    rintro rfl
    cases lower
  · rfl

theorem stripped (data : Text) (closed : index data (text "\"\x7b") = none) :
    repaired data = (data.filter (· ≠ '^')).filter (· ≠ '\\') := by
  have caret := replaceAll_delete data '^'
  have slash := replaceAll_delete (data.filter (· ≠ '^')) '\\'
  have quote := replaceAll_self ((data.filter (· ≠ '^')).filter (· ≠ '\\')) '"'
  rw [repaired,if_pos closed]
  change replaceAll (replaceAll (replaceAll data ['^'] []) ['\\'] []) ['"'] ['"'] = _
  rw [caret,slash,quote]

theorem marshal_chars (codec : Codec α) : ∀ c ∈ marshal codec nil x,c = '"' ∨ c = '\\' ∨
    unescaped c = true := by
  refine render_chars ?_ (fun _ _ _ => escape_chars) (codec.made (Nat.le_refl _) nil x)
  intro c frame
  rcases framing_unescaped frame with quote | plain
  · exact Or.inl quote
  · exact Or.inr (Or.inr plain)

theorem marshal_kept (codec : Codec α) (nil : List Nat → Bool)
    (spells : Spells (fun c => altered c = false) (codec.texts x)) :
    ∀ c ∈ marshal codec nil x,c ≠ '^' ∧ c ≠ '\\' := by
  refine render_chars ?_ ?_ (codec.encodes (fun _ => nameChar_kept) (Nat.le_refl _) nil x spells)
  · intro c frame
    constructor <;> rintro rfl <;> cases frame
  · intro c kept d member
    obtain ⟨caret,plain⟩ := altered_eq_false.mp kept
    rw [escape,if_pos plain] at member
    cases List.mem_singleton.mp member
    refine ⟨caret,?_⟩
    rintro rfl
    cases plain

theorem repaired_exact (codec : Codec α) (shallow : codec.nesting ≤ maxNestingDepth)
    (nil : List Nat → Bool) (x : α) :
    unmarshal codec (repaired (marshal codec nil x)) = (x,none) ↔
      index (marshal codec nil x) (text "\"\x7b") ≠ none ∨ Spells (fun c => altered c = false)
      (codec.texts x) := by
  by_cases closed : index (marshal codec nil x) (text "\"\x7b") = none
  · rw [stripped _ closed]
    constructor
    · intro read
      refine Or.inr (unmarshal_literal codec ?_ read)
      -- What is left holds no escape, so its strings are read as they stand.
      intro c member
      obtain ⟨inside,slash⟩ := List.mem_filter.mp member
      obtain ⟨own,caret⟩ := List.mem_filter.mp inside
      have noSlash : c ≠ '\\' := of_decide_eq_true slash
      refine ⟨noSlash,?_⟩
      rcases marshal_chars codec c own with quote | slash | plain
      · exact Or.inl quote
      · contradiction
      · exact Or.inr (altered_eq_false.mpr ⟨of_decide_eq_true caret,plain⟩)
    · rintro (opened | spells)
      · contradiction
      · have kept := marshal_kept codec nil spells
        rw [List.filter_eq_self.mpr fun c member => decide_eq_true (kept c member).1,
          List.filter_eq_self.mpr fun c member => decide_eq_true (kept c member).2]
        exact unmarshal_marshal codec shallow nil x
  · rw [repaired,if_neg closed]
    exact iff_of_true (unmarshal_marshal codec shallow nil x) (Or.inl closed)

section Spells
variable {p : Char → Prop}

theorem traces_spells (x : Traces) : Spells p (traces.texts x) ↔ Spells p x.texts := by
  simp [traces,Codec.record,tracesFields,Codec.field,Codec.text,Codec.int64,Codec.number,Traces.texts]

theorem sqlInfo_spells (x : SqlInfo) : Spells p (sqlInfo.texts x) ↔ Spells p x.texts := by
  simp [sqlInfo,Codec.record,sqlInfoFields,Codec.field,Codec.text,Codec.slice,SqlInfo.texts,traces_spells]

theorem explains_spells (x : Explains) : Spells p (explains.texts x) ↔ Spells p x.texts := by
  simp [explains,Codec.record,explainsFields,Codec.field,Codec.text,Codec.uint64,Codec.number,Explains.texts]

theorem explainsResult_spells (x : ExplainsResult) : Spells p (explainsResult.texts x) ↔
    Spells p x.texts := by
  simp [explainsResult,Codec.record,explainsResultFields,Codec.field,Codec.text,Codec.int64,
    Codec.number,Codec.slice,
    ExplainsResult.texts,sqlInfo_spells,explains_spells]
end Spells

theorem wire_fidelity :
    (∀ (nil : List Nat → Bool) (x : ExplainsResult),jsonSqlExpDecode (jsonSqlExpEncode nil x) = (x,none) ↔
      index (jsonSqlExpEncode nil x) (text "\"\x7b") ≠ none ∨ ∀ t ∈ x.texts,∀ c ∈ t,altered c = false) ∧
    (∀ (nil : List Nat → Bool) (x : SqlInfo),jsonDecode (jsonEncode nil x) = (x,none) ↔
      index (jsonEncode nil x) (text "\"\x7b") ≠ none ∨ ∀ t ∈ x.texts,∀ c ∈ t,altered c = false) := by
  constructor
  · intro nil x
    exact (repaired_exact explainsResult (by decide) nil x).trans (or_congr_right (explainsResult_spells x))
  · intro nil x
    exact (repaired_exact sqlInfo (by decide) nil x).trans (or_congr_right (sqlInfo_spells x))

end SqlReview.Wire
