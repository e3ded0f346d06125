import SqlReview.GoNumber
import SqlReview.Intake

-- What ExcuteDbSql reads of a result set: SQLConnPool.Query, bytes2RealType and the type assertions.
namespace SqlReview.MysqlRows
open GoText GoBytes Records

-- The field types of the driver; `other` stands for a byte that it does not know.
inductive FieldType where
  | decimal | tiny | short | long | float | double | null | timestamp | longLong | int24 | date | time | dateTime | year
  | newDate | varChar | bit | json | newDecimal | enum | set | tinyBLOB | mediumBLOB | longBLOB | blob | varString | string
  | geometry | other
  deriving DecidableEq

structure Column where
  name : Text
  fieldType : FieldType
  -- charSet is that of the collation binary
  binary : Bool
  deriving DecidableEq

def Column.typeDatabaseName (column : Column) : Text :=
  match column.fieldType with
  | .bit => text "BIT"
  | .blob => if column.binary then text "BLOB" else text "TEXT"
  | .date | .newDate => text "DATE"
  | .dateTime => text "DATETIME"
  | .decimal | .newDecimal => text "DECIMAL"
  | .double => text "DOUBLE"
  | .enum => text "ENUM"
  | .float => text "FLOAT"
  | .geometry => text "GEOMETRY"
  | .int24 => text "MEDIUMINT"
  | .json => text "JSON"
  | .long => text "INT"
  | .longBLOB => if column.binary then text "LONGBLOB" else text "LONGTEXT"
  | .longLong => text "BIGINT"
  | .mediumBLOB => if column.binary then text "MEDIUMBLOB" else text "MEDIUMTEXT"
  | .null => text "NULL"
  | .set => text "SET"
  | .short => text "SMALLINT"
  | .string => if column.binary then text "BINARY" else text "CHAR"
  | .time => text "TIME"
  | .timestamp => text "TIMESTAMP"
  | .tiny => text "TINYINT"
  | .tinyBLOB => if column.binary then text "TINYBLOB" else text "TINYTEXT"
  | .varChar | .varString => if column.binary then text "VARBINARY" else text "VARCHAR"
  | .year => text "YEAR"
  | .other => []

-- What the interface{} of a cell holds; nothing computes with a float, so it stays a text.
inductive Cell where
  | int (i : Int)
  | uint (n : UInt64)
  | string (s : Text)
  | float (s : Text)
  | nil
  deriving DecidableEq

inductive Kind where
  | int | uint | string | float | nil
  deriving DecidableEq

-- The switch of bytes2RealType.
def kind (typeName : Text) : Kind :=
  if typeName ∈ ["BIT","TINYINT","SMALLINT","INT"].map text then .int
  else if typeName = text "BIGINT" then .uint
  else if typeName ∈ ["CHAR","VARCHAR","TINY TEXT","TEXT","MEDIUM TEXT","LONG TEXT","TINY BLOB",
    "MEDIUM BLOB","BLOB","LONG BLOB",
      "JSON","ENUM","SET","YEAR","DATE","TIME","TIMESTAMP","DATETIME"].map text then .string
  else if typeName ∈ ["FLOAT","DOUBLE","DECIMAL"].map text then .float
  else .nil

def Column.kind (column : Column) : Kind := MysqlRows.kind column.typeDatabaseName

-- NULL comes as nil RawBytes, and string(nil) is ""; the errors of strconv are dropped.
def bytes2RealType (src : Option Text) (column : Column) : Cell :=
  let srcStr := src.getD []
  match column.kind with
  | .int => .int (GoNumber.parseInt (Intake.utf8 srcStr)).1
  | .uint => .uint (UInt64.ofNat (GoNumber.parseUint (Intake.utf8 srcStr)).1)
  | .string => .string srcStr
  | .float => .float srcStr
  | .nil => .nil

abbrev Row := List (Column × Option Text)

-- A key that is not in the map reads as nil.
def rowMap (row : Row) : Text → Cell :=
  row.foldl (fun m cell => Function.update m cell.1.name (bytes2RealType cell.2 cell.1)) fun _ => .nil

-- What the server answers: no *sql.DB for the data source name, an error, or rows under columns.
inductive Reply where
  | unopened
  | failed
  | rows (columns : List Column) (values : List (List (Option Text)))

-- Query on an open pool: an error comes with no rows.
def query : Reply → List (Text → Cell)
  | .rows columns values => values.map fun cells => rowMap (columns.zip cells)
  | _ => []

def Cell.uint? : Cell → Option UInt64
  | .uint n => some n
  | _ => none

def Cell.string? : Cell → Option Text
  | .string s => some s
  | _ => none

-- The type assertions on one row; `none` is a panic.
def explainsTmp (m : Text → Cell) : Option Explains := do
  let id ← (m (text "id")).uint?
  let selectType ← (m (text "select_type")).string?
  let table ← (m (text "table")).string?
  let type ← (m (text "type")).string?
  let possibleKeys ← (m (text "possible_keys")).string?
  let key ← (m (text "key")).string?
  let keyLen ← (m (text "key_len")).string?
  let ref ← (m (text "ref")).string?
  let rows ← (m (text "rows")).uint?
  let extra ← (m (text "Extra")).string?
  return ⟨id,selectType,table,type,possibleKeys,key,keyLen,ref,rows,extra⟩

-- ExcuteDbSql from EXPLAIN to its rows.
def explainData (sql : ExplainsResult) (reply : Reply) : Option ExplainsResult :=
  match reply with
  | .unopened => none
  | reply => ((query reply).mapM explainsTmp).map fun rows => {sql with explain := sql.explain ++ rows}

-- And from show status to the cost, with an assertion that cannot panic.
def explainConst (sql : ExplainsResult) (reply : Reply) : ExplainsResult :=
  match query reply with
  | [] => sql
  | m :: _ => {sql with lastQueryCost := ((m (text "Value")).string?).getD []}

-- The cell that a name reads: that of its last column.
def lastCell (row : Row) (name : Text) : Option (Column × Option Text) :=
  row.reverse.find? fun cell => cell.1.name = name

def lastColumn (columns : List Column) (name : Text) : Option Column :=
  columns.reverse.find? fun column => column.name = name

def source (row : Row) (name : Text) : Text := ((lastCell row name).bind Prod.snd).getD []

theorem rowMap_last (row : Row) (name : Text) :
    rowMap row name = ((lastCell row name).map fun cell => bytes2RealType cell.2 cell.1).getD .nil := by
  induction row using List.reverseRecOn with
  | nil => rfl
  | append_singleton row cell ih =>
    have snoc : rowMap (row ++ [cell]) = Function.update (rowMap row) cell.1.name
        (bytes2RealType cell.2 cell.1) := by
      rw [rowMap,List.foldl_append]
      rfl
    rw [snoc,lastCell,List.reverse_append,List.reverse_singleton,List.singleton_append,List.find?_cons]
    by_cases same : cell.1.name = name
    · rw [same,Function.update_self]
      simp
    · rw [Function.update_of_ne (Ne.symm same),ih]
      simp [same,lastCell]

theorem lastCell_column (row : Row) (name : Text) :
    (lastCell row name).map Prod.fst = lastColumn (row.map Prod.fst) name := by
  rw [lastCell,lastColumn,← List.map_reverse,List.find?_map]
  rfl

-- The columns that an assertion on uint64 or on string accepts.
def Column.counts (column : Column) : Bool := column.fieldType = .longLong

def Column.textual (column : Column) : Bool :=
  match column.fieldType with
  | .varChar | .varString | .string => !column.binary
  | .blob | .json | .enum | .set | .year | .date | .newDate | .time | .timestamp | .dateTime => true
  | _ => false

theorem kind_counts (column : Column) : column.kind = .uint ↔ column.counts = true := by
  obtain ⟨name,fieldType,binary⟩ := column
  change Column.kind ⟨[],fieldType,binary⟩ = .uint ↔ Column.counts ⟨[],fieldType,binary⟩ = true
  cases fieldType <;> cases binary <;> decide

theorem kind_textual (column : Column) : column.kind = .string ↔ column.textual = true := by
  obtain ⟨name,fieldType,binary⟩ := column
  change Column.kind ⟨[],fieldType,binary⟩ = .string ↔ Column.textual ⟨[],fieldType,binary⟩ = true
  cases fieldType <;> cases binary <;> decide

def countNames : List Text := [text "id",text "rows"]

def textNames : List Text :=
  [text "select_type",text "table",text "type",text "possible_keys",text "key",text "key_len",
    text "ref",text "Extra"]

structure Readable (columns : List Column) : Prop where
  counts : ∀ name ∈ countNames,(lastColumn columns name).any Column.counts = true
  texts : ∀ name ∈ textNames,(lastColumn columns name).any Column.textual = true

def count (row : Row) (name : Text) : UInt64 :=
  UInt64.ofNat (GoNumber.parseUint (Intake.utf8 (source row name))).1

theorem uint_read (row : Row) (name : Text) : (rowMap row name).uint? =
    if (lastColumn (row.map Prod.fst) name).any Column.counts then some (count row name) else none := by
  rw [rowMap_last,← lastCell_column,count,source]
  cases lastCell row name with
  | none => rfl
  | some cell =>
    have exact := kind_counts cell.1
    simp only [Option.map_some,Option.getD_some,Option.any_some,Option.bind_some,bytes2RealType]
    cases shown : cell.1.kind with
    | uint => rw [if_pos (exact.mp shown)]; rfl
    | _ =>
      rw [shown] at exact
      rw [if_neg (mt exact.mpr (by simp))]
      rfl

theorem string_read (row : Row) (name : Text) : (rowMap row name).string? =
    if (lastColumn (row.map Prod.fst) name).any Column.textual then some (source row name) else none := by
  rw [rowMap_last,← lastCell_column,source]
  cases lastCell row name with
  | none => rfl
  | some cell =>
    have exact := kind_textual cell.1
    simp only [Option.map_some,Option.getD_some,Option.any_some,Option.bind_some,bytes2RealType]
    cases shown : cell.1.kind with
    | string => rw [if_pos (exact.mp shown)]; rfl
    | _ =>
      rw [shown] at exact
      rw [if_neg (mt exact.mpr (by simp))]
      rfl

def read (row : Row) : Explains where
  id := count row (text "id")
  selectType := source row (text "select_type")
  table := source row (text "table")
  type := source row (text "type")
  possibleKeys := source row (text "possible_keys")
  key := source row (text "key")
  keyLen := source row (text "key_len")
  ref := source row (text "ref")
  rows := count row (text "rows")
  extra := source row (text "Extra")

theorem explainsTmp_reads {row : Row} (readable : Readable (row.map Prod.fst)) :
    explainsTmp (rowMap row) = some (read row) := by
  have counts := readable.counts
  have texts := readable.texts
  simp only [countNames,textNames,List.forall_mem_cons] at counts texts
  simp only [explainsTmp,uint_read,string_read,counts,texts,if_true]
  rfl

theorem explainsTmp_readable {row : Row} (found : explainsTmp (rowMap row) = some x) :
    Readable (row.map Prod.fst) := by
  have number {name n} (asserted : (rowMap row name).uint? = some n) :
      (lastColumn (row.map Prod.fst) name).any Column.counts = true := by
    rw [uint_read] at asserted
    exact (Option.ite_none_right_eq_some.mp asserted).1
  have word {name s} (asserted : (rowMap row name).string? = some s) :
      (lastColumn (row.map Prod.fst) name).any Column.textual = true := by
    rw [string_read] at asserted
    exact (Option.ite_none_right_eq_some.mp asserted).1
  simp only [explainsTmp,bind,Option.bind_eq_some_iff] at found
  obtain ⟨_,id,_,selectType,_,table,_,type,_,possibleKeys,_,key,_,keyLen,_,ref,_,rows,_,extra,_⟩ := found
  constructor
  · simp only [countNames,List.forall_mem_cons]
    exact ⟨number id,number rows,List.forall_mem_nil _⟩
  · simp only [textNames,List.forall_mem_cons]
    exact ⟨word selectType,word table,word type,word possibleKeys,word key,word keyLen,word ref,
      word extra,List.forall_mem_nil _⟩

theorem mapM_reads {rows : List Row} (readable : ∀ row ∈ rows,Readable (row.map Prod.fst)) :
    (rows.map rowMap).mapM explainsTmp = some (rows.map read) := by
  induction rows with
  | nil => rfl
  | cons row rows ih =>
    obtain ⟨here,later⟩ := List.forall_mem_cons.mp readable
    rw [List.map_cons,List.mapM_cons,explainsTmp_reads here,ih later]
    rfl

theorem zip_columns {columns : List Column} {cells : List (Option Text)}
    (wide : cells.length = columns.length) :
    (columns.zip cells).map Prod.fst = columns := List.map_fst_zip (Nat.le_of_eq wide.symm)

theorem explainData_rows (sql : ExplainsResult) (columns : List Column) (values : List (List (Option Text))) :
    explainData sql (.rows columns values) = (((values.map (columns.zip ·)).map rowMap).mapM explainsTmp).map
      fun rows => {sql with explain := sql.explain ++ rows} := by
  rw [List.map_map]
  rfl

theorem explainData_reads (sql : ExplainsResult) {columns : List Column} {values : List (List (Option Text))}
    (wide : ∀ cells ∈ values,cells.length = columns.length) (readable : Readable columns) :
    explainData sql (.rows columns values) =
      some {sql with explain := sql.explain ++ (values.map (columns.zip ·)).map read} := by
  have each : ∀ row ∈ values.map (columns.zip ·),Readable (row.map Prod.fst) := by
    intro row member
    obtain ⟨cells,inside,rfl⟩ := List.mem_map.mp member
    rw [zip_columns (wide cells inside)]
    exact readable
  rw [explainData_rows,mapM_reads each]
  rfl

-- A result set is read or ends the process by its columns alone, whatever its cells hold.
theorem explain_panics_iff (sql : ExplainsResult) (columns : List Column) (values : List (List (Option Text)))
    (wide : ∀ cells ∈ values,cells.length = columns.length) :
    explainData sql (.rows columns values) = none ↔ values ≠ [] ∧ ¬ Readable columns := by
  constructor
  · intro panicked
    refine ⟨?_,?_⟩
    · rintro rfl
      cases panicked
    · intro readable
      rw [explainData_reads sql wide readable] at panicked
      cases panicked
  · rintro ⟨some_,unreadable⟩
    cases values with
    | nil => exact absurd rfl some_
    | cons cells values =>
      have first : explainsTmp (rowMap (columns.zip cells)) = none := by
        refine Option.eq_none_iff_forall_ne_some.mpr fun x found => unreadable ?_
        have readable := explainsTmp_readable found
        rwa [zip_columns (wide cells List.mem_cons_self)] at readable
      rw [explainData_rows,List.map_cons,List.map_cons,List.mapM_cons,first]
      rfl

-- The ten columns of EXPLAIN, the type of Extra left open.
def explainColumns (extra : FieldType) : List Column := [
  ⟨text "id",.longLong,true⟩,⟨text "select_type",.varString,false⟩,⟨text "table",.varString,false⟩,
  ⟨text "partitions",.blob,false⟩,⟨text "type",.varString,false⟩,⟨text "possible_keys",.varString,false⟩,
  ⟨text "key",.varString,false⟩,⟨text "key_len",.varString,false⟩,⟨text "ref",.varString,false⟩,
  ⟨text "rows",.longLong,true⟩,⟨text "filtered",.double,true⟩,⟨text "Extra",extra,false⟩]

-- A text of the long kind is named LONGTEXT by the driver, and the switch knows LONG TEXT.
theorem long_extra_panics : explainData ⟨[],[],[],[],[],0,[],[],[],[]⟩
    (.rows (explainColumns .longBLOB) [List.replicate 12 none]) = none := by
  refine (explain_panics_iff _ _ _ ?_).mpr ⟨List.cons_ne_nil _ _,?_⟩
  · exact List.forall_mem_singleton.mpr rfl
  · intro readable
    exact absurd (readable.texts (text "Extra") (by decide)) (by decide)

-- What the server sends of a row of EXPLAIN: counts in decimal, and NULL as it likes for 0 and "".
structure Renders (row : Row) (x : Explains) : Prop where
  counts : ∀ cell ∈ [(text "id",x.id),(text "rows",x.rows)],
    source row cell.1 = Nat.toDigits 10 cell.2.toNat ∨ (source row cell.1 = [] ∧ cell.2 = 0)
  texts : ∀ cell ∈ [(text "select_type",x.selectType),(text "table",x.table),(text "type",x.type),
    (text "possible_keys",x.possibleKeys),(text "key",x.key),(text "key_len",x.keyLen),
      (text "ref",x.ref),(text "Extra",x.extra)],
    source row cell.1 = cell.2

theorem utf8_digits (n : Nat) : Intake.utf8 (Nat.toDigits 10 n) = GoNumber.digits n := by
  have ascii : ∀ c ∈ Nat.toDigits 10 n,encodeRune c.toNat = [byte c] := by
    intro c member
    have digit := Nat.isDigit_of_mem_toDigits (by decide) (by decide) member
    have small : c.toNat < 0x80 := by
      simp [Char.isDigit] at digit
      have high := digit.2
      exact Nat.lt_of_le_of_lt high (by decide)
    rw [encodeRune,if_pos small]
    rfl
  rw [Intake.utf8,GoNumber.digits,List.flatMap_congr ascii]
  exact List.flatMap_pure_eq_map byte _

theorem count_rendered {row : Row} (n : UInt64) (shown : source row name = Nat.toDigits 10 n.toNat ∨
    (source row name = [] ∧ n = 0)) :
    count row name = n := by
  unfold count
  rcases shown with decimal | ⟨null,rfl⟩
  · have small : n.toNat ≤ GoNumber.maxUint := Nat.le_of_lt_succ n.toNat_lt
    rw [decimal,utf8_digits,GoNumber.parseUint_digits,if_pos small,UInt64.ofNat_toNat]
  · rw [null]
    rfl

theorem read_rendered {row : Row} (renders : Renders row x) : read row = x := by
  have counts := renders.counts
  have texts := renders.texts
  simp only [List.forall_mem_cons] at counts texts
  simp only [read,count_rendered _ counts.1,count_rendered _ counts.2.1,texts]

-- Whatever the order of the columns and whatever others stand between them, the rows of EXPLAIN
-- are those that the server has sent.
theorem explain_rows_read (sql : ExplainsResult) (columns : List Column)
    (values : List (List (Option Text))) (sent : List Explains)
    (wide : ∀ cells ∈ values,cells.length = columns.length) (readable : Readable columns)
    (rendered : List.Forall₂ (fun cells x => Renders (columns.zip cells) x) values sent) :
    explainData sql (.rows columns values) = some {sql with explain := sql.explain ++ sent} := by
  have rows : (values.map (columns.zip ·)).map read = sent := by
    rw [List.map_map]
    refine List.forall₂_eq_eq_eq ▸ (List.forall₂_map_left_iff.mpr ?_)
    exact rendered.imp fun cells x shown => read_rendered shown
  rw [explainData_reads sql wide readable,rows]

-- EXPLAIN of a union: its last row has no id and no count.
def unionRows : List (List (Option Text)) := [
  [some (text "1"),some (text "PRIMARY"),some (text "t"),none,some (text "ALL"),none,none,none,none,
    some (text "120"),none,none],
  [none,some (text "UNION RESULT"),some (text "<union1,2>"),none,some (text "ALL"),none,none,none,
    none,none,none,
    some (text "Using temporary")]]

theorem union_rows_read :
    explainData ⟨[],[],[],[],[],0,[],[],[],[]⟩ (.rows (explainColumns .varString) unionRows) =
    some ⟨[],[],[⟨1,text "PRIMARY",text "t",text "ALL",[],[],[],[],120,[]⟩,
      ⟨0,text "UNION RESULT",text "<union1,2>",text "ALL",[],[],[],[],0,text "Using temporary"⟩],[],
      [],0,[],[],[],[]⟩ :=
  explain_rows_read _ _ _ _ (by decide) ⟨by decide,by decide⟩
    (.cons ⟨by decide +kernel,by decide⟩ (.cons ⟨by decide +kernel,by decide⟩ .nil))

end SqlReview.MysqlRows
