import SqlReview.ExplainDb
import SqlReview.GoBytes
import SqlReview.Routing

namespace SqlReview.Intake
open GoBytes GoText Records Json Wire

-- A message is any byte string. Its repair works on bytes, so it is that of Wire with
-- one character for each byte.
def latin (s : Bytes) : Text := s.map fun b => Char.ofNat b.toNat

def unlatin (t : Text) : Bytes := t.map fun c => UInt8.ofNat c.toNat

-- Unmarshal reads a byte that is not UTF-8 as U+FFFD inside a string and rejects both outside.
def characters (s : Bytes) : Text := (runes s).map fun piece => Char.ofNat piece.1

def document (data : Bytes) : Text := characters (unlatin (repaired (latin data)))

-- JsonSqlExpDecode on bytes.
def decode (data : Bytes) : ExplainsResult × Option Failure := unmarshal explainsResult (document data)

-- The bytes of a text.
def utf8 (t : Text) : Bytes := t.flatMap fun c => encodeRune c.toNat

theorem characters_utf8 (t : Text) : characters (utf8 t) = t := by
  induction t with
  | nil => rfl
  | cons c t ih =>
    rw [utf8,List.flatMap_cons,characters,runes_encode,List.map_cons,Char.ofNat_toNat]
    exact congrArg (c :: ·) ih

theorem latin_toNat (b : UInt8) : (Char.ofNat b.toNat).toNat = b.toNat := by
  have small := b.toNat_lt
  rw [Char.toNat_ofNat,if_pos (Or.inl (by omega))]

theorem unlatin_latin (s : Bytes) : unlatin (latin s) = s := by
  rw [unlatin,latin,List.map_map]
  refine (List.map_congr_left fun b _ => ?_).trans (List.map_id s)
  simp [latin_toNat]

theorem latins_injective : Function.Injective (List.map latin) :=
  List.map_injective_iff.mpr (Function.LeftInverse.injective unlatin_latin)

-- An ASCII character is one byte, any other none below 0x80.
theorem utf8_cons (c : Char) (t : Text) :
    latin (utf8 (c :: t)) = latin (encodeRune c.toNat) ++ latin (utf8 t) := by
  rw [utf8,List.flatMap_cons,latin,List.map_append]
  rfl

theorem latin_ascii {c : Char} (ascii : c.toNat < 0x80) : latin (encodeRune c.toNat) = [c] := by
  have small : (UInt8.ofNat c.toNat).toNat = c.toNat := toNat_ofNat (by omega)
  simp [latin,encodeRune,ascii,small]

theorem latin_wide {c : Char} (wide : 0x80 ≤ c.toNat) (member : d ∈ latin (encodeRune c.toNat)) :
    0x80 ≤ d.toNat := by
  obtain ⟨b,inside,rfl⟩ := List.mem_map.mp member
  rw [latin_toNat]
  exact encodeRune_wide wide b inside

theorem latin_filter (t : Text) (x : Char) (ascii : x.toNat < 0x80) :
    (latin (utf8 t)).filter (· ≠ x) = latin (utf8 (t.filter (· ≠ x))) := by
  induction t with
  | nil => rfl
  | cons c t ih =>
    rw [utf8_cons,List.filter_append,ih]
    by_cases one : c.toNat < 0x80
    · rw [latin_ascii one]
      by_cases same : c = x
      · simp [same]
      · rw [List.filter_cons_of_pos (by simp [same]),List.filter_cons_of_pos (by simp [same]),
          utf8_cons,latin_ascii one]
        rfl
    · have other : ∀ d ∈ latin (encodeRune c.toNat),d ≠ x := by
        rintro d member rfl
        have := latin_wide (by omega) member
        omega
      have same : c ≠ x := by
        rintro rfl
        omega
      rw [List.filter_eq_self.mpr fun d member => decide_eq_true (other d member),
        List.filter_cons_of_pos (by simp [same]),utf8_cons]

theorem index_none_cons : index (c :: s) old = none ↔ old.isPrefixOf (c :: s) = false ∧
    index s old = none := by
  rw [index.eq_def]
  split
  · simp [*]
  · simp [*]

theorem index_none_wide {front : Text} (wide : ∀ d ∈ front,d ≠ a) :
    index (front ++ s) [a,b] = none ↔ index s [a,b] = none := by
  induction front with
  | nil => rfl
  | cons d front ih =>
    obtain ⟨first,later⟩ := List.forall_mem_cons.mp wide
    rw [List.cons_append,index_none_cons,ih later,List.isPrefixOf_cons_cons]
    simp [Ne.symm first]

theorem head_latin (t : Text) {x : Char} (ascii : x.toNat < 0x80) :
    [x].isPrefixOf (latin (utf8 t)) = [x].isPrefixOf t := by
  cases t with
  | nil => rfl
  | cons c t =>
    rw [utf8_cons]
    by_cases one : c.toNat < 0x80
    · rw [latin_ascii one,List.singleton_append,List.isPrefixOf_cons_cons,List.isPrefixOf_cons_cons]
      simp
    · obtain ⟨d,rest,bytes⟩ : ∃ d rest,latin (encodeRune c.toNat) = d :: rest := by
        obtain ⟨a,rest,bytes,_⟩ := decodeRune_encode c []
        rw [bytes]
        exact ⟨_,_,rfl⟩
      have high := latin_wide (c := c) (by omega) (bytes ▸ List.mem_cons_self)
      have first : x ≠ d := by
        rintro rfl
        omega
      have second : x ≠ c := by
        rintro rfl
        omega
      rw [bytes,List.cons_append,List.isPrefixOf_cons_cons,List.isPrefixOf_cons_cons]
      simp [first,second]

theorem index_latin (t : Text) {a b : Char} (first : a.toNat < 0x80) (second : b.toNat < 0x80) :
    index (latin (utf8 t)) [a,b] = none ↔ index t [a,b] = none := by
  induction t with
  | nil => rfl
  | cons c t ih =>
    rw [utf8_cons]
    by_cases one : c.toNat < 0x80
    · rw [latin_ascii one,List.singleton_append,index_none_cons,index_none_cons,ih,
        List.isPrefixOf_cons_cons,List.isPrefixOf_cons_cons,
        head_latin t second]
    · have other : ∀ d ∈ latin (encodeRune c.toNat),d ≠ a := by
        rintro d member rfl
        have := latin_wide (by omega) member
        omega
      have head : a ≠ c := by
        rintro rfl
        contradiction
      rw [index_none_wide other,ih,index_none_cons,List.isPrefixOf_cons_cons]
      simp [head]

-- On a text the decoder on bytes is the one of Wire.
theorem decode_utf8 (t : Text) : decode (utf8 t) = jsonSqlExpDecode t := by
  have repair : document (utf8 t) = repaired t := by
    have opened : index (latin (utf8 t)) (text "\"\x7b") = none ↔ index t (text "\"\x7b") = none :=
      index_latin t (by decide) (by decide)
    unfold document
    by_cases closed : index t (text "\"\x7b") = none
    · rw [stripped t closed,stripped _ (opened.mpr closed),latin_filter t '^' (by decide),
        latin_filter _ '\\' (by decide),
        unlatin_latin,characters_utf8]
    · rw [repaired,if_neg (fun none => closed (opened.mp none)),repaired,if_neg closed,
        unlatin_latin,characters_utf8]
  rw [decode,repair,jsonSqlExpDecode]

-- What becomes of a message; a goroutine without recover that panics ends the process.
inductive Outcome (α : Type) where
  | skipped
  | outOfRange
  | done (result : α)

-- The map of the Kafka goroutine as json.Marshal writes it, its keys in order.
def kafkaValue (nil : List Nat → Bool) (kafkaData : ExplainsResult) (first : SqlInfo) : Value :=
  .object [
    (text "arr",sqlInfo.encode nil first),
    (text "branch",.string kafkaData.branch),
    (text "db",.string kafkaData.db),
    (text "expl",.string kafkaData.expl),
    (text "route",.string kafkaData.route)]

def kafkaText (s : Text) : Text :=
  ExplainDb.replaceEach s [(text "u003c",text "<"),(text "u003e",text ">"),(text "&lt",text "<"),
    (text "&gt",text ">"),
    (text "u0026",text "&")]

-- The second goroutine of handler: the error of the decoder is logged, Arr[0] is read.
def kafkaMessage (nil : List Nat → Bool) (result : Bytes) : Outcome Text :=
  let kafkaData := (decode result).1
  match kafkaData.arr with
  | [] => .outOfRange
  | first :: _ => .done (kafkaText (render (kafkaValue nil kafkaData first)))

def explainQuery (info : Text) : Text :=
  let sqlStr := replaceAll (replaceAll info ['\''] ['"']) ['"'] ['"']
  let sqlStr :=
    if index sqlStr (text "u003c") = none then sqlStr else replaceAll sqlStr (text "u003c") (text "<")
  let sqlStr :=
    if index sqlStr (text "u003e") = none then sqlStr else replaceAll sqlStr (text "u003e") (text ">")
  text "EXPLAIN " ++ sqlStr

-- ExcuteDbSql up to its first query: the connection it opens and the statement it sends.
def excuteDbSql (config : Routing.AppConfig Text) (sql : ExplainsResult) :
    Outcome (Option (Routing.Connection Text) × Text) :=
  let connection := Routing.mysqlClientConfig [] config sql.db
  match sql.arr with
  | [] => .outOfRange
  | first :: _ => .done (connection,explainQuery first.info)

-- One round of NewExplainResult on what it has popped.
def explainResult (config : Routing.AppConfig Text) (data : Bytes) :
    Outcome (Option (Routing.Connection Text) × Text) :=
  if data = [] then .skipped else excuteDbSql config (decode data).1

def Outcome.Survives : Outcome α → Prop
  | .outOfRange => False
  | _ => True

-- No field named arr, in any case, that Unmarshal stores.
def Quiet (pairs : List (Text × Value)) : Prop :=
  ∀ field ∈ pairs,foldName field.1 = text "arr" → field.2 ≠ .null ∧ ∀ list,field.2 ≠ .array list

-- The last one it stores is an array with an item.
def Ends (pairs : List (Text × Value)) : Prop := ∃ before name item items after,
  pairs = before ++ (name,.array (item :: items)) :: after ∧ foldName name = text "arr" ∧ Quiet after

def ListsSql (data : Bytes) : Prop := ∃ pairs,parse (document data) = some (.object pairs) ∧ Ends pairs

theorem quiet_cons : Quiet (field :: rest) ↔
    (foldName field.1 = text "arr" → field.2 ≠ .null ∧ ∀ list,field.2 ≠ .array list) ∧ Quiet rest :=
  List.forall_mem_cons

theorem ends_cons : Ends (field :: rest) ↔
    (∃ item items,field.2 = .array (item :: items) ∧ foldName field.1 = text "arr" ∧ Quiet rest) ∨
      Ends rest := by
  constructor
  · rintro ⟨before,name,item,items,after,split,named,quiet⟩
    cases before with
    | nil =>
      obtain ⟨rfl,rfl⟩ := List.cons.inj split
      exact Or.inl ⟨item,items,rfl,named,quiet⟩
    | cons first before =>
      obtain ⟨rfl,rfl⟩ := List.cons.inj split
      exact Or.inr ⟨before,name,item,items,after,rfl,named,quiet⟩
  · rintro (⟨item,items,value,named,quiet⟩ | ⟨before,name,item,items,after,rfl,named,quiet⟩)
    · exact ⟨[],field.1,item,items,rest,by rw [← value]; rfl,named,quiet⟩
    · exact ⟨field :: before,name,item,items,after,rfl,named,quiet⟩

theorem arr_put (x : ExplainsResult) (v : List SqlInfo) : ({x with arr := v} : ExplainsResult).arr = v := rfl

def arrField : FieldCodec ExplainsResult :=
  sqlInfo.slice.field (text "arr") ExplainsResult.arr (fun x v => {x with arr := v}) (Eq.refl true) arr_put

theorem arr_found (name : Text) :
    ((find explainsResultFields name).any fun g => g.name == arrField.name) = true ↔
      foldName name = text "arr" := by
  constructor
  · intro any
    cases found : find explainsResultFields name with
    | none =>
      rw [found] at any
      cases any
    | some f =>
      rw [found] at any
      have same : f.name = text "arr" := eq_of_beq any
      rw [← find_folded found,same]
      rfl
  · intro named
    have found : find explainsResultFields name = some arrField := by
      apply find_spelling
      · decide +kernel
      · exact List.mem_cons_of_mem _ List.mem_cons_self
      · exact named.symm
    rw [found]
    rfl

-- The slice shows an item after the fields of an object were stored, or showed one before and none of them
-- stored an array or null.
theorem shown_some (pairs : List (Text × Value)) (b : Backing) (held : b.length ≤ b.slots.length) :
    ((valuesOf explainsResultFields arrField (.object pairs)).foldl Backing.store b).shown ≠ [] ↔
      Ends pairs ∨ (b.shown ≠ [] ∧ Quiet pairs) := by
  induction pairs generalizing b with
  | nil =>
    have none : ¬ Ends [] := by
      rintro ⟨before,_,_,_,_,split,_⟩
      cases before <;> cases split
    simp [valuesOf,none,Quiet]
  | cons field rest ih =>
    rw [ends_cons,quiet_cons]
    by_cases named : foldName field.1 = text "arr"
    · have first : valuesOf explainsResultFields arrField (.object (field :: rest)) =
          field.2 :: valuesOf explainsResultFields arrField (.object rest) := by
        simp only [valuesOf,List.filter_cons,if_pos ((arr_found field.1).mpr named),List.map_cons]
      rw [first,List.foldl_cons,ih _ (store_held held field.2)]
      cases value : field.2 with
      | array items =>
        cases items with
        | nil => simp [Backing.store,Backing.shown,named]
        | cons item items => simp [Backing.store,Backing.shown,stack,named,or_comm]
      | null => simp [Backing.store,Backing.shown,named]
      | _ => simp [Backing.store,named]
    · have none : valuesOf explainsResultFields arrField (.object (field :: rest)) =
          valuesOf explainsResultFields arrField (.object rest) := by
        simp only [valuesOf,List.filter_cons,if_neg (mt (arr_found field.1).mp named)]
      rw [none,ih b held]
      simp [named]

theorem stored_arr (v : Value) : (explainsResult.decode [v]).arr ≠ [] ↔
    ((valuesOf explainsResultFields arrField v).foldl Backing.store ⟨[],0⟩).shown ≠ [] := by
  have arr : (explainsResult.decode [v]).arr =
      sqlInfo.slice.decode ([v].flatMap (valuesOf explainsResultFields arrField)) :=
    rfl
  rw [arr,List.flatMap_singleton]
  simp [Codec.slice,backing]

theorem decode_arr (data : Bytes) : (decode data).1.arr ≠ [] ↔ ListsSql data := by
  unfold decode unmarshal ListsSql
  cases parsed : parse (document data) with
  | none =>
    have blank : (explainsResult.decode []).arr = [] := rfl
    simp [blank]
  | some v =>
    rw [stored_arr]
    cases v with
    | object pairs =>
      rw [shown_some pairs ⟨[],0⟩ (Nat.le_refl _)]
      simp [Backing.shown]
    | _ => simp [valuesOf,Backing.shown]

theorem intake_survives (config : Routing.AppConfig Text) (nil : List Nat → Bool) (data : Bytes) :
    ((kafkaMessage nil data).Survives ↔ ListsSql data) ∧
    ((explainResult config data).Survives ↔ data = [] ∨ ListsSql data) := by
  have arr := decode_arr data
  constructor
  · rw [← arr,kafkaMessage]
    cases (decode data).1.arr with
    | nil => simp [Outcome.Survives]
    | cons first rest => simp [Outcome.Survives]
  · rw [← arr,explainResult]
    by_cases empty : data = []
    · simp [empty,Outcome.Survives]
    · rw [if_neg empty,excuteDbSql]
      cases (decode data).1.arr with
      | nil => simp [Outcome.Survives,empty]
      | cons first rest => simp [Outcome.Survives]

-- An object without arr, and no JSON at all.
theorem messages_crash :
    kafkaMessage (fun _ => true) (str "\x7b\x7d") = .outOfRange ∧
      explainResult Routing.prodConf (str "\x7b\x7d") = .outOfRange ∧
    kafkaMessage (fun _ => true) [] = .outOfRange ∧
      explainResult Routing.prodConf (str "x") = .outOfRange := by
  refine ⟨?_,?_,?_,?_⟩ <;> rfl

end SqlReview.Intake
