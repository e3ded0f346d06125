import SqlReview.JsonCodec
import SqlReview.Records

-- getScore: what an EXPLAIN costs, and the report that says why.
namespace SqlReview.Explain
open GoText Records

def explainType : List (Text × Text) :=
  [(text "ALL",text "L1"),(text "index",text "L1"),(text "range",text "L2"),(text "index_subquery",text "L2"),
    (text "unique_subquery",text "L2"),(text "index_merge",text "L2"),
      (text "ref_or_null",text "L2"),(text "fulltext",text "L2"),
    (text "ref",text "L3"),(text "eq_ref",text "L3"),(text "const",text "L4"),(text "system",text "L4")]

def explainTypeScore : List (Text × Int) := [(text "L1",15),(text "L2",10),(text "L3",5),(text "L4",0)]

-- No two levels have one score, so the order in which range visits the map does not matter.
def explainTypeScoreTmp : List (Int × Text) := explainTypeScore.map Prod.swap

-- A key that is missing reads as the zero value.
def typeLevel (type : Text) : Text := (explainType.lookup type).getD []
def levelScore (level : Text) : Int := (explainTypeScore.lookup level).getD 0
def scoreLevel (score : Int) : Text := (explainTypeScoreTmp.lookup score).getD []

def typeScore (row : Explains) : Int := levelScore (typeLevel row.type)

-- A row of the tables for rows and cost; both bounds are outside.
structure Band where
  low : Int
  high : Int
  points : Int
  deriving DecidableEq

def rowBands : List Band := [⟨5000,10000,5⟩,⟨10000,100000,10⟩,⟨100000,1000000,15⟩,⟨1000000,10000000,20⟩]

def costBands : List Band :=
  [⟨500,1000,5⟩,⟨1000,10000,10⟩,⟨10000,50000,15⟩,⟨50000,100000,20⟩,⟨100000,150000,25⟩,⟨150000,200000,30⟩,
    ⟨200000,500000,35⟩,⟨500000,1000000,40⟩,⟨1000000,10000000,50⟩]

def bandOf (bands : List Band) (n : Int) : Option Band :=
  bands.find? fun band => band.low < n && n < band.high

-- int(sqlTmp.Rows)
def rowCount (row : Explains) : Int := row.rows.toInt64.toInt

-- What the loops change of the result, and scoreType. `itemised` is not in the program: it keeps
-- the numbers that were written behind the deduction mark.
structure Tally where
  content : Text
  level : Text
  scoreType : Int
  itemised : List Int

def deductionMark : Text := text "扣分为-"

def Tally.note (t : Tally) (what : Text) (points : Int) : Tally :=
  {t with content := t.content ++ (what ++ deductionMark ++ Json.decimal points ++
    [',']),itemised := t.itemised ++ [points]}

def Tally.charge (t : Tally) (what : Text) (points : Int) : Tally :=
  {t.note what points with scoreType := t.scoreType+points}

def Tally.chargeBand (t : Tally) (bands : List Band) (n : Int) (what : Text) : Tally :=
  match bandOf bands n with
  | some band => t.charge what band.points
  | none => t

def Tally.chargeKey (t : Tally) (row : Explains) : Tally :=
  if row.key = [] then t.charge (text "使用索引key为Null,") 5 else t

def Tally.chargeExtra (t : Tally) (row : Explains) : Tally :=
  if index row.extra (text "index") = none then t.charge (text "未使用index索引,") 5
  else if index row.extra (text "where") = none then t.charge (text "未使用where过滤条件,") 3
  else t

def Tally.chargeRows (t : Tally) (row : Explains) : Tally :=
  t.chargeBand rowBands (rowCount row) (text "返回rows行数为：" ++ Json.decimal (rowCount row) ++ [','])

def Tally.surcharge (t : Tally) (row : Explains) : Tally := ((t.chargeKey row).chargeExtra row).chargeRows row

def constTable (row : Explains) : Bool := (index row.extra (text "const table")).isSome

def Tally.nullRow (t : Tally) (row : Explains) : Tally :=
  if constTable row then {t.charge (row.table ++ text "使用type为：Null,未找到const tables，") 1 with
    level := text "L1"}
  else Tally.surcharge {t.charge (row.table ++ text "使用type为：Null,") 15 with level := text "L1"} row

def Tally.allRow (t : Tally) (row : Explains) : Tally :=
  Tally.surcharge {t.charge (row.table ++ text "使用type为：ALL,") 15 with level := text "L1"} row

structure Loop where
  tally : Tally
  scoreTypeTmp : Int
  flag : Int

def Loop.raise (s : Loop) (score : Int) : Loop :=
  if s.scoreTypeTmp ≠ 0 ∧ s.scoreTypeTmp < score then {s with scoreTypeTmp := score} else s

def Loop.first (s : Loop) (score : Int) : Loop :=
  if s.flag = 0 then {s with scoreTypeTmp := score,flag := score} else s

def firstLoop : List Explains → Loop → Loop
  | [],s => s
  | row :: rest,s =>
    if row.type = [] then {s with tally := s.tally.nullRow row}
    else if row.type = text "ALL" then {s with tally := s.tally.allRow row}
    else firstLoop rest ((s.raise (typeScore row)).first (typeScore row))

def describes (score : Int) (row : Explains) : Bool :=
  row.type ≠ [] && row.type ≠ text "ALL" && typeLevel row.type = scoreLevel score

def secondLoop (score : Int) : List Explains → Tally → Tally
  | [],t => t
  | row :: rest,t =>
    if describes score row then (t.note (row.table ++ text "使用type为：" ++ row.type ++
      [',']) score).surcharge row
    else secondLoop score rest t

-- `cost` is int of strconv.ParseFloat, which gives 0 for a text that is no number.
def tally (cost : Text → Int) (sql : ExplainsResult) : Tally :=
  let s := firstLoop sql.explain ⟨⟨sql.content,sql.level,0,[]⟩,0,0⟩
  let level := if s.tally.level = [] then scoreLevel s.scoreTypeTmp else s.tally.level
  let t :=
    secondLoop s.scoreTypeTmp sql.explain {s.tally with
      level := level,scoreType := s.tally.scoreType+s.scoreTypeTmp}
  t.chargeBand costBands (cost sql.lastQueryCost) (text "查询Last_query_cost为：" ++ sql.lastQueryCost ++ [','])

def getScore (cost : Text → Int) (sql : ExplainsResult) : ExplainsResult :=
  let t := tally cost sql
  {sql with content := t.content,level := t.level,score := Int64.ofInt (100-t.scoreType)}

-- What the report is: a list of items, each with its deduction.
structure Item where
  what : Text
  points : Int
  deriving DecidableEq

def Item.text (item : Item) : Text := item.what ++ deductionMark ++ Json.decimal item.points ++ [',']

def total (items : List Item) : Int := (items.map Item.points).sum

def Tally.add (t : Tally) (items : List Item) : Tally :=
  {t with
    content := t.content ++ items.flatMap Item.text,scoreType := t.scoreType+total items,
    itemised := t.itemised ++ items.map Item.points}

@[simp] theorem total_nil : total [] = 0 := rfl
@[simp] theorem total_cons (item : Item) (items : List Item) :
    total (item :: items) = item.points+total items :=
  List.sum_cons
@[simp] theorem total_append (one two : List Item) : total (one ++ two) = total one+total two := by
  simp [total]

theorem add_nil (t : Tally) : t.add [] = t := by simp [Tally.add]

theorem add_append (t : Tally) (one two : List Item) : t.add (one ++ two) = (t.add one).add two := by
  simp [Tally.add,Int.add_assoc]

theorem add_cons (t : Tally) (item : Item) (items : List Item) :
    t.add (item :: items) = (t.add [item]).add items :=
  add_append t [item] items

theorem charge_add (t : Tally) (what : Text) (points : Int) :
    t.charge what points = t.add [⟨what,points⟩] := by
  simp [Tally.charge,Tally.note,Tally.add,Item.text]

def bandItems (bands : List Band) (n : Int) (what : Text) : List Item :=
  (bandOf bands n).toList.map fun band => ⟨what,band.points⟩

def keyItems (row : Explains) : List Item := if row.key = [] then [⟨text "使用索引key为Null,",5⟩] else []

def extraItems (row : Explains) : List Item :=
  if index row.extra (text "index") = none then [⟨text "未使用index索引,",5⟩]
  else if index row.extra (text "where") = none then [⟨text "未使用where过滤条件,",3⟩]
  else []

def rowsItems (row : Explains) : List Item :=
  bandItems rowBands (rowCount row) (text "返回rows行数为：" ++ Json.decimal (rowCount row) ++ [','])

def surcharges (row : Explains) : List Item := keyItems row ++ extraItems row ++ rowsItems row

theorem chargeBand_add (t : Tally) (bands : List Band) (n : Int) (what : Text) :
    t.chargeBand bands n what = t.add (bandItems bands n what) := by
  unfold Tally.chargeBand bandItems
  cases bandOf bands n with
  | none => exact (add_nil t).symm
  | some band => exact charge_add t what band.points

theorem surcharge_add (t : Tally) (row : Explains) : t.surcharge row = t.add (surcharges row) := by
  have key (t : Tally) : t.chargeKey row = t.add (keyItems row) := by
    unfold Tally.chargeKey keyItems
    split
    · exact charge_add t _ _
    · exact (add_nil t).symm
  have extra (t : Tally) : t.chargeExtra row = t.add (extraItems row) := by
    unfold Tally.chargeExtra extraItems
    split
    · exact charge_add t _ _
    · split
      · exact charge_add t _ _
      · exact (add_nil t).symm
  rw [Tally.surcharge,key,extra,Tally.chargeRows,chargeBand_add,surcharges,add_append,add_append]
  rfl

-- A row at which the first loop breaks off.
def stops (row : Explains) : Bool := row.type = [] || row.type = text "ALL"

def stopItems (row : Explains) : List Item :=
  if row.type = [] then
    if constTable row then [⟨row.table ++ text "使用type为：Null,未找到const tables，",1⟩]
    else ⟨row.table ++ text "使用type为：Null,",15⟩ :: surcharges row
  else ⟨row.table ++ text "使用type为：ALL,",15⟩ :: surcharges row

theorem nullRow_add (t : Tally) (row : Explains) (null : row.type = []) :
    t.nullRow row = {t.add (stopItems row) with level := text "L1"} := by
  unfold Tally.nullRow stopItems
  rw [if_pos null]
  split
  · rw [charge_add]
  · rw [surcharge_add,charge_add,add_cons t _ (surcharges row)]
    rfl

theorem allRow_add (t : Tally) (row : Explains) (all : row.type ≠ []) :
    t.allRow row = {t.add (stopItems row) with level := text "L1"} := by
  unfold Tally.allRow stopItems
  rw [if_neg all,surcharge_add,charge_add,add_cons t _ (surcharges row)]
  rfl

theorem levelScore_cases (level : Text) : levelScore level = 0 ∨
    (levelScore level = 15 ∧ level = text "L1") ∨ (levelScore level = 10 ∧ level = text "L2") ∨
      (levelScore level = 5 ∧ level = text "L3") := by
  by_cases one : level = text "L1"
  · exact .inr (.inl ⟨by rw [one]; decide,one⟩)
  by_cases two : level = text "L2"
  · exact .inr (.inr (.inl ⟨by rw [two]; decide,two⟩))
  by_cases three : level = text "L3"
  · exact .inr (.inr (.inr ⟨by rw [three]; decide,three⟩))
  left
  simp only [levelScore,explainTypeScore,List.lookup_cons,beq_eq_false_iff_ne.mpr one,
    beq_eq_false_iff_ne.mpr two,beq_eq_false_iff_ne.mpr three]
  by_cases four : level = text "L4"
  · rw [four]
    decide
  · simp [beq_eq_false_iff_ne.mpr four]

-- The score that the first loop ends with.
def worst (rows : List Explains) : Int := ((rows.takeWhile fun row => !stops row).map typeScore).foldr max 0

-- flag tells whether a score other than 0 was seen, and then so does scoreTypeTmp.
structure Weighed (s : Loop) : Prop where
  flag : s.flag = 0 ↔ s.scoreTypeTmp = 0
  positive : 0 ≤ s.scoreTypeTmp

theorem typeScore_nonneg (row : Explains) : 0 ≤ typeScore row := by
  rcases levelScore_cases (typeLevel row.type) with score | ⟨score,_⟩ | ⟨score,_⟩ | ⟨score,_⟩ <;>
    rw [typeScore,score] <;> decide

theorem weigh_step (weighed : Weighed s) (nonneg : 0 ≤ score) :
    Weighed ((s.raise score).first score) ∧ ((s.raise score).first score).tally = s.tally ∧
      ((s.raise score).first score).scoreTypeTmp = max s.scoreTypeTmp score := by
  obtain ⟨flag,positive⟩ := weighed
  by_cases zero : s.scoreTypeTmp = 0
  · have unset := flag.mpr zero
    have raise : s.raise score = s := if_neg fun both => both.1 zero
    rw [raise,Loop.first,if_pos unset,zero]
    exact ⟨⟨Iff.rfl,nonneg⟩,rfl,(max_eq_right nonneg).symm⟩
  · have set : s.flag ≠ 0 := fun unset => zero (flag.mp unset)
    have kept : (s.raise score).first score = s.raise score := by
      apply if_neg
      unfold Loop.raise
      split <;> exact set
    rw [kept]
    unfold Loop.raise
    split
    · rename_i higher
      exact ⟨⟨iff_of_false set (by dsimp only; omega),nonneg⟩,rfl,(max_eq_right higher.2.le).symm⟩
    · rename_i lower
      exact ⟨⟨flag,positive⟩,rfl,(max_eq_left (by omega)).symm⟩

theorem worst_nonneg (rows : List Explains) : 0 ≤ worst rows := by
  unfold worst
  generalize rows.takeWhile _ = before
  induction before with
  | nil => exact Int.le_refl 0
  | cons row before ih => exact le_max_of_le_right ih

-- The report of the row that ends the first loop.
def scanItems (rows : List Explains) : List Item := ((rows.find? stops).map stopItems).getD []

def Tally.scanned (t : Tally) (rows : List Explains) : Tally :=
  if rows.any stops then {t.add (scanItems rows) with level := text "L1"} else t

theorem firstLoop_eq (rows : List Explains) (weighed : Weighed s) :
    (firstLoop rows s).tally = s.tally.scanned rows ∧
    (firstLoop rows s).scoreTypeTmp = max s.scoreTypeTmp (worst rows) := by
  induction rows generalizing s with
  | nil => exact ⟨rfl,(max_eq_left weighed.positive).symm⟩
  | cons row rows ih =>
    by_cases stop : stops row = true
    · have none_ : worst (row :: rows) = 0 := by simp [worst,stop]
      have scan : scanItems (row :: rows) = stopItems row := by simp [scanItems,stop]
      rw [none_,max_eq_left weighed.positive,Tally.scanned,List.any_cons,stop,Bool.true_or,
        if_pos rfl,scan,firstLoop]
      by_cases null : row.type = []
      · rw [if_pos null,← nullRow_add _ _ null]
        exact ⟨rfl,rfl⟩
      · have all : row.type = text "ALL" := by simpa [stops,null] using stop
        rw [if_neg null,if_pos all,← allRow_add _ _ null]
        exact ⟨rfl,rfl⟩
    · have other : row.type ≠ [] ∧ row.type ≠ text "ALL" := by simpa [stops] using stop
      obtain ⟨next,same,score⟩ := weigh_step weighed (typeScore_nonneg row)
      obtain ⟨tally,tmp⟩ := ih next
      have worse : worst (row :: rows) = max (typeScore row) (worst rows) := by simp [worst,stop]
      rw [firstLoop,if_neg other.1,if_neg other.2,tally,tmp,same,score,worse,max_assoc]
      refine ⟨?_,rfl⟩
      simp [Tally.scanned,scanItems,stop]

-- The report of the row that the second loop picks; its first item was charged between the loops.
def describedItems (score : Int) (rows : List Explains) : List Item :=
  ((rows.find? (describes score)).map fun row => ⟨row.table ++ text "使用type为：" ++ row.type ++ [','],
    score⟩ :: surcharges row).getD []

def costItems (cost : Text → Int) (query : Text) : List Item :=
  bandItems costBands (cost query) (text "查询Last_query_cost为：" ++ query ++ [','])

def items (cost : Text → Int) (sql : ExplainsResult) : List Item :=
  scanItems sql.explain ++ describedItems (worst sql.explain) sql.explain ++ costItems cost sql.lastQueryCost

theorem secondLoop_eq (score : Int) (rows : List Explains) (t : Tally) :
    secondLoop score rows {t with scoreType := t.scoreType+score} =
      if rows.any (describes score) then t.add (describedItems score rows)
      else {t with scoreType := t.scoreType+score} := by
  induction rows with
  | nil => rfl
  | cons row rows ih =>
    by_cases here : describes score row = true
    · have picked : describedItems score (row :: rows) =
          ⟨row.table ++ text "使用type为：" ++ row.type ++ [','],score⟩ ::
            surcharges row := by simp [describedItems,here]
      rw [secondLoop,if_pos here,List.any_cons,here,Bool.true_or,if_pos rfl,picked,add_cons,surcharge_add]
      simp [Tally.note,Tally.add,Item.text]
    · rw [secondLoop,if_neg here,ih]
      simp [describedItems,here]

theorem scoreLevel_score {level : Text} (charged : levelScore level ≠ 0) :
    scoreLevel (levelScore level) = level := by
  rcases levelScore_cases level with score | ⟨score,same⟩ | ⟨score,same⟩ | ⟨score,same⟩
  · exact absurd score charged
  all_goals rw [score,same]; decide

-- A score that is charged between the loops is that of a row, so the second loop finds one.
theorem worst_attained (rows : List Explains) (charged : worst rows ≠ 0) :
    ∃ row ∈ rows,stops row = false ∧ typeScore row = worst rows := by
  have attained (before : List Explains) : (before.map typeScore).foldr max 0 ≠ 0 →
      ∃ row ∈ before,typeScore row = (before.map typeScore).foldr max 0 := by
    induction before with
    | nil => exact fun none_ => absurd rfl none_
    | cons row before ih =>
      intro some_
      rw [List.map_cons,List.foldr_cons] at some_ ⊢
      rcases max_choice (typeScore row) ((before.map typeScore).foldr max 0) with left | right
      · exact ⟨row,List.mem_cons_self,left.symm⟩
      · rw [right] at some_ ⊢
        obtain ⟨other,mem,same⟩ := ih some_
        exact ⟨other,List.mem_cons_of_mem _ mem,same⟩
  obtain ⟨row,mem,same⟩ := attained _ charged
  refine ⟨row,(List.takeWhile_sublist _).subset mem,?_,same⟩
  simpa using List.mem_takeWhile_imp mem

theorem describes_typeScore {row : Explains} (other : stops row = false) (charged : typeScore row ≠ 0) :
    describes (typeScore row) row = true := by
  simp only [stops,Bool.or_eq_false_iff,decide_eq_false_iff_not] at other
  simp only [describes,Bool.and_eq_true,decide_eq_true_eq]
  exact ⟨other,(scoreLevel_score charged).symm⟩

theorem described_any (rows : List Explains) (charged : worst rows ≠ 0) :
    rows.any (describes (worst rows)) = true := by
  obtain ⟨row,mem,other,same⟩ := worst_attained rows charged
  rw [← same] at charged ⊢
  exact List.any_eq_true.mpr ⟨row,mem,describes_typeScore other charged⟩

theorem second_add (rows : List Explains) (t : Tally) :
    secondLoop (worst rows) rows {t with scoreType := t.scoreType+worst rows} =
      t.add (describedItems (worst rows) rows) := by
  rw [secondLoop_eq]
  split
  · rfl
  · rename_i missing
    have free : worst rows = 0 := by
      by_contra charged
      exact missing (described_any rows charged)
    have none_ : describedItems (worst rows) rows = [] := by
      have unfound : rows.find? (describes (worst rows)) = none := by
        rw [List.find?_eq_none]
        intro row mem found
        exact missing (List.any_eq_true.mpr ⟨row,mem,found⟩)
      rw [describedItems,unfound]
      rfl
    rw [none_,add_nil,free,Int.add_zero]

-- The whole of getScore: one list of items, written and charged alike.
theorem tally_eq (cost : Text → Int) (sql : ExplainsResult) :
    tally cost sql = Tally.add ⟨sql.content,if sql.explain.any stops then text "L1" else if sql.level = [] then scoreLevel (worst sql.explain) else sql.level,0,[]⟩
      (items cost sql) := by
  obtain ⟨first,tmp⟩ := firstLoop_eq sql.explain (s := ⟨⟨sql.content,sql.level,0,[]⟩,0,0⟩) ⟨Iff.rfl,Int.le_refl 0⟩
  have score : (firstLoop sql.explain ⟨⟨sql.content,sql.level,0,[]⟩,0,0⟩).scoreTypeTmp =
      worst sql.explain := by
    rw [tmp]
    exact max_eq_right (worst_nonneg sql.explain)
  unfold tally
  dsimp only
  rw [first,score,chargeBand_add,items,add_append,add_append]
  have second := second_add sql.explain {Tally.scanned ⟨sql.content,sql.level,0,[]⟩ sql.explain with
    level := if (Tally.scanned ⟨sql.content,sql.level,0,[]⟩ sql.explain).level = [] then scoreLevel (worst sql.explain)
      else (Tally.scanned ⟨sql.content,sql.level,0,[]⟩ sql.explain).level}
  refine (congrArg (fun t : Tally => t.add (costItems cost sql.lastQueryCost)) second).trans ?_
  apply congrArg fun t : Tally => (t.add (describedItems (worst sql.explain) sql.explain)).add
    (costItems cost sql.lastQueryCost)
  unfold Tally.scanned
  by_cases stop : sql.explain.any stops = true
  · have marked : text "L1" ≠ [] := by decide
    rw [if_pos stop,if_pos stop]
    dsimp only
    rw [if_neg marked]
    rfl
  · have none_ : scanItems sql.explain = [] := by
      have unfound : sql.explain.find? stops = none := by
        rw [List.find?_eq_none]
        intro row mem found
        exact stop (List.any_eq_true.mpr ⟨row,mem,found⟩)
      rw [scanItems,unfound]
      rfl
    rw [if_neg stop,if_neg stop,none_,add_nil]

end SqlReview.Explain
