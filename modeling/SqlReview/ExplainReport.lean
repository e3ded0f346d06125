import SqlReview.ExplainScore

-- The text of the report: what can be read back from it, and how long it is.
namespace SqlReview.ExplainReport
open GoText Records Explain ExplainScore

-- The numbers behind the deduction marks of a text.
def deductionsIn : Text → List Int
  | [] => []
  | c :: s =>
    if deductionMark.isPrefixOf
      (c :: s) then (Nat.ofDigitChars 10 ((s.drop 3).takeWhile Char.isDigit) 0 : Int) :: deductionsIn s
    else deductionsIn s

def unmarked (s : Text) : Prop := '扣' ∉ s

theorem deductionsIn_unmarked (free : unmarked s) (rest : Text) :
    deductionsIn (s ++ rest) = deductionsIn rest := by
  induction s with
  | nil => rfl
  | cons c s ih =>
    rw [unmarked,List.mem_cons,not_or] at free
    obtain ⟨other,later⟩ := free
    have miss : deductionMark.isPrefixOf (c :: (s ++ rest)) = false := by
      have head : deductionMark = '扣' :: text "分为-" := by decide
      rw [head,List.isPrefixOf,beq_eq_false_iff_ne.mpr other,Bool.false_and]
    rw [List.cons_append,deductionsIn,miss,if_neg Bool.false_ne_true,ih later]

theorem digits_unmarked (n : Nat) : unmarked (Nat.toDigits 10 n) := by
  intro mem
  have digit := List.all_eq_true.mp (Json.toDigits_digits n) _ mem
  revert digit
  decide

theorem decimal_unmarked (i : Int) : unmarked (Json.decimal i) := by
  unfold Json.decimal
  split
  · rw [unmarked,List.mem_cons,not_or]
    exact ⟨by decide,digits_unmarked _⟩
  · exact digits_unmarked _

theorem deductionsIn_mark (nonneg : 0 ≤ n) (rest : Text) :
    deductionsIn (deductionMark ++ Json.decimal n ++ [','] ++ rest) = n :: deductionsIn rest := by
  have digits : Json.decimal n = Nat.toDigits 10 n.natAbs := if_neg (by omega)
  have read : (Nat.toDigits 10 n.natAbs ++ (',' :: rest)).takeWhile Char.isDigit =
      Nat.toDigits 10 n.natAbs := by
    rw [List.takeWhile_append_of_pos (List.all_eq_true.mp (Json.toDigits_digits _)),
      List.takeWhile_cons_of_neg (by decide),List.append_nil]
  have free : unmarked (text "分为-" ++ Nat.toDigits 10 n.natAbs ++ [',']) := by
    simp only [unmarked,List.mem_append,not_or]
    exact ⟨⟨by decide,digits_unmarked _⟩,by decide⟩
  have whole : deductionMark ++ Json.decimal n ++ [','] ++ rest =
      '扣' :: (text "分为-" ++ Nat.toDigits 10 n.natAbs ++ [','] ++ rest) := by
    rw [digits]
    rfl
  have start : deductionMark.isPrefixOf
      ('扣' :: (text "分为-" ++ Nat.toDigits 10 n.natAbs ++ [','] ++ rest)) = true := by
    rw [← whole,List.isPrefixOf_iff_prefix,List.append_assoc,List.append_assoc]
    exact List.prefix_append _ _
  have number : (text "分为-" ++ Nat.toDigits 10 n.natAbs ++ [','] ++ rest).drop 3 =
      Nat.toDigits 10 n.natAbs ++ (',' :: rest) := by
    simp only [List.append_assoc]
    rfl
  rw [whole,deductionsIn,if_pos start,number,read,Nat.ofDigitChars_toDigits (by decide) (by decide),
    deductionsIn_unmarked free,Int.natAbs_of_nonneg nonneg]

-- An item whose own text has no deduction mark.
structure Readable (item : Item) : Prop where
  free : unmarked item.what
  nonneg : 0 ≤ item.points

theorem deductionsIn_items (items : List Item) (readable : ∀ item ∈ items,Readable item) :
    deductionsIn (items.flatMap Item.text) = items.map Item.points := by
  induction items with
  | nil => rfl
  | cons item items ih =>
    obtain ⟨here,later⟩ := List.forall_mem_cons.mp readable
    have parts : item.text ++ items.flatMap Item.text =
        item.what ++ (deductionMark ++ Json.decimal item.points ++ [','] ++ items.flatMap Item.text) := by
      simp only [Item.text,List.append_assoc]
    rw [List.flatMap_cons,parts,deductionsIn_unmarked here.free,deductionsIn_mark here.nonneg,
      ih later,List.map_cons]

theorem bandItems_readable (ascending : Ascending bands) (free : unmarked what) :
    ∀ item ∈ bandItems bands n what,Readable item := by
  intro item mem
  unfold bandItems at mem
  cases found : bandOf bands n with
  | none =>
    rw [found] at mem
    cases mem
  | some band =>
    rw [found] at mem
    cases List.mem_singleton.mp mem
    exact ⟨free,(ascending.positive band (bandOf_some found).1).le⟩

theorem surcharges_readable (row : Explains) : ∀ item ∈ surcharges row,Readable item := by
  have key : ∀ item ∈ keyItems row,Readable item := by
    unfold keyItems
    split
    · exact List.forall_mem_singleton.mpr ⟨by unfold unmarked; decide,by decide⟩
    · exact nofun
  have extra : ∀ item ∈ extraItems row,Readable item := by
    unfold extraItems
    split
    · exact List.forall_mem_singleton.mpr ⟨by unfold unmarked; decide,by decide⟩
    · split
      · exact List.forall_mem_singleton.mpr ⟨by unfold unmarked; decide,by decide⟩
      · exact nofun
  have rows : ∀ item ∈ rowsItems row,Readable item := by
    apply bandItems_readable rowBands_ascending
    simp only [unmarked,List.mem_append,not_or]
    exact ⟨⟨by decide,decimal_unmarked _⟩,by decide⟩
  intro item mem
  rcases List.mem_append.mp mem with mem | mem
  · rcases List.mem_append.mp mem with mem | mem
    · exact key item mem
    · exact extra item mem
  · exact rows item mem

theorem stopItems_readable (row : Explains) (free : unmarked row.table) :
    ∀ item ∈ stopItems row,Readable item := by
  have named (what : String) (plain : unmarked (text what)) : unmarked (row.table ++ text what) := by
    rw [unmarked,List.mem_append,not_or]
    exact ⟨free,plain⟩
  unfold stopItems
  split
  · split
    · exact List.forall_mem_singleton.mpr ⟨named _ (by unfold unmarked; decide),(by decide : (0 : Int) ≤ 1)⟩
    · exact List.forall_mem_cons.mpr
        ⟨⟨named _ (by unfold unmarked; decide),(by decide : (0 : Int) ≤ 15)⟩,surcharges_readable row⟩
  · exact List.forall_mem_cons.mpr
      ⟨⟨named _ (by unfold unmarked; decide),(by decide : (0 : Int) ≤ 15)⟩,surcharges_readable row⟩

theorem items_readable (cost : Text → Int) (sql : ExplainsResult)
    (rows : ∀ row ∈ sql.explain,unmarked row.table ∧ unmarked row.type)
    (query : unmarked sql.lastQueryCost) : ∀ item ∈ items cost sql,Readable item := by
  have scan : ∀ item ∈ scanItems sql.explain,Readable item := by
    unfold scanItems
    cases found : sql.explain.find? stops with
    | none => exact nofun
    | some row => exact stopItems_readable row (rows row (List.mem_of_find?_eq_some found)).1
  have described : ∀ item ∈ describedItems (worst sql.explain) sql.explain,Readable item := by
    unfold describedItems
    cases found : sql.explain.find? (describes (worst sql.explain)) with
    | none => exact nofun
    | some row =>
      obtain ⟨table,type⟩ := rows row (List.mem_of_find?_eq_some found)
      have free : unmarked (row.table ++ text "使用type为：" ++ row.type ++ [',']) := by
        simp only [unmarked,List.mem_append,not_or]
        exact ⟨⟨⟨table,by decide⟩,type⟩,by decide⟩
      exact List.forall_mem_cons.mpr ⟨⟨free,worst_nonneg _⟩,surcharges_readable row⟩
  have costs : ∀ item ∈ costItems cost sql.lastQueryCost,Readable item := by
    apply bandItems_readable costBands_ascending
    simp only [unmarked,List.mem_append,not_or]
    exact ⟨⟨by decide,query⟩,by decide⟩
  intro item mem
  rcases List.mem_append.mp mem with mem | mem
  · rcases List.mem_append.mp mem with mem | mem
    · exact scan item mem
    · exact described item mem
  · exact costs item mem

theorem report_explains_score (cost : Text → Int) (sql : ExplainsResult) (fresh : sql.content = []) :
    (tally cost sql).itemised.sum = 100-score cost sql ∧
    ((∀ row ∈ sql.explain,unmarked row.table ∧ unmarked row.type) → unmarked sql.lastQueryCost →
      deductionsIn (getScore cost sql).content = (tally cost sql).itemised) := by
  have numbers : (tally cost sql).itemised = (items cost sql).map Item.points := by
    rw [tally_eq]
    rfl
  constructor
  · rw [numbers,score_eq,← total_items]
    change total (items cost sql) = _
    omega
  · intro rows query
    have content : (getScore cost sql).content = (items cost sql).flatMap Item.text := by
      unfold getScore
      rw [tally_eq,fresh]
      rfl
    rw [content,numbers,deductionsIn_items _ (items_readable cost sql rows query)]

theorem users_report_explained : (planned [planRow "users" "ALL" "" "" 20000] "900.0").content = [] ∧
    (tally wholeCost (planned [planRow "users" "ALL" "" "" 20000] "900.0")).itemised.sum =
      100-score wholeCost (planned [planRow "users" "ALL" "" "" 20000] "900.0") :=
  ⟨rfl,(report_explains_score wholeCost (planned [planRow "users" "ALL" "" "" 20000] "900.0") rfl).1⟩

def digits (n : Int) : Nat := (Json.decimal n).length

-- The width of sqlexplain.content, in characters.
def contentWidth : Nat := 150

def bandWidth (bands : List Band) (n : Int) (width : Nat) : Nat :=
  ((bandOf bands n).map fun band => width+digits band.points).getD 0

def surchargeWidth (row : Explains) : Nat :=
  (if row.key = [] then 19 else 0)+
  (if index row.extra (text "index") = none then 17 else if index row.extra
    (text "where") = none then 19 else 0)+
  bandWidth rowBands (rowCount row) (digits (rowCount row)+16)

def stopWidth (row : Explains) : Nat :=
  row.table.length+(if lostConst row then 35 else (if row.type = [] then 20 else 19)+surchargeWidth row)

def describedWidth (score : Int) (row : Explains) : Nat :=
  row.table.length+row.type.length+digits score+14+surchargeWidth row

-- What a report needs: the row that ended the first loop, the row the second loop picked, and the cost.
def reportWidth (cost : Text → Int) (sql : ExplainsResult) : Nat :=
  ((sql.explain.find? stops).map stopWidth).getD 0+
  ((sql.explain.find? (describes (worst sql.explain))).map (describedWidth (worst sql.explain))).getD 0+
  bandWidth costBands (cost sql.lastQueryCost) (sql.lastQueryCost.length+25)

def written (items : List Item) : Nat := (items.flatMap Item.text).length

@[simp] theorem written_nil : written [] = 0 := rfl
@[simp] theorem written_cons (item : Item) (items : List Item) :
    written (item :: items) = item.what.length+digits item.points+5+written items := by
  have mark : deductionMark.length = 4 := by decide
  simp only [written,Item.text,digits,List.flatMap_cons,List.length_append,mark,List.length_singleton]
  omega
@[simp] theorem written_append (one two : List Item) :
    written (one ++ two) = written one+written two := by
  simp [written]

theorem written_band (bands : List Band) (n : Int) (what : Text) :
    written (bandItems bands n what) = bandWidth bands n (what.length+5) := by
  unfold bandItems bandWidth
  cases bandOf bands n with
  | none => rfl
  | some band =>
    simp only [Option.toList_some,List.map_singleton,written_cons,written_nil,Option.map_some,
      Option.getD_some]
    omega

theorem written_surcharges (row : Explains) : written (surcharges row) = surchargeWidth row := by
  have five : digits 5 = 1 ∧ digits 3 = 1 := by decide
  have key : written (keyItems row) = if row.key = [] then 19 else 0 := by
    unfold keyItems
    split
    · rw [written_cons,five.1]
      rfl
    · rfl
  have extra : written (extraItems row) =
      if index row.extra (text "index") = none then 17 else if index row.extra
        (text "where") = none then 19 else 0 := by
    unfold extraItems
    split
    · rw [written_cons,five.1]
      rfl
    · split
      · rw [written_cons,five.2]
        rfl
      · rfl
  have lead : (text "返回rows行数为：").length = 10 := by decide
  rw [surcharges,written_append,written_append,key,extra,rowsItems,written_band,surchargeWidth]
  simp only [List.length_append,lead,List.length_singleton,digits]
  congr 2
  omega

theorem written_stop (row : Explains) : written (stopItems row) = stopWidth row := by
  have leads : (text "使用type为：Null,未找到const tables，").length = 29 ∧ (text "使用type为：Null,").length = 13 ∧
      (text "使用type为：ALL,").length = 12 := by decide
  have numbers : digits 1 = 1 ∧ digits 15 = 2 := by decide
  unfold stopItems stopWidth lostConst
  by_cases null : row.type = []
  · by_cases lost : constTable row = true
    · simp only [null,lost,if_true,written_cons,written_nil,List.length_append,leads,numbers,
        decide_true,Bool.and_self]
    · simp only [null,lost,if_true,if_false,written_cons,written_surcharges,List.length_append,
        leads,numbers,decide_true,Bool.and_false,Bool.false_eq_true]
      omega
  · simp only [null,if_false,written_cons,written_surcharges,List.length_append,leads,numbers,
      decide_false,Bool.false_and,Bool.false_eq_true]
    omega

theorem report_fits_iff (cost : Text → Int) (sql : ExplainsResult) (fresh : sql.content = []) :
    (getScore cost sql).content.length ≤ contentWidth ↔ reportWidth cost sql ≤ contentWidth := by
  have content : (getScore cost sql).content.length = written (items cost sql) := by
    unfold getScore
    rw [tally_eq,fresh]
    rfl
  have scan : written (scanItems sql.explain) = ((sql.explain.find? stops).map stopWidth).getD 0 := by
    unfold scanItems
    cases sql.explain.find? stops with
    | none => rfl
    | some row => exact written_stop row
  have described : written (describedItems (worst sql.explain) sql.explain) =
      ((sql.explain.find? (describes (worst sql.explain))).map
        (describedWidth (worst sql.explain))).getD 0 := by
    unfold describedItems
    cases sql.explain.find? (describes (worst sql.explain)) with
    | none => rfl
    | some row =>
      have lead : (text "使用type为：").length = 8 := by decide
      simp only [Option.map_some,Option.getD_some,written_cons,written_surcharges,describedWidth,
        List.length_append,lead,List.length_singleton]
      omega
  have costs : written (costItems cost sql.lastQueryCost) =
      bandWidth costBands (cost sql.lastQueryCost) (sql.lastQueryCost.length+25) := by
    have lead : (text "查询Last_query_cost为：").length = 19 := by decide
    rw [costItems,written_band]
    simp only [List.length_append,lead,List.length_singleton]
    congr 1
    omega
  rw [content,items,written_append,written_append,scan,described,costs,reportWidth]

theorem report_too_long :
    (planRow (String.ofList (List.replicate 64 'a')) "ALL" "" "" 20000).table.length ≤ 64 ∧
      (text "900.0").length ≤ 20 ∧
    (getScore wholeCost
      (planned [planRow (String.ofList
      (List.replicate 64 'a')) "ALL" "" "" 20000] "900.0")).content.length = 173 := by
  decide +kernel

theorem short_report_fits : (planned [planRow "users" "ALL" "" "" 20000] "900.0").content = [] ∧
    (getScore wholeCost (planned [planRow "users" "ALL" "" "" 20000] "900.0")).content.length ≤
      contentWidth :=
  ⟨rfl,(report_fits_iff wholeCost (planned [planRow "users" "ALL" "" "" 20000] "900.0") rfl).mpr
    (by decide +kernel)⟩

end SqlReview.ExplainReport
