import SqlReview.Explain

-- How the score depends on the rows, their order and the cost.
namespace SqlReview.ExplainScore
open GoText Records Explain

def points (bands : List Band) (n : Int) : Int := ((bandOf bands n).map Band.points).getD 0

theorem total_bandItems (bands : List Band) (n : Int) (what : Text) :
    total (bandItems bands n what) = points bands n := by
  unfold bandItems points
  cases bandOf bands n with
  | none => rfl
  | some band => exact Int.add_zero band.points

theorem points_bound (n : Int) (nonneg : 0 ≤ most)
    (bound : ∀ band ∈ bands,0 ≤ band.points ∧ band.points ≤ most) :
    0 ≤ points bands n ∧ points bands n ≤ most := by
  unfold points
  cases found : bandOf bands n with
  | none => exact ⟨Int.le_refl 0,nonneg⟩
  | some band => exact bound band (List.mem_of_find?_eq_some found)

theorem rowPoints_bound (n : Int) : 0 ≤ points rowBands n ∧ points rowBands n ≤ 20 :=
  points_bound n (by decide) (by decide)

theorem costPoints_bound (n : Int) : 0 ≤ points costBands n ∧ points costBands n ≤ 50 :=
  points_bound n (by decide) (by decide)

def surcharge (row : Explains) : Int := total (surcharges row)

theorem surcharge_eq (row : Explains) :
    surcharge row = total (keyItems row)+total (extraItems row)+points rowBands (rowCount row) := by
  rw [surcharge,surcharges,total_append,total_append,rowsItems,total_bandItems]

theorem surcharge_bound (row : Explains) : 0 ≤ surcharge row ∧ surcharge row ≤ 30 := by
  have key : 0 ≤ total (keyItems row) ∧ total (keyItems row) ≤ 5 := by
    unfold keyItems
    split <;> simp
  have extra : 0 ≤ total (extraItems row) ∧ total (extraItems row) ≤ 5 := by
    unfold extraItems
    split_ifs <;> simp
  have rows := rowPoints_bound (rowCount row)
  rw [surcharge_eq]
  omega

-- A row of type NULL whose const table was not found.
def lostConst (row : Explains) : Bool := row.type = [] && constTable row

theorem total_stopItems (row : Explains) :
    total (stopItems row) = if lostConst row then 1 else 15+surcharge row := by
  unfold stopItems lostConst
  by_cases null : row.type = []
  · by_cases lost : constTable row = true
    · rw [if_pos null,if_pos lost,null,lost]
      rfl
    · rw [if_pos null,if_neg lost,if_neg (by simp [lost]),total_cons]
      rfl
  · rw [if_neg null,if_neg (by simp [null]),total_cons]
    rfl

theorem worst_bound (rows : List Explains) : worst rows ≤ 15 := by
  by_cases charged : worst rows = 0
  · rw [charged]
    decide
  · obtain ⟨row,_,_,same⟩ := worst_attained rows charged
    rw [← same,typeScore]
    rcases levelScore_cases (typeLevel row.type) with score | ⟨score,_⟩ | ⟨score,_⟩ | ⟨score,_⟩ <;>
      rw [score] <;> decide

-- What the rows are charged.
def scanCharge (rows : List Explains) : Int := total (scanItems rows)

def describedCharge (rows : List Explains) : Int := total (describedItems (worst rows) rows)

theorem scanCharge_eq (rows : List Explains) :
    scanCharge rows = ((rows.find? stops).map fun row => if lostConst row then 1
      else 15+surcharge row).getD 0 := by
  unfold scanCharge scanItems
  cases rows.find? stops with
  | none => rfl
  | some row => exact total_stopItems row

theorem describedCharge_eq (rows : List Explains) :
    describedCharge rows = worst rows+((rows.find? (describes (worst rows))).map surcharge).getD 0 := by
  unfold describedCharge describedItems
  cases found : rows.find? (describes (worst rows)) with
  | some row => exact total_cons _ _
  | none =>
    have free : worst rows = 0 := by
      by_contra charged
      obtain ⟨row,mem,here⟩ := List.any_eq_true.mp (described_any rows charged)
      exact List.find?_eq_none.mp found row mem here
    rw [free]
    rfl

theorem scanCharge_bound (rows : List Explains) : 0 ≤ scanCharge rows ∧ scanCharge rows ≤ 45 := by
  rw [scanCharge_eq]
  cases rows.find? stops with
  | none => decide
  | some row =>
    have bound := surcharge_bound row
    dsimp only [Option.map_some,Option.getD_some]
    split <;> omega

theorem describedSurcharge_bound (rows : List Explains) (score : Int) :
    0 ≤ ((rows.find? (describes score)).map surcharge).getD 0 ∧
      ((rows.find? (describes score)).map surcharge).getD 0 ≤ 30 := by
  cases rows.find? (describes score) with
  | none => decide
  | some row => exact surcharge_bound row

theorem total_items (cost : Text → Int) (sql : ExplainsResult) :
    total (items cost sql) = scanCharge sql.explain+describedCharge sql.explain+points costBands
      (cost sql.lastQueryCost) := by
  rw [items,total_append,total_append,costItems,total_bandItems]
  rfl

def score (cost : Text → Int) (sql : ExplainsResult) : Int := (getScore cost sql).score.toInt

theorem score_eq (cost : Text → Int) (sql : ExplainsResult) : score cost sql =
    100-(scanCharge sql.explain+describedCharge sql.explain+points costBands (cost sql.lastQueryCost)) := by
  have scan := scanCharge_bound sql.explain
  have worse := worst_bound sql.explain
  have nonneg := worst_nonneg sql.explain
  have described := describedSurcharge_bound sql.explain (worst sql.explain)
  have costs := costPoints_bound (cost sql.lastQueryCost)
  have charged : (tally cost sql).scoreType = total (items cost sql) := by
    rw [tally_eq]
    exact Int.zero_add _
  unfold score getScore
  dsimp only
  rw [charged,total_items,describedCharge_eq]
  apply Int64.toInt_ofInt_of_le <;> omega

-- A full scan is charged beside the row the second loop picks, so only there can the points run out.
def affordable (cost : Int) (rows : List Explains) : Bool :=
  match rows.find? stops with
  | none => true
  | some scan => lostConst scan ||
      surcharge scan+worst rows+((rows.find? (describes (worst rows))).map surcharge).getD 0+
        points costBands cost ≤ 85

theorem score_scale_iff (cost : Text → Int) (sql : ExplainsResult) :
    0 ≤ score cost sql ∧ score cost sql ≤ 100 ↔ affordable (cost sql.lastQueryCost) sql.explain = true := by
  have worse := worst_bound sql.explain
  have nonneg := worst_nonneg sql.explain
  have described := describedSurcharge_bound sql.explain (worst sql.explain)
  have costs := costPoints_bound (cost sql.lastQueryCost)
  rw [score_eq,scanCharge_eq,describedCharge_eq,affordable]
  cases sql.explain.find? stops with
  | none => exact iff_of_true (by dsimp only [Option.map_none,Option.getD_none]; omega) rfl
  | some scan =>
    have extra := surcharge_bound scan
    dsimp only [Option.map_some,Option.getD_some]
    cases lost : lostConst scan with
    | true => exact iff_of_true (by rw [if_pos rfl]; omega) rfl
    | false =>
      rw [if_neg Bool.false_ne_true,Bool.false_or,decide_eq_true_eq]
      omega

-- Results to evaluate, as importToRedis and ExcuteDbSql build them.
def planRow (table type key extra : String) (rows : UInt64) : Explains :=
  ⟨1,text "SIMPLE",text table,text type,[],text key,[],[],rows,text extra⟩

def planned (rows : List Explains) (cost : String) : ExplainsResult := ⟨[],[],rows,text cost,[],0,[],[],[],[]⟩

-- The integer part of a plain decimal.
def wholeCost (s : Text) : Int := (Json.integer (s.takeWhile (· ≠ '.'))).getD 0

theorem score_below_zero :
    score wholeCost (planned [planRow "orders" "index" "" "" 2000000,
      planRow "users" "ALL" "" "" 2000000] "2000000.0") = -40 := by
  decide +kernel

-- The bands rise, and leave out their edges.
structure Ascending (bands : List Band) : Prop where
  rise : bands.Pairwise fun low high => low.high ≤ high.low ∧ low.points ≤ high.points
  positive : ∀ band ∈ bands,0 < band.points

theorem rowBands_ascending : Ascending rowBands := ⟨by decide,by decide⟩

theorem costBands_ascending : Ascending costBands := ⟨by decide,by decide⟩

-- From n to m the deduction is lost: m is an edge or lies beyond the last band.
def drops (bands : List Band) (n m : Int) : Bool := (bandOf bands n).isSome && (bandOf bands m).isNone

theorem bandOf_some (found : bandOf bands n = some band) : band ∈ bands ∧ band.low < n ∧ n < band.high := by
  have within := List.find?_some found
  rw [Bool.and_eq_true,decide_eq_true_eq,decide_eq_true_eq] at within
  exact ⟨List.mem_of_find?_eq_some found,within⟩

theorem Ascending.points_le (bands : Ascending table) (le : n ≤ m) (low : bandOf table n = some a)
    (high : bandOf table m = some b) :
    a.points ≤ b.points := by
  obtain ⟨memA,aLow,aHigh⟩ := bandOf_some low
  obtain ⟨memB,bLow,bHigh⟩ := bandOf_some high
  by_cases same : a = b
  · rw [same]
  let apart (a b : Band) : Prop :=
    (a.high ≤ b.low ∧ a.points ≤ b.points) ∨ (b.high ≤ a.low ∧ b.points ≤ a.points)
  have symmetric : Std.Symm apart := ⟨fun _ _ => Or.symm⟩
  have either : table.Pairwise apart := bands.rise.imp Or.inl
  rcases either.forall memA memB same with up | down
  · exact up.2
  · omega

theorem Ascending.points_iff (bands : Ascending table) (le : n ≤ m) :
    points table n ≤ points table m ↔ drops table n m = false := by
  unfold drops points
  cases low : bandOf table n with
  | none =>
    refine iff_of_true ?_ rfl
    cases high : bandOf table m with
    | none => exact Int.le_refl 0
    | some b => exact (bands.positive b (bandOf_some high).1).le
  | some a =>
    cases high : bandOf table m with
    | none =>
      have positive := bands.positive a (bandOf_some low).1
      exact iff_of_false (not_le.mpr positive) nofun
    | some b => exact iff_of_true (bands.points_le le low high) rfl

def setRows (r : UInt64) (row : Explains) : Explains := {row with rows := r}

-- The rows whose row count is charged: a full scan that ends the first loop, and the row the second
-- loop picks.
def charged (rows : List Explains) (i : Nat) : Bool :=
  (rows.findIdx? stops = some i && !((rows.find? stops).any lostConst)) ||
    rows.findIdx? (describes (worst rows)) = some i

theorem find_modify (rows : List Explains) (i : Nat) (f : Explains → Explains)
    (keeps : ∀ row,p (f row) = p row) :
    (rows.modify i f).find? p = if rows.findIdx? p = some i then (rows.find? p).map f else rows.find? p := by
  induction rows generalizing i with
  | nil => simp
  | cons row rows ih =>
    cases i with
    | zero =>
      by_cases here : p row = true
      · simp [here,keeps,List.findIdx?_cons]
      · simp [here,keeps,List.findIdx?_cons]
    | succ i =>
      by_cases here : p row = true
      · simp [here,List.findIdx?_cons]
      · simp [here,ih,List.findIdx?_cons]

theorem worst_modify (rows : List Explains) (i : Nat) (r : UInt64) :
    worst (rows.modify i (setRows r)) = worst rows := by
  induction rows generalizing i with
  | nil => simp
  | cons row rows ih =>
    have cons (row : Explains) (rows : List Explains) : worst (row :: rows) = if stops row then 0
        else max (typeScore row) (worst rows) := by
      by_cases stop : stops row = true <;> simp [worst,stop]
    cases i with
    | zero =>
      rw [List.modify_zero_cons,cons,cons]
      rfl
    | succ i => rw [List.modify_succ_cons,cons,cons,ih]

theorem surcharge_setRows (r : UInt64) (row : Explains) :
    surcharge (setRows r row) =
      total (keyItems row)+total (extraItems row)+points rowBands r.toInt64.toInt :=
  surcharge_eq (setRows r row)

theorem scanCharge_modify (rows : List Explains) (i : Nat) :
    ∃ base,∀ r,scanCharge (rows.modify i (setRows r)) =
      base+if rows.findIdx? stops = some i ∧ (rows.find? stops).any lostConst = false then
        points rowBands r.toInt64.toInt
      else 0 := by
  by_cases here : rows.findIdx? stops = some i
  · cases found : rows.find? stops with
    | none =>
      refine ⟨0,fun r => ?_⟩
      rw [List.find?_eq_none] at found
      rw [List.findIdx?_eq_none_iff.mpr fun row mem => Bool.not_eq_true _ ▸ found row mem] at here
      cases here
    | some scan =>
      refine ⟨if lostConst scan then 1 else 15+(total (keyItems scan)+total (extraItems scan)),fun r => ?_⟩
      have lost : lostConst (setRows r scan) = lostConst scan := rfl
      rw [scanCharge_eq,find_modify rows i (setRows r) fun _ => rfl,if_pos here,found]
      simp only [Option.map_some,Option.getD_some,Option.any_some,lost,surcharge_setRows]
      by_cases gone : lostConst scan = true
      · simp [gone]
      · simp [gone,here,Int.add_assoc]
  · refine ⟨scanCharge rows,fun r => ?_⟩
    rw [scanCharge_eq,find_modify rows i (setRows r) fun _ => rfl,if_neg here,if_neg fun both =>
      here both.1,← scanCharge_eq,Int.add_zero]

theorem describedCharge_modify (rows : List Explains) (i : Nat) :
    ∃ base,∀ r,describedCharge (rows.modify i (setRows r)) =
    base+if rows.findIdx? (describes (worst rows)) = some i then points rowBands r.toInt64.toInt else 0 := by
  by_cases here : rows.findIdx? (describes (worst rows)) = some i
  · cases found : rows.find? (describes (worst rows)) with
    | none =>
      rw [List.find?_eq_none] at found
      rw [List.findIdx?_eq_none_iff.mpr fun row mem => Bool.not_eq_true _ ▸ found row mem] at here
      cases here
    | some row =>
      refine ⟨worst rows+(total (keyItems row)+total (extraItems row)),fun r => ?_⟩
      rw [describedCharge_eq,worst_modify,find_modify rows i (setRows r) fun _ => rfl,if_pos here,
        if_pos here,found]
      simp only [Option.map_some,Option.getD_some,surcharge_setRows,Int.add_assoc]
  · refine ⟨describedCharge rows,fun r => ?_⟩
    rw [describedCharge_eq,worst_modify,find_modify rows i (setRows r) fun _ => rfl,if_neg here,
      if_neg here,← describedCharge_eq,Int.add_zero]

theorem rowCount_small {r : UInt64} (small : r.toNat < 2^63) : r.toInt64.toInt = r.toNat := by
  have signed := BitVec.toInt_eq_toNat_of_lt (x := r.toBitVec) (by rw [UInt64.toNat_toBitVec]; omega)
  exact signed

theorem score_monotone_iff (cost : Text → Int) (sql : ExplainsResult) :
    (∀ (i : Nat) (r1 r2 : UInt64),r1 ≤ r2 → r2.toNat < 2^63 →
      (score cost {sql with explain := sql.explain.modify i (setRows r2)} ≤
      score cost {sql with explain := sql.explain.modify i (setRows r1)} ↔
        (charged sql.explain i && drops rowBands r1.toNat r2.toNat) = false)) ∧
    ∀ c1 c2 : Text,cost c1 ≤ cost c2 →
      (score cost {sql with lastQueryCost := c2} ≤ score cost {sql with lastQueryCost := c1} ↔
      drops costBands (cost c1) (cost c2) = false) := by
  constructor
  · intro i r1 r2 le small
    have order : r1.toNat ≤ r2.toNat := UInt64.le_iff_toNat_le.mp le
    have bands := rowBands_ascending.points_iff (n := r1.toNat) (m := r2.toNat) (by omega)
    obtain ⟨scanBase,scan⟩ := scanCharge_modify sql.explain i
    obtain ⟨base,described⟩ := describedCharge_modify sql.explain i
    rw [score_eq,score_eq]
    dsimp only
    rw [scan,scan,described,described,rowCount_small small,rowCount_small (by omega)]
    have reaches : charged sql.explain i = true ↔
      (sql.explain.findIdx? stops = some i ∧ (sql.explain.find? stops).any lostConst = false) ∨
        sql.explain.findIdx? (describes (worst sql.explain)) = some i := by simp [charged]
    cases reached : charged sql.explain i with
    | false =>
      rw [reached] at reaches
      obtain ⟨noScan,notPicked⟩ := not_or.mp fun either => Bool.false_ne_true (reaches.mpr either)
      rw [if_neg noScan,if_neg noScan,if_neg notPicked,if_neg notPicked]
      exact iff_of_true (Int.le_refl _) rfl
    | true =>
      rw [reached] at reaches
      rw [Bool.true_and,← bands]
      rcases reaches.mp rfl with scanned | picked
      · rw [if_pos scanned,if_pos scanned]
        split_ifs <;> omega
      · rw [if_pos picked,if_pos picked]
        split_ifs <;> omega
  · intro c1 c2 le
    rw [score_eq,score_eq,← costBands_ascending.points_iff le]
    dsimp only
    omega

theorem score_rises_at_edges :
    score wholeCost (planned [planRow "users" "ALL" "" "" 9999] "900.0") = 65 ∧
    score wholeCost (planned [planRow "users" "ALL" "" "" 10000] "900.0") = 70 ∧
    score wholeCost (planned [planRow "users" "ALL" "" "" 9999] "1000.0") = 70 := by
  decide +kernel

theorem score_monotone_inside :
    score wholeCost (planned [planRow "users" "ALL" "" "" 20000] "0.0") ≤
      score wholeCost (planned [planRow "users" "ALL" "" "" 9999] "0.0") ∧
    score wholeCost (planned [planRow "users" "ALL" "" "" 0] "2000.0") ≤
      score wholeCost (planned [planRow "users" "ALL" "" "" 0] "900.0") :=
  ⟨((score_monotone_iff wholeCost (planned [planRow "users" "ALL" "" "" 0] "0.0")).1 0 9999 20000
    (by decide) (by decide)).mpr (by decide +kernel),
    ((score_monotone_iff wholeCost (planned [planRow "users" "ALL" "" "" 0] "0.0")).2 (text "900.0")
      (text "2000.0") (by decide)).mpr (by decide +kernel)⟩

def rowTotal (row : Explains) : Int := typeScore row+surcharge row

-- A row that the second loop could pick.
def known (row : Explains) : Bool := !stops row && typeLevel row.type ≠ []

theorem typeLevel_score {type : Text} (entry : typeLevel type ≠ []) :
    scoreLevel (levelScore (typeLevel type)) = typeLevel type := by
  unfold typeLevel at entry ⊢
  cases found : explainType.lookup type with
  | none =>
    rw [found] at entry
    exact absurd rfl entry
  | some level =>
    have listed : ∀ entry ∈ explainType,scoreLevel (levelScore entry.2) = entry.2 := by decide
    obtain ⟨before,after,whole,_⟩ := List.lookup_eq_some_iff.mp found
    exact listed (type,level) (by rw [whole]; simp)

theorem known_describes (row : Explains) (here : known row = true) :
    describes (typeScore row) row = true := by
  obtain ⟨goes,entry⟩ := Bool.and_eq_true_iff.mp here
  have other : stops row = false := by simpa using goes
  simp only [stops,Bool.or_eq_false_iff,decide_eq_false_iff_not] at other
  simp only [describes,Bool.and_eq_true,decide_eq_true_eq]
  exact ⟨other,(typeLevel_score (of_decide_eq_true entry)).symm⟩

theorem scoreLevel_worst (rows : List Explains) :
    levelScore (scoreLevel (worst rows)) = worst rows ∧ scoreLevel (worst rows) ≠ [] := by
  by_cases free : worst rows = 0
  · rw [free]
    decide
  · obtain ⟨row,_,_,same⟩ := worst_attained rows free
    rw [← same] at free ⊢
    rw [typeScore,scoreLevel_score free]
    refine ⟨rfl,fun empty => free ?_⟩
    rw [typeScore,empty]
    decide

theorem describes_parts {row : Explains} (here : describes (worst rows) row = true) :
    known row = true ∧ stops row = false ∧ typeScore row = worst rows := by
  simp only [describes,Bool.and_eq_true,decide_eq_true_eq] at here
  obtain ⟨other,level⟩ := here
  obtain ⟨score,some_⟩ := scoreLevel_worst rows
  have goes : stops row = false := by simp [stops,other]
  refine ⟨?_,goes,?_⟩
  · simp [known,goes,level,some_]
  · rw [typeScore,level,score]

theorem describedCharge_total (rows : List Explains) :
    describedCharge rows = ((rows.find? (describes (worst rows))).map rowTotal).getD 0 := by
  rw [describedCharge_eq]
  cases found : rows.find? (describes (worst rows)) with
  | some row =>
    obtain ⟨_,_,score⟩ := describes_parts (List.find?_some found)
    simp [rowTotal,score]
  | none =>
    by_contra charged
    have some_ : worst rows ≠ 0 := by simpa using charged
    obtain ⟨row,mem,here⟩ := List.any_eq_true.mp (described_any rows some_)
    exact List.find?_eq_none.mp found row mem here

def charges (rows : List Explains) : Int := scanCharge rows+describedCharge rows

-- No order of the rows changes their charges.
def orderFree (rows : List Explains) : Prop :=
  if rows.any stops then
    (∀ one ∈ rows,∀ two ∈ rows,stops one → stops two → total (stopItems one) = total (stopItems two)) ∧
    (∀ one ∈ rows,∀ two ∈ rows,known one → known two → rowTotal one = rowTotal two) ∧
    ∀ one ∈ rows,known one → ∃ two ∈ rows,describes 0 two
  else ∀ one ∈ rows,∀ two ∈ rows,describes (worst rows) one → describes (worst rows) two →
    surcharge one = surcharge two

instance (rows : List Explains) : Decidable (orderFree rows) := inferInstanceAs (Decidable (ite _ _ _))

theorem find_erase (rows : List Explains) (miss : p row = false) :
    (rows.erase row).find? p = rows.find? p := by
  induction rows with
  | nil => rfl
  | cons first rows ih =>
    by_cases same : first = row
    · rw [same,List.erase_cons_head,List.find?_cons_of_neg (by simp [miss])]
    · rw [List.erase_cons_tail (by simpa using same),List.find?_cons,List.find?_cons,ih]

theorem stops_undescribed {row : Explains} (stop : stops row = true) (score : Int) :
    describes score row = false := by
  rcases Bool.or_eq_true_iff.mp stop with null | all
  · simp [describes,of_decide_eq_true null]
  · simp [describes,of_decide_eq_true all]

-- The rows of one stopping row first, and behind a row that is picked.
theorem charges_scan {scan : Explains} (stop : stops scan = true) (rows : List Explains) :
    charges (scan :: rows.erase scan) =
      total (stopItems scan)+((rows.find? (describes 0)).map rowTotal).getD 0 := by
  have none_ : worst (scan :: rows.erase scan) = 0 := by simp [worst,stop]
  rw [charges,describedCharge_total,none_,List.find?_cons_of_neg (by simp [stops_undescribed stop]),
    find_erase rows (stops_undescribed stop 0)]
  simp [scanCharge,scanItems,stop]

theorem charges_picked {scan row : Explains} (stop : stops scan = true) (here : known row = true)
    (rest : List Explains) :
    charges (row :: scan :: rest) = total (stopItems scan)+rowTotal row := by
  have goes : stops row = false := by simpa using (Bool.and_eq_true_iff.mp here).1
  have score : worst (row :: scan :: rest) = typeScore row := by
    have nonneg := typeScore_nonneg row
    simp [worst,stop,goes,nonneg]
  rw [charges,describedCharge_total,score,List.find?_cons_of_pos (known_describes row here)]
  simp [scanCharge,scanItems,stop,goes]

theorem worst_all (rows : List Explains) (goes : rows.any stops = false) :
    worst rows = (rows.map typeScore).foldr max 0 := by
  have all : rows.takeWhile (fun row => !stops row) = rows := by
    rw [List.takeWhile_eq_self_iff]
    intro row mem
    simp [List.any_eq_false.mp goes row mem]
  rw [worst,all]

theorem worst_perm {rows rows' : List Explains} (perm : rows.Perm rows')
    (goes : rows.any stops = false) : worst rows = worst rows' := by
  rw [worst_all rows goes,worst_all rows' (by rw [← perm.any_eq]; exact goes)]
  exact (perm.map typeScore).foldr_eq 0

theorem front_perm {row : Explains} (mem : row ∈ rows) : (row :: rows.erase row).Perm rows :=
  (List.perm_cons_erase mem).symm

theorem fronts_perm {row scan : Explains} (here : row ∈ rows) (there : scan ∈ rows) (other : row ≠ scan) :
    (row :: scan :: (rows.erase row).erase scan).Perm rows := by
  have left : scan ∈ rows.erase row := (List.mem_erase_of_ne other.symm).mpr there
  exact ((front_perm left).cons row).trans (front_perm here)

-- A found row and a row found in another order cost the same.
theorem described_same {rows rows' : List Explains} (perm : rows'.Perm rows)
    (agree : ∀ one ∈ rows,∀ two ∈ rows,describes (worst rows') one → describes (worst rows) two →
    rowTotal one = rowTotal two)
    (both : (∃ one ∈ rows,describes (worst rows') one) ↔ ∃ two ∈ rows,describes (worst rows) two) :
    describedCharge rows' = describedCharge rows := by
  rw [describedCharge_total,describedCharge_total]
  cases left : rows'.find? (describes (worst rows')) with
  | none =>
    cases right : rows.find? (describes (worst rows)) with
    | none => rfl
    | some two =>
      obtain ⟨one,mem,here⟩ := both.mpr ⟨two,List.mem_of_find?_eq_some right,List.find?_some right⟩
      exact absurd here (List.find?_eq_none.mp left one (perm.mem_iff.mpr mem))
  | some one =>
    have found : describes (worst rows') one = true := List.find?_some left
    have mem : one ∈ rows := perm.mem_iff.mp (List.mem_of_find?_eq_some left)
    cases right : rows.find? (describes (worst rows)) with
    | none =>
      obtain ⟨two,there,here⟩ := both.mp ⟨one,mem,found⟩
      exact absurd here (List.find?_eq_none.mp right two there)
    | some two => exact agree one mem two (List.mem_of_find?_eq_some right) found (List.find?_some right)

theorem charges_perm {rows rows' : List Explains} (free : orderFree rows) (perm : rows'.Perm rows) :
    charges rows' = charges rows := by
  unfold orderFree at free
  by_cases stop : rows.any stops = true
  · rw [if_pos stop] at free
    obtain ⟨scans,totals,lowest⟩ := free
    have scan : scanCharge rows' = scanCharge rows := by
      obtain ⟨one,left⟩ :=
        Option.isSome_iff_exists.mp (List.find?_isSome.mpr (List.any_eq_true.mp (perm.any_eq ▸ stop)))
      obtain ⟨two,right⟩ := Option.isSome_iff_exists.mp (List.find?_isSome.mpr (List.any_eq_true.mp stop))
      rw [scanCharge,scanCharge,scanItems,scanItems,left,right]
      exact scans one (perm.mem_iff.mp (List.mem_of_find?_eq_some left)) two
        (List.mem_of_find?_eq_some right) (List.find?_some left) (List.find?_some right)
    -- A level other than the lowest is picked only where one of its rows was weighed.
    have picks (l : List Explains) (same : l.Perm rows) : (∃ one ∈ rows,describes (worst l) one) ↔
        ∃ one ∈ rows,known one := by
      constructor
      · rintro ⟨one,mem,here⟩
        exact ⟨one,mem,(describes_parts here).1⟩
      · rintro ⟨one,mem,here⟩
        by_cases zero : worst l = 0
        · rw [zero]
          exact lowest one mem here
        · obtain ⟨two,there,other⟩ := List.any_eq_true.mp (described_any l zero)
          exact ⟨two,same.mem_iff.mp there,other⟩
    have described : describedCharge rows' = describedCharge rows := by
      apply described_same perm
      · intro one mem two there here other
        exact totals one mem two there (describes_parts here).1 (describes_parts other).1
      · exact (picks rows' perm).trans (picks rows (List.Perm.refl rows)).symm
    rw [charges,charges,scan,described]
  · rw [if_neg stop] at free
    have goes : rows.any stops = false := Bool.not_eq_true _ ▸ stop
    have scan (l : List Explains) (same : l.Perm rows) : scanCharge l = 0 := by
      have none_ : l.find? stops = none := by
        rw [List.find?_eq_none]
        intro row mem
        exact List.any_eq_false.mp goes row (same.mem_iff.mp mem)
      rw [scanCharge,scanItems,none_]
      rfl
    have score := worst_perm perm.symm goes
    have described : describedCharge rows' = describedCharge rows := by
      apply described_same perm
      · intro one mem two there here other
        rw [← score] at here
        rw [rowTotal,rowTotal,(describes_parts here).2.2,(describes_parts other).2.2,
          free one mem two there here other]
      · rw [score]
    rw [charges,charges,scan rows' perm,scan rows (List.Perm.refl rows),described]

theorem orderFree_of {rows : List Explains} (same : ∀ rows' : List Explains,rows'.Perm rows →
    charges rows' = charges rows) : orderFree rows := by
  unfold orderFree
  split
  · rename_i stop
    obtain ⟨scan,there,halt⟩ := List.any_eq_true.mp stop
    have lone (one : Explains) (mem : one ∈ rows) (stop : stops one = true) :=
      (charges_scan stop rows).symm.trans (same _ (front_perm mem))
    have pair (one : Explains) (mem : one ∈ rows) (here : known one = true) :
        total (stopItems scan)+rowTotal one = charges rows := by
      have other : one ≠ scan := by
        rintro rfl
        rw [known,halt] at here
        cases here
      exact (charges_picked halt here _).symm.trans (same _ (fronts_perm mem there other))
    refine ⟨?_,?_,?_⟩
    · intro one mem two there first second
      exact add_right_cancel ((lone one mem first).trans (lone two there second).symm)
    · intro one mem two there first second
      exact Int.add_left_cancel ((pair one mem first).trans (pair two there second).symm)
    · intro one mem here
      have equal := Int.add_left_cancel ((pair one mem here).trans (lone scan there halt).symm)
      cases found : rows.find? (describes 0) with
      | some two => exact ⟨two,List.mem_of_find?_eq_some found,List.find?_some found⟩
      | none =>
        rw [found] at equal
        have free : typeScore one = 0 := by
          have nonneg := typeScore_nonneg one
          have extra := (surcharge_bound one).1
          change typeScore one+surcharge one = 0 at equal
          omega
        refine ⟨one,mem,?_⟩
        rw [← free]
        exact known_describes one here
  · rename_i stop
    have goes : rows.any stops = false := Bool.not_eq_true _ ▸ stop
    have front (one : Explains) (mem : one ∈ rows) (here : describes (worst rows) one =
        true) : rowTotal one = charges rows := by
      have perm := front_perm mem
      have score : worst (one :: rows.erase one) = worst rows := (worst_perm perm.symm goes).symm
      have none_ : (one :: rows.erase one).find? stops = none := by
        rw [List.find?_eq_none]
        intro row there
        exact List.any_eq_false.mp goes row (perm.mem_iff.mp there)
      rw [← same _ perm,charges,describedCharge_total,score,List.find?_cons_of_pos here,scanCharge,
        scanItems,none_]
      exact (Int.zero_add _).symm
    intro one mem two there first second
    have equal := (front one mem first).trans (front two there second).symm
    rw [rowTotal,rowTotal,(describes_parts first).2.2,(describes_parts second).2.2] at equal
    exact Int.add_left_cancel equal

theorem score_order_iff (cost : Text → Int) (sql : ExplainsResult) :
    (∀ rows : List Explains,rows.Perm sql.explain →
      score cost {sql with explain := rows} = score cost sql) ↔ orderFree sql.explain := by
  have equal (rows : List Explains) : score cost {sql with explain := rows} = score cost sql ↔
      charges rows = charges sql.explain := by
    rw [score_eq,score_eq,charges,charges]
    dsimp only
    omega
  constructor
  · intro same
    apply orderFree_of
    intro rows perm
    exact (equal rows).mp (same rows perm)
  · intro free rows perm
    exact (equal rows).mpr (charges_perm free perm)

theorem score_depends_on_order :
    score wholeCost (planned [planRow "orders" "range" "k" "index where" 1,
      planRow "users" "ALL" "k" "index where" 1] "0.0") = 75 ∧
    score wholeCost (planned [planRow "users" "ALL" "k" "index where" 1,
      planRow "orders" "range" "k" "index where" 1] "0.0") = 85 := by
  decide +kernel

theorem level_eq (cost : Text → Int) (sql : ExplainsResult) (empty : sql.level = []) :
    (getScore cost sql).level =
    if sql.explain.any stops then text "L1" else scoreLevel (worst sql.explain) := by
  unfold getScore
  rw [tally_eq,if_pos empty]
  rfl

theorem level_worst (cost : Text → Int) (sql : ExplainsResult) (empty : sql.level = []) :
    ((∃ row ∈ sql.explain,row.type = [] ∨ row.type = text "ALL") → (getScore cost sql).level = text "L1") ∧
    ((∀ row ∈ sql.explain,row.type ≠ [] ∧ row.type ≠ text "ALL") →
      ((getScore cost sql).level,(sql.explain.map typeScore).foldr max 0) ∈ explainTypeScore) ∧
    ∀ rows : List Explains,rows.Perm sql.explain →
      (getScore cost {sql with explain := rows}).level = (getScore cost sql).level := by
  refine ⟨?_,?_,?_⟩
  · rintro ⟨row,mem,type⟩
    rw [level_eq cost sql empty,if_pos]
    apply List.any_eq_true.mpr
    exact ⟨row,mem,by simpa [stops] using type⟩
  · intro others
    have goes : sql.explain.any stops = false := by
      rw [List.any_eq_false]
      intro row mem
      simpa [stops] using others row mem
    rw [level_eq cost sql empty,goes,if_neg Bool.false_ne_true,← worst_all sql.explain goes]
    by_cases free : worst sql.explain = 0
    · rw [free]
      decide
    · obtain ⟨row,_,_,same⟩ := worst_attained sql.explain free
      rw [← same] at free ⊢
      rw [typeScore,scoreLevel_score free]
      rcases levelScore_cases (typeLevel row.type) with score | ⟨score,level⟩ | ⟨score,level⟩ | ⟨score,level⟩
      · exact absurd score free
      all_goals rw [score,level]; decide
  · intro rows perm
    rw [level_eq cost {sql with explain := rows} empty,level_eq cost sql empty]
    dsimp only
    rw [perm.any_eq]
    by_cases goes : sql.explain.any stops = false
    · rw [worst_perm perm.symm goes]
    · rw [Bool.not_eq_false] at goes
      rw [goes,if_pos rfl,if_pos rfl]

theorem level_of_range_and_const :
    (planned [planRow "a" "const" "k" "" 1,planRow "b" "range" "k" "" 1] "0.0").level = [] ∧
    ((getScore wholeCost
      (planned [planRow "a" "const" "k" "" 1,planRow "b" "range" "k" "" 1] "0.0")).level,
      (10 : Int)) ∈ explainTypeScore :=
  ⟨rfl,(level_worst wholeCost
    (planned [planRow "a" "const" "k" "" 1,planRow "b" "range" "k" "" 1] "0.0") rfl).2.1 (by decide +kernel)⟩

end SqlReview.ExplainScore
