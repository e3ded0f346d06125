import SqlReview.FingerprintTwin

-- The number of rows read and the state of a list, which a word forgets and an operator does not.
namespace SqlReview.FingerprintLag
open GoBytes Fingerprint FingerprintView FingerprintLiteral FingerprintPending FingerprintRegular
  FingerprintNumber
open FingerprintTwin (onDigit_eq)

structure Lag (v w : View) : Prop where
  control : w = {v with valueNo := w.valueNo,sqlState := w.sqlState}
  sql : w.sqlState = v.sqlState ∨ (v.sqlState = .unknown ∧ w.sqlState = .inValues)

inductive Lags : Except Stop View → Except Stop View → Prop where
  | ok : Lag v w → Lags (.ok v) (.ok w)
  | error (exit : Exit) : Lags (.error ⟨v,exit⟩) (.error ⟨w,exit⟩)

section
variable {v w : View} (lag : Lag v w)
include lag

theorem Lag.s : w.s = v.s := (congrArg View.s lag.control :)
theorem Lag.pr : w.pr = v.pr := (congrArg View.pr lag.control :)
theorem Lag.prevWord : w.prevWord = v.prevWord := (congrArg View.prevWord lag.control :)
theorem Lag.out : w.out = v.out := (congrArg View.out lag.control :)
theorem Lag.pend : w.pend = v.pend := (congrArg View.pend lag.control :)
theorem Lag.plan : w.plan = v.plan := (congrArg View.plan lag.control :)
theorem Lag.marked : w.marked = v.marked := (congrArg View.marked lag.control :)
theorem Lag.escape : w.escape = v.escape := (congrArg View.escape lag.control :)
theorem Lag.quoteChar : w.quoteChar = v.quoteChar := (congrArg View.quoteChar lag.control :)
theorem Lag.addSpace : w.addSpace = v.addSpace := (congrArg View.addSpace lag.control :)

-- A change of the other variables.
theorem Lag.set (f : View → View) (frame : ∀ u n q,
    f {u with valueNo := n,sqlState := q} = {f u with valueNo := n,sqlState := q}) : Lag (f v) (f w) := by
  have left : f v = {f v with valueNo := v.valueNo,sqlState := v.sqlState} := frame v v.valueNo v.sqlState
  have right : f w = {f v with valueNo := w.valueNo,sqlState := w.sqlState} :=
    (congrArg f lag.control).trans (frame v w.valueNo w.sqlState)
  have number : (f w).valueNo = w.valueNo := by rw [right]
  have sqlLeft : (f v).sqlState = v.sqlState := by rw [left]
  have sqlRight : (f w).sqlState = w.sqlState := by rw [right]
  refine ⟨?_,?_⟩
  · rw [number,sqlRight]
    exact right
  · rw [sqlLeft,sqlRight]
    exact lag.sql

theorem Lag.setState (state : State) : Lag {v with s := state} {w with s := state} :=
  lag.set (fun u => {u with s := state}) fun _ _ _ => rfl

theorem Lag.mark (state : State) : Lag {v.mark with s := state} {w.mark with s := state} :=
  lag.set (fun u => {u.mark with s := state}) fun _ _ _ => rfl

theorem Lag.setSql (sql : State) : Lag {v with sqlState := sql} {w with sqlState := sql} :=
  ⟨congrArg (fun u : View => {u with sqlState := sql}) lag.control,.inl rfl⟩

theorem Lag.setNumber (n : Nat) : Lag {v with valueNo := n} {w with valueNo := n} :=
  ⟨congrArg (fun u : View => {u with valueNo := n}) lag.control,lag.sql⟩

-- The states of the statement other than a list are asked for with one answer.
theorem Lag.sqlIs {q : State} (known : q ≠ .unknown) (list : q ≠ .inValues) :
    v.sqlState = q ↔ w.sqlState = q := by
  rcases lag.sql with same | ⟨left,right⟩
  · rw [same]
  · rw [left,right]
    exact iff_of_false known.symm list.symm

theorem Lag.word (bs : Bytes) : v.word bs = w.word bs := by rw [View.word,View.word,lag.pend]

end

section
variable {v w : View}

theorem Lags.ite {c d : Prop} [Decidable c] [Decidable d] {one two one' two' : Except Stop View}
    (same : c ↔ d) (yes : c → Lags one two)
    (no : ¬ c → Lags one' two') : Lags (if c then one else one') (if d then two else two') :=
  rel_ite (R := Lags) same yes no

theorem lag_ite {c d : Prop} [Decidable c] [Decidable d] {v w v' w' : View} (same : c ↔ d)
    (yes : c → Lag v w) (no : ¬ c → Lag v' w') : Lag (if c then v else v') (if d then w else w') :=
  rel_ite (R := Lag) same yes no

theorem Lags.bind {k k' : View → Except Stop View} (lags : Lags one two)
    (next : ∀ v w,Lag v w → Lags (k v) (k' w)) : Lags (one >>= k) (two >>= k') := by
  cases lags with
  | ok lag => exact next _ _ lag
  | error exit => exact .error exit

end

-- Step 2 asks for the number of rows: behind a list at whitespace, and where a list opens.
def asksRows (env : Env) (m : View) (r : Nat) (bs : Bytes) : Bool :=
  (isSpace r && m.s = .moreValuesOrUnknown) || (r = rune '(' && m.beginsValues env (m.word bs))

section
variable {v w : View} (lag : Lag v w) (env : Env) (r : Nat) (bs : Bytes)
include lag

theorem onDigit_lag : Lag (v.onDigit env) (w.onDigit env) := by
  rw [onDigit_eq,onDigit_eq]
  refine lag_ite (by rw [lag.s]) (fun _ => ?sign) fun _ => lag_ite (by rw [lag.s])
    (fun _ => lag_ite (by rw [lag.pr]) (fun _ => lag.mark _) fun _ =>
      lag_ite (by rw [lag.pr]) (fun _ => lag.mark _) fun _ =>
      lag_ite Iff.rfl (fun _ => lag.mark _) fun _ => lag) fun _ => lag.mark _
  case sign =>
    exact lag.set (fun u => {u with plan := some 1,marked := decide (4 ≤ u.far),s := .inNumber}) fun _ _ _ => rfl

theorem matchWord_lag (word : Bytes) : Lags (v.matchWord env word bs) (w.matchWord env word bs) := by
  unfold View.matchWord
  refine .ite (by rw [lag.prevWord]) (fun _ => .error _) fun _ => .ite (by rw [lag.prevWord])
    (fun _ => ?null) fun _ =>
    .ite (by rw [lag.prevWord]) (fun _ => .ok (lag.setSql _)) fun _ =>
      .ite (and_congr (lag.sqlIs (by decide) (by decide)) Iff.rfl)
      (fun _ => .ite Iff.rfl (fun _ => ?comma) fun _ => ?asc) fun _ =>
    .ite (by rw [lag.prevWord]) (fun _ => .ok (lag.setSql _)) fun _ => .ok lag
  case null =>
    rw [View.nullValue_eq,View.nullValue_eq]
    exact .ok (lag.set (fun u => {u with
      out := u.out ++ byte '?' ::
        (if word.getLast? = some (byte ',') then [byte ',',byte ' '] else [byte ' '])
      pend := bs.drop 1}) fun _ _ _ => rfl)
  case comma => exact .ok (lag.set (fun u => (u.fromHere bs).backComma) fun _ _ _ => rfl)
  case asc => exact .ok (lag.set (fun u => u.fromHere bs) fun _ _ _ => rfl)

theorem endWord_lag : Lags (v.endWord env bs) (w.endWord env bs) := by
  unfold View.endWord
  rw [lag.word bs]
  apply (matchWord_lag lag env bs _).bind
  intro v w lag
  exact .ok (lag.set (fun u => {u.mark with s := .inSpace,addSpace := true}) fun _ _ _ => rfl)

theorem onSpace_lag (rows : v.s = .moreValuesOrUnknown → v.valueNo = w.valueNo) :
    Lags (v.onSpace env bs) (w.onSpace env bs) := by
  have state (s : State) : v.s = s ↔ w.s = s := by rw [lag.s]
  have text : v.endsInText = w.endsInText := by rw [View.endsInText,View.endsInText,lag.out]
  rw [onSpace_eq,onSpace_eq]
  refine .ite (state _) (fun _ => .ok (lag_ite (by rw [text]) (fun _ => ?text) fun _ => lag)) fun _ =>
    .ite (state _) (fun _ => .ok ?dash) fun _ =>
      .ite (state _) (fun here => .ok (lag_ite (by rw [rows here]) (fun _ => ?first) fun _ => lag)) fun _ =>
    endWord_lag lag env bs
  case text => exact lag.set (fun u => (u.write [byte ' ']).fromNext bs) fun _ _ _ => rfl
  case dash =>
    exact lag.set (fun u => {u with s := .inOLC,plan := if u.marked then some 2 else u.plan}) fun _ _ _ => rfl
  case first => exact lag.set (fun u => u.write [byte ' ']) fun _ _ _ => rfl

theorem onQuote_lag : Lag (v.onQuote r) (w.onQuote r) := by
  unfold View.onQuote
  refine lag_ite (by rw [lag.pr,lag.s])
    (fun _ => lag_ite (by rw [lag.pr]) (fun _ => ?hex) fun _ => ?opens) fun _ => lag
  case hex =>
    exact lag.set (fun u => {u with s := .inQuote,quoteChar := r,plan := none,marked := false}) fun _ _ _ => rfl
  case opens => exact lag.set (fun u => {u.mark with s := .inQuote,quoteChar := r}) fun _ _ _ => rfl

theorem beginsValues_lag (pending : Bytes) : v.beginsValues env pending = w.beginsValues env pending := by
  have update : decide (v.sqlState ≠ .onDupeKeyUpdate) = decide (w.sqlState ≠ .onDupeKeyUpdate) :=
    decide_eq_decide.mpr (not_congr (lag.sqlIs (by decide) (by decide)))
  unfold View.beginsValues
  rw [lag.s,update,lag.prevWord]

theorem onOpenPar_lag (rows : v.beginsValues env (v.word bs) = true → v.valueNo = w.valueNo) :
    Lags (v.onOpenPar env bs) (w.onOpenPar env bs) := by
  unfold View.onOpenPar
  rw [← lag.word bs,← beginsValues_lag lag env,lag.prevWord]
  refine .ite Iff.rfl (fun _ => .error _) fun _ => .ite Iff.rfl (fun begins => .ok ?list) fun _ =>
    .ite (by rw [lag.s]) (fun _ => .ok ?random) fun _ => .ok lag
  case list =>
    have chosen : Lag (if v.valueNo = 0 then v.mark else v) (if w.valueNo = 0 then w.mark else w) :=
      lag_ite (by rw [rows begins]) (fun _ => lag.set View.mark fun _ _ _ => rfl) fun _ => lag
    exact (chosen.setSql .inValues).set (fun u => {u with s := .inValues,parOpen := 1,gap := 0}) fun _ _ _ => rfl
  case random =>
    exact (lag.setNumber 0).set (fun u => {u.fromHere bs with s := .inWord}) fun _ _ _ => rfl

-- A word forgets the list.
theorem onOther_lag : Lag (v.onOther bs) (w.onOther bs) := by
  unfold View.onOther
  refine lag_ite (by rw [lag.s]) (fun _ => ?_) fun _ => lag.setState _
  have sql : (if w.sqlState = .inValues then State.unknown else w.sqlState) =
      if v.sqlState = .inValues then State.unknown else v.sqlState := by
    rcases lag.sql with same | ⟨left,right⟩
    · rw [same]
    · rw [left,right]
      rfl
  rw [sql]
  exact ((lag.setNumber 0).setSql _).set (fun u => {u.fromHere bs with s := .inWord}) fun _ _ _ => rfl

theorem changeState_lag (rows : asksRows env v r bs = true → v.valueNo = w.valueNo) :
    Lags (v.changeState env r bs) (w.changeState env r bs) := by
  unfold View.changeState
  refine .ite Iff.rfl (fun _ => .ok (onDigit_lag lag env)) fun _ =>
    .ite Iff.rfl (fun space => onSpace_lag lag env bs fun state => rows (by simp [asksRows,space,state])) fun _ =>
    .ite Iff.rfl (fun _ => .ok (onQuote_lag lag r)) fun _ =>
      .ite Iff.rfl (fun _ => .ok ?tick) fun _ => .ite Iff.rfl (fun _ => .ok ?operator) fun _ =>
    .ite Iff.rfl (fun _ => .ok (lag.setState _)) fun _ =>
      .ite (by rw [lag.s]) (fun _ => .ok (lag.setState _)) fun _ =>
    .ite Iff.rfl (fun _ => .ok (lag.setState _)) fun _ => .ite Iff.rfl (fun _ => .ok ?dash) fun _ =>
    .ite Iff.rfl (fun _ => .ok (lag_ite (by rw [lag.s]) (fun _ => lag.mark _) fun _ => lag)) fun _ =>
    .ite Iff.rfl (fun par => onOpenPar_lag lag env bs fun begins => rows (by simp [asksRows,par,begins])) fun _ =>
      .ite (by rw [lag.s]) (fun _ => .ok lag) fun _ =>
    .ite (by rw [lag.prevWord]) (fun _ => .error _) fun _ =>
      .ite Iff.rfl (fun _ => .ok ?hash) fun _ => .ok (onOther_lag lag bs)
  case tick =>
    unfold View.onBacktick
    exact lag_ite (by rw [lag.pr,lag.s]) (fun _ => lag.setState _) fun _ => lag
  case operator => exact lag.set (fun u => u.onOperator bs) fun _ _ _ => rfl
  case dash =>
    exact lag.set (fun u => {u with s := if u.pr = rune '-' then .inDash else .opOrNumber}) fun _ _ _ => rfl
  case hash => exact lag.set (fun u => {u with addSpace := false,s := .inOLC}) fun _ _ _ => rfl

theorem skipBackticks_lag : Lag (v.skipBackticks r) (w.skipBackticks r) := by
  have calm (b : Bool) : Lag {v with escape := b} {w with escape := b} :=
    lag.set (fun u => {u with escape := b}) fun _ _ _ => rfl
  unfold View.skipBackticks
  refine lag_ite Iff.rfl (fun _ => lag_ite (by rw [lag.escape]) (fun _ => calm false) fun _ =>
    lag_ite Iff.rfl (fun _ => calm true) fun _ => lag)
    fun _ => lag_ite (by rw [lag.escape]) (fun _ => calm false) fun _ => ?_
  exact lag.set (fun u => {u with
    escape := false,plan := some 0,marked := decide (2 ≤ u.far),s := .inWord}) fun _ _ _ => rfl

theorem afterCopy_lag : Lag (v.afterCopy env) (w.afterCopy env) := by
  unfold View.afterCopy
  refine lag_ite (and_congr (by rw [lag.prevWord]) (not_congr (lag.sqlIs (by decide) (by decide))))
    (fun _ => ?_) fun _ => lag_ite (by rw [lag.addSpace]) (fun _ => ?_) fun _ => lag
  · exact (lag.setSql .inValues).set (fun u => {u with addSpace := false,s := .inValues}) fun _ _ _ => rfl
  · exact lag.set (fun u => {u.write [byte ' '] with pend := u.pend.drop 1,addSpace := false}) fun _ _ _ => rfl

theorem copySlice_lag : Lag (v.copySlice env bs) (w.copySlice env bs) := by
  have due : v.due bs = w.due bs := by rw [View.due,View.due,lag.plan,lag.pend]
  unfold View.copySlice
  dsimp only
  rw [due,lag.pend]
  refine lag_ite Iff.rfl (fun _ => ?_) fun _ => lag
  apply afterCopy_lag
  exact lag.set (fun u =>
    u.copyWord (w.due bs) (toLower env.lower (v.pend.take (w.due bs)))) fun _ _ _ => rfl

theorem finish_lag : Lag (v.finish env r bs) (w.finish env r bs) :=
  (copySlice_lag lag env bs).set (fun u => View.advance {u with pr := r,plan := none} bs) fun _ _ _ => rfl

theorem skipQuote_lag (sql : r = v.quoteChar → v.escape = false → v.sqlState = w.sqlState) :
    Lag (v.skipQuote r bs) (w.skipQuote r bs) := by
  have calm (b : Bool) : Lag {v with escape := b} {w with escape := b} :=
    lag.set (fun u => {u with escape := b}) fun _ _ _ => rfl
  unfold View.skipQuote
  refine lag_ite (by rw [lag.quoteChar])
    (fun _ => lag_ite (by rw [lag.escape]) (fun _ => calm false) fun _ =>
    lag_ite Iff.rfl (fun _ => calm true) fun _ => lag) fun closes => lag_ite (by rw [lag.escape])
      (fun _ => calm false) fun plain =>
    lag_ite (by rw [sql (not_not.mp closes) (Bool.eq_false_iff.mpr plain)]) (fun _ => ?_) fun _ => ?_
  · exact lag.set (fun u => {u.fromNext bs with escape := false,s := .inValues}) fun _ _ _ => rfl
  · exact lag.set (fun u =>
      {(u.fromNext bs).write [byte '?'] with escape := false,s := .unknown}) fun _ _ _ => rfl

end

-- Step 1 ends both iterations, or leaves two views for step 2 and the rows as they are.
inductive LagPart (n m : Nat) : Skipped View → Skipped View → Prop where
  | skip : Lag a b → LagPart n m (.skip a) (.skip b)
  | through : Lag a b → a.valueNo = n → b.valueNo = m → LagPart n m (.through a) (.through b)

section
variable {v w : View} (lag : Lag v w) (r : Nat) (bs : Bytes)
include lag

theorem endNumberInWord_lag : LagPart v.valueNo w.valueNo (v.endNumberInWord r bs) (w.endNumberInWord r bs) := by
  unfold View.endNumberInWord
  by_cases digit : isDigit r = true
  · rw [if_pos digit,if_pos digit]
    exact .skip lag
  · rw [if_neg digit,if_neg digit]
    exact .through (lag.set (fun u => {(u.fromHere bs).write [byte '?'] with
      s := if isSpace r then .unknown else .inWord}) fun _ _ _ => rfl) rfl rfl

theorem endNumber_lag : LagPart v.valueNo w.valueNo (v.endNumber r bs) (w.endNumber r bs) := by
  have code : v.sqlState = .inMySQLCode ↔ w.sqlState = .inMySQLCode := lag.sqlIs (by decide) (by decide)
  unfold View.endNumber
  by_cases more : inNumeral r = true
  · rw [if_pos more,if_pos more]
    exact .skip lag
  rw [if_neg more,if_neg more]
  by_cases word : notNumeral r = true
  · rw [if_pos word,if_pos word]
    exact .through (lag.mark .inWord) rfl rfl
  rw [if_neg word,if_neg word]
  by_cases inCode : v.sqlState = .inMySQLCode
  · rw [if_pos inCode,if_pos (code.mp inCode)]
    exact .through ((lag.mark .inWord).setSql .unknown) rfl rfl
  · rw [if_neg inCode,if_neg (mt code.mpr inCode)]
    exact .through (lag.set (fun u =>
      {((u.fromHere bs).mark).write [byte '?'] with s := .unknown}) fun _ _ _ => rfl) rfl rfl

theorem skipPart_lag (list : v.s = .inValues → v = w)
    (sql : v.s = .inQuote → r = v.quoteChar → v.escape = false → v.sqlState = w.sqlState) :
    LagPart v.valueNo w.valueNo (v.skipPart r bs) (w.skipPart r bs) := by
  have other (calm : skips v.s = false) :
      LagPart v.valueNo w.valueNo (v.skipPart r bs) (w.skipPart r bs) := by
    rw [view_skipPart_other v r bs calm,view_skipPart_other w r bs (by rw [lag.s]; exact calm),lag.pr]
    by_cases spaces : (isSpace r && isSpace v.pr) = true
    · rw [if_pos spaces,if_pos spaces]
      exact .skip (lag.set (fun u => {u.fromNext bs with pr := r,plan := none}) fun _ _ _ => rfl)
    · rw [if_neg spaces,if_neg spaces]
      exact .through lag rfl rfl
  cases state : v.s with
  | inQuote =>
    rw [skipPart_inQuote v r bs state,skipPart_inQuote w r bs (lag.s.trans state)]
    exact .skip (skipQuote_lag lag r bs (sql state))
  | inBackticks =>
    rw [skipPart_inBackticks v r bs state,skipPart_inBackticks w r bs (lag.s.trans state)]
    exact .skip (skipBackticks_lag lag r)
  | inNumberInWord =>
    rw [skipPart_inNumberInWord v r bs state,skipPart_inNumberInWord w r bs (lag.s.trans state)]
    exact endNumberInWord_lag lag r bs
  | inNumber =>
    rw [skipPart_inNumber v r bs state,skipPart_inNumber w r bs (lag.s.trans state)]
    exact endNumber_lag lag r bs
  | inValues =>
    rw [← list state,skipPart_inValues v r bs state]
    exact .skip ⟨rfl,.inl rfl⟩
  | inMLC =>
    rw [skipPart_inMLC v r bs state,skipPart_inMLC w r bs (lag.s.trans state)]
    exact .skip (lag_ite (by rw [lag.pr]) (fun _ => lag.setState .unknown) fun _ =>
      lag.set (fun u => {u with pr := r}) fun _ _ _ => rfl)
  | mlcOrMySQLCode =>
    rw [skipPart_mlcOrMySQLCode v r bs state,skipPart_mlcOrMySQLCode w r bs (lag.s.trans state)]
    by_cases bang : r ≠ rune '!'
    · rw [if_pos bang,if_pos bang]
      exact .skip (lag.set (fun u => {u with pr := r,s := .inMLC}) fun _ _ _ => rfl)
    · rw [if_neg bang,if_neg bang]
      exact .through ((lag.setState .inWord).setSql .inMySQLCode) rfl rfl
  | inOLC =>
    rw [skipPart_inOLC v r bs state,skipPart_inOLC w r bs (lag.s.trans state)]
    exact .skip (lag_ite Iff.rfl (fun _ => lag.setState .unknown) fun _ => lag)
  | _ => exact other (by rw [state]; rfl)

end

-- The rows, or the list, are not asked for in this iteration, or are the same in both.
def lagSafe (env : Env) (v w : View) (piece : Nat × Bytes) : Bool :=
  (v.valueNo = w.valueNo || (v.s ≠ .inValues &&
    match (v.read piece.2).skipPart piece.1 piece.2 with
    | .skip _ => true
    | .through m => !asksRows env m piece.1 piece.2)) &&
  (v.sqlState = w.sqlState || !(v.s = .inQuote && piece.1 = v.quoteChar && !v.escape))

theorem Lag.trans {u v w : View} (first : Lag u v) (second : Lag v w) : Lag u w := by
  refine ⟨second.control.trans (congrArg (fun t : View => {t with
    valueNo := w.valueNo,sqlState := w.sqlState}) first.control),?_⟩
  rcases second.sql with same | ⟨left,right⟩
  · rw [same]
    exact first.sql
  · rcases first.sql with same | ⟨_,list⟩
    · exact .inr ⟨same.symm.trans left,right⟩
    · rw [list] at left
      cases left

theorem Lag.read {v w : View} (lag : Lag v w) (bs : Bytes) : Lag (v.read bs) (w.read bs) :=
  lag.set (fun u => u.read bs) fun _ _ _ => rfl

theorem Lag.same {v w : View} (lag : Lag v w) (rows : v.valueNo = w.valueNo) (sql : v.sqlState = w.sqlState) :
    v = w := by
  rw [lag.control,← rows,← sql]

theorem step_lag {v w : View} (lag : Lag v w) (values : v.s = .inValues → v.sqlState = .inValues)
    (safe : lagSafe env v w (r,bs) = true) : Lags (View.step env v r bs) (View.step env w r bs) := by
  simp only [lagSafe,Bool.and_eq_true,Bool.or_eq_true,decide_eq_true_eq] at safe
  obtain ⟨rows,sql⟩ := safe
  have parts := skipPart_lag (lag.read bs) r bs ?list ?sql
  case list =>
    intro state
    have list := values state
    refine (lag.read bs).same (rows.resolve_right fun other => other.1 state) ?_
    rcases lag.sql with same | ⟨unknown,_⟩
    · exact same.symm
    · rw [list] at unknown
      cases unknown
  case sql =>
    intro state closes plain
    have state : v.s = .inQuote := state
    have closes : r = v.quoteChar := closes
    have plain : v.escape = false := plain
    exact sql.resolve_right (by simp [state,closes,plain])
  generalize left : (v.read bs).skipPart r bs = one at parts rows
  generalize right : (w.read bs).skipPart r bs = two at parts
  cases parts with
  | skip lag =>
    rw [step_skips left,step_skips right]
    exact .ok (lag.set (fun u => u.advance bs) fun _ _ _ => rfl)
  | through lag first second =>
    rw [step_enters left,step_enters right]
    refine (changeState_lag lag env r bs ?_).bind fun v w lag => .ok (finish_lag lag env r bs)
    intro asks
    rw [first,second]
    refine rows.resolve_right fun other => ?_
    have none := other.2
    dsimp only at none
    rw [asks] at none
    cases none

end SqlReview.FingerprintLag
