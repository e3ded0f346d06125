import SqlReview.FingerprintNumberKept

-- The rows of a VALUES list: the first writes its mark, the later ones leave only their count and
-- the spaces between them.
namespace SqlReview.FingerprintRows
open GoBytes Fingerprint FingerprintView FingerprintLiteral FingerprintPending FingerprintRegular
  FingerprintNumber FingerprintNumberKept

-- Whether the characters close the first parenthesis exactly at their end: `depth` parentheses are
-- open, and `quote` is the quote of the literal being read, in which a backslash escapes.
def closesRow (depth : Nat) (quote : Option Nat) (escape : Bool) : List Nat → Bool
  | [] => false
  | r :: rest =>
    match quote with
    | some c =>
      if r ≠ c then closesRow depth quote (!escape && r = rune '\\') rest
      else if escape then closesRow depth quote false rest
      else closesRow depth none false rest
    | none =>
      if r = rune ')' then if depth ≤ 1 then rest.isEmpty else closesRow (depth-1) none false rest
      else if r = rune '(' then closesRow (depth+1) none false rest
      else if r = rune '\'' ∨ r = rune '"' then closesRow depth (some r) false rest
      else closesRow depth none false rest

def isTuple (t : Bytes) : Bool :=
  match (runes t).map Prod.fst with
  | r :: rest => r = rune '(' && closesRow 1 none false rest
  | [] => false

-- A further row with the whitespace around its comma.
structure Row where
  before : Bytes
  after : Bytes
  tuple : Bytes

def blank (text : Bytes) : Bool := text.all fun b => isSpace b.toNat

def Row.wellFormed (row : Row) : Bool := blank row.before && blank row.after && isTuple row.tuple

def Row.text (row : Row) : Bytes := row.before ++ byte ',' :: (row.after ++ row.tuple)

def rowsText (rows : List Row) : Bytes := rows.flatMap Row.text

-- Whitespace stands on exactly one side of the first comma.
def spacedOnce : List Row → Bool
  | [] => true
  | row :: _ => row.before.isEmpty != row.after.isEmpty

-- The view inside a row, outside its literals and inside one.
def inRow (w : View) (depth total gap char : Nat) (pend : Bytes) : View :=
  {w with
    s := .inValues,parOpen := depth,parOpenTotal := total,gap := gap,quoteChar := char,pend := pend,
    escape := false}

def inLiteral (w : View) (depth total gap char : Nat) (pend : Bytes) (escape : Bool) : View :=
  {w with
    s := .inQuote,parOpen := depth,parOpenTotal := total,gap := gap,quoteChar := char,pend := pend,
    escape := escape}

-- The view behind a row.
def rowEnd (w : View) (char : Nat) (mark : Bytes) : View :=
  {w with
    s := .moreValuesOrUnknown,out := w.out ++ mark,pend := [],pr := rune ')',parOpen := 0,
    parOpenTotal := 0,valueNo := w.valueNo+1
    gap := 2,quoteChar := char,escape := false}

structure Listing (w : View) : Prop where
  plan : w.plan = none
  sql : w.sqlState = .inValues
  far : w.far = 4

section
variable (env : Env) {w : View} (listing : Listing w) (depth total gap char : Nat) (pend bs : Bytes)
include listing

omit listing in
theorem inRow_step (r : Nat) : View.step env (inRow w depth total gap char pend) r bs =
    .ok ((View.skipValues (inRow w depth total gap char (pend ++ bs)) r bs).advance bs) := rfl

theorem inRow_other (opened : 1 ≤ depth) (shut : r ≠ rune ')') (opens : r ≠ rune '(')
    (quote : ¬ (r = rune '\'' ∨ r = rune '"')) :
    View.step env (inRow w depth total gap char pend) r bs =
      .ok (inRow w depth total (min 2 (gap+bs.length)) char (pend ++ bs)) := by
  have inside : (0 : Int) < depth := by omega
  have same : View.skipValues (inRow w depth total gap char (pend ++ bs)) r bs =
      inRow w depth total gap char (pend ++ bs) := by
    have kept : View.balanceValues (inRow w depth total gap char (pend ++ bs)) r bs =
        inRow w depth total gap char (pend ++ bs) :=
      if_pos inside
    rw [View.skipValues,if_neg shut,if_neg opens,if_neg quote,kept,ite_self]
  rw [inRow_step env,same]
  simp [View.advance,inRow,listing.far]

theorem inRow_opens (opened : 1 ≤ depth) : View.step env (inRow w depth total gap char pend) (rune '(') bs =
    .ok (inRow w (depth+1) total (min 2 (gap+bs.length)) char (pend ++ bs)) := by
  have inside : (0 : Int) < depth+1 := by omega
  have first : ¬ (depth : Int)+1 = 1 := by omega
  have same : View.skipValues (inRow w depth total gap char (pend ++ bs)) (rune '(') bs =
      inRow w (depth+1) total gap char (pend ++ bs) := by
    rw [View.skipValues,if_neg (by decide),if_pos rfl,View.balanceValues,if_pos (by exact inside)]
    simp [inRow,first]
  rw [inRow_step env,same]
  simp [View.advance,inRow,listing.far]

theorem inRow_shuts (opened : 2 ≤ depth) : View.step env (inRow w depth total gap char pend) (rune ')') bs =
    .ok (inRow w (depth-1) (total+1) (min 2 (gap+bs.length)) char (pend ++ bs)) := by
  have inside : (0 : Int) < depth-1 := by omega
  have less : ((depth-1 : Nat) : Int) = depth-1 := by omega
  have same : View.skipValues (inRow w depth total gap char (pend ++ bs)) (rune ')') bs =
      inRow w (depth-1) (total+1) gap char (pend ++ bs) := by
    rw [View.skipValues,if_pos rfl,View.balanceValues,if_pos (by exact inside)]
    simp [inRow,less]
  rw [inRow_step env,same]
  simp [View.advance,inRow,listing.far]

theorem inRow_quote (quote : r = rune '\'' ∨ r = rune '"') :
    View.step env (inRow w depth total gap char pend) r bs =
    .ok (inLiteral w depth total (min 2 (gap+bs.length)) r (pend ++ bs) false) := by
  have other : r ≠ rune ')' ∧ r ≠ rune '(' := by rcases quote with rfl | rfl <;> decide
  have same : View.skipValues (inRow w depth total gap char (pend ++ bs)) r bs =
      inLiteral w depth total gap r (pend ++ bs) false := by
    rw [View.skipValues,if_neg other.1,if_neg other.2,if_pos quote]
    rfl
  rw [inRow_step env,same]
  simp [View.advance,inLiteral,listing.far]

-- The parenthesis that closes the row.
theorem inRow_ends (one : bs.length = 1) (some_ : 1 ≤ gap) : ∃ mark,(w.valueNo ≠ 0 → mark = []) ∧
    View.step env (inRow w 1 total gap char pend) (rune ')') bs = .ok (rowEnd w char mark) := by
  have none_ : bs.drop 1 = [] := List.drop_eq_nil_of_le (by omega)
  have same : View.skipValues (inRow w 1 total gap char (pend ++ bs)) (rune ')') bs =
      View.endValues {inRow w 1 total gap char (pend ++ bs) with
        parOpen := 0,parOpenTotal := total+1} (rune ')') bs := by
    rw [View.skipValues,if_pos rfl,View.balanceValues,if_neg (by simp [inRow]),if_neg (by simp)]
    rfl
  refine ⟨if w.valueNo = 0 then View.listText {inRow w 1 total gap char (pend ++ bs) with
    parOpen := 0,parOpenTotal := total+1} else [],
    fun later => if_neg later,?_⟩
  have top : min 2 ((if w.valueNo = 0 then 2 else gap)+1) = 2 := by split <;> omega
  rw [inRow_step env,same,View.endValues_eq]
  simp [View.advance,inRow,rowEnd,listing.far,none_,one,top]

omit listing in
theorem inLiteral_step (r : Nat) (escape : Bool) :
    View.step env (inLiteral w depth total gap char pend escape) r bs =
    .ok ((View.skipQuote (inLiteral w depth total gap char (pend ++ bs) escape) r bs).advance bs) := rfl

theorem inLiteral_inside (other : r ≠ char) (escape : Bool) :
    View.step env (inLiteral w depth total gap char pend escape) r bs =
    .ok (inLiteral w depth total (min 2 (gap+bs.length)) char (pend ++ bs) (!escape && r = rune '\\')) := by
  rw [inLiteral_step env,View.skipQuote,if_pos (by exact other)]
  cases escape with
  | true => simp [View.advance,inLiteral,listing.far]
  | false =>
    by_cases slash : r = rune '\\'
    · simp [View.advance,inLiteral,listing.far,slash]
    · simp [View.advance,inLiteral,listing.far,slash]

theorem inLiteral_escaped : View.step env (inLiteral w depth total gap char pend true) char bs =
    .ok (inLiteral w depth total (min 2 (gap+bs.length)) char (pend ++ bs) false) := by
  rw [inLiteral_step env,View.skipQuote,if_neg (by exact not_not.mpr rfl)]
  simp [View.advance,inLiteral,listing.far]

theorem inLiteral_ends : View.step env (inLiteral w depth total gap char pend false) char bs =
    .ok (inRow w depth total (min 2 (gap+bs.length)) char (bs.drop 1)) := by
  rw [inLiteral_step env,View.skipQuote,if_neg (by exact not_not.mpr rfl)]
  simp [View.advance,inLiteral,inRow,View.fromNext,listing.far,listing.sql]

end

theorem row_run (env : Env) (pieces : List (Nat × Bytes)) (listing : Listing w)
    (wide : ∀ piece ∈ pieces,1 ≤ piece.2.length)
    (ascii : ∀ piece ∈ pieces,piece.1 < 0x80 → piece.2.length = 1) (depth total gap char : Nat)
    (pend : Bytes) (some_ : 1 ≤ gap) (opened : 1 ≤ depth) :
    (closesRow depth none false (pieces.map Prod.fst) = true →
      ∃ char' mark,(w.valueNo ≠ 0 → mark = []) ∧
      View.run env pieces (inRow w depth total gap char pend) = .ok (rowEnd w char' mark)) ∧
    (∀ escape,closesRow depth (some char) escape (pieces.map Prod.fst) = true →
      ∃ char' mark,(w.valueNo ≠ 0 → mark = []) ∧
      View.run env pieces (inLiteral w depth total gap char pend escape) = .ok (rowEnd w char' mark)) := by
  induction pieces generalizing depth total gap char pend with
  | nil => exact ⟨nofun,fun _ => nofun⟩
  | cons piece rest ih =>
    obtain ⟨bytes,wideRest⟩ := List.forall_mem_cons.mp wide
    obtain ⟨one,asciiRest⟩ := List.forall_mem_cons.mp ascii
    have more : 1 ≤ min 2 (gap+piece.2.length) := by omega
    have next :=
      fun depth total char pend opened => ih wideRest asciiRest depth total
        (min 2 (gap+piece.2.length)) char pend more opened
    constructor
    · intro closes
      rw [List.map_cons,closesRow] at closes
      by_cases shut : piece.1 = rune ')'
      · rw [if_pos shut] at closes
        by_cases last : depth ≤ 1
        · rw [if_pos last] at closes
          obtain rfl : depth = 1 := by omega
          obtain ⟨mark,none_,step⟩ :=
            inRow_ends env listing total gap char pend piece.2 (one (by rw [shut]; decide)) some_
          refine ⟨char,mark,none_,?_⟩
          rw [← shut] at step
          rw [run_step step]
          cases rest with
          | nil => rfl
          | cons piece rest => cases closes
        · rw [if_neg last] at closes
          have step := inRow_shuts env listing depth total gap char pend piece.2 (by omega)
          rw [← shut] at step
          rw [run_step step]
          exact (next _ _ _ _ (by omega)).1 closes
      rw [if_neg shut] at closes
      by_cases opens : piece.1 = rune '('
      · rw [if_pos opens] at closes
        have step := inRow_opens env listing depth total gap char pend piece.2 opened
        rw [← opens] at step
        rw [run_step step]
        exact (next _ _ _ _ (by omega)).1 closes
      rw [if_neg opens] at closes
      by_cases quote : piece.1 = rune '\'' ∨ piece.1 = rune '"'
      · rw [if_pos quote] at closes
        rw [run_step (inRow_quote env listing depth total gap char pend piece.2 quote)]
        exact (next _ _ _ _ opened).2 false closes
      · rw [if_neg quote] at closes
        rw [run_step (inRow_other env listing depth total gap char pend piece.2 opened shut opens quote)]
        exact (next _ _ _ _ opened).1 closes
    · intro escape closes
      rw [List.map_cons,closesRow] at closes
      by_cases inside : piece.1 ≠ char
      · rw [if_pos inside] at closes
        rw [run_step (inLiteral_inside env listing depth total gap char pend piece.2 inside escape)]
        exact (next _ _ _ _ opened).2 _ closes
      · rw [if_neg inside] at closes
        have same : piece.1 = char := not_not.mp inside
        cases escape with
        | true =>
          have step := inLiteral_escaped env listing depth total gap char pend piece.2
          nth_rewrite 2 [← same] at step
          rw [run_step step]
          exact (next _ _ _ _ opened).2 false closes
        | false =>
          have step := inLiteral_ends env listing depth total gap char pend piece.2
          nth_rewrite 2 [← same] at step
          rw [run_step step]
          exact (next _ _ _ _ opened).1 closes

-- Two outcomes that differ in the quote character alone, outside literals, or not at all.
inductive Quotes (a b : Nat) : Except Stop View → Except Stop View → Prop where
  | same (one : Except Stop View) : Quotes a b one one
  | ok (u : View) (outside : u.s ≠ .inQuote) : Quotes a b (.ok {u with quoteChar := a})
    (.ok {u with quoteChar := b})
  | error (u : View) (exit : Exit) : Quotes a b (.error ⟨{u with quoteChar := a},exit⟩)
    (.error ⟨{u with quoteChar := b},exit⟩)

theorem Quotes.ite {c : Prop} [Decidable c] {one two one' two' : Except Stop View}
    (yes : c → Quotes a b one two)
    (no : ¬ c → Quotes a b one' two') : Quotes a b (if c then one else one') (if c then two else two') :=
  rel_ite (R := Quotes a b) Iff.rfl yes no

theorem Quotes.pure_ite {c : Prop} [Decidable c] {v w v' w' : View} (yes : c → Quotes a b (.ok v) (.ok w))
    (no : ¬ c → Quotes a b (.ok v') (.ok w')) :
    Quotes a b (.ok (if c then v else v')) (.ok (if c then w else w')) :=
  rel_ite (R := fun v w => Quotes a b (.ok v) (.ok w)) Iff.rfl yes no

theorem Quotes.bind {k : View → View} (quotes : Quotes a b one two)
    (char : ∀ u c,k {u with quoteChar := c} = {k u with quoteChar := c})
    (outside : ∀ u : View,u.s ≠ .inQuote → (k u).s ≠ .inQuote) :
    Quotes a b (one >>= fun u => .ok (k u)) (two >>= fun u => .ok (k u)) := by
  cases quotes with
  | same one => exact .same _
  | ok u out =>
    change Quotes a b (.ok (k {u with quoteChar := a})) (.ok (k {u with quoteChar := b}))
    rw [char u a,char u b]
    exact .ok (k u) (outside u out)
  | error u exit => exact .error u exit

section
variable (env : Env) (v : View) (r : Nat) (bs : Bytes) (a b : Nat) (outside : v.s ≠ .inQuote)
include outside

theorem onDigit_quotes :
    Quotes a b (.ok (View.onDigit env {v with quoteChar := a}))
      (.ok (View.onDigit env {v with quoteChar := b})) := by
  have char (c : Nat) : View.onDigit env {v with quoteChar := c} = {v.onDigit env with quoteChar := c} := by
    unfold View.onDigit
    dsimp only
    split
    · rfl
    · rfl
    · split_ifs <;> rfl
    · rfl
  rw [char a,char b]
  apply Quotes.ok
  apply View.onDigit_cases (motive := fun u => u.s ≠ .inQuote)
  · exact fun _ => nofun
  · exact fun _ => nofun
  · exact fun _ _ => nofun
  · exact fun _ => outside

theorem matchWord_quotes (word : Bytes) :
    Quotes a b (View.matchWord env {v with quoteChar := a} word bs)
      (View.matchWord env {v with quoteChar := b} word bs) := by
  refine .ite (fun _ => .error v _) fun _ => .ite (fun _ => ?null) fun _ =>
    .ite (fun _ => .ok {v with sqlState := .orderBy} outside) fun _ =>
    .ite (fun _ => .ite (fun _ => .ok (v.fromHere bs).backComma outside) fun _ =>
      .ok (v.fromHere bs) outside) fun _ =>
    .ite (fun _ => .ok {v with sqlState := .onDupeKeyUpdate} outside) fun _ => .ok v outside
  case null =>
    rw [View.nullValue_eq,View.nullValue_eq]
    exact .ok {v with
      out := v.out ++ byte '?' ::
        (if word.getLast? = some (byte ',') then [byte ',',byte ' '] else [byte ' '])
      pend := bs.drop 1} outside

theorem onSpace_quotes :
    Quotes a b (View.onSpace env {v with quoteChar := a} bs)
      (View.onSpace env {v with quoteChar := b} bs) := by
  rw [onSpace_eq,onSpace_eq]
  refine .ite (fun _ => .pure_ite (fun _ => .ok ((v.write [byte ' ']).fromNext bs) outside) fun _ =>
    .ok v outside) fun _ =>
    .ite (fun _ => .ok {v with s := .inOLC,plan := if v.marked then some 2 else v.plan} nofun) fun _ =>
    .ite (fun _ => .pure_ite (fun _ => .ok (v.write [byte ' ']) outside) fun _ => .ok v outside) fun _ => ?_
  exact Quotes.bind (k := fun u => {u.mark with s := .inSpace,addSpace := true})
    (matchWord_quotes env v bs a b outside _) (fun _ _ => rfl)
    fun _ _ => nofun

theorem onOpenPar_quotes :
    Quotes a b (View.onOpenPar env {v with quoteChar := a} bs)
      (View.onOpenPar env {v with quoteChar := b} bs) := by
  refine .ite (fun _ => .error v _) fun _ => .ite (fun _ => ?list) fun _ =>
    .ite (fun _ => .ok {v.fromHere bs with valueNo := 0,s := .inWord} nofun) fun _ => .ok v outside
  case list =>
    by_cases first : v.valueNo = 0
    · simp only [if_pos first]
      exact .ok {v.mark with s := .inValues,sqlState := .inValues,parOpen := 1,gap := 0} nofun
    · simp only [if_neg first]
      exact .ok {v with s := .inValues,sqlState := .inValues,parOpen := 1,gap := 0} nofun

theorem changeState_quotes :
    Quotes a b (View.changeState env {v with quoteChar := a} r bs)
      (View.changeState env {v with quoteChar := b} r bs) := by
  refine .ite (fun _ => onDigit_quotes env v a b outside) fun _ =>
    .ite (fun _ => onSpace_quotes env v bs a b outside) fun _ =>
    .ite (fun _ => ?quote) fun _ => .ite (fun _ => ?tick) fun _ =>
      .ite (fun _ => .ok (v.onOperator bs) nofun) fun _ =>
    .ite (fun _ => .ok {v with s := .divOrMLC} nofun) fun _ =>
      .ite (fun _ => .ok {v with s := .mlcOrMySQLCode} nofun) fun _ =>
    .ite (fun _ => .ok {v with s := .opOrNumber} nofun) fun _ => .ite (fun _ => ?dash) fun _ =>
      .ite (fun _ => ?dot) fun _ =>
    .ite (fun _ => onOpenPar_quotes env v bs a b outside) fun _ =>
      .ite (fun _ => .ok v outside) fun _ => .ite (fun _ => .error v _) fun _ =>
    .ite (fun _ => .ok {v with addSpace := false,s := .inOLC} nofun) fun _ => ?other
  case quote =>
    refine .pure_ite (fun _ => .pure_ite (fun _ => .same _) fun _ => .same _) fun _ => .ok v outside
  case tick => exact .pure_ite (fun _ => .ok {v with s := .inBackticks} nofun) fun _ => .ok v outside
  case dash =>
    refine .ok {v with s := if v.pr = rune '-' then .inDash else .opOrNumber} ?_
    dsimp only
    split <;> exact nofun
  case dot => exact .pure_ite (fun _ => .ok {v.mark with s := .inNumber} nofun) fun _ => .ok v outside
  case other =>
    exact .pure_ite (fun _ => .ok {v.fromHere bs with
      valueNo := 0,s := .inWord
      sqlState := if v.sqlState = .inValues then .unknown else v.sqlState} nofun) fun _ => .ok {v with s := .inWord} nofun

omit outside in
theorem afterCopy_quotes (c : Nat) : View.afterCopy env {v with quoteChar := c} =
    {v.afterCopy env with quoteChar := c} := by
  unfold View.afterCopy
  dsimp only
  split_ifs <;> rfl

theorem finish_quotes :
    ∃ u : View,u.s ≠ .inQuote ∧
      ∀ c,View.finish env {v with quoteChar := c} r bs = {u with quoteChar := c} := by
  refine ⟨v.finish env r bs,?_,fun c => ?_⟩
  · change (v.copySlice env bs).s ≠ _
    rcases (copySlice_state env v bs).1 with ⟨same,_⟩ | ⟨same,_⟩
    · rw [same]
      exact outside
    · rw [same]
      exact nofun
  · have copied : View.copySlice env {v with quoteChar := c} bs =
        {v.copySlice env bs with quoteChar := c} := by
      unfold View.copySlice
      by_cases some_ : 0 < v.due bs
      · rw [if_pos (by exact some_),if_pos some_]
        exact afterCopy_quotes env (v.copyWord (v.due bs) (toLower env.lower (v.pend.take (v.due bs)))) c
      · rw [if_neg (by exact some_),if_neg some_]
    rw [View.finish,copied]
    rfl

end

theorem balanceValues_quotes (v : View) (r : Nat) (bs : Bytes) (state : v.s = .inValues) :
    (v.balanceValues r bs).s ≠ .inQuote ∧
      ∀ c,View.balanceValues {v with quoteChar := c} r bs = {v.balanceValues r bs with quoteChar := c} := by
  refine ⟨(balanceValues_quoting v r bs state).2,fun c => ?_⟩
  unfold View.balanceValues View.endValues View.writeList
  dsimp only
  split_ifs <;> rfl

theorem skipValues_quotes (v : View) (r : Nat) (bs : Bytes) (state : v.s = .inValues)
    (quote : ¬ (r = rune '\'' ∨ r = rune '"')) :
    (v.skipValues r bs).s ≠ .inQuote ∧
      ∀ c,View.skipValues {v with quoteChar := c} r bs = {v.skipValues r bs with quoteChar := c} := by
  unfold View.skipValues
  rw [if_neg quote]
  by_cases shut : r = rune ')'
  · rw [if_pos shut]
    have kept :=
      balanceValues_quotes {v with parOpen := v.parOpen-1,parOpenTotal := v.parOpenTotal+1} r bs state
    refine ⟨kept.1,fun c => ?_⟩
    rw [if_pos shut]
    exact kept.2 c
  by_cases opens : r = rune '('
  · rw [if_neg shut,if_pos opens]
    have kept :=
      balanceValues_quotes {v with
        parOpen := v.parOpen+1,gap := if v.parOpen+1 = 1 then 0 else v.gap} r bs state
    refine ⟨kept.1,fun c => ?_⟩
    rw [if_neg shut,if_pos opens]
    exact kept.2 c
  rw [if_neg shut,if_neg opens]
  by_cases space : isSpace r = true
  · rw [if_pos space]
    refine ⟨by rw [state]; exact nofun,fun c => ?_⟩
    rw [if_neg shut,if_neg opens,if_neg quote,if_pos space]
  · rw [if_neg space]
    have kept := balanceValues_quotes v r bs state
    refine ⟨kept.1,fun c => ?_⟩
    rw [if_neg shut,if_neg opens,if_neg quote,if_neg space]
    exact kept.2 c

-- Step 1 outside literals keeps the quote character or sets it.
inductive Skips (v : View) (r : Nat) (bs : Bytes) : Prop where
  | skip (u : View) (outside : u.s ≠ .inQuote)
    (part : ∀ c,View.skipPart {v with quoteChar := c} r bs = .skip {u with quoteChar := c})
  | quote (u : View) (part : ∀ c,View.skipPart {v with quoteChar := c} r bs = .skip u)
  | through (u : View) (outside : u.s ≠ .inQuote)
    (part : ∀ c,View.skipPart {v with quoteChar := c} r bs = .through {u with quoteChar := c})

theorem skipPart_quotes (v : View) (r : Nat) (bs : Bytes) (outside : v.s ≠ .inQuote) : Skips v r bs := by
  by_cases calm : skips v.s = false
  · by_cases spaces : (isSpace r && isSpace v.pr) = true
    · refine .skip {v.fromNext bs with pr := r,plan := none} outside fun c => ?_
      rw [view_skipPart_other {v with quoteChar := c} r bs calm,if_pos (by exact spaces)]
      rfl
    · refine .through v outside fun c => ?_
      rw [view_skipPart_other {v with quoteChar := c} r bs calm,if_neg (by exact spaces)]
  cases state : v.s with
  | inQuote => exact absurd state outside
  | inBackticks =>
    refine .skip (v.skipBackticks r) ?_ fun c => ?_
    · apply View.skipBackticks_cases (motive := fun u => u.s ≠ .inQuote)
      · exact fun _ => outside
      · simp
    · simp only [View.skipPart,state]
      unfold View.skipBackticks
      split_ifs <;> simp_all
  | inValues =>
    by_cases quote : r = rune '\'' ∨ r = rune '"'
    · have other : r ≠ rune ')' ∧ r ≠ rune '(' := by rcases quote with rfl | rfl <;> decide
      refine .quote {v with s := .inQuote,quoteChar := r} fun c => ?_
      simp only [View.skipPart,state,View.skipValues,if_neg other.1,if_neg other.2,if_pos quote]
    · have kept := skipValues_quotes v r bs state quote
      refine .skip (v.skipValues r bs) kept.1 fun c => ?_
      rw [skipPart_inValues {v with quoteChar := c} r bs state,kept.2 c]
  | inNumber =>
    by_cases numeral : inNumeral r = true
    · refine .skip v outside fun c => ?_
      simp [View.skipPart,state,View.endNumber,numeral]
    by_cases word : notNumeral r = true
    · refine .through {v.mark with s := .inWord} (by simp) fun c => ?_
      simp [View.skipPart,state,View.endNumber,numeral,word,View.mark]
    by_cases code : v.sqlState = .inMySQLCode
    · refine .through {v.mark with s := .inWord,sqlState := .unknown} (by simp) fun c => ?_
      simp [View.skipPart,state,View.endNumber,numeral,word,code,View.mark]
    · refine .through {((v.fromHere bs).mark).write [byte '?'] with s := .unknown} (by simp) fun c => ?_
      simp [View.skipPart,state,View.endNumber,numeral,word,code,View.mark,View.fromHere,View.write]
  | inNumberInWord =>
    by_cases digit : isDigit r = true
    · refine .skip v outside fun c => ?_
      simp [View.skipPart,state,View.endNumberInWord,digit]
    · refine .through {(v.fromHere bs).write [byte '?'] with
        s := if isSpace r then .unknown else .inWord} ?_ fun c => ?_
      · dsimp only
        split <;> decide
      · simp [View.skipPart,state,View.endNumberInWord,digit,View.fromHere,View.write]
  | inMLC =>
    by_cases ends : v.pr = rune '*' ∧ r = rune '/'
    · refine .skip {v with s := .unknown} (by simp) fun c => ?_
      simp [View.skipPart,state,View.skipComment,ends]
    · refine .skip {v with pr := r} outside fun c => ?_
      simp [View.skipPart,state,View.skipComment,ends]
  | mlcOrMySQLCode =>
    by_cases bang : r = rune '!'
    · refine .through {v with s := .inWord,sqlState := .inMySQLCode} (by simp) fun c => ?_
      simp [View.skipPart,state,bang]
    · refine .skip {v with pr := r,s := .inMLC} (by simp) fun c => ?_
      simp [View.skipPart,state,bang]
  | inOLC =>
    by_cases ends : r = 0x0A
    · refine .skip {v with s := .unknown} (by simp) fun c => ?_
      simp [View.skipPart,state,ends]
    · refine .skip v outside fun c => ?_
      simp [View.skipPart,state,ends]
  | _ =>
    rw [state] at calm
    exact absurd rfl calm

theorem step_quotes (env : Env) (v : View) (r : Nat) (bs : Bytes) (a b : Nat) (outside : v.s ≠ .inQuote) :
    Quotes a b (View.step env {v with quoteChar := a} r bs) (View.step env {v with quoteChar := b} r bs) := by
  have skip (c : Nat) (u : View) (part : View.skipPart {v.read bs with quoteChar := c} r bs = .skip u) :
      View.step env {v with quoteChar := c} r bs = .ok (u.advance bs) := step_skips part
  cases skipPart_quotes (v.read bs) r bs outside with
  | skip u out part =>
    rw [skip a _ (part a),skip b _ (part b)]
    exact .ok (u.advance bs) out
  | quote u part =>
    rw [skip a _ (part a),skip b _ (part b)]
    exact .same _
  | through u out part =>
    have through (c : Nat) : View.step env {v with quoteChar := c} r bs =
        (View.changeState env {u with quoteChar := c} r bs >>= fun u =>
          .ok (u.finish env r bs)) := step_enters (part c)
    rw [through a,through b]
    have changed := changeState_quotes env u r bs a b out
    generalize View.changeState env {u with quoteChar := a} r bs = one at changed ⊢
    generalize View.changeState env {u with quoteChar := b} r bs = two at changed ⊢
    cases changed with
    | same one => exact .same _
    | ok w out =>
      obtain ⟨x,out',finished⟩ := finish_quotes env w r bs out
      change Quotes a b (.ok (View.finish env {w with quoteChar := a} r bs))
        (.ok (View.finish env {w with quoteChar := b} r bs))
      rw [finished a,finished b]
      exact .ok x out'
    | error w exit => exact .error w exit

-- Outside a literal the quote character of the last one makes no difference.
theorem run_quotes (env : Env) (pieces : List (Nat × Bytes)) (v : View) (a b : Nat)
    (outside : v.s ≠ .inQuote) :
    Same (View.run env pieces {v with quoteChar := a}) (View.run env pieces {v with quoteChar := b}) := by
  induction pieces generalizing v with
  | nil => exact .ok rfl
  | cons piece rest ih =>
    have step := step_quotes env v piece.1 piece.2 a b outside
    rw [View.run,View.run]
    generalize View.step env {v with quoteChar := a} piece.1 piece.2 = one at step ⊢
    generalize View.step env {v with quoteChar := b} piece.1 piece.2 = two at step ⊢
    cases step with
    | same one => exact .refl _
    | ok u out => exact ih u out
    | error u exit => exact .error

theorem space_ascii (b : UInt8) (space : isSpace b.toNat = true) : b.toNat < 0x80 := by
  simp only [isSpace,Bool.or_eq_true,beq_iff_eq] at space
  omega

-- The view between two rows.
structure Between (u : View) : Prop where
  listing : Listing u
  state : u.s = .moreValuesOrUnknown
  gap : u.gap = 2
  word : u.prevWord = str "value" ∨ u.prevWord = str "values"
  later : u.valueNo ≠ 0
  escape : u.escape = false

def pause (text : Bytes) : Bytes := if text = [] then [] else [byte ' ']

section
variable (env : Env) {u : View} (between : Between u)
include between

theorem blank_first {b : UInt8} (space : isSpace b.toNat = true) (pr : isSpace u.pr = false) :
    View.step env u b.toNat [b] =
    .ok {u with
      out := u.out ++ (if u.valueNo = 1 then [byte ' '] else []),pend := u.pend ++ [b],pr := b.toNat} := by
  obtain ⟨⟨plan,sql,far⟩,state,gap,_,_,_⟩ := between
  have digit : isDigit b.toNat = false := by
    apply Bool.eq_false_iff.mpr
    intro digit
    rw [digit_space digit] at space
    cases space
  have changed : View.changeState env (u.read [b]) b.toNat [b] =
      .ok {u.read [b] with out := u.out ++ (if u.valueNo = 1 then [byte ' '] else [])} := by
    have outside : u.s ≠ .unknown ∧ u.s ≠ .inDash := by
      rw [state]
      decide
    rw [View.changeState,digit,if_neg Bool.false_ne_true,if_pos space,onSpace_eq,
      if_neg (by exact outside.1),if_neg (by exact outside.2),
      if_pos (by exact state)]
    by_cases first : u.valueNo = 1
    · rw [if_pos (by exact first),if_pos first]
      rfl
    · rw [if_neg (by exact first),if_neg first,List.append_nil]
      rfl
  have step := calm_step (by rw [state]; rfl) (by rw [pr,Bool.and_false]) changed
  rw [View.finish,copySlice_calm env {u.read [b] with
    out := u.out ++ (if u.valueNo = 1 then [byte ' '] else [])} [b] plan] at step
  rw [step]
  simp [View.advance,View.read,far,gap,plan]

theorem blank_more {b : UInt8} (space : isSpace b.toNat = true) (pr : isSpace u.pr = true) :
    View.step env u b.toNat [b] =
    .ok {u with pend := [],pr := b.toNat} := by
  obtain ⟨⟨plan,sql,far⟩,state,gap,_,_,_⟩ := between
  simp [View.step,View.skipPart,View.read,state,space,pr,View.fromNext,View.advance,far,gap,plan]

theorem comma_step :
    View.step env u (rune ',') [byte ','] = .ok {u with pend := u.pend ++ [byte ','],pr := rune ','} := by
  obtain ⟨⟨plan,sql,far⟩,state,gap,_,_,_⟩ := between
  have changed : View.changeState env (u.read [byte ',']) (rune ',') [byte ','] =
      .ok (u.read [byte ',']) := by
    have more : rune ',' = rune ',' ∧ (u.read [byte ',']).s = .moreValuesOrUnknown := ⟨rfl,state⟩
    change (if rune ',' = rune ',' ∧ (u.read [byte ',']).s = .moreValuesOrUnknown then _ else _) = _
    rw [if_pos more]
  have step := calm_step (by rw [state]; rfl) rfl changed
  rw [View.finish,copySlice_calm env (u.read [byte ',']) [byte ','] plan] at step
  rw [step]
  simp [View.advance,View.read,far,gap,plan]

theorem paren_step : View.step env u (rune '(') [byte '('] =
    .ok (inRow {u with pr := rune '('} 1 u.parOpenTotal 1 u.quoteChar (u.pend ++ [byte '('])) := by
  obtain ⟨⟨plan,sql,far⟩,state,gap,word,later,escape⟩ := between
  have call : u.prevWord ≠ str "call" := by rcases word with word | word <;> rw [word] <;> decide
  have begins : View.beginsValues env (u.read [byte '('])
      (View.word (u.read [byte '(']) [byte '(']) = true := by
    have dupe : u.sqlState ≠ .onDupeKeyUpdate := by
      rw [sql]
      exact nofun
    rcases word with word | word <;> simp [View.beginsValues,dupe,View.read,state,word]
  have changed : View.changeState env (u.read [byte '(']) (rune '(') [byte '('] =
      .ok {u.read [byte '('] with s := .inValues,sqlState := .inValues,parOpen := 1,gap := 0} := by
    change View.onOpenPar env (u.read [byte '(']) [byte '('] = _
    rw [View.onOpenPar,if_neg (by exact call),if_pos begins,if_neg (by exact later)]
  have step := calm_step (by rw [state]; rfl) rfl changed
  rw [View.finish,copySlice_calm env {u.read [byte '('] with
    s := .inValues,sqlState := .inValues,parOpen := 1,gap := 0} [byte '('] plan] at step
  rw [step]
  simp [View.advance,View.read,inRow,far,plan,sql,escape]

omit between in
theorem Between.moved (between : Between u) (out pend : Bytes) (pr : Nat) :
    Between {u with out := out,pend := pend,pr := pr} :=
  ⟨⟨between.listing.plan,between.listing.sql,between.listing.far⟩,between.state,between.gap,
    between.word,between.later,between.escape⟩

theorem spaces_run (text : Bytes) (white : ∀ b ∈ text,isSpace b.toNat = true) (pend : Bytes)
    (pr : Nat) (space : isSpace pr = true) :
    ∃ pend' pr',View.run env (runes text) {u with pend := pend,pr := pr} =
      .ok {u with pend := pend',pr := pr'} := by
  induction text generalizing pend pr with
  | nil => exact ⟨pend,pr,rfl⟩
  | cons b text ih =>
    obtain ⟨here,later⟩ := List.forall_mem_cons.mp white
    have step := blank_more env (between.moved u.out pend pr) here space
    obtain ⟨pend',pr',run⟩ := ih later [] b.toNat here
    refine ⟨pend',pr',?_⟩
    rw [runes_cons_ascii (space_ascii b here),run_step step]
    exact run

theorem blank_run (text : Bytes) (white : blank text = true) (pr : isSpace u.pr = false) :
    ∃ pend' pr',View.run env (runes text) u =
      .ok {u with out := u.out ++ (if u.valueNo = 1 then pause text else []),pend := pend',pr := pr'} := by
  have white := List.all_eq_true.mp white
  cases text with
  | nil =>
    refine ⟨u.pend,u.pr,?_⟩
    rw [pause,if_pos rfl,ite_self,List.append_nil]
    rfl
  | cons b text =>
    obtain ⟨here,later⟩ := List.forall_mem_cons.mp white
    have step := blank_first env between here pr
    have moved := between.moved (u.out ++ (if u.valueNo = 1 then [byte ' '] else [])) (u.pend ++ [b]) b.toNat
    obtain ⟨pend',pr',run⟩ := spaces_run env moved text later (u.pend ++ [b]) b.toNat here
    refine ⟨pend',pr',?_⟩
    rw [runes_cons_ascii (space_ascii b here),run_step step]
    exact run

theorem tuple_run (tuple : isTuple t = true) : ∃ char,View.run env (runes t) u =
    .ok {u with
      pend := [],pr := rune ')',parOpen := 0,parOpenTotal := 0,valueNo := u.valueNo+1,quoteChar := char} := by
  unfold isTuple at tuple
  cases chars : runes t with
  | nil =>
    rw [chars] at tuple
    cases tuple
  | cons piece rest =>
    have pieces := runes_piece t
    rw [chars] at tuple pieces
    rw [List.map_cons] at tuple
    dsimp only at tuple
    obtain ⟨first,closes⟩ := Bool.and_eq_true_iff.mp tuple
    have first : piece.1 = rune '(' := of_decide_eq_true first
    obtain ⟨here,later⟩ := List.forall_mem_cons.mp pieces
    have bytes : piece.2 = [byte '('] := by
      rw [here.2 (by rw [first]; decide),first]
      rfl
    have step := paren_step env between
    rw [← first,← bytes] at step
    have listing : Listing {u with pr := piece.1} :=
      ⟨between.listing.plan,between.listing.sql,between.listing.far⟩
    obtain ⟨char,mark,none_,run⟩ :=
      (row_run env rest listing (fun piece mem => (later piece mem).1) (fun piece mem ascii => by
      rw [(later piece mem).2 ascii]
      rfl) 1 u.parOpenTotal 1 u.quoteChar (u.pend ++ piece.2) (Nat.le_refl 1) (Nat.le_refl 1)).1 closes
    refine ⟨char,(run_step step rest).trans (run.trans ?_)⟩
    rw [none_ between.later]
    simp [rowEnd,between.state,between.gap,between.escape]

theorem row_text (row : Row) (valid : row.wellFormed = true) (pr : isSpace u.pr = false) :
    ∃ char,View.run env (runes row.text) u =
    .ok {u with
      out := u.out ++ (if u.valueNo = 1 then pause row.before ++ pause row.after else [])
      pend := [],pr := rune ')',parOpen := 0,parOpenTotal := 0,valueNo := u.valueNo+1,quoteChar := char} := by
  simp only [Row.wellFormed,Bool.and_eq_true] at valid
  obtain ⟨⟨before,after⟩,tuple⟩ := valid
  have pieces : runes row.text = runes row.before ++
      ((rune ',',[byte ',']) :: (runes row.after ++ runes row.tuple)) := by
    rw [Row.text,runes_append_ascii _ _ (by decide),runes_text_append]
    · rfl
    · intro b mem
      exact space_ascii b (List.all_eq_true.mp after b mem)
  obtain ⟨pend,pr',first⟩ := blank_run env between row.before before pr
  have comma :=
    comma_step env (between.moved (u.out ++ (if u.valueNo = 1 then pause row.before else [])) pend pr')
  obtain ⟨pend',pr'',second⟩ := blank_run env
    (between.moved (u.out ++ (if u.valueNo = 1 then pause row.before else [])) (pend ++ [byte ','])
      (rune ',')) row.after after rfl
  obtain ⟨char,third⟩ := tuple_run env (between.moved
    (u.out ++ (if u.valueNo = 1 then pause row.before else []) ++
      (if u.valueNo = 1 then pause row.after else [])) pend' pr'') tuple
  refine ⟨char,?_⟩
  rw [pieces,run_append,first]
  refine (run_step comma _).trans ?_
  rw [run_append]
  refine (congrArg (· >>= _) second).trans (third.trans ?_)
  by_cases once : u.valueNo = 1
  · simp [once]
  · simp [once]

end

-- The view behind a row as a function of what the rows change.
def ended (u : View) (out : Bytes) (n char : Nat) : View :=
  {u with out := out,pend := [],pr := rune ')',parOpen := 0,parOpenTotal := 0,valueNo := n,quoteChar := char}

theorem Between.ended (between : Between u) (out : Bytes) (char : Nat) (later : n ≠ 0) :
    Between (ended u out n char) :=
  ⟨⟨between.listing.plan,between.listing.sql,between.listing.far⟩,between.state,between.gap,
    between.word,later,between.escape⟩

theorem rows_head (rows : List Row) (valid : ∀ row ∈ rows,row.wellFormed = true) (tail : Bytes)
    (ascii : ∀ c ∈ tail.head?,c.toNat < 0x80) :
    ∀ c ∈ (rowsText rows ++ tail).head?,c.toNat < 0x80 := by
  cases rows with
  | nil => exact ascii
  | cons next rows =>
    have white := (Bool.and_eq_true_iff.mp (Bool.and_eq_true_iff.mp (valid next List.mem_cons_self)).1).1
    intro c first
    rw [rowsText,List.flatMap_cons,Row.text] at first
    cases before : next.before with
    | nil =>
      rw [before] at first
      cases first
      decide
    | cons b text =>
      rw [before] at first white
      cases first
      exact space_ascii c (List.all_eq_true.mp white c List.mem_cons_self)

theorem rows_cons (row : Row) (rows : List Row) (valid : ∀ row ∈ rows,row.wellFormed = true) :
    runes (rowsText (row :: rows)) = runes row.text ++ runes (rowsText rows) := by
  have ascii := rows_head rows valid [] nofun
  rw [List.append_nil] at ascii
  exact runes_append_head row.text ascii

theorem rows_rest (env : Env) (between : Between u) (rows : List Row)
    (valid : ∀ row ∈ rows,row.wellFormed = true) (out : Bytes) (n char : Nat)
    (later : 2 ≤ n) : ∃ char',View.run env (runes (rowsText rows)) (ended u out n char) =
    .ok (ended u out (n+rows.length) char') := by
  induction rows generalizing n char with
  | nil => exact ⟨char,rfl⟩
  | cons row rows ih =>
    obtain ⟨here,rest⟩ := List.forall_mem_cons.mp valid
    obtain ⟨next,run⟩ := row_text env (between.ended out char (n := n) (by omega)) row here rfl
    obtain ⟨last,more⟩ := ih rest (n+1) next (by omega)
    have notFirst : n ≠ 1 := by omega
    refine ⟨last,?_⟩
    rw [rows_cons row rows rest,run_append,run]
    change View.run env _ {ended u (out ++ if n = 1 then _ else []) (n+1) next with valueNo := n+1} = _
    rw [if_neg notFirst,List.append_nil,List.length_cons,Nat.add_comm rows.length 1,← Nat.add_assoc]
    exact more

-- The text that the rows write behind the mark of the first.
def rowGaps : List Row → Bytes
  | [] => []
  | row :: _ => pause row.before ++ pause row.after

theorem rows_run (env : Env) (between : Between u) (rows : List Row)
    (valid : ∀ row ∈ rows,row.wellFormed = true) (out : Bytes) (char : Nat) :
    ∃ char',View.run env (runes (rowsText rows)) (ended u out 1 char) =
      .ok (ended u (out ++ rowGaps rows) (1+rows.length) char') := by
  cases rows with
  | nil =>
    refine ⟨char,?_⟩
    rw [rowGaps,List.append_nil]
    rfl
  | cons row rows =>
    obtain ⟨here,rest⟩ := List.forall_mem_cons.mp valid
    obtain ⟨next,run⟩ := row_text env (between.ended out char Nat.one_ne_zero) row here rfl
    obtain ⟨last,more⟩ :=
      rows_rest env between rows rest (out ++ (pause row.before ++ pause row.after)) 2 next (Nat.le_refl 2)
    refine ⟨last,?_⟩
    rw [rows_cons row rows rest,run_append,run,rowGaps,List.length_cons,Nat.add_comm rows.length 1,
      ← Nat.add_assoc]
    exact more

def special : List Char := ['\'','"','`','=','<','>','!','/','*','+','-','.','(',',',':','#']

theorem letter_other : ∀ b : UInt8,isLetter b = true → isDigit b.toNat = false ∧ isSpace b.toNat = false ∧
    special.all (fun c => b.toNat != rune c) = true ∧ b.toNat < 0x80 := every_byte (by decide +kernel)

-- A letter is left to the last branch of step 2.
theorem letter_changes (env : Env) (v : View) (bs : Bytes) (letter : isLetter b = true) :
    View.changeState env v b.toNat bs = .ok (v.onOther bs) := by
  obtain ⟨digit,space,other,_⟩ := letter_other b letter
  have no (c : Char) (mem : c ∈ special) : ¬ b.toNat = rune c := by
    have here := List.all_eq_true.mp other c mem
    simpa using here
  have quote : ¬ (b.toNat = rune '\'' ∨ b.toNat = rune '"') :=
    not_or.mpr ⟨no '\'' (by decide),no '"' (by decide)⟩
  have operator : ¬ (b.toNat = rune '=' ∨ b.toNat = rune '<' ∨ b.toNat = rune '>' ∨ b.toNat = rune '!') :=
    not_or.mpr ⟨no '=' (by decide),
      not_or.mpr ⟨no '<' (by decide),not_or.mpr ⟨no '>' (by decide),no '!' (by decide)⟩⟩⟩
  rw [View.changeState,digit,space,if_neg Bool.false_ne_true,if_neg Bool.false_ne_true,if_neg quote,
    if_neg (no '`' (by decide)),if_neg operator,
    if_neg (no '/' (by decide)),if_neg (fun both => no '*' (by decide) both.1),
      if_neg (no '+' (by decide)),if_neg (no '-' (by decide)),
    if_neg (no '.' (by decide)),if_neg (no '(' (by decide)),if_neg (fun both => no ',' (by decide) both.1),
    if_neg (fun both => no ':' (by decide) both.1),if_neg (no '#' (by decide))]

theorem letter_step (env : Env) (calm : skips v.s = false) (fresh : v.s ≠ .inWord ∧ v.s ≠ .inOp)
    (idle : v.plan = none) (letter : isLetter b = true) :
    View.step env v b.toNat [b] = .ok (View.advance {v with
      pend := [b],pr := b.toNat,s := .inWord,valueNo := 0
      sqlState := if v.sqlState = .inValues then .unknown else v.sqlState} [b]) := by
  have space := (letter_other b letter).2.1
  have changed := letter_changes env (v.read [b]) [b] letter
  rw [View.onOther,if_pos (by exact fresh)] at changed
  have step := calm_step calm (by rw [space,Bool.false_and]) changed
  rw [View.finish,copySlice_calm env _ [b] (by exact idle)] at step
  rw [step]
  simp [View.read,View.fromHere,idle]

-- A space and a letter behind the rows.
theorem word_starts (env : Env) (between : Between u) (out : Bytes) (n char : Nat) (later : n ≠ 0)
    (letter : isLetter b = true) (rest : List (Nat × Bytes)) :
    View.run env ((rune ' ',[byte ' ']) :: (b.toNat,[b]) :: rest) (ended u out n char) =
      View.run env rest {ended u (out ++ if n = 1 then [byte ' '] else []) 0 char with
        pend := [b],pr := b.toNat,s := .inWord,sqlState := .unknown} := by
  have first := blank_first env (between.ended out char later) (b := byte ' ') rfl rfl
  have moved :=
    (between.ended out char later).moved (out ++ if n = 1 then [byte ' '] else []) [byte ' '] (rune ' ')
  have second :=
    letter_step env (by rw [moved.state]; rfl) (by rw [moved.state]; decide) moved.listing.plan letter
  refine (run_step first _).trans ((run_step second rest).trans ?_)
  simp [View.advance,ended,between.listing.sql,between.listing.far,between.gap]

-- Behind p a parenthesis opens the first row of a VALUES list.
def opensRow (env : Env) (p : Bytes) : Bool :=
  match View.run env (runes (p ++ [byte '('])) .start with
  | .ok w =>
    w.s = .inValues && w.parOpen = 1 && w.valueNo = 0 &&
      (w.prevWord = str "value" || w.prevWord = str "values")
  | .error _ => false

-- The keyword, in any case, and whitespace.
def endsInValues (p : Bytes) : Bool :=
  let text := (p.rdropWhile fun b => isSpace b.toNat).map lowerByte
  (str "value").isSuffixOf text || (str "values").isSuffixOf text

theorem endsInValues_length (keyword : endsInValues p = true) : 5 ≤ p.length := by
  have short : (p.rdropWhile fun b => isSpace b.toNat).length ≤ p.length := by
    rw [List.rdropWhile,List.length_reverse]
    exact (List.dropWhile_sublist _).length_le.trans (by rw [List.length_reverse])
  have sizes : (str "value").length = 5 ∧ (str "values").length = 6 := by decide
  rcases Bool.or_eq_true_iff.mp keyword with one | two
  · have suffix := (List.isSuffixOf_iff_suffix.mp one).length_le
    rw [List.length_map] at suffix
    omega
  · have suffix := (List.isSuffixOf_iff_suffix.mp two).length_le
    rw [List.length_map] at suffix
    omega

theorem tuple_head (tuple : isTuple t = true) :
    ∃ t',t = byte '(' :: t' ∧ closesRow 1 none false ((runes t').map Prod.fst) = true := by
  cases t with
  | nil => cases tuple
  | cons a t =>
    unfold isTuple at tuple
    rw [runes_cons,List.map_cons] at tuple
    dsimp only at tuple
    obtain ⟨first,closes⟩ := Bool.and_eq_true_iff.mp tuple
    have first : (decodeRune a t).1 = rune '(' := of_decide_eq_true first
    have one := decodeRune_ascii (a := a) (t := t) (by rw [first]; decide)
    rw [one] at first closes
    have same : a = byte '(' := UInt8.toNat_inj.mp first
    exact ⟨t,by rw [same],closes⟩

theorem first_row (keyword : endsInValues p = true) (opens : opensRow env p = true)
    (tuple : isTuple t = true) :
    ∃ u out char,Between u ∧ View.run env (runes (p ++ t)) .start = .ok (ended u out 1 char) := by
  obtain ⟨t',rfl,closes⟩ := tuple_head tuple
  have ascii : (byte '(').toNat < 0x80 := by decide
  cases prior : View.run env (runes (p ++ [byte '('])) .start with
  | error stop =>
    rw [opensRow,prior] at opens
    cases opens
  | ok w =>
    rw [opensRow,prior] at opens
    simp only [Bool.and_eq_true,Bool.or_eq_true,decide_eq_true_eq] at opens
    obtain ⟨⟨⟨state,one⟩,fresh⟩,word⟩ := opens
    have regular := run_regular start_regular prior
    have far : w.far = 4 := by
      have length := endsInValues_length keyword
      rw [run_far_eq prior,List.length_append]
      omega
    have escape : w.escape = false := regular.escape (by rw [state]; exact nofun) (by rw [state]; exact nofun)
    have listing : Listing w := ⟨regular.plan (by rw [state]; exact nofun),regular.values state,far⟩
    obtain ⟨char,mark,_,run⟩ :=
      (row_run env (runes t') listing (fun piece mem => (runes_piece t' piece mem).1)
        (fun piece mem ascii => by
      rw [(runes_piece t' piece mem).2 ascii]
      rfl) 1 w.parOpenTotal w.gap w.quoteChar w.pend (run_gap ascii prior).1 (Nat.le_refl 1)).1 closes
    have same : inRow w 1 w.parOpenTotal w.gap w.quoteChar w.pend = w := by
      cases w
      cases state
      cases one
      cases escape
      rfl
    rw [same] at run
    have between : Between (rowEnd w char mark) :=
      ⟨⟨listing.plan,listing.sql,listing.far⟩,rfl,rfl,word,Nat.succ_ne_zero _,rfl⟩
    have once : ended (rowEnd w char mark) (w.out ++ mark) 1 char = rowEnd w char mark := by
      rw [ended,rowEnd,fresh]
    refine ⟨rowEnd w char mark,w.out ++ mark,char,between,?_⟩
    rw [once,← run,runes_append_head p fun c first => by cases first; exact ascii,
      runes_cons_ascii ascii,List.append_cons,run_append]
    rw [runes_append_head p fun c first => by cases first; exact ascii,runes_cons_ascii ascii,
      runes_nil] at prior
    rw [prior]
    rfl

-- A space and a letter.
def startsWord : Bytes → Bool
  | a :: b :: _ => a == byte ' ' && isLetter b
  | _ => false

-- The space in front of the word behind the rows.
def lead (rows : List Row) : Bytes := rowGaps rows ++ if 1+rows.length = 1 then [byte ' '] else []

theorem rows_result (env : Env) (keyword : endsInValues p = true) (opens : opensRow env p = true)
    (tuple : isTuple t = true) :
    ∃ u out,∀ rows : List Row,(∀ row ∈ rows,row.wellFormed = true) → ∃ char,∀ b s,isLetter b = true →
      View.result env (p ++ t ++ rowsText rows ++ byte ' ' :: b :: s) =
        View.run env (runes (s ++ [byte ' '])) {ended u (out ++ lead rows) 0 char with
        pend := [b],pr := b.toNat,s := .inWord,sqlState := .unknown} := by
  obtain ⟨u,out,first,between,front⟩ := first_row keyword opens tuple
  refine ⟨u,out,fun rows valid => ?_⟩
  obtain ⟨char,run⟩ := rows_run env between rows valid out first
  refine ⟨char,fun b s letter => ?_⟩
  have ascii : (byte ' ').toNat < 0x80 := by decide
  obtain ⟨_,_,_,low⟩ := letter_other b letter
  have head : ∀ c ∈ (byte ' ' :: b :: s ++ [byte ' ']).head?,c.toNat < 0x80 := by
    intro c first
    cases first
    exact ascii
  rw [View.result,List.append_assoc,List.append_assoc,
    runes_append_head (p ++ t) (rows_head rows valid _ head),run_append,front,
    runes_append_head (rowsText rows) head,List.cons_append,List.cons_append,runes_cons_ascii ascii,
      runes_cons_ascii low]
  change View.run env (runes (rowsText rows) ++ _) (ended u out 1 first) = _
  rw [run_append,run]
  change View.run env _ (ended u (out ++ rowGaps rows) (1+rows.length) char) = _
  have later : 1+rows.length ≠ 0 := by omega
  rw [lead,← List.append_assoc]
  exact word_starts env between (out ++ rowGaps rows) (1+rows.length) char later letter
    (runes (s ++ [byte ' ']))

theorem lead_spaced (rows : List Row) : spacedOnce rows = true ↔ (lead rows).length = 1 := by
  cases rows with
  | nil => exact ⟨fun _ => rfl,fun _ => rfl⟩
  | cons row rows =>
    have more : 1+(row :: rows).length ≠ 1 := by
      rw [List.length_cons]
      omega
    rw [lead,if_neg more,List.append_nil,rowGaps,spacedOnce]
    cases row.before <;> cases row.after <;> simp [pause]

theorem lead_spaces (rows : List Row) : lead rows = List.replicate (lead rows).length (byte ' ') := by
  cases rows with
  | nil => rfl
  | cons row rows =>
    have more : 1+(row :: rows).length ≠ 1 := by
      rw [List.length_cons]
      omega
    rw [lead,if_neg more,List.append_nil,rowGaps]
    cases row.before <;> cases row.after <;> rfl

-- Whatever clause follows, the rows behind the first one do not show.
def Collapses (env : Env) (p t : Bytes) (rows : List Row) : Prop :=
  ∀ s,startsWord s = true → run env (p ++ t ++ s) ≠ .error .adminCommand →
    Completes (run env (p ++ t ++ rowsText rows ++ s)) → Completes (run env (p ++ t ++ s)) →
    fingerprint env (p ++ t ++ rowsText rows ++ s) = fingerprint env (p ++ t ++ s)

theorem startsWord_cons (starts : startsWord s = true) : ∃ b rest,s = byte ' ' :: b :: rest ∧
    isLetter b = true := by
  unfold startsWord at starts
  split at starts
  · obtain ⟨space,letter⟩ := Bool.and_eq_true_iff.mp starts
    rw [eq_of_beq space]
    exact ⟨_,_,rfl,letter⟩
  · cases starts

theorem closed_word (env : Env) (u : View) (k : Nat) : ∃ w,
    View.run env (runes (closing k ++ [byte ' '])) {u with
      pend := [byte 'x'],pr := (byte 'x').toNat,s := .inWord,sqlState := .unknown} = .ok w ∧
      w.out = u.out ++ [byte 'x',byte ' '] := by
  have text : ∃ c ∈ [byte 'x'],foreign keyWords c = true ∧ foreign listWords c = true :=
    ⟨_,List.mem_cons_self,by decide +kernel⟩
  obtain ⟨w,run,out⟩ :=
    closing_run env {u with
      pend := [byte 'x'],pr := (byte 'x').toNat,s := .inWord,sqlState := .unknown} k rfl ⟨nofun,nofun,nofun⟩
    (by decide : isSpace (byte 'x').toNat = false) (.inr text)
  have lowered : toLower env.lower [byte 'x'] = [byte 'x'] := by
    rw [toLower_ascii _ _ (List.forall_mem_singleton.mpr (by decide))]
    decide
  refine ⟨w,run,?_⟩
  rw [out,if_neg (List.cons_ne_nil _ _),lowered]
  rfl

theorem answer_word (q : Bytes) (out : w.out = before ++ [byte 'x',byte ' ']) :
    (View.answer q (.ok w)).count (byte ' ') = before.count (byte ' ') := by
  have trimmed : (before ++ [byte 'x',byte ' ']).rdropWhile (fun b => isSpace b.toNat) =
      before ++ [byte 'x'] := by
    rw [List.append_cons,List.rdropWhile_concat_pos _ _ _ (by decide),
      List.rdropWhile_concat_neg _ _ _ (by decide)]
  rw [View.answer,out,trimmed,List.count_filter (by decide),List.count_append]
  rfl

theorem rows_collapse_iff (env : Env) (p t : Bytes) (rows : List Row)
    (keyword : endsInValues p = true) (opens : opensRow env p = true)
    (tuple : isTuple t = true) (valid : ∀ row ∈ rows,row.wellFormed = true) :
    Collapses env p t rows ↔ spacedOnce rows = true := by
  obtain ⟨u,out,results⟩ := rows_result env keyword opens tuple
  obtain ⟨charMany,many⟩ := results rows valid
  obtain ⟨charOne,one⟩ := results [] (List.forall_mem_nil _)
  simp only [rowsText,List.flatMap_nil,List.append_nil] at one
  constructor
  · intro collapses
    have x : isLetter (byte 'x') = true := by decide
    have room (q : Bytes) (k : Nat) : k+2 ≤ (q ++ byte ' ' :: byte 'x' :: closing k).length+1 := by
      simp only [closing,List.length_append,List.length_cons,List.length_replicate]
      omega
    let k := (out ++ lead rows).length+(out ++ lead []).length
    obtain ⟨w,manyRun,manyOut⟩ := closed_word env (ended u (out ++ lead rows) 0 charMany) k
    obtain ⟨v,oneRun,oneOut⟩ := closed_word env (ended u (out ++ lead []) 0 charOne) k
    have manyResult := (many (byte 'x') (closing k) x).trans manyRun
    have oneResult := (one (byte 'x') (closing k) x).trans oneRun
    have left := short_completes manyResult (by
      rw [manyOut,List.length_append]
      exact (Nat.add_le_add_right (Nat.le_add_right _ _) 2).trans (room _ k))
    have right := short_completes oneResult (by
      rw [oneOut,List.length_append]
      exact (Nat.add_le_add_right (Nat.le_add_left _ _) 2).trans (room _ k))
    have same := collapses (byte ' ' :: byte 'x' :: closing k) rfl right.2 left.1 right.1
    rw [fingerprint_answer left.1,fingerprint_answer right.1,manyResult,oneResult] at same
    have count := congrArg (List.count (byte ' ')) (Option.some.inj same)
    rw [answer_word _ manyOut,answer_word _ oneOut] at count
    change (out ++ lead rows).count (byte ' ') = (out ++ lead []).count (byte ' ') at count
    rw [List.count_append,List.count_append,lead_spaces rows,List.count_replicate_self] at count
    exact (lead_spaced rows).mpr (Nat.add_left_cancel count)
  · intro spaced s starts command left right
    obtain ⟨b,rest,rfl,letter⟩ := startsWord_cons starts
    have leads : lead rows = lead [] := by
      rw [lead_spaces rows,(lead_spaced rows).mp spaced]
      rfl
    have same : Same (View.result env (p ++ t ++ byte ' ' :: b :: rest))
        (View.result env (p ++ t ++ rowsText rows ++ byte ' ' :: b :: rest)) := by
      rw [one b rest letter,many b rest letter,leads]
      exact run_quotes env _ {ended u (out ++ lead []) 0 charOne with
        pend := [b],pr := b.toNat,s := .inWord,sqlState := .unknown} charOne charMany (by simp)
    exact (same.fingerprint command right left).symm

theorem spaced_rows_collapse : spacedOnce [⟨[],str " ",str "(2,'b')"⟩,⟨[],[],str "(3,')')"⟩] = true ∧
    Collapses asciiEnv (str "insert into t (a,b) values ")
      (str "(1,'a')") [⟨[],str " ",str "(2,'b')"⟩,⟨[],[],str "(3,')')"⟩] :=
  ⟨by decide,(rows_collapse_iff asciiEnv (str "insert into t (a,b) values ")
    (str "(1,'a')") [⟨[],str " ",str "(2,'b')"⟩,⟨[],[],str "(3,')')"⟩]
    (by decide +kernel) (by decide +kernel) (by decide +kernel) (by decide +kernel)).mpr (by decide)⟩

theorem rows_shown : endsInValues (str "insert into t values") = true ∧
    opensRow asciiEnv (str "insert into t values") = true ∧
    isTuple (str "(1,'a')") = true ∧ (⟨[],[],str "(2,'b')"⟩ : Row).wellFormed = true ∧
    fingerprint asciiEnv (str "insert into t values(1,'a'),(2,'b') on duplicate key update a=b") =
      some (str "insert into t values(?+)on duplicate key update a=b") ∧
    fingerprint asciiEnv (str "insert into t values(1,'a') on duplicate key update a=b") =
      some (str "insert into t values(?+) on duplicate key update a=b") := by
  decide +kernel

end SqlReview.FingerprintRows
