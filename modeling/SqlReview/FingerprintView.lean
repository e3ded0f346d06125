import SqlReview.Fingerprint

namespace SqlReview.FingerprintView
open GoBytes Fingerprint

-- The machine of Fingerprint without offsets into the query and without a buffer:
-- `pend` is the text from cpFromOffset on, `out` what f[0:fi] should hold, and `plan`
-- says how many bytes before the current rune the text due for copying ends.
-- Of the absolute offsets only three tests remain: `far` is qi capped at 4, `gap` is
-- qi-firstPar capped at 2 and `marked` is cpToOffset > 2.
structure View where
  prevWord : Bytes
  out : Bytes
  pend : Bytes
  plan : Option Nat
  pr : Nat
  s : State
  sqlState : State
  quoteChar : Nat
  addSpace : Bool
  escape : Bool
  parOpen : Int
  parOpenTotal : Nat
  valueNo : Nat
  gap : Nat
  far : Nat
  marked : Bool
  deriving DecidableEq,Repr

structure Stop where
  view : View
  exit : Exit

def View.write (v : View) (text : Bytes) : View := {v with out := v.out ++ text}
def View.fromHere (v : View) (bs : Bytes) : View := {v with pend := bs}
def View.fromNext (v : View) (bs : Bytes) : View := {v with pend := bs.drop 1}
def View.mark (v : View) : View := {v with plan := some 0,marked := decide (3 ≤ v.far)}
def View.read (v : View) (bs : Bytes) : View := {v with pend := v.pend ++ bs}
def View.advance (v : View) (bs : Bytes) : View :=
  {v with far := min 4 (v.far+bs.length),gap := min 2 (v.gap+bs.length)}

-- The pending text before the current rune, whose bytes are the last of `pend`.
def View.word (v : View) (bs : Bytes) : Bytes := v.pend.take (v.pend.length-bs.length)

def View.skipQuote (v : View) (r : Nat) (bs : Bytes) : View :=
  if r ≠ v.quoteChar then
    if v.escape then {v with escape := false}
    else if r = rune '\\' then {v with escape := true}
    else v
  else if v.escape then {v with escape := false}
  else if v.sqlState = .inValues then {v.fromNext bs with escape := false,s := .inValues}
  else {(v.fromNext bs).write [byte '?'] with escape := false,s := .unknown}

def View.skipBackticks (v : View) (r : Nat) : View :=
  if r ≠ rune '`' then
    if v.escape then {v with escape := false}
    else if r = rune '\\' then {v with escape := true}
    else v
  else if v.escape then {v with escape := false}
  else {v with escape := false,plan := some 0,marked := decide (2 ≤ v.far),s := .inWord}

def View.endNumberInWord (v : View) (r : Nat) (bs : Bytes) : Skipped View :=
  if isDigit r then .skip v
  else .through {(v.fromHere bs).write [byte '?'] with s := if isSpace r then .unknown else .inWord}

def View.endNumber (v : View) (r : Nat) (bs : Bytes) : Skipped View :=
  if inNumeral r then .skip v
  else if notNumeral r then .through {v.mark with s := .inWord}
  else if v.sqlState = .inMySQLCode then .through {v.mark with s := .inWord,sqlState := .unknown}
  else .through {((v.fromHere bs).mark).write [byte '?'] with s := .unknown}

def View.listText (v : View) : Bytes := if v.gap = 2 then str "(?+)" else str "()"

def View.writeList (v : View) : View :=
  if v.valueNo = 1 then {v.write v.listText with gap := 2} else v

def View.endValues (v : View) (r : Nat) (bs : Bytes) : View :=
  {(View.writeList {v with valueNo := v.valueNo+1}).fromNext bs with
    s := .moreValuesOrUnknown,pr := r,parOpenTotal := 0}

def View.balanceValues (v : View) (r : Nat) (bs : Bytes) : View :=
  if 0 < v.parOpen then v
  else if v.parOpenTotal = 0 then {v with s := .inWord}
  else v.endValues r bs

def View.skipValues (v : View) (r : Nat) (bs : Bytes) : View :=
  if r = rune ')' then
    View.balanceValues {v with parOpen := v.parOpen-1,parOpenTotal := v.parOpenTotal+1} r bs
  else if r = rune '(' then
    View.balanceValues {v with parOpen := v.parOpen+1,gap := if v.parOpen+1 = 1 then 0 else v.gap} r bs
  else if r = rune '\'' ∨ r = rune '"' then {v with s := .inQuote,quoteChar := r}
  else if isSpace r then v
  else v.balanceValues r bs

def View.skipComment (v : View) (r : Nat) : View :=
  if v.pr = rune '*' ∧ r = rune '/' then {v with s := .unknown} else {v with pr := r}

def View.skipPart (v : View) (r : Nat) (bs : Bytes) : Skipped View :=
  match v.s with
  | .inQuote => .skip (v.skipQuote r bs)
  | .inBackticks => .skip (v.skipBackticks r)
  | .inNumberInWord => v.endNumberInWord r bs
  | .inNumber => v.endNumber r bs
  | .inValues => .skip (v.skipValues r bs)
  | .inMLC => .skip (v.skipComment r)
  | .mlcOrMySQLCode =>
    if r ≠ rune '!' then .skip {v with pr := r,s := .inMLC}
    else .through {v with s := .inWord,sqlState := .inMySQLCode}
  | .inOLC => .skip (if r = 0x0A then {v with s := .unknown} else v)
  | _ =>
    if isSpace r && isSpace v.pr then .skip {v.fromNext bs with pr := r,plan := none}
    else .through v

def View.onDigit (env : Env) (v : View) : View :=
  match v.s with
  | .opOrNumber => {v with plan := some 1,marked := decide (4 ≤ v.far),s := .inNumber}
  | .inOp => {v.mark with s := .inNumber}
  | .inWord =>
    if v.pr = rune '(' then {v.mark with s := .inNumber}
    else if v.pr = rune ',' then {v.mark with s := .inNumber}
    else if env.replaceNumbersInWords then {v.mark with s := .inNumberInWord}
    else v
  | _ => {v.mark with s := .inNumber}

def View.backComma (v : View) : View := {v with out := v.out.dropLast ++ [byte ',',byte ' ']}

def View.nullComma (v : View) (word : Bytes) : View :=
  if word.getLast? = some (byte ',') then v.write [byte ','] else v

def View.nullValue (v : View) (word bs : Bytes) : View :=
  (((v.write [byte '?']).nullComma word).write [byte ' ']).fromNext bs

def View.matchWord (env : Env) (v : View) (word bs : Bytes) : Except Stop View :=
  if word = str "use" ∧ v.prevWord = [] then .error ⟨v,.useQuery⟩
  else if (word = str "null" ∧ v.prevWord ≠ str "is" ∧ v.prevWord ≠ str "not") ∨ word = str "null," then
    .ok (v.nullValue word bs)
  else if v.prevWord = str "order" ∧ word = str "by" then .ok {v with sqlState := .orderBy}
  else if v.sqlState = .orderBy ∧ wordIn env.lower word [str "asc",str "asc,",str "asc "] = true then
    if word.getLast? = some (byte ',') then .ok (v.fromHere bs).backComma else .ok (v.fromHere bs)
  else if v.prevWord = str "key" ∧ word = str "update" then .ok {v with sqlState := .onDupeKeyUpdate}
  else .ok v

def View.endWord (env : Env) (v : View) (bs : Bytes) : Except Stop View := do
  let v ← v.matchWord env (toLower env.lower (v.word bs)) bs
  return {v.mark with s := .inSpace,addSpace := true}

-- "ASC," in an ORDER BY clause: its comma is written over the last byte of f[0:fi].
def commaBack (env : Env) (sqlState : State) (word : Bytes) : Bool :=
  sqlState = .orderBy && wordIn env.lower word [str "asc",str "asc,",str "asc "] && word.getLast? =
    some (byte ',')

-- The rune at hand ends such a word.
def takesBack (env : Env) (r : Nat) (sqlState : State) (word : Bytes) : Bool :=
  isSpace r && commaBack env sqlState (toLower env.lower word)

def View.endsInText (v : View) : Bool :=
  match v.out.getLast? with
  | some b => !isSpace b.toNat
  | none => false

def View.onSpace (env : Env) (v : View) (bs : Bytes) : Except Stop View :=
  match v.s with
  | .unknown => .ok (if v.endsInText then (v.write [byte ' ']).fromNext bs else v)
  | .inDash => .ok {v with s := .inOLC,plan := if v.marked then some 2 else v.plan}
  | .moreValuesOrUnknown => .ok (if v.valueNo = 1 then v.write [byte ' '] else v)
  | _ => v.endWord env bs

def View.onQuote (v : View) (r : Nat) : View :=
  if v.pr ≠ rune '\\' ∧ v.s ≠ .inQuote then
    if v.pr = rune 'x' ∨ v.pr = rune 'b' then
      {v with s := .inQuote,quoteChar := r,plan := none,marked := false}
    else {v.mark with s := .inQuote,quoteChar := r}
  else v

def View.onBacktick (v : View) : View :=
  if v.pr ≠ rune '\\' ∧ v.s ≠ .inBackticks then {v with s := .inBackticks} else v

def View.onOperator (v : View) (bs : Bytes) : View :=
  {v with pend := if v.s ≠ .inWord ∧ v.s ≠ .inOp then bs else v.pend,s := .inOp}

def View.beginsValues (env : Env) (v : View) (pending : Bytes) : Bool :=
  v.sqlState ≠ .onDupeKeyUpdate &&
    (((v.s = .inSpace || v.s = .moreValuesOrUnknown) &&
      (v.prevWord = str "value" || v.prevWord = str "values" || v.prevWord = str "in")) ||
    wordIn env.lower pending [str "value",str "values",str "in"])

def View.onOpenPar (env : Env) (v : View) (bs : Bytes) : Except Stop View :=
  if v.prevWord = str "call" then .error ⟨v,.callProc (v.word bs)⟩
  else if v.beginsValues env (v.word bs) then
    .ok {(if v.valueNo = 0 then v.mark else v) with
      s := .inValues,sqlState := .inValues,parOpen := 1,gap := 0}
  else if v.s ≠ .inWord then .ok {v.fromHere bs with valueNo := 0,s := .inWord}
  else .ok v

def View.onOther (v : View) (bs : Bytes) : View :=
  if v.s ≠ .inWord ∧ v.s ≠ .inOp then
    {v.fromHere bs with
      valueNo := 0,s := .inWord,sqlState := if v.sqlState = .inValues then .unknown else v.sqlState}
  else {v with s := .inWord}

def View.changeState (env : Env) (v : View) (r : Nat) (bs : Bytes) : Except Stop View :=
  if isDigit r then .ok (v.onDigit env)
  else if isSpace r then v.onSpace env bs
  else if r = rune '\'' ∨ r = rune '"' then .ok (v.onQuote r)
  else if r = rune '`' then .ok v.onBacktick
  else if r = rune '=' ∨ r = rune '<' ∨ r = rune '>' ∨ r = rune '!' then .ok (v.onOperator bs)
  else if r = rune '/' then .ok {v with s := .divOrMLC}
  else if r = rune '*' ∧ v.s = .divOrMLC then .ok {v with s := .mlcOrMySQLCode}
  else if r = rune '+' then .ok {v with s := .opOrNumber}
  else if r = rune '-' then .ok {v with s := if v.pr = rune '-' then .inDash else .opOrNumber}
  else if r = rune '.' then
    .ok (if v.s = .inNumber ∨ v.s = .inOp then {v.mark with s := .inNumber} else v)
  else if r = rune '(' then v.onOpenPar env bs
  else if r = rune ',' ∧ v.s = .moreValuesOrUnknown then .ok v
  else if r = rune ':' ∧ v.prevWord = str "administrator" then .error ⟨v,.adminCommand⟩
  else if r = rune '#' then .ok {v with addSpace := false,s := .inOLC}
  else .ok (v.onOther bs)

-- How many bytes of `pend` are due: up to `plan` bytes before the current rune.
def View.due (v : View) (bs : Bytes) : Nat :=
  match v.plan with
  | none => 0
  | some back => v.pend.length-(bs.length+back)

def View.copyWord (v : View) (n : Nat) (w : Bytes) : View :=
  {v with prevWord := w,out := v.out ++ fit n w,pend := v.pend.drop n}

def View.afterCopy (env : Env) (v : View) : View :=
  if wordIn env.lower v.prevWord listWords ∧ v.sqlState ≠ .onDupeKeyUpdate then
    {v with addSpace := false,s := .inValues,sqlState := .inValues}
  else if v.addSpace then {v.write [byte ' '] with pend := v.pend.drop 1,addSpace := false}
  else v

def View.copySlice (env : Env) (v : View) (bs : Bytes) : View :=
  let n := v.due bs
  if 0 < n then (v.copyWord n (toLower env.lower (v.pend.take n))).afterCopy env else v

def View.step (env : Env) (v : View) (r : Nat) (bs : Bytes) : Except Stop View :=
  match (v.read bs).skipPart r bs with
  | .skip v => .ok (v.advance bs)
  | .through v => do
    let v ← v.changeState env r bs
    .ok (View.advance {v.copySlice env bs with pr := r,plan := none} bs)

def View.run (env : Env) : List (Nat × Bytes) → View → Except Stop View
  | [],v => .ok v
  | piece :: rest,v => do View.run env rest (← v.step env piece.1 piece.2)

def View.start : View where
  prevWord := []
  out := []
  pend := []
  plan := none
  pr := 0
  s := .unknown
  sqlState := .unknown
  quoteChar := 0
  addSpace := false
  escape := false
  parOpen := 0
  parOpenTotal := 0
  valueNo := 0
  gap := 0
  far := 0
  marked := false

-- The states in which step 1 reads the rune by itself.
def skips : State → Bool
  | .inQuote | .inBackticks | .inNumberInWord | .inNumber | .inValues | .inMLC | .mlcOrMySQLCode | .inOLC =>
    true
  | _ => false

-- Step 1 in each of these states.
section
variable (v : View) (r : Nat) (bs : Bytes)

theorem skipPart_inQuote (state : v.s = .inQuote) : v.skipPart r bs = .skip (v.skipQuote r bs) := by
  unfold View.skipPart
  rw [state]

theorem skipPart_inBackticks (state : v.s = .inBackticks) : v.skipPart r bs = .skip (v.skipBackticks r) := by
  unfold View.skipPart
  rw [state]

theorem skipPart_inNumberInWord (state : v.s = .inNumberInWord) :
    v.skipPart r bs = v.endNumberInWord r bs := by
  unfold View.skipPart
  rw [state]

theorem skipPart_inNumber (state : v.s = .inNumber) : v.skipPart r bs = v.endNumber r bs := by
  unfold View.skipPart
  rw [state]

theorem skipPart_inValues (state : v.s = .inValues) : v.skipPart r bs = .skip (v.skipValues r bs) := by
  unfold View.skipPart
  rw [state]

theorem skipPart_inMLC (state : v.s = .inMLC) : v.skipPart r bs = .skip (v.skipComment r) := by
  unfold View.skipPart
  rw [state]

theorem skipPart_mlcOrMySQLCode (state : v.s = .mlcOrMySQLCode) : v.skipPart r bs =
    if r ≠ rune '!' then .skip {v with pr := r,s := .inMLC}
      else .through {v with s := .inWord,sqlState := .inMySQLCode} := by
  unfold View.skipPart
  rw [state]

theorem skipPart_inOLC (state : v.s = .inOLC) :
    v.skipPart r bs = .skip (if r = 0x0A then {v with s := .unknown} else v) := by
  unfold View.skipPart
  rw [state]

end

-- Two branches on conditions that agree are related if they are related one by one.
theorem rel_ite {R : α → β → Prop} {c d : Prop} [Decidable c] [Decidable d] {a a' : α} {b b' : β}
    (same : c ↔ d) (yes : c → R a b)
    (no : ¬ c → R a' b') : R (if c then a else a') (if d then b else b') := by
  by_cases h : c
  · rw [if_pos h,if_pos (same.mp h)]
    exact yes h
  · rw [if_neg h,if_neg fun other => h (same.mpr other)]
    exact no h

-- What each part of an iteration can do, with the condition it does it under.

theorem View.onDigit_cases {motive : View → Prop} (env : Env) (v : View)
    (sign : v.s = .opOrNumber → motive {v with plan := some 1,marked := decide (4 ≤ v.far),s := .inNumber})
    (number : v.s ≠ .opOrNumber → motive {v.mark with s := .inNumber})
    (digit : v.s = .inWord → env.replaceNumbersInWords = true → motive {v.mark with s := .inNumberInWord})
    (keep : v.s = .inWord → motive v) : motive (v.onDigit env) := by
  unfold View.onDigit
  split
  · exact sign ‹_›
  · exact number (by simp [*])
  · rename_i word
    have other : v.s ≠ .opOrNumber := by simp [word]
    split
    · exact number other
    · split
      · exact number other
      · split
        · exact digit word ‹_›
        · exact keep word
  · exact number ‹_›

theorem View.endValues_eq (v : View) (r : Nat) (bs : Bytes) :
    v.endValues r bs = {v with
      out := v.out ++ (if v.valueNo = 0 then v.listText else [])
      gap := if v.valueNo = 0 then 2 else v.gap
      pend := bs.drop 1,valueNo := v.valueNo+1,s := .moreValuesOrUnknown,pr := r,parOpenTotal := 0} := by
  unfold View.endValues View.writeList
  by_cases first : v.valueNo = 0
  · simp [first,View.fromNext,View.write,View.listText]
  · simp [first,View.fromNext]

theorem View.nullValue_eq (v : View) (word bs : Bytes) :
    v.nullValue word bs = {v with
      out := v.out ++ byte '?' ::
        (if word.getLast? = some (byte ',') then [byte ',',byte ' '] else [byte ' '])
      pend := bs.drop 1} := by
  unfold View.nullValue View.nullComma
  split <;> simp [View.write,View.fromNext]

theorem View.endWord_cases {motive : Except Stop View → Prop} (env : Env) (v : View) (bs : Bytes)
    (use : toLower env.lower (v.word bs) = str "use" → v.prevWord = [] → motive (.error ⟨v,.useQuery⟩))
    (null : ∀ word, toLower env.lower (v.word bs) = word → word = str "null" ∨ word = str "null," →
      motive (.ok {(v.nullValue word bs).mark with s := .inSpace,addSpace := true}))
    (order : v.prevWord = str "order" →
      motive (.ok {v.mark with sqlState := .orderBy,s := .inSpace,addSpace := true}))
    (asc : v.sqlState = .orderBy → wordIn env.lower (toLower env.lower (v.word bs)) [str "asc",
    str "asc,",str "asc "] = true →
      motive (.ok {(v.fromHere bs).mark with s := .inSpace,addSpace := true}))
    (ascComma : v.sqlState = .orderBy → wordIn env.lower (toLower env.lower (v.word bs)) [str "asc",
    str "asc,",str "asc "] = true →
      (toLower env.lower (v.word bs)).getLast? = some (byte ',') → motive
    (.ok {(v.fromHere bs).backComma.mark with s := .inSpace,addSpace := true}))
    (update : v.prevWord = str "key" →
      motive (.ok {v.mark with sqlState := .onDupeKeyUpdate,s := .inSpace,addSpace := true}))
    (other : motive (.ok {v.mark with s := .inSpace,addSpace := true})) : motive (v.endWord env bs) := by
  unfold View.endWord View.matchWord
  split
  · rename_i isUse
    exact use isUse.1 isUse.2
  · split
    · rename_i isNull
      exact null _ rfl (isNull.imp_left And.left)
    · split
      · exact order (by simp [*])
      · split
        · rename_i isAsc
          split
          · exact ascComma isAsc.1 isAsc.2 ‹_›
          · exact asc isAsc.1 isAsc.2
        · split
          · exact update (by simp [*])
          · exact other

theorem View.onSpace_cases {motive : Except Stop View → Prop} (env : Env) (v : View) (bs : Bytes)
    (text : v.s = .unknown → v.endsInText = true → motive (.ok ((v.write [byte ' ']).fromNext bs)))
    (lost : v.s = .unknown → v.endsInText = false → motive (.ok v))
    (dash : v.s = .inDash → motive (.ok {v with s := .inOLC,plan := if v.marked then some 2 else v.plan}))
    (first : v.s = .moreValuesOrUnknown → v.valueNo = 1 → motive (.ok (v.write [byte ' '])))
    (more : v.s = .moreValuesOrUnknown → v.valueNo ≠ 1 → motive (.ok v))
    (word : v.s ≠ .unknown → v.s ≠ .inDash → v.s ≠ .moreValuesOrUnknown → motive (v.endWord env bs)) :
    motive (v.onSpace env bs) := by
  unfold View.onSpace
  split
  · split
    · exact text ‹_› ‹_›
    · exact lost ‹_› (Bool.not_eq_true _ ▸ ‹¬ v.endsInText = true›)
  · exact dash ‹_›
  · split
    · exact first ‹_› ‹_›
    · exact more ‹_› ‹_›
  · exact word ‹_› ‹_› ‹_›

theorem View.onQuote_cases {motive : View → Prop} (v : View) (r : Nat)
    (hex : v.pr = rune 'x' ∨ v.pr = rune 'b' →
    motive {v with s := .inQuote,quoteChar := r,plan := none,marked := false})
    (opens : v.pr ≠ rune '\\' → motive {v.mark with s := .inQuote,quoteChar := r})
    (keep : v.pr = rune '\\' ∨ v.s = .inQuote → motive v) : motive (v.onQuote r) := by
  unfold View.onQuote
  split
  · split
    · exact hex ‹_›
    · rename_i open_ _
      exact opens open_.1
  · rename_i shut
    exact keep (by by_cases v.pr = rune '\\' <;> simp_all)

theorem View.onOpenPar_cases {motive : Except Stop View → Prop} (env : Env) (v : View) (bs : Bytes)
    (call : v.prevWord = str "call" → motive (.error ⟨v,.callProc (v.word bs)⟩))
    (first : v.beginsValues env (v.word bs) = true → v.valueNo = 0 →
      motive (.ok {v.mark with s := .inValues,sqlState := .inValues,parOpen := 1,gap := 0}))
    (next : v.beginsValues env (v.word bs) = true → v.valueNo ≠ 0 →
      motive (.ok {v with s := .inValues,sqlState := .inValues,parOpen := 1,gap := 0}))
    (random : v.s ≠ .inWord → motive (.ok {v.fromHere bs with valueNo := 0,s := .inWord}))
    (keep : v.s = .inWord → motive (.ok v)) : motive (v.onOpenPar env bs) := by
  unfold View.onOpenPar
  split
  · exact call ‹_›
  · split
    · split
      · exact first ‹_› ‹_›
      · exact next ‹_› ‹_›
    · split
      · exact random ‹_›
      · exact keep (not_not.mp ‹_›)

theorem View.changeState_cases {motive : Except Stop View → Prop} (env : Env) (v : View) (r : Nat)
    (bs : Bytes)
    (digit : isDigit r = true → motive (.ok (v.onDigit env)))
    (space : isSpace r = true → motive (v.onSpace env bs))
    (quote : r = rune '\'' ∨ r = rune '"' → motive (.ok (v.onQuote r)))
    (tick : r = rune '`' → motive (.ok v.onBacktick))
    (operator : r = rune '=' ∨ r = rune '<' ∨ r = rune '>' ∨ r = rune '!' → motive (.ok (v.onOperator bs)))
    (div : r = rune '/' → motive (.ok {v with s := .divOrMLC}))
    (star : r = rune '*' → v.s = .divOrMLC → motive (.ok {v with s := .mlcOrMySQLCode}))
    (plus : r = rune '+' → motive (.ok {v with s := .opOrNumber}))
    (dash : r = rune '-' → motive (.ok {v with s := if v.pr = rune '-' then .inDash else .opOrNumber}))
    (point : r = rune '.' → v.s = .inNumber ∨ v.s = .inOp → motive (.ok {v.mark with s := .inNumber}))
    (dot : r = rune '.' → v.s ≠ .inOp → motive (.ok v))
    (par : r = rune '(' → motive (v.onOpenPar env bs))
    (comma : r = rune ',' → v.s = .moreValuesOrUnknown → motive (.ok v))
    (admin : r = rune ':' → v.prevWord = str "administrator" → motive (.error ⟨v,.adminCommand⟩))
    (hash : r = rune '#' → motive (.ok {v with addSpace := false,s := .inOLC}))
    (other : isSpace r = false → motive (.ok (v.onOther bs))) : motive (v.changeState env r bs) := by
  refine iteInduction digit fun _ => iteInduction space fun notSpace => iteInduction quote fun _ =>
    iteInduction tick fun _ => iteInduction operator fun _ => iteInduction div fun _ =>
    iteInduction (fun both => star both.1 both.2) fun _ => iteInduction plus fun _ =>
      iteInduction dash fun _ =>
    iteInduction (fun isDot => ?_) fun _ => iteInduction par fun _ =>
    iteInduction (fun both => comma both.1 both.2) fun _ =>
      iteInduction (fun both => admin both.1 both.2) fun _ =>
    iteInduction hash fun _ => other (Bool.not_eq_true _ ▸ notSpace)
  by_cases number : v.s = .inNumber ∨ v.s = .inOp
  · rw [if_pos number]
    exact point isDot number
  · rw [if_neg number]
    exact dot isDot fun op => number (.inr op)

theorem View.copySlice_cases {motive : View → Prop} (env : Env) (v : View) (bs : Bytes)
    (idle : v.due bs = 0 → motive v)
    (copy : ∀ w, toLower env.lower (v.pend.take (v.due bs)) = w → 0 < v.due bs →
      motive ((v.copyWord (v.due bs) w).afterCopy env)) : motive (v.copySlice env bs) :=
  iteInduction (copy _ rfl) fun none => idle (by omega)

theorem View.afterCopy_cases {motive : View → Prop} (env : Env) (v : View)
    (list : wordIn env.lower v.prevWord listWords = true →
      motive {v with addSpace := false,s := .inValues,sqlState := .inValues})
    (space : v.addSpace = true → motive {v.write [byte ' '] with pend := v.pend.drop 1,addSpace := false})
    (keep : v.addSpace = false → motive v) : motive (v.afterCopy env) :=
  iteInduction (fun both => list both.1) fun _ => iteInduction space fun none =>
    keep (Bool.not_eq_true _ ▸ none)

theorem View.skipQuote_cases {motive : View → Prop} (v : View) (r : Nat) (bs : Bytes)
    (inside : ∀ b, motive {v with escape := b})
    (values : r = v.quoteChar → v.escape = false → v.sqlState = .inValues →
      motive {v.fromNext bs with escape := false,s := .inValues})
    (ends : r = v.quoteChar → v.escape = false → v.sqlState ≠ .inValues →
      motive {(v.fromNext bs).write [byte '?'] with escape := false,s := .unknown}) :
    motive (v.skipQuote r bs) := by
  refine iteInduction (fun _ => ?_) fun same => ?_
  · exact iteInduction (fun _ => inside false) fun _ => iteInduction (fun _ => inside true) fun _ =>
  inside v.escape
  · refine iteInduction (fun _ => inside false) fun plain => ?_
    have same := not_not.mp same
    have plain := Bool.not_eq_true _ ▸ plain
    exact iteInduction (values same plain) (ends same plain)

theorem View.skipBackticks_cases {motive : View → Prop} (v : View) (r : Nat)
    (inside : ∀ b, motive {v with escape := b})
    (ends : motive {v with escape := false,plan := some 0,marked := decide (2 ≤ v.far),s := .inWord}) :
    motive (v.skipBackticks r) := by
  refine iteInduction (fun _ => ?_) fun _ => iteInduction (fun _ => inside false) fun _ => ends
  exact iteInduction (fun _ => inside false) fun _ => iteInduction (fun _ => inside true) fun _ =>
    inside v.escape

theorem View.balanceValues_cases {motive : View → Prop} (v : View) (r : Nat) (bs : Bytes)
    (inside : 0 < v.parOpen → motive v)
    (literal : v.parOpen ≤ 0 → v.parOpenTotal = 0 → motive {v with s := .inWord})
    (ends : v.parOpen ≤ 0 → v.parOpenTotal ≠ 0 → motive (v.endValues r bs)) : motive (v.balanceValues r bs) :=
  iteInduction inside fun shut => iteInduction (literal (by omega)) (ends (by omega))

theorem View.skipValues_cases {motive : View → Prop} (v : View) (r : Nat) (bs : Bytes)
    (shut : r = rune ')' →
      motive (View.balanceValues {v with parOpen := v.parOpen-1,parOpenTotal := v.parOpenTotal+1} r bs))
    (opens : r = rune '(' → motive (View.balanceValues {v with
      parOpen := v.parOpen+1,gap := if v.parOpen+1 = 1 then 0 else v.gap} r bs))
    (quote : r = rune '\'' ∨ r = rune '"' → motive {v with s := .inQuote,quoteChar := r})
    (space : isSpace r = true → motive v)
    (other : motive (v.balanceValues r bs)) : motive (v.skipValues r bs) :=
  iteInduction shut fun _ => iteInduction opens fun _ => iteInduction quote fun _ =>
    iteInduction space fun _ => other

theorem View.skipPart_cases {motive : Skipped View → Prop} (v : View) (r : Nat) (bs : Bytes)
    (quote : v.s = .inQuote → motive (.skip (v.skipQuote r bs)))
    (backticks : v.s = .inBackticks → motive (.skip (v.skipBackticks r)))
    (numberInWord : v.s = .inNumberInWord → isDigit r = true → motive (.skip v))
    (endNumberInWord : v.s = .inNumberInWord → motive (.through
      {(v.fromHere bs).write [byte '?'] with s := if isSpace r then .unknown else .inWord}))
    (number : v.s = .inNumber → inNumeral r = true → motive (.skip v))
    (notNumber : v.s = .inNumber → inNumeral r = false → motive (.through {v.mark with s := .inWord}))
    (version : v.s = .inNumber → inNumeral r = false → v.sqlState = .inMySQLCode →
      motive (.through {v.mark with s := .inWord,sqlState := .unknown}))
    (endNumber : v.s = .inNumber → inNumeral r = false →
    motive (.through {((v.fromHere bs).mark).write [byte '?'] with s := .unknown}))
    (values : v.s = .inValues → motive (.skip (v.skipValues r bs)))
    (comment : v.s = .inMLC → motive (.skip {v with pr := r}))
    (endComment : v.s = .inMLC → v.pr = rune '*' → motive (.skip {v with s := .unknown}))
    (beginComment : v.s = .mlcOrMySQLCode → motive (.skip {v with pr := r,s := .inMLC}))
    (code : v.s = .mlcOrMySQLCode → r = rune '!' →
    motive (.through {v with s := .inWord,sqlState := .inMySQLCode}))
    (line : v.s = .inOLC → motive (.skip v))
    (endLine : v.s = .inOLC → motive (.skip {v with s := .unknown}))
    (spaces : skips v.s = false → isSpace r = true → isSpace v.pr = true →
      motive (.skip {v.fromNext bs with pr := r,plan := none}))
    (through : skips v.s = false → ¬ (isSpace r = true ∧ isSpace v.pr = true) → motive (.through v)) :
    motive (v.skipPart r bs) := by
  unfold View.skipPart
  split
  case h_1 state => exact quote state
  case h_2 state => exact backticks state
  case h_3 state => exact iteInduction (numberInWord state) fun _ => endNumberInWord state
  case h_4 state =>
    refine iteInduction (number state) fun ends => ?_
    have ends := Bool.eq_false_iff.mpr ends
    exact iteInduction (fun _ => notNumber state ends) fun _ =>
      iteInduction (version state ends) fun _ => endNumber state ends
  case h_5 state => exact values state
  case h_6 state =>
    unfold View.skipComment
    split
    · rename_i both
      exact endComment state both.1
    · exact comment state
  case h_7 state =>
    exact iteInduction (fun _ => beginComment state) fun bang => code state (not_not.mp bang)
  case h_8 state =>
    split
    · exact endLine state
    · exact line state
  case h_9 =>
    have calm : skips v.s = false := by cases state : v.s <;> first | rfl | exact absurd state ‹_›
    refine iteInduction (fun both => ?_) fun not => through calm (by simpa using not)
    have both := Bool.and_eq_true_iff.mp both
    exact spaces calm both.1 both.2

-- The view after steps 2 and 3.
def View.finish (env : Env) (v : View) (r : Nat) (bs : Bytes) : View :=
  View.advance {v.copySlice env bs with pr := r,plan := none} bs

theorem step_skips {env : Env} {v w : View} (part : (v.read bs).skipPart r bs = .skip w) :
    View.step env v r bs = .ok (w.advance bs) := by
  unfold View.step
  rw [part]

theorem step_enters {env : Env} {v w : View} (part : (v.read bs).skipPart r bs = .through w) :
    View.step env v r bs = (w.changeState env r bs >>= fun u => .ok (u.finish env r bs)) := by
  unfold View.step
  rw [part]
  rfl

theorem View.step_cases {motive : Except Stop View → Prop} (env : Env) (v : View) (r : Nat) (bs : Bytes)
    (skip : ∀ w, (v.read bs).skipPart r bs = .skip w → motive (.ok (w.advance bs)))
    (stop : ∀ w stop, (v.read bs).skipPart r bs = .through w → w.changeState env r bs = .error stop →
      motive (.error stop))
    (through : ∀ w u, (v.read bs).skipPart r bs = .through w → w.changeState env r bs = .ok u →
      motive (.ok (u.finish env r bs))) : motive (v.step env r bs) := by
  cases part : (v.read bs).skipPart r bs with
  | skip w =>
    rw [step_skips part]
    exact skip w part
  | through w =>
    rw [step_enters part]
    cases changed : w.changeState env r bs with
    | error ended => exact stop w ended part changed
    | ok u => exact through w u part changed

-- The text that an iteration copies.
def View.copied (env : Env) (v : View) (r : Nat) (bs : Bytes) : Bytes :=
  match (v.read bs).skipPart r bs with
  | .skip _ => []
  | .through w =>
    match w.changeState env r bs with
    | .ok u => u.pend.take (u.due bs)
    | .error _ => []

theorem View.copied_eq {env : Env} {v w u : View} {r : Nat} {bs : Bytes}
    (through : (v.read bs).skipPart r bs = .through w) (changed : w.changeState env r bs = .ok u) :
    v.copied env r bs = u.pend.take (u.due bs) := by
  unfold View.copied
  rw [through]
  dsimp only
  rw [changed]

end SqlReview.FingerprintView
