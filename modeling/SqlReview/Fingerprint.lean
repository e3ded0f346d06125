import SqlReview.GoBytes

namespace SqlReview.Fingerprint
open GoBytes

inductive State where
  | unknown | inWord | inNumber | inSpace | inOp | opOrNumber | inQuote | subOrOLC | inDash | inOLC
  | divOrMLC | mlcOrMySQLCode | inMLC | inValues | moreValuesOrUnknown | orderBy | onDupeKeyUpdate
  | inNumberInWord | inBackticks | inMySQLCode
  deriving DecidableEq,Repr

-- What the function reads besides its argument: the table of unicode.ToLower
-- past ASCII and the package variable ReplaceNumbersInWords.
structure Env where
  lower : Nat → Nat
  replaceNumbersInWords : Bool

def asciiEnv : Env := ⟨id,false⟩

-- The local variables of Fingerprint. `f` keeps the length it is made with.
structure Machine where
  prevWord : Bytes
  f : Bytes
  fi : Nat
  pr : Nat
  s : State
  sqlState : State
  quoteChar : Nat
  cpFromOffset : Nat
  cpToOffset : Int
  addSpace : Bool
  escape : Bool
  parOpen : Int
  parOpenTotal : Nat
  valueNo : Nat
  firstPar : Nat
  deriving DecidableEq,Repr

-- The ways out of the loop before its end: the three early returns, and the
-- run-time panic of an index or slice out of range.
inductive Exit where
  | useQuery
  | callProc (name : Bytes)
  | adminCommand
  | outOfRange
  deriving DecidableEq,Repr

abbrev Go := Except Exit

def isSpace (r : Nat) : Bool := r == 0x20 || r == 0x09 || r == 0x0D || r == 0x0A

def isDigit (r : Nat) : Bool := 0x30 ≤ r && r ≤ 0x39

def wordIn (lower : Nat → Nat) (q : Bytes) (words : List Bytes) : Bool := words.contains (toLower lower q)

def listWords : List Bytes := [str "in",str "value",str "values"]

-- f[i] = b
def Machine.poke (m : Machine) (i : Nat) (b : UInt8) : Go Machine :=
  if i < m.f.length then .ok {m with f := m.f.set i b} else .error .outOfRange

-- f[fi] = b; fi++
def Machine.emit (m : Machine) (b : UInt8) : Go Machine := do
  let m ← m.poke m.fi b
  return {m with fi := m.fi+1}

-- if len(f) > fi { f[fi] = ' ' }; fi++
def Machine.emitSpace (m : Machine) : Machine :=
  {m with f := if m.fi < m.f.length then m.f.set m.fi (byte ' ') else m.f,fi := m.fi+1}

-- copy(f[fi:fi+l], w); fi += l
def Machine.copyInto (m : Machine) (l : Nat) (w : Bytes) : Go Machine :=
  if m.fi + l ≤ m.f.length then
    .ok {m with f := m.f.take m.fi ++ w.take l ++ m.f.drop (m.fi + (w.take l).length),fi := m.fi+l}
  else .error .outOfRange

-- q[i:j]
def cut (q : Bytes) (i j : Nat) : Go Bytes :=
  if i ≤ j ∧ j ≤ q.length then .ok (slice q i j) else .error .outOfRange

-- Step 1 either skips the rune (the source's `continue`) or lets it through.
inductive Skipped (α : Type) where
  | skip (next : α)
  | through (next : α)

def skipQuote (m : Machine) (qi r : Nat) : Go Machine :=
  if r ≠ m.quoteChar then
    if m.escape then .ok {m with escape := false}
    else if r = rune '\\' then .ok {m with escape := true}
    else .ok m
  else if m.escape then .ok {m with escape := false}
  else if m.sqlState = .inValues then
    .ok {m with escape := false,cpFromOffset := qi+1,s := .inValues}
  else do
    let m ← ({m with escape := false,cpFromOffset := qi+1}).emit (byte '?')
    return {m with s := .unknown}

def skipBackticks (m : Machine) (qi r : Nat) : Machine :=
  if r ≠ rune '`' then
    if m.escape then {m with escape := false}
    else if r = rune '\\' then {m with escape := true}
    else m
  else if m.escape then {m with escape := false}
  else {m with escape := false,cpToOffset := qi+1,s := .inWord}

def endNumberInWord (m : Machine) (qi r : Nat) : Go (Skipped Machine) :=
  if isDigit r then .ok (.skip m)
  else do
    let m ← m.emit (byte '?')
    return .through {m with cpFromOffset := qi,s := if isSpace r then .unknown else .inWord}

-- Characters that continue a number such as 123, 1e-9 or 0xFF.
def inNumeral (r : Nat) : Bool :=
  isDigit r || (rune 'a' ≤ r && r ≤ rune 'f') || (rune 'A' ≤ r && r ≤ rune 'F') ||
    r == rune '.' || r == rune 'x' || r == rune '-'

def notNumeral (r : Nat) : Bool :=
  (rune 'g' ≤ r && r ≤ rune 'z') || (rune 'G' ≤ r && r ≤ rune 'Z') || r == rune '_'

def endNumber (m : Machine) (qi r : Nat) : Go (Skipped Machine) :=
  if inNumeral r then .ok (.skip m)
  else if notNumeral r then .ok (.through {m with cpToOffset := qi,s := .inWord})
  else if m.sqlState = .inMySQLCode then
    .ok (.through {m with cpToOffset := qi,s := .inWord,sqlState := .unknown})
  else do
    let m ← m.emit (byte '?')
    return .through {m with cpFromOffset := qi,cpToOffset := qi,s := .unknown}

-- The text that replaces the first list of a group.
def listText (m : Machine) (qi : Nat) : Bytes :=
  if 1 < (qi : Int) - m.firstPar then str "(?+)" else str "()"

-- Only the first list of a group is written.
def writeList (m : Machine) (qi : Nat) : Go Machine :=
  if m.valueNo = 1 then do
    let text := listText m qi
    let m ← m.copyInto text.length text
    return {m with firstPar := 0}
  else return m

def endValues (m : Machine) (qi r : Nat) : Go Machine := do
  let m ← writeList {m with valueNo := m.valueNo+1} qi
  return {m with s := .moreValuesOrUnknown,pr := r,cpFromOffset := qi+1,parOpenTotal := 0}

def balanceValues (m : Machine) (qi r : Nat) : Go Machine :=
  if 0 < m.parOpen then .ok m
  else if m.parOpenTotal = 0 then .ok {m with s := .inWord}
  else endValues m qi r

def skipValues (m : Machine) (qi r : Nat) : Go Machine :=
  if r = rune ')' then
    balanceValues {m with parOpen := m.parOpen-1,parOpenTotal := m.parOpenTotal+1} qi r
  else if r = rune '(' then
    balanceValues {m with
      parOpen := m.parOpen+1,firstPar := if m.parOpen+1 = 1 then qi else m.firstPar} qi r
  else if r = rune '\'' ∨ r = rune '"' then .ok {m with s := .inQuote,quoteChar := r}
  else if isSpace r then .ok m
  else balanceValues m qi r

def skipComment (m : Machine) (r : Nat) : Machine :=
  if m.pr = rune '*' ∧ r = rune '/' then {m with s := .unknown} else {m with pr := r}

-- 1. Skip parts of the query for certain states.
def skipPart (m : Machine) (qi r : Nat) : Go (Skipped Machine) :=
  match m.s with
  | .inQuote => do return .skip (← skipQuote m qi r)
  | .inBackticks => .ok (.skip (skipBackticks m qi r))
  | .inNumberInWord => endNumberInWord m qi r
  | .inNumber => endNumber m qi r
  | .inValues => do return .skip (← skipValues m qi r)
  | .inMLC => .ok (.skip (skipComment m r))
  | .mlcOrMySQLCode =>
    if r ≠ rune '!' then .ok (.skip {m with pr := r,s := .inMLC})
    else .ok (.through {m with s := .inWord,sqlState := .inMySQLCode})
  | .inOLC => .ok (.skip (if r = 0x0A then {m with s := .unknown} else m))
  | _ =>
    if isSpace r && isSpace m.pr then .ok (.skip {m with cpFromOffset := qi+1,pr := r})
    else .ok (.through m)

def onDigit (env : Env) (m : Machine) (qi : Nat) : Machine :=
  match m.s with
  | .opOrNumber => {m with cpToOffset := qi-1,s := .inNumber}
  | .inOp => {m with cpToOffset := qi,s := .inNumber}
  | .inWord =>
    if m.pr = rune '(' then {m with cpToOffset := qi,s := .inNumber}
    else if m.pr = rune ',' then {m with s := .inNumber,cpToOffset := qi}
    else if env.replaceNumbersInWords then {m with s := .inNumberInWord,cpToOffset := qi}
    else m
  | _ => {m with s := .inNumber,cpToOffset := qi}

-- fi--; f[fi] = ','; f[fi+1] = ' '; fi += 2
def backComma (m : Machine) : Go Machine :=
  if m.fi = 0 then .error .outOfRange
  else do
    let m ← m.poke (m.fi-1) (byte ',')
    let m ← m.poke m.fi (byte ' ')
    return {m with fi := m.fi+1}

def nullComma (m : Machine) (word : Bytes) : Go Machine :=
  if word.getLast? = some (byte ',') then m.emit (byte ',') else .ok m

def nullValue (m : Machine) (qi : Nat) (word : Bytes) : Go Machine := do
  let m ← m.emit (byte '?')
  let m ← nullComma m word
  return {m.emitSpace with cpFromOffset := qi+1}

-- USE counts only as the first word of the query, NULL only as a value.
def matchWord (env : Env) (m : Machine) (qi : Nat) (word : Bytes) : Go Machine :=
  if word = str "use" ∧ m.prevWord = [] then .error .useQuery
  else if (word = str "null" ∧ m.prevWord ≠ str "is" ∧ m.prevWord ≠ str "not") ∨ word = str "null," then
    nullValue m qi word
  else if m.prevWord = str "order" ∧ word = str "by" then .ok {m with sqlState := .orderBy}
  else if m.sqlState = .orderBy ∧ wordIn env.lower word [str "asc",str "asc,",str "asc "] = true then
    if word.getLast? = some (byte ',') then backComma {m with cpFromOffset := qi}
    else .ok {m with cpFromOffset := qi}
  else if m.prevWord = str "key" ∧ word = str "update" then .ok {m with sqlState := .onDupeKeyUpdate}
  else .ok m

def endWord (env : Env) (q : Bytes) (m : Machine) (qi : Nat) : Go Machine := do
  let pending ← cut q m.cpFromOffset qi
  let m ← matchWord env m qi (toLower env.lower pending)
  return {m with s := .inSpace,cpToOffset := qi,addSpace := true}

-- fi > 0 && !isSpace(rune(f[fi-1]))
def endsInText (m : Machine) : Go Bool :=
  if m.fi = 0 then .ok false
  else match m.f[m.fi-1]? with
    | some b => .ok (!isSpace b.toNat)
    | none => .error .outOfRange

def onSpace (env : Env) (q : Bytes) (m : Machine) (qi : Nat) : Go Machine :=
  match m.s with
  | .unknown => do
    if ← endsInText m then return {m.emitSpace with cpFromOffset := qi+1} else return m
  | .inDash => .ok {m with s := .inOLC,cpToOffset := if 2 < m.cpToOffset then qi-2 else m.cpToOffset}
  | .moreValuesOrUnknown => .ok (if m.valueNo = 1 then m.emitSpace else m)
  | _ => endWord env q m qi

def onQuote (m : Machine) (qi r : Nat) : Machine :=
  if m.pr ≠ rune '\\' ∧ m.s ≠ .inQuote then
    {m with
      s := .inQuote,quoteChar := r,cpToOffset := if m.pr = rune 'x' ∨ m.pr = rune 'b' then -2 else qi}
  else m

def onBacktick (m : Machine) : Machine :=
  if m.pr ≠ rune '\\' ∧ m.s ≠ .inBackticks then {m with s := .inBackticks} else m

def onOperator (m : Machine) (qi : Nat) : Machine :=
  {m with cpFromOffset := if m.s ≠ .inWord ∧ m.s ≠ .inOp then qi else m.cpFromOffset,s := .inOp}

-- VALUE(, VALUE (, VALUES(, VALUES (, IN(, or IN (, but not after ON DUPLICATE KEY UPDATE
def beginsValues (env : Env) (m : Machine) (pending : Bytes) : Bool :=
  m.sqlState ≠ .onDupeKeyUpdate &&
    (((m.s = .inSpace || m.s = .moreValuesOrUnknown) &&
      (m.prevWord = str "value" || m.prevWord = str "values" || m.prevWord = str "in")) ||
    wordIn env.lower pending [str "value",str "values",str "in"])

def onOpenPar (env : Env) (q : Bytes) (m : Machine) (qi : Nat) : Go Machine := do
  let pending ← cut q m.cpFromOffset qi
  if m.prevWord = str "call" then .error (.callProc pending)
  else if beginsValues env m pending then
    return {m with
      s := .inValues,sqlState := .inValues,parOpen := 1,firstPar := qi
      cpToOffset := if m.valueNo = 0 then qi else m.cpToOffset}
  else if m.s ≠ .inWord then return {m with valueNo := 0,cpFromOffset := qi,s := .inWord}
  else return m

def onOther (m : Machine) (qi : Nat) : Machine :=
  if m.s ≠ .inWord ∧ m.s ≠ .inOp then
    {m with
      valueNo := 0,cpFromOffset := qi,s := .inWord
      sqlState := if m.sqlState = .inValues then .unknown else m.sqlState}
  else {m with s := .inWord}

-- 2. Change state based on rune and current state.
def changeState (env : Env) (q : Bytes) (m : Machine) (qi r : Nat) : Go Machine :=
  if isDigit r then .ok (onDigit env m qi)
  else if isSpace r then onSpace env q m qi
  else if r = rune '\'' ∨ r = rune '"' then .ok (onQuote m qi r)
  else if r = rune '`' then .ok (onBacktick m)
  else if r = rune '=' ∨ r = rune '<' ∨ r = rune '>' ∨ r = rune '!' then .ok (onOperator m qi)
  else if r = rune '/' then .ok {m with s := .divOrMLC}
  else if r = rune '*' ∧ m.s = .divOrMLC then .ok {m with s := .mlcOrMySQLCode}
  else if r = rune '+' then .ok {m with s := .opOrNumber}
  else if r = rune '-' then .ok {m with s := if m.pr = rune '-' then .inDash else .opOrNumber}
  else if r = rune '.' then
    .ok (if m.s = .inNumber ∨ m.s = .inOp then {m with s := .inNumber,cpToOffset := qi} else m)
  else if r = rune '(' then onOpenPar env q m qi
  else if r = rune ',' ∧ m.s = .moreValuesOrUnknown then .ok m
  else if r = rune ':' ∧ m.prevWord = str "administrator" then .error .adminCommand
  else if r = rune '#' then .ok {m with addSpace := false,s := .inOLC}
  else .ok (onOther m qi)

-- IN () -> in(?+), VALUES () -> values(?+); after any other copied text the space that is due
def afterCopy (env : Env) (m : Machine) : Machine :=
  if wordIn env.lower m.prevWord listWords ∧ m.sqlState ≠ .onDupeKeyUpdate then
    {m with addSpace := false,s := .inValues,sqlState := .inValues}
  else if m.addSpace then {m.emitSpace with cpFromOffset := m.cpFromOffset+1,addSpace := false}
  else m

-- 3. Copy a slice of the query into the fingerprint.
def copySlice (env : Env) (q : Bytes) (m : Machine) : Go Machine :=
  if (m.cpFromOffset : Int) < m.cpToOffset then do
    let upTo := m.cpToOffset.toNat
    let prevWord := toLower env.lower (← cut q m.cpFromOffset upTo)
    let m ← ({m with prevWord := prevWord}).copyInto (upTo-m.cpFromOffset) prevWord
    return afterCopy env {m with cpFromOffset := upTo}
  else .ok m

def step (env : Env) (q : Bytes) (m : Machine) (qi r : Nat) : Go Machine := do
  match ← skipPart m qi r with
  | .skip m => return m
  | .through m =>
    let m ← changeState env q m qi r
    let m ← copySlice env q m
    return {m with pr := r}

-- for qi, r := range q
def loop (env : Env) (q : Bytes) : Nat → List (Nat × Bytes) → Machine → Go Machine
  | _,[],m => .ok m
  | qi,piece :: rest,m => do
    let m ← step env q m qi piece.1
    loop env q (qi+piece.2.length) rest m

def start (q : Bytes) : Machine where
  prevWord := []
  f := List.replicate q.length 0
  fi := 0
  pr := 0
  s := .unknown
  sqlState := .unknown
  quoteChar := 0
  cpFromOffset := 0
  cpToOffset := 0
  addSpace := false
  escape := false
  parOpen := 0
  parOpenTotal := 0
  valueNo := 0
  firstPar := 0

-- The loop over q with the space that lets it run off the end of the query.
def run (env : Env) (query : Bytes) : Go Machine :=
  let q := query ++ [byte ' ']
  loop env q 0 (runes q) (start q)

def trimSpaces (f : Bytes) : Nat → Nat
  | 0 => 0
  | fi+1 => match f[fi]? with
    | some b => if isSpace b.toNat then trimSpaces f fi else fi+1
    | none => fi+1

-- Trailing spaces and the zero bytes of slices that shrank under ToLower go.
def finish (m : Machine) : Bytes :=
  let fi := trimSpaces m.f m.fi
  if fi ≤ m.f.length then (m.f.take fi).filter (· ≠ 0) else []

-- `none` is a panic.
def fingerprint (env : Env) (query : Bytes) : Option Bytes :=
  match run env query with
  | .ok m => some (finish m)
  | .error .useQuery => some (str "use ?")
  | .error (.callProc name) => some (str "call " ++ name)
  | .error .adminCommand => some query
  | .error .outOfRange => none

end SqlReview.Fingerprint
