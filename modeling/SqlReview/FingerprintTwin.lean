import SqlReview.FingerprintNumber

-- Two runs over queries of one shape: they keep the same control state, and what they collect and
-- write stays related, as long as they pass the same tests.
namespace SqlReview.FingerprintTwin
open GoBytes Fingerprint FingerprintView FingerprintLiteral FingerprintPending FingerprintRegular
  FingerprintNumber

-- How pending text, output, previous word, previous rune and quote character of the two runs are related.
structure Texts where
  pend : Bytes → Bytes → Prop
  out : Bytes → Bytes → Prop
  word : Bytes → Bytes → Prop
  rune : Nat → Nat → Prop
  char : Nat → Nat → Prop

structure Twin (T : Texts) (v w : View) : Prop where
  pend : T.pend v.pend w.pend
  out : T.out v.out w.out
  word : T.word v.prevWord w.prevWord
  pr : T.rune v.pr w.pr
  char : T.char v.quoteChar w.quoteChar
  control : w = {v with
    pend := w.pend,out := w.out,prevWord := w.prevWord,pr := w.pr,quoteChar := w.quoteChar}

-- Two outcomes with related views, or with one reason to stop.
inductive Paired (T : Texts) : Except Stop View → Except Stop View → Prop where
  | ok : Twin T v w → Paired T (.ok v) (.ok w)
  | error (exit : Exit) : Paired T (.error ⟨v,exit⟩) (.error ⟨w,exit⟩)
  | call : T.out a b → Paired T (.error ⟨v,.callProc a⟩) (.error ⟨w,.callProc b⟩)

section
variable {T : Texts} {v w : View}

theorem Twin.s (twin : Twin T v w) : w.s = v.s := (congrArg View.s twin.control :)
theorem Twin.sqlState (twin : Twin T v w) : w.sqlState = v.sqlState := (congrArg View.sqlState twin.control :)
theorem Twin.plan (twin : Twin T v w) : w.plan = v.plan := (congrArg View.plan twin.control :)
theorem Twin.marked (twin : Twin T v w) : w.marked = v.marked := (congrArg View.marked twin.control :)
theorem Twin.escape (twin : Twin T v w) : w.escape = v.escape := (congrArg View.escape twin.control :)
theorem Twin.addSpace (twin : Twin T v w) : w.addSpace = v.addSpace := (congrArg View.addSpace twin.control :)
theorem Twin.valueNo (twin : Twin T v w) : w.valueNo = v.valueNo := (congrArg View.valueNo twin.control :)
theorem Twin.parOpen (twin : Twin T v w) : w.parOpen = v.parOpen := (congrArg View.parOpen twin.control :)
theorem Twin.parOpenTotal (twin : Twin T v w) : w.parOpenTotal = v.parOpenTotal :=
  (congrArg View.parOpenTotal twin.control :)
theorem Twin.gap (twin : Twin T v w) : w.gap = v.gap := (congrArg View.gap twin.control :)

-- A change of the control state alone.
theorem Twin.set (twin : Twin T v w) (f : View → View) (frame : ∀ u pend out word pr char,
    f {u with pend := pend,out := out,prevWord := word,pr := pr,quoteChar := char} =
      {f u with pend := pend,out := out,prevWord := word,pr := pr,quoteChar := char}) :
    Twin T (f v) (f w) := by
  have left : f v = {f v with
  pend := v.pend,out := v.out,prevWord := v.prevWord,pr := v.pr,quoteChar := v.quoteChar} :=
    frame v v.pend v.out v.prevWord v.pr v.quoteChar
  have right : f w = {f v with
      pend := w.pend,out := w.out,prevWord := w.prevWord,pr := w.pr,quoteChar := w.quoteChar} :=
    (congrArg f twin.control).trans (frame v w.pend w.out w.prevWord w.pr w.quoteChar)
  have pendRight : (f w).pend = w.pend := by rw [right]
  have outRight : (f w).out = w.out := by rw [right]
  have wordRight : (f w).prevWord = w.prevWord := by rw [right]
  have prRight : (f w).pr = w.pr := by rw [right]
  have charRight : (f w).quoteChar = w.quoteChar := by rw [right]
  refine ⟨?_,?_,?_,?_,?_,?_⟩
  · rw [pendRight,left]
    exact twin.pend
  · rw [outRight,left]
    exact twin.out
  · rw [wordRight,left]
    exact twin.word
  · rw [prRight,left]
    exact twin.pr
  · rw [charRight,left]
    exact twin.char
  · rw [pendRight,outRight,wordRight,prRight,charRight]
    exact right

theorem Twin.setPend (twin : Twin T v w) (texts : T.pend a b) :
    Twin T {v with pend := a} {w with pend := b} :=
  ⟨texts,twin.out,twin.word,twin.pr,twin.char,congrArg (fun u : View => {u with pend := b}) twin.control⟩

theorem Twin.setOut (twin : Twin T v w) (texts : T.out a b) : Twin T {v with out := a} {w with out := b} :=
  ⟨twin.pend,texts,twin.word,twin.pr,twin.char,congrArg (fun u : View => {u with out := b}) twin.control⟩

theorem Twin.setWord (twin : Twin T v w) (texts : T.word a b) :
    Twin T {v with prevWord := a} {w with prevWord := b} :=
  ⟨twin.pend,twin.out,texts,twin.pr,twin.char,congrArg (fun u : View => {u with prevWord := b}) twin.control⟩

theorem Twin.setPr (twin : Twin T v w) (runes : T.rune a b) : Twin T {v with pr := a} {w with pr := b} :=
  ⟨twin.pend,twin.out,twin.word,runes,twin.char,congrArg (fun u : View => {u with pr := b}) twin.control⟩

theorem Twin.setChar (twin : Twin T v w) (chars : T.char a b) :
    Twin T {v with quoteChar := a} {w with quoteChar := b} :=
  ⟨twin.pend,twin.out,twin.word,twin.pr,chars,congrArg (fun u : View => {u with quoteChar := b}) twin.control⟩

theorem Twin.setState (twin : Twin T v w) (state : State) : Twin T {v with s := state} {w with s := state} :=
  twin.set (fun u => {u with s := state}) fun _ _ _ _ _ _ => rfl

theorem Twin.mark (twin : Twin T v w) (state : State) :
    Twin T {v.mark with s := state} {w.mark with s := state} :=
  twin.set (fun u => {u.mark with s := state}) fun _ _ _ _ _ _ => rfl

theorem Twin.advance (twin : Twin T v w) (same : bs.length = bs'.length) :
    Twin T (v.advance bs) (w.advance bs') := by
  unfold View.advance
  rw [same]
  exact twin.set (fun u =>
    {u with far := min 4 (u.far+bs'.length),gap := min 2 (u.gap+bs'.length)}) fun _ _ _ _ _ _ => rfl

theorem Paired.ite {c d : Prop} [Decidable c] [Decidable d] {one two one' two' : Except Stop View}
    (same : c ↔ d)
    (yes : c → Paired T one two) (no : ¬ c → Paired T one' two') :
    Paired T (if c then one else one') (if d then two else two') :=
  rel_ite (R := Paired T) same yes no

theorem Paired.bind {k k' : View → Except Stop View} (paired : Paired T one two)
    (next : ∀ v w,Twin T v w → Paired T (k v) (k' w)) :
    Paired T (one >>= k) (two >>= k') := by
  cases paired with
  | ok twin => exact next _ _ twin
  | error exit => exact .error exit
  | call texts => exact .call texts

theorem Paired.pure_ite {c d : Prop} [Decidable c] [Decidable d] {v w v' w' : View} (same : c ↔ d)
    (yes : c → Paired T (.ok v) (.ok w)) (no : ¬ c → Paired T (.ok v') (.ok w')) :
    Paired T (.ok (if c then v else v')) (.ok (if d then w else w')) :=
  rel_ite (R := fun v w => Paired T (.ok v) (.ok w)) same yes no

end

-- The words that are looked for: at the end of a word, and as the previous word.
def endWords : List Bytes :=
  [str "use",str "null",str "null,",str "by",str "update",str "value",str "values",str "in"]
def ascWords : List Bytes := [str "asc",str "asc,",str "asc "]

-- ASC with a comma behind it, as the end of a word compares it.
def ascComma (env : Env) (word : Bytes) : Bool :=
  wordIn env.lower (toLower env.lower word) ascWords && (toLower env.lower word).getLast? == some (byte ',')

def prevWords : List Bytes :=
  [[],str "is",str "not",str "order",str "key",str "call",str "administrator",str "value",
    str "values",str "in"]

-- Related texts are the same words to the machine.
structure Lawful (env : Env) (T : Texts) : Prop where
  nil : T.pend [] []
  start : T.out [] []
  first : T.word [] []
  ends : T.pend a b → ∀ word ∈ endWords,toLower env.lower a = word ↔ toLower env.lower b = word
  ascs : T.pend a b → ∀ word ∈ ascWords,toLower env.lower (toLower env.lower a) = word ↔
    toLower env.lower (toLower env.lower b) = word
  comma : T.pend a b → ((toLower env.lower a).getLast? = some (byte ',') ↔
    (toLower env.lower b).getLast? = some (byte ','))
  prev : T.word a b → ∀ word ∈ prevWords,a = word ↔ b = word
  append : T.out a b → T.out (a ++ text) (b ++ text)
  inked : T.out a b → (a.getLast?.any (fun c => !isSpace c.toNat)) = b.getLast?.any fun c => !isSpace c.toNat

def specials : List Nat :=
  [rune '`',rune '=',rune '<',rune '>',rune '!',rune '/',rune '*',rune '+',rune '-',rune '.',
    rune '(',rune ')',rune ',',rune ':',rune '#',
    rune '\\',0x0A]

def prRunes : List Nat := [rune '(',rune ',',rune '\\',rune '-',rune '*']

def quoting (r : Nat) : Prop := r = rune '\'' ∨ r = rune '"'

instance (r : Nat) : Decidable (quoting r) := inferInstanceAs (Decidable (_ ∨ _))

-- The runes read by the two runs, with their bytes.
structure Pieces (T : Texts) (r r' : Nat) (bs bs' : Bytes) : Prop where
  runes : T.rune r r'
  chars : quoting r → T.char r r'
  more : T.pend a b → T.pend (a ++ bs) (b ++ bs')
  rest : T.pend (bs.drop 1) (bs'.drop 1)
  length : bs.length = bs'.length

def hexPrefix (r : Nat) : Prop := r = rune 'x' ∨ r = rune 'b'

instance (r : Nat) : Decidable (hexPrefix r) := inferInstanceAs (Decidable (_ ∨ _))

-- The two runs have read p and p', read r and r', and pass the same tests.
structure Tests (p p' r r' : Nat) : Prop where
  digit : isDigit r = isDigit r'
  space : isSpace r = isSpace r'
  quote : quoting r ↔ quoting r'
  same : ∀ c ∈ specials,r = c ↔ r' = c
  prSame : ∀ c ∈ prRunes,p = c ↔ p' = c
  prSpace : isSpace r = true → isSpace p = isSpace p'

-- The states in which a rune can reach step 2 (beside "!", which begins MySQL code).
def passes (s : State) : Bool := !skips s || s = .inNumber || s = .inNumberInWord

-- The tests of single states.
structure Agrees (v w : View) (r r' : Nat) : Prop extends Tests v.pr w.pr r r' where
  numeral : v.s = .inNumber → inNumeral r = inNumeral r' ∧
    (inNumeral r = false → notNumeral r = notNumeral r')
  closes : v.s = .inQuote → v.escape = false → (r = v.quoteChar ↔ r' = w.quoteChar)
  hex : passes v.s = true → quoting r → (hexPrefix v.pr ↔ hexPrefix w.pr)

section
variable {env : Env} {T : Texts} (lawful : Lawful env T) {v w : View} {bs bs' : Bytes} {r r' : Nat} (twin : Twin T v w) (pieces : Pieces T r r' bs bs')
include lawful

theorem Lawful.piece (pieces : Pieces T r r' bs bs') : T.pend bs bs' := pieces.more lawful.nil

theorem prev_iff (twin : Twin T v w) (listed : word ∈ prevWords) :
    v.prevWord = word ↔ w.prevWord = word :=
  lawful.prev twin.word word listed

theorem write_twin (twin : Twin T v w) (text : Bytes) : Twin T (v.write text) (w.write text) :=
  twin.setOut (lawful.append twin.out)

theorem endsInText_twin (twin : Twin T v w) : v.endsInText = w.endsInText := by
  have eq (u : View) : u.endsInText = u.out.getLast?.any fun c => !isSpace c.toNat := by
    unfold View.endsInText
    cases u.out.getLast? <;> rfl
  rw [eq,eq]
  exact lawful.inked twin.out

theorem wordIn_list (texts : T.pend a b) : wordIn env.lower a [str "value",str "values",str "in"] =
    wordIn env.lower b [str "value",str "values",str "in"] := by
  have one (word : Bytes) (listed : word ∈ endWords) : (toLower env.lower a == word) =
      (toLower env.lower b == word) := by
    rw [Bool.eq_iff_iff,beq_iff_eq,beq_iff_eq]
    exact lawful.ends texts word listed
  simp only [wordIn,List.contains_cons,List.contains_nil]
  rw [one _ (by decide),one _ (by decide),one _ (by decide)]

theorem beginsValues_twin (twin : Twin T v w) (texts : T.pend a b) :
    v.beginsValues env a = w.beginsValues env b := by
  have one (word : Bytes) (listed : word ∈ prevWords) : decide (v.prevWord = word) =
      decide (w.prevWord = word) :=
    decide_eq_decide.mpr (prev_iff lawful twin listed)
  unfold View.beginsValues
  rw [twin.s,twin.sqlState,one _ (by decide),one _ (by decide),one _ (by decide),wordIn_list lawful texts]

omit lawful in
-- The views that step 2 starts from: related, with the piece behind the pending text.
theorem read_twin (twin : Twin T v w) (pieces : Pieces T r r' bs bs') :
    Twin T (v.read bs) (w.read bs') :=
  twin.setPend (pieces.more twin.pend)

theorem fromHere_twin (twin : Twin T v w) (pieces : Pieces T r r' bs bs') :
    Twin T (v.fromHere bs) (w.fromHere bs') :=
  twin.setPend (lawful.piece pieces)

omit lawful in
theorem fromNext_twin (twin : Twin T v w) (pieces : Pieces T r r' bs bs') :
    Twin T (v.fromNext bs) (w.fromNext bs') :=
  twin.setPend pieces.rest

omit lawful in
theorem word_read (v : View) (bs : Bytes) : View.word (v.read bs) bs = v.pend := by simp [View.word,View.read]

theorem matchWord_paired (twin : Twin T v w) (pieces : Pieces T r r' bs bs') (texts : T.pend a b)
    (back : v.sqlState = .orderBy → ascComma env a = true → T.out v.out.dropLast w.out.dropLast) :
    Paired T (v.matchWord env (toLower env.lower a) bs) (w.matchWord env (toLower env.lower b) bs') := by
  have ends := lawful.ends texts
  have prev {word : Bytes} (listed : word ∈ prevWords) := prev_iff lawful twin listed
  have asc : wordIn env.lower (toLower env.lower a) ascWords =
      wordIn env.lower (toLower env.lower b) ascWords := by
    have one (word : Bytes) (listed : word ∈ ascWords) :
        (toLower env.lower (toLower env.lower a) == word) =
          (toLower env.lower (toLower env.lower b) == word) := by
      rw [Bool.eq_iff_iff,beq_iff_eq,beq_iff_eq]
      exact lawful.ascs texts word listed
    simp only [wordIn,ascWords,List.contains_cons,List.contains_nil]
    rw [one _ (by decide),one _ (by decide),one _ (by decide)]
  have ascending : wordIn env.lower (toLower env.lower a) [str "asc",str "asc,",str "asc "] = true ↔
      wordIn env.lower (toLower env.lower b) [str "asc",str "asc,",str "asc "] =
        true := Bool.eq_iff_iff.mp asc
  unfold View.matchWord
  refine .ite (and_congr (ends _ (by decide)) (prev (by decide))) (fun _ => .error _) fun _ =>
    .ite (or_congr (and_congr (ends _ (by decide))
      (and_congr (not_congr (prev (by decide))) (not_congr (prev (by decide))))) (ends _ (by decide)))
      (fun _ => ?null) fun _ => .ite (and_congr (prev (by decide)) (ends _ (by decide)))
        (fun _ => ?order) fun _ =>
    .ite (and_congr (by rw [twin.sqlState]) ascending)
      (fun both => .ite (lawful.comma texts) (fun ends => ?comma) fun _ => ?asc) fun _ =>
    .ite (and_congr (prev (by decide)) (ends _ (by decide))) (fun _ => ?update) fun _ => .ok twin
  case null =>
    rw [View.nullValue_eq,View.nullValue_eq]
    have suffix : (if (toLower env.lower a).getLast? = some (byte ',') then [byte ',',byte ' ']
      else [byte ' ']) =
        if (toLower env.lower b).getLast? = some (byte ',') then [byte ',',byte ' ']
          else [byte ' '] := if_congr (lawful.comma texts) rfl rfl
    rw [suffix]
    exact .ok ((twin.setOut (lawful.append twin.out)).setPend pieces.rest)
  case order => exact .ok (twin.set (fun u => {u with sqlState := .orderBy}) fun _ _ _ _ _ _ => rfl)
  case comma =>
    have listed : ascComma env a = true := Bool.and_eq_true_iff.mpr ⟨both.2,beq_iff_eq.mpr ends⟩
    exact .ok ((fromHere_twin lawful twin pieces).setOut (lawful.append (back both.1 listed)))
  case asc => exact .ok (fromHere_twin lawful twin pieces)
  case update => exact .ok (twin.set (fun u => {u with sqlState := .onDupeKeyUpdate}) fun _ _ _ _ _ _ => rfl)

theorem endWord_paired (twin : Twin T v w) (pieces : Pieces T r r' bs bs')
    (back : v.sqlState = .orderBy → ascComma env v.pend = true → T.out v.out.dropLast w.out.dropLast) :
    Paired T ((v.read bs).endWord env bs) ((w.read bs').endWord env bs') := by
  have matched := matchWord_paired lawful (read_twin twin pieces) pieces twin.pend back
  unfold View.endWord
  rw [word_read,word_read]
  exact matched.bind fun v w twin =>
    .ok (twin.set (fun u => {u.mark with s := .inSpace,addSpace := true}) fun _ _ _ _ _ _ => rfl)

theorem onSpace_paired (twin : Twin T v w) (pieces : Pieces T r r' bs bs')
    (back : v.sqlState = .orderBy → ascComma env v.pend = true → T.out v.out.dropLast w.out.dropLast) :
    Paired T ((v.read bs).onSpace env bs) ((w.read bs').onSpace env bs') := by
  have reads := read_twin twin pieces
  have state (s : State) : (v.read bs).s = s ↔ (w.read bs').s = s := by rw [reads.s]
  rw [onSpace_eq,onSpace_eq]
  refine .ite (state _) (fun _ => .pure_ite (by rw [endsInText_twin lawful reads])
    (fun _ => ?text) fun _ => .ok reads) fun _ =>
    .ite (state _) (fun _ => ?dash) fun _ =>
      .ite (state _) (fun _ => .pure_ite (by rw [reads.valueNo]) (fun _ => ?first) fun _ =>
      .ok reads) fun _ =>
    endWord_paired lawful twin pieces back
  case text => exact .ok (fromNext_twin (write_twin lawful reads _) pieces)
  case dash =>
    exact .ok (reads.set
      (fun u => {u with s := .inOLC,plan := if u.marked then some 2 else u.plan}) fun _ _ _ _ _ _ => rfl)
  case first => exact .ok (write_twin lawful reads _)

omit lawful in
theorem onDigit_eq (env : Env) (v : View) : v.onDigit env =
    if v.s = .opOrNumber then {v with plan := some 1,marked := decide (4 ≤ v.far),s := .inNumber}
    else if v.s = .inWord then
      if v.pr = rune '(' then {v.mark with s := .inNumber}
      else if v.pr = rune ',' then {v.mark with s := .inNumber}
      else if env.replaceNumbersInWords then {v.mark with s := .inNumberInWord}
      else v
    else {v.mark with s := .inNumber} := by
  unfold View.onDigit
  cases v.s <;> rfl

omit lawful in
theorem onDigit_paired (twin : Twin T v w) (tests : ∀ c ∈ prRunes,v.pr = c ↔ w.pr = c) :
    Paired T (.ok (v.onDigit env)) (.ok (w.onDigit env)) := by
  rw [onDigit_eq,onDigit_eq]
  refine .pure_ite (by rw [twin.s]) (fun _ => ?sign) fun _ => .pure_ite (by rw [twin.s])
    (fun _ => .pure_ite (tests _ (by decide)) (fun _ => .ok (twin.mark _))
    fun _ => .pure_ite (tests _ (by decide)) (fun _ => .ok (twin.mark _)) fun _ =>
      .pure_ite Iff.rfl (fun _ => .ok (twin.mark _)) fun _ => .ok twin) fun _ =>
    .ok (twin.mark _)
  case sign =>
    exact .ok (twin.set
      (fun u => {u with plan := some 1,marked := decide (4 ≤ u.far),s := .inNumber}) fun _ _ _ _ _ _ => rfl)

omit lawful in
theorem onQuote_paired (twin : Twin T v w) (chars : T.char r r')
    (slash : v.pr = rune '\\' ↔ w.pr = rune '\\') (hex : hexPrefix v.pr ↔ hexPrefix w.pr) :
    Paired T (.ok (v.onQuote r)) (.ok (w.onQuote r')) := by
  unfold View.onQuote
  refine .pure_ite (and_congr (not_congr slash) (by rw [twin.s]))
    (fun _ => .pure_ite hex (fun _ => ?hex) fun _ => ?opens) fun _ => .ok twin
  case hex =>
    exact .ok ((twin.set
      (fun u => {u with s := .inQuote,plan := none,marked := false}) fun _ _ _ _ _ _ => rfl).setChar chars)
  case opens => exact .ok ((twin.mark .inQuote).setChar chars)

theorem onOperator_paired (twin : Twin T v w) (pieces : Pieces T r r' bs bs') :
    Paired T (.ok ((v.read bs).onOperator bs)) (.ok ((w.read bs').onOperator bs')) := by
  have reads := read_twin twin pieces
  unfold View.onOperator
  by_cases fresh : (v.read bs).s ≠ .inWord ∧ (v.read bs).s ≠ .inOp
  · rw [if_pos fresh,if_pos (by rw [reads.s]; exact fresh)]
    exact .ok ((fromHere_twin lawful reads pieces).setState .inOp)
  · rw [if_neg fresh,if_neg (by rw [reads.s]; exact fresh)]
    exact .ok (reads.setState .inOp)

theorem onOther_paired (twin : Twin T v w) (pieces : Pieces T r r' bs bs') :
    Paired T (.ok ((v.read bs).onOther bs)) (.ok ((w.read bs').onOther bs')) := by
  have reads := read_twin twin pieces
  unfold View.onOther
  refine .pure_ite (by rw [reads.s]) (fun _ => ?fresh) fun _ => .ok (reads.setState .inWord)
  case fresh =>
    exact .ok ((fromHere_twin lawful reads pieces).set
      (fun u => {u with
        valueNo := 0,s := .inWord
        sqlState := if u.sqlState = .inValues then .unknown else u.sqlState}) fun _ _ _ _ _ _ => rfl)

theorem onOpenPar_paired (twin : Twin T v w) (pieces : Pieces T r r' bs bs')
    (call : v.prevWord = str "call" → T.out v.pend w.pend) :
    Paired T ((v.read bs).onOpenPar env bs) ((w.read bs').onOpenPar env bs') := by
  have reads := read_twin twin pieces
  unfold View.onOpenPar
  rw [word_read,word_read,beginsValues_twin lawful reads twin.pend]
  refine .ite (prev_iff lawful reads (by decide)) (fun named => .call (call named)) fun _ =>
    .ite Iff.rfl (fun _ => ?list) fun _ =>
    .ite (by rw [reads.s]) (fun _ => ?random) fun _ => .ok reads
  case list =>
    by_cases first : (v.read bs).valueNo = 0
    · rw [if_pos first,if_pos (by rw [reads.valueNo]; exact first)]
      exact .ok (reads.set
        (fun u => {u.mark with
        s := .inValues,sqlState := .inValues,parOpen := 1,gap := 0}) fun _ _ _ _ _ _ => rfl)
    · rw [if_neg first,if_neg (by rw [reads.valueNo]; exact first)]
      exact .ok (reads.set
        (fun u => {u with s := .inValues,sqlState := .inValues,parOpen := 1,gap := 0}) fun _ _ _ _ _ _ => rfl)
  case random =>
    exact .ok ((fromHere_twin lawful reads pieces).set
      (fun u => {u with valueNo := 0,s := .inWord}) fun _ _ _ _ _ _ => rfl)

-- What the texts must satisfy beside the tests: at ASC with a comma, and for the name behind CALL.
structure Exits (env : Env) (T : Texts) (v w : View) (r : Nat) : Prop where
  back : isSpace r = true → v.sqlState = .orderBy → ascComma env v.pend = true →
    T.out v.out.dropLast w.out.dropLast
  call : r = rune '(' → v.prevWord = str "call" → T.out v.pend w.pend

theorem changeState_paired (twin : Twin T v w) (pieces : Pieces T r r' bs bs')
    (tests : Tests v.pr w.pr r r') (hex : quoting r → (hexPrefix v.pr ↔ hexPrefix w.pr))
    (exits : Exits env T v w r) :
    Paired T ((v.read bs).changeState env r bs) ((w.read bs').changeState env r' bs') := by
  have reads := read_twin twin pieces
  have same {c : Nat} (listed : c ∈ specials) := tests.same c listed
  unfold View.changeState
  refine .ite (by rw [tests.digit]) (fun _ => onDigit_paired reads tests.prSame) fun _ =>
    .ite (by rw [tests.space]) (fun space => onSpace_paired lawful twin pieces (exits.back space)) fun _ =>
    .ite tests.quote (fun quote => onQuote_paired reads (pieces.chars quote)
      (tests.prSame _ (by decide)) (hex quote)) fun _ =>
    .ite (same (by decide)) (fun _ => ?tick) fun _ =>
    .ite (or_congr (same (by decide))
      (or_congr (same (by decide)) (or_congr (same (by decide)) (same (by decide)))))
      (fun _ => onOperator_paired lawful twin pieces) fun _ =>
    .ite (same (by decide)) (fun _ => .ok (reads.setState _)) fun _ =>
    .ite (and_congr (same (by decide)) (by rw [reads.s])) (fun _ => .ok (reads.setState _)) fun _ =>
    .ite (same (by decide)) (fun _ => .ok (reads.setState _)) fun _ =>
    .ite (same (by decide)) (fun _ => ?dash) fun _ =>
    .ite (same (by decide))
      (fun _ => .pure_ite (by rw [reads.s]) (fun _ => .ok (reads.mark _)) fun _ => .ok reads) fun _ =>
    .ite (same (by decide)) (fun par => onOpenPar_paired lawful twin pieces (exits.call par)) fun _ =>
    .ite (and_congr (same (by decide)) (by rw [reads.s])) (fun _ => .ok reads) fun _ =>
    .ite (and_congr (same (by decide)) (prev_iff lawful reads (by decide))) (fun _ => .error _) fun _ =>
    .ite (same (by decide)) (fun _ => ?hash) fun _ => onOther_paired lawful twin pieces
  case tick =>
    unfold View.onBacktick
    exact .pure_ite (and_congr (not_congr (tests.prSame _ (by decide))) (by rw [reads.s]))
      (fun _ => .ok (reads.setState _)) fun _ => .ok reads
  case dash =>
    have dash : (v.read bs).pr = rune '-' ↔ (w.read bs').pr = rune '-' := tests.prSame _ (by decide)
    by_cases two : (v.read bs).pr = rune '-'
    · rw [if_pos two,if_pos (dash.mp two)]
      exact .ok (reads.setState _)
    · rw [if_neg two,if_neg fun other => two (dash.mpr other)]
      exact .ok (reads.setState _)
  case hash => exact .ok (reads.set (fun u => {u with addSpace := false,s := .inOLC}) fun _ _ _ _ _ _ => rfl)

omit lawful in
theorem twin_ite {c d : Prop} [Decidable c] [Decidable d] {a b a' b' : View} (same : c ↔ d)
    (yes : c → Twin T a a') (no : ¬ c → Twin T b b') :
    Twin T (if c then a else b) (if d then a' else b') :=
  rel_ite (R := Twin T) same yes no

theorem skipQuote_twin (twin : Twin T v w) (pieces : Pieces T r r' bs bs')
    (slash : r = rune '\\' ↔ r' = rune '\\')
    (closes : v.escape = false → (r = v.quoteChar ↔ r' = w.quoteChar)) :
    Twin T (v.skipQuote r bs) (w.skipQuote r' bs') := by
  have calm : Twin T {v with escape := false} {w with escape := false} :=
    twin.set (fun u => {u with escape := false}) fun _ _ _ _ _ _ => rfl
  unfold View.skipQuote
  rw [twin.escape]
  by_cases escape : v.escape = true
  · simp only [escape,if_true,ite_self]
    exact calm
  · simp only [escape,Bool.false_eq_true,if_false]
    refine twin_ite (not_congr (closes (Bool.not_eq_true _ ▸ escape)))
      (fun _ => twin_ite slash (fun _ => ?_) fun _ => twin) fun _ =>
      twin_ite (by rw [twin.sqlState]) (fun _ => ?_) fun _ => ?_
    · exact twin.set (fun u => {u with escape := true}) fun _ _ _ _ _ _ => rfl
    · exact (fromNext_twin twin pieces).set
        (fun u => {u with escape := false,s := .inValues}) fun _ _ _ _ _ _ => rfl
    · exact (write_twin lawful (fromNext_twin twin pieces) [byte '?']).set
        (fun u => {u with escape := false,s := .unknown}) fun _ _ _ _ _ _ => rfl

omit lawful in
theorem skipBackticks_twin (twin : Twin T v w) (slash : r = rune '\\' ↔ r' = rune '\\')
    (tick : r = rune '`' ↔ r' = rune '`') :
    Twin T (v.skipBackticks r) (w.skipBackticks r') := by
  have calm : Twin T {v with escape := false} {w with escape := false} :=
    twin.set (fun u => {u with escape := false}) fun _ _ _ _ _ _ => rfl
  unfold View.skipBackticks
  refine twin_ite (not_congr tick) (fun _ => twin_ite (by rw [twin.escape]) (fun _ => calm) fun _ => twin_ite slash (fun _ => ?_) fun _ => twin) fun _ =>
    twin_ite (by rw [twin.escape]) (fun _ => calm) fun _ => ?_
  · exact twin.set (fun u => {u with escape := true}) fun _ _ _ _ _ _ => rfl
  · exact twin.set (fun u => {u with escape := false,plan := some 0,marked := decide (2 ≤ u.far),s := .inWord}) fun _ _ _ _ _ _ => rfl

theorem balanceValues_twin (twin : Twin T v w) (pieces : Pieces T r r' bs bs') : Twin T (v.balanceValues r bs) (w.balanceValues r' bs') := by
  unfold View.balanceValues
  refine twin_ite (by rw [twin.parOpen]) (fun _ => twin) fun _ =>
    twin_ite (by rw [twin.parOpenTotal]) (fun _ => twin.setState _) fun _ => ?_
  rw [View.endValues_eq,View.endValues_eq]
  have list : v.listText = w.listText := by rw [View.listText,View.listText,twin.gap]
  rw [← list,twin.valueNo]
  exact (((twin.setOut (lawful.append twin.out)).setPend pieces.rest).setPr pieces.runes).set
    (fun u => {u with
      gap := if v.valueNo = 0 then 2 else u.gap,valueNo := v.valueNo+1,s := .moreValuesOrUnknown,
      parOpenTotal := 0}) fun _ _ _ _ _ _ => rfl

theorem skipValues_twin (twin : Twin T v w) (pieces : Pieces T r r' bs bs')
    (tests : Tests p p' r r') : Twin T (v.skipValues r bs) (w.skipValues r' bs') := by
  unfold View.skipValues
  refine twin_ite (tests.same _ (by decide)) (fun _ => ?_) fun _ =>
    twin_ite (tests.same _ (by decide)) (fun _ => ?_) fun _ =>
    twin_ite tests.quote
      (fun quote => (twin.setState .inQuote).setChar (pieces.chars quote)) fun _ =>
      twin_ite (by rw [tests.space]) (fun _ => twin) fun _ =>
    balanceValues_twin lawful twin pieces
  · apply balanceValues_twin lawful _ pieces
    exact twin.set (fun u =>
      {u with parOpen := u.parOpen-1,parOpenTotal := u.parOpenTotal+1}) fun _ _ _ _ _ _ => rfl
  · apply balanceValues_twin lawful _ pieces
    exact twin.set (fun u =>
      {u with parOpen := u.parOpen+1,gap := if u.parOpen+1 = 1 then 0 else u.gap}) fun _ _ _ _ _ _ => rfl

end

-- Step 1 ends both iterations, or leaves two views for step 2.
inductive SkipPaired (env : Env) (T : Texts) (v w : View) (r : Nat) (bs bs' : Bytes) :
    Skipped View → Skipped View → Prop where
  | skip : Twin T a b → SkipPaired env T v w r bs bs' (.skip a) (.skip b)
  | through : Twin T a b → a.pr = v.pr → b.pr = w.pr → Exits env T a b r → (passes v.s = true ∨ ¬ quoting r) →
      SkipPaired env T v w r bs bs' (.through (a.read bs)) (.through (b.read bs'))

section
variable {env : Env} {T : Texts} (lawful : Lawful env T) {v w : View} {bs bs' : Bytes} {r r' : Nat} (twin : Twin T v w) (pieces : Pieces T r r' bs bs')
  (agrees : Agrees v w r r') (exits : passes v.s = true → Exits env T v w r)
include lawful twin pieces agrees exits

omit exits in
theorem endNumberInWord_paired (state : v.s = .inNumberInWord) :
    SkipPaired env T v w r bs bs' ((v.read bs).endNumberInWord r bs)
      ((w.read bs').endNumberInWord r' bs') := by
  unfold View.endNumberInWord
  rw [← agrees.digit,← agrees.space]
  by_cases digit : isDigit r = true
  · rw [if_pos digit,if_pos digit]
    exact .skip (read_twin twin pieces)
  · rw [if_neg digit,if_neg digit]
    have fresh := write_twin lawful (twin.setPend lawful.nil) [byte '?']
    refine .through (a := {View.write {v with
      pend := []} [byte '?'] with s := if isSpace r then .unknown else .inWord})
      (b := {View.write {w with pend := []} [byte '?'] with s := if isSpace r then .unknown else .inWord})
      (fresh.setState _) rfl rfl ⟨fun _ _ _ => ?_,fun _ _ => lawful.start⟩ (.inl (by rw [state]; rfl))
    rw [View.write,View.write,List.dropLast_concat,List.dropLast_concat]
    exact twin.out

theorem endNumber_paired (state : v.s = .inNumber) :
    SkipPaired env T v w r bs bs' ((v.read bs).endNumber r bs) ((w.read bs').endNumber r' bs') := by
  obtain ⟨inside,outside⟩ := agrees.numeral state
  have number : passes v.s = true := by rw [state]; rfl
  have exits := exits number
  unfold View.endNumber
  rw [← inside]
  by_cases more : inNumeral r = true
  · rw [if_pos more,if_pos more]
    exact .skip (read_twin twin pieces)
  rw [if_neg more,if_neg more,← outside (Bool.eq_false_iff.mpr more)]
  by_cases word : notNumeral r = true
  · rw [if_pos word,if_pos word]
    exact .through (a := {v.mark with s := .inWord}) (b := {w.mark with s := .inWord})
      (twin.mark .inWord) rfl rfl ⟨exits.back,exits.call⟩ (.inl number)
  rw [if_neg word,if_neg word]
  by_cases code : v.sqlState = .inMySQLCode
  · rw [if_pos (by exact code),if_pos (by change w.sqlState = _; rw [twin.sqlState]; exact code)]
    refine .through (a := {v.mark with s := .inWord,sqlState := .unknown})
      (b := {w.mark with s := .inWord,sqlState := .unknown})
      (twin.set (fun u => {u.mark with s := .inWord,sqlState := .unknown}) fun _ _ _ _ _ _ => rfl) rfl rfl ⟨fun _ => nofun,exits.call⟩ (.inl number)
  · rw [if_neg (by exact code),if_neg (by change ¬ w.sqlState = _; rw [twin.sqlState]; exact code)]
    have fresh := write_twin lawful (twin.setPend lawful.nil) [byte '?']
    refine .through (a := {View.write {v with pend := []} [byte '?'] with plan := some 0,marked := decide (3 ≤ v.far),s := .unknown})
      (b := {View.write {w with pend := []} [byte '?'] with plan := some 0,marked := decide (3 ≤ w.far),s := .unknown})
      (fresh.mark .unknown) rfl rfl ⟨fun _ _ _ => ?_,fun _ _ => lawful.start⟩ (.inl number)
    rw [View.write,View.write,List.dropLast_concat,List.dropLast_concat]
    exact twin.out

theorem skipPart_paired :
    SkipPaired env T v w r bs bs' ((v.read bs).skipPart r bs) ((w.read bs').skipPart r' bs') := by
  have reads := read_twin twin pieces
  have same {c : Nat} (listed : c ∈ specials) := agrees.same c listed
  have other (calm : skips v.s = false) : SkipPaired env T v w r bs bs' ((v.read bs).skipPart r bs)
      ((w.read bs').skipPart r' bs') := by
    have calm' : skips w.s = false := by rw [twin.s]; exact calm
    rw [view_skipPart_other _ _ _ (by exact calm),view_skipPart_other _ _ _ (by exact calm')]
    have spaces : (isSpace r && isSpace (v.read bs).pr) = (isSpace r' && isSpace (w.read bs').pr) := by
      rw [← agrees.space]
      cases space : isSpace r with
      | false => rfl
      | true => exact agrees.prSpace space
    rw [spaces]
    by_cases skip : (isSpace r' && isSpace (w.read bs').pr) = true
    · rw [if_pos skip,if_pos skip]
      exact .skip (((fromNext_twin reads pieces).setPr pieces.runes).set
        (fun u => {u with plan := none}) fun _ _ _ _ _ _ => rfl)
    · rw [if_neg skip,if_neg skip]
      have reaches : passes v.s = true := by simp [passes,calm]
      exact .through twin rfl rfl (exits reaches) (.inl reaches)
  cases state : v.s with
  | inQuote =>
    rw [skipPart_inQuote (v.read bs) r bs state,skipPart_inQuote (w.read bs') r' bs' (twin.s.trans state)]
    exact .skip (skipQuote_twin lawful reads pieces (same (by decide)) (agrees.closes state))
  | inBackticks =>
    rw [skipPart_inBackticks (v.read bs) r bs state,skipPart_inBackticks (w.read bs') r' bs'
      (twin.s.trans state)]
    exact .skip (skipBackticks_twin reads (same (by decide)) (same (by decide)))
  | inNumberInWord =>
    rw [skipPart_inNumberInWord (v.read bs) r bs state,skipPart_inNumberInWord (w.read bs') r' bs'
      (twin.s.trans state)]
    exact endNumberInWord_paired lawful twin pieces agrees state
  | inNumber =>
    rw [skipPart_inNumber (v.read bs) r bs state,skipPart_inNumber (w.read bs') r' bs' (twin.s.trans state)]
    exact endNumber_paired lawful twin pieces agrees exits state
  | inValues =>
    rw [skipPart_inValues (v.read bs) r bs state,skipPart_inValues (w.read bs') r' bs' (twin.s.trans state)]
    exact .skip (skipValues_twin lawful reads pieces agrees.toTests)
  | inMLC =>
    rw [skipPart_inMLC (v.read bs) r bs state,skipPart_inMLC (w.read bs') r' bs' (twin.s.trans state)]
    apply SkipPaired.skip
    exact twin_ite (and_congr (agrees.prSame _ (by decide)) (same (by decide)))
      (fun _ => reads.setState .unknown) fun _ => reads.setPr pieces.runes
  | mlcOrMySQLCode =>
    rw [skipPart_mlcOrMySQLCode (v.read bs) r bs state,skipPart_mlcOrMySQLCode (w.read bs') r' bs'
      (twin.s.trans state)]
    by_cases bang : r = rune '!'
    · have bang' := (same (by decide)).mp bang
      rw [if_neg (not_not.mpr bang),if_neg (not_not.mpr bang')]
      refine .through (a := {v with s := .inWord,sqlState := .inMySQLCode})
        (b := {w with s := .inWord,sqlState := .inMySQLCode})
        (twin.set (fun u => {u with s := .inWord,sqlState := .inMySQLCode}) fun _ _ _ _ _ _ =>
          rfl) rfl rfl ⟨fun _ => nofun,fun par => ?_⟩ (.inr ?_)
      · rw [bang] at par
        exact absurd par (by decide)
      · rw [bang]
        decide
    · have bang' : r' ≠ rune '!' := fun found => bang ((same (by decide)).mpr found)
      rw [if_pos bang,if_pos bang']
      exact .skip ((reads.setPr pieces.runes).setState .inMLC)
  | inOLC =>
    rw [skipPart_inOLC (v.read bs) r bs state,skipPart_inOLC (w.read bs') r' bs' (twin.s.trans state)]
    exact .skip (twin_ite (same (by decide)) (fun _ => reads.setState .unknown) fun _ => reads)
  | _ => exact other (by rw [state]; rfl)

end

-- The view that step 3 copies from.
def Reaches (env : Env) (v : View) (r : Nat) (bs : Bytes) (u : View) : Prop :=
  ∃ a,(v.read bs).skipPart r bs = .through a ∧ a.changeState env r bs = .ok u

theorem step_paired {env : Env} {T : Texts} (lawful : Lawful env T) (twin : Twin T v w)
    (pieces : Pieces T r r' bs bs') (agrees : Agrees v w r r')
    (exits : passes v.s = true → Exits env T v w r)
    (copies : ∀ a b,Twin T a b → Reaches env v r bs a → Reaches env w r' bs' b →
    Twin T (a.copySlice env bs) (b.copySlice env bs')) :
    Paired T (View.step env v r bs) (View.step env w r' bs') := by
  have skips := skipPart_paired lawful twin pieces agrees exits
  unfold View.step
  generalize left : (v.read bs).skipPart r bs = one at skips ⊢
  generalize right : (w.read bs').skipPart r' bs' = two at skips ⊢
  cases skips with
  | skip twin => exact .ok (twin.advance pieces.length)
  | @through a b twin pr pr' exits quote =>
    have tests : Tests a.pr b.pr r r' := by
      rw [pr,pr']
      exact agrees.toTests
    have hex (opens : quoting r) : hexPrefix a.pr ↔ hexPrefix b.pr := by
      rw [pr,pr']
      rcases quote with opensHere | not
      · exact agrees.hex opensHere opens
      · exact absurd opens not
    have changed := changeState_paired lawful twin pieces tests hex exits
    dsimp only
    generalize mid : (a.read bs).changeState env r bs = one at changed ⊢
    generalize mid' : (b.read bs').changeState env r' bs' = two at changed ⊢
    cases changed with
    | ok twin =>
      have copied := copies _ _ twin ⟨_,left,mid⟩ ⟨_,right,mid'⟩
      exact .ok (((copied.setPr pieces.runes).set
        (fun u => {u with plan := none}) fun _ _ _ _ _ _ => rfl).advance pieces.length)
    | error exit => exact .error exit
    | call texts => exact .call texts

-- Runs that write the same: only the pending text differs, byte for byte.
def plain (P : Bytes → Bytes → Prop) (R C : Nat → Nat → Prop) : Texts := ⟨P,(· = ·),(· = ·),R,C⟩

structure Level (P : Bytes → Bytes → Prop) : Prop where
  length : P a b → a.length = b.length
  drop : P a b → P (a.drop n) (b.drop n)

theorem afterCopy_plain {P : Bytes → Bytes → Prop} {R C : Nat → Nat → Prop} (level : Level P)
    (env : Env) (twin : Twin (plain P R C) v w) :
    Twin (plain P R C) (v.afterCopy env) (w.afterCopy env) := by
  unfold View.afterCopy
  have word : v.prevWord = w.prevWord := twin.word
  have out : v.out = w.out := twin.out
  refine twin_ite (by rw [word,twin.sqlState]) (fun _ => ?list) fun _ =>
    twin_ite (by rw [twin.addSpace]) (fun _ => ?space) fun _ => twin
  case list =>
    exact twin.set (fun u =>
      {u with addSpace := false,s := .inValues,sqlState := .inValues}) fun _ _ _ _ _ _ => rfl
  case space =>
    have wrote : Twin (plain P R C) (v.write [byte ' ']) (w.write [byte ' ']) :=
      twin.setOut (congrArg (· ++ [byte ' ']) out)
    exact (wrote.setPend (level.drop twin.pend)).set
      (fun u => {u with addSpace := false}) fun _ _ _ _ _ _ => rfl

theorem copySlice_plain {P : Bytes → Bytes → Prop} {R C : Nat → Nat → Prop} (level : Level P)
    (env : Env) (twin : Twin (plain P R C) v w) (length : bs.length = bs'.length)
    (lowered : 0 < v.due bs →
    toLower env.lower (v.pend.take (v.due bs)) = toLower env.lower (w.pend.take (v.due bs))) :
    Twin (plain P R C) (v.copySlice env bs) (w.copySlice env bs') := by
  have due : w.due bs' = v.due bs := by
    unfold View.due
    rw [twin.plan,← level.length twin.pend,length]
  have out : v.out = w.out := twin.out
  unfold View.copySlice
  dsimp only
  rw [due]
  by_cases some_ : 0 < v.due bs
  · rw [if_pos some_,if_pos some_,← lowered some_]
    apply afterCopy_plain level
    unfold View.copyWord
    exact ((twin.setWord rfl).setOut (congrArg (· ++ fit (v.due bs) _) out)).setPend (level.drop twin.pend)
  · rw [if_neg some_,if_neg some_]
    exact twin

theorem plain_lawful {env : Env} {P : Bytes → Bytes → Prop} {R C : Nat → Nat → Prop} (nil : P [] [])
    (ends : ∀ a b,P a b → ∀ word ∈ endWords,toLower env.lower a = word ↔ toLower env.lower b = word)
    (ascs : ∀ a b,P a b → ∀ word ∈ ascWords,toLower env.lower (toLower env.lower a) = word ↔
    toLower env.lower (toLower env.lower b) = word)
    (comma : ∀ a b,P a b → ((toLower env.lower a).getLast? = some (byte ',') ↔
    (toLower env.lower b).getLast? = some (byte ','))) :
    Lawful env (plain P R C) where
  nil := nil
  start := rfl
  first := rfl
  ends := ends _ _
  ascs := ascs _ _
  comma := comma _ _
  prev := by
    intro a b same word _
    cases same
    exact Iff.rfl
  append := by
    intro a b text same
    cases same
    rfl
  inked := by
    intro a b same
    cases same
    rfl

-- The condition holds at every iteration of the two runs.
def lockstep (env : Env) (safe : View → View → Nat × Bytes → Nat × Bytes → Bool) :
    List (Nat × Bytes) → List (Nat × Bytes) → View → View → Bool
  | p :: ps,q :: qs,v,w => safe v w p q &&
      match v.step env p.1 p.2,w.step env q.1 q.2 with
      | .ok v,.ok w => lockstep env safe ps qs v w
      | _,_ => true
  | _,_,_,_ => true

theorem run_paired {env : Env} {T : Texts} {safe : View → View → Nat × Bytes → Nat × Bytes → Bool}
    {kin : Nat × Bytes → Nat × Bytes → Prop}
    (step : ∀ v w p q,Twin T v w → kin p q → safe v w p q = true →
    Paired T (v.step env p.1 p.2) (w.step env q.1 q.2))
    (kins : List.Forall₂ kin ps qs) (twin : Twin T v w) (all : lockstep env safe ps qs v w = true) :
    Paired T (View.run env ps v) (View.run env qs w) := by
  induction kins generalizing v w with
  | nil => exact .ok twin
  | @cons p q ps qs kin _ ih =>
    rw [lockstep,Bool.and_eq_true] at all
    obtain ⟨here,later⟩ := all
    have paired := step v w p q twin kin here
    rw [View.run,View.run]
    generalize v.step env p.1 p.2 = one at paired later ⊢
    generalize w.step env q.1 q.2 = two at paired later ⊢
    cases paired with
    | ok twin => exact ih twin later
    | error exit => exact .error exit
    | call texts => exact .call texts

-- Runs that write the same return the same.
theorem Paired.same {P : Bytes → Bytes → Prop} {R C : Nat → Nat → Prop}
    (paired : Paired (plain P R C) one two) : Same one two := by
  cases paired with
  | ok twin => exact .ok twin.out
  | error exit => exact .error
  | call texts =>
    cases texts
    exact .error

end SqlReview.FingerprintTwin
