import SqlReview.FingerprintRegular

namespace SqlReview.FingerprintNumber
open GoBytes Fingerprint FingerprintView FingerprintLiteral FingerprintPending FingerprintRegular

def isDigits (n : Bytes) : Bool := n ≠ [] && n.all fun b => isDigit b.toNat

def isLetter (b : UInt8) : Bool :=
  (rune 'a' ≤ b.toNat && b.toNat ≤ rune 'z') || (rune 'A' ≤ b.toNat && b.toNat ≤ rune 'Z')

-- What may go on a number: a letter, a digit, '_', '.' or '-'.
def goesOn (b : UInt8) : Bool :=
  isLetter b || isDigit b.toNat || b == byte '_' || b == byte '.' || b == byte '-'

def startsApart (s : Bytes) : Bool := !(s.head?.any goesOn)

-- The state that a digit opens, outside quotes, lists, backticks and comments.
def numberState (env : Env) (v : View) : Option State :=
  if v.s = .inWord then
    if v.pr = rune '(' ∨ v.pr = rune ',' then some .inNumber
    else if env.replaceNumbersInWords then some .inNumberInWord
    else none
  else if skips v.s then none
  else some .inNumber

-- A digit opens a number that is replaced, or stands in a quoted value or in a list.
def safe (env : Env) (v : View) : Bool :=
  v.s = .inQuote || (v.s = .inValues && 0 < v.parOpen) ||
    match numberState env v with
    | none => false
    | some t => t ≠ .inNumber || v.sqlState ≠ .inMySQLCode

def safeAfter (env : Env) (p : Bytes) : Bool :=
  match View.run env (runes p) .start with
  | .ok v => safe env v
  | .error _ => true

-- Two outcomes that are one up to a change of the view.
inductive Both (f g : View → View) : Except Stop View → Except Stop View → Prop where
  | ok (u : View) : Both f g (.ok (f u)) (.ok (g u))
  | error (u : View) (exit : Exit) : Both f g (.error ⟨f u,exit⟩) (.error ⟨g u,exit⟩)

theorem Both.ite {f g : View → View} {c : Prop} [Decidable c] {one two one' two' : Except Stop View}
    (yes : c → Both f g one two)
    (no : ¬ c → Both f g one' two') : Both f g (if c then one else one') (if c then two else two') :=
  rel_ite (R := Both f g) Iff.rfl yes no

theorem Both.pure_ite {f g : View → View} {c : Prop} [Decidable c] {v w v' w' : View}
    (yes : c → Both f g (.ok v) (.ok w))
    (no : ¬ c → Both f g (.ok v') (.ok w')) :
    Both f g (.ok (if c then v else v')) (.ok (if c then w else w')) :=
  rel_ite (R := fun v w => Both f g (.ok v) (.ok w)) Iff.rfl yes no

theorem Both.bind {f g : View → View} {k : View → View} (both : Both f g one two)
    (same : ∀ u,k (f u) = f (k u) ∧ k (g u) = g (k u)) :
    Both f g (one >>= fun u => .ok (k u)) (two >>= fun u => .ok (k u)) := by
  cases both with
  | ok u =>
    change Both f g (.ok (k (f u))) (.ok (k (g u)))
    rw [(same u).1,(same u).2]
    exact .ok (k u)
  | error u exit => exact .error u exit

theorem onSpace_eq (env : Env) (v : View) (bs : Bytes) : v.onSpace env bs =
    if v.s = .unknown then .ok (if v.endsInText then (v.write [byte ' ']).fromNext bs else v)
    else if v.s = .inDash then .ok {v with s := .inOLC,plan := if v.marked then some 2 else v.plan}
    else if v.s = .moreValuesOrUnknown then .ok (if v.valueNo = 1 then v.write [byte ' '] else v)
    else v.endWord env bs := by
  unfold View.onSpace
  cases v.s <;> rfl

section
variable (env : Env) (v : View) (r : Nat) (bs : Bytes) (d e : Nat)

abbrev prBoth (d e : Nat) := Both (fun u => {u with pr := d}) (fun u => {u with pr := e})

theorem matchWord_pr (word : Bytes) :
    prBoth d e (View.matchWord env {v with pr := d} word bs)
      (View.matchWord env {v with pr := e} word bs) := by
  refine .ite (fun _ => .error v _) fun _ => .ite (fun _ => ?null) fun _ =>
    .ite (fun _ => .ok {v with sqlState := .orderBy}) fun _ =>
    .ite (fun _ => .ite (fun _ => .ok (v.fromHere bs).backComma) fun _ => .ok (v.fromHere bs)) fun _ =>
    .ite (fun _ => .ok {v with sqlState := .onDupeKeyUpdate}) fun _ => .ok v
  case null =>
    rw [View.nullValue_eq,View.nullValue_eq]
    exact .ok {v with
      out := v.out ++ byte '?' ::
        (if word.getLast? = some (byte ',') then [byte ',',byte ' '] else [byte ' '])
      pend := bs.drop 1}

theorem endWord_pr :
    prBoth d e (View.endWord env {v with pr := d} bs) (View.endWord env {v with pr := e} bs) :=
  Both.bind (k := fun u => {u.mark with s := .inSpace,addSpace := true})
    (matchWord_pr env v bs d e _) fun _ => ⟨rfl,rfl⟩

theorem onSpace_pr :
    prBoth d e (View.onSpace env {v with pr := d} bs) (View.onSpace env {v with pr := e} bs) := by
  rw [onSpace_eq,onSpace_eq]
  exact .ite (fun _ => .pure_ite (fun _ => .ok ((v.write [byte ' ']).fromNext bs)) fun _ => .ok v) fun _ =>
    .ite (fun _ => .ok {v with s := .inOLC,plan := if v.marked then some 2 else v.plan}) fun _ =>
    .ite (fun _ => .pure_ite (fun _ => .ok (v.write [byte ' '])) fun _ => .ok v) fun _ =>
      endWord_pr env v bs d e

-- A previous rune that no test of step 2 looks for.
def dull (d : Nat) : Prop := d ≠ rune '\\' ∧ d ≠ rune 'x' ∧ d ≠ rune 'b'

theorem onQuote_pr (left : dull d) (right : dull e) :
    prBoth d e (.ok (View.onQuote {v with pr := d} r)) (.ok (View.onQuote {v with pr := e} r)) := by
  have same {c : Nat} (plain : dull c) : View.onQuote {v with pr := c} r =
      if v.s ≠ .inQuote then {v.mark with s := .inQuote,quoteChar := r,pr := c} else {v with pr := c} := by
    obtain ⟨slash,x,b⟩ := plain
    simp [View.onQuote,slash,x,b,View.mark]
  rw [same left,same right]
  exact .pure_ite (fun _ => .ok {v.mark with s := .inQuote,quoteChar := r}) fun _ => .ok v

theorem onBacktick_pr (left : dull d) (right : dull e) :
    prBoth d e (.ok (View.onBacktick {v with pr := d})) (.ok (View.onBacktick {v with pr := e})) := by
  have same {c : Nat} (plain : dull c) : View.onBacktick {v with pr := c} =
      if v.s ≠ .inBackticks then {v with s := .inBackticks,pr := c} else {v with pr := c} := by
    simp [View.onBacktick,plain.1]
  rw [same left,same right]
  exact .pure_ite (fun _ => .ok {v with s := .inBackticks}) fun _ => .ok v

theorem onOpenPar_pr :
    prBoth d e (View.onOpenPar env {v with pr := d} bs) (View.onOpenPar env {v with pr := e} bs) := by
  refine .ite (fun _ => .error v _) fun _ => .ite (fun _ => ?list) fun _ =>
    .ite (fun _ => .ok {v.fromHere bs with valueNo := 0,s := .inWord}) fun _ => .ok v
  case list =>
    by_cases first : v.valueNo = 0
    · simp only [if_pos first]
      exact .ok {v.mark with s := .inValues,sqlState := .inValues,parOpen := 1,gap := 0}
    · simp only [if_neg first]
      exact .ok {v with s := .inValues,sqlState := .inValues,parOpen := 1,gap := 0}

theorem onOther_pr :
    prBoth d e (.ok (View.onOther {v with pr := d} bs)) (.ok (View.onOther {v with pr := e} bs)) :=
  .pure_ite (fun _ => .ok {v.fromHere bs with
    valueNo := 0,s := .inWord
    sqlState := if v.sqlState = .inValues then .unknown else v.sqlState}) fun _ => .ok {v with s := .inWord}

theorem changeState_pr (left : dull d) (right : dull e) (digit : isDigit r = false) (dash : r ≠ rune '-') :
    prBoth d e (View.changeState env {v with pr := d} r bs) (View.changeState env {v with pr := e} r bs) := by
  refine .ite (fun own => ?digit) fun _ => .ite (fun _ => onSpace_pr env v bs d e) fun _ =>
    .ite (fun _ => onQuote_pr v r d e left right) fun _ =>
      .ite (fun _ => onBacktick_pr v d e left right) fun _ =>
    .ite (fun _ => .ok (v.onOperator bs)) fun _ => .ite (fun _ => .ok {v with s := .divOrMLC}) fun _ =>
    .ite (fun _ => .ok {v with s := .mlcOrMySQLCode}) fun _ =>
      .ite (fun _ => .ok {v with s := .opOrNumber}) fun _ =>
    .ite (fun own => absurd own dash) fun _ => .ite (fun _ => ?dot) fun _ =>
      .ite (fun _ => onOpenPar_pr env v bs d e) fun _ =>
    .ite (fun _ => .ok v) fun _ => .ite (fun _ => .error v _) fun _ =>
      .ite (fun _ => .ok {v with addSpace := false,s := .inOLC}) fun _ =>
    onOther_pr v bs d e
  case digit =>
    rw [digit] at own
    cases own
  case dot => exact .pure_ite (fun _ => .ok {v.mark with s := .inNumber}) fun _ => .ok v

theorem afterCopy_pr : View.afterCopy env {v with pr := d} = {v.afterCopy env with pr := d} := by
  unfold View.afterCopy
  dsimp only
  split_ifs <;> rfl

theorem copySlice_pr : View.copySlice env {v with pr := d} bs = {v.copySlice env bs with pr := d} := by
  unfold View.copySlice
  by_cases some_ : 0 < v.due bs
  · rw [if_pos (by exact some_),if_pos some_]
    exact afterCopy_pr env (v.copyWord (v.due bs) (toLower env.lower (v.pend.take (v.due bs)))) d
  · rw [if_neg (by exact some_),if_neg some_]

theorem finish_pr : View.finish env {v with pr := d} r bs = v.finish env r bs := by
  rw [View.finish,copySlice_pr,View.finish]

end

theorem digit_dull (digit : isDigit d = true) : dull d := by
  refine ⟨?_,?_,?_⟩ <;> rintro rfl <;> cases digit

theorem digit_space (digit : isDigit d = true) : isSpace d = false := by
  apply Bool.eq_false_iff.mpr
  intro space
  simp only [isDigit,isSpace,Bool.and_eq_true,Bool.or_eq_true,decide_eq_true_eq,beq_iff_eq] at digit space
  omega

theorem onDigit_opens (env : Env) (u : View) (opens : numberState env u = some t) (rest : rested u.s = true) :
    u.onDigit env = {u.mark with s := t} := by
  unfold numberState at opens
  by_cases word : u.s = .inWord
  · rw [if_pos word] at opens
    by_cases number : u.pr = rune '(' ∨ u.pr = rune ','
    · rw [if_pos number] at opens
      cases Option.some.inj opens
      rcases number with par | comma
      · simp [View.onDigit,word,par]
      · simp [View.onDigit,word,comma]
    · rw [if_neg number] at opens
      obtain ⟨par,comma⟩ := not_or.mp number
      split_ifs at opens with replace
      cases Option.some.inj opens
      simp [View.onDigit,word,par,comma,replace]
  · rw [if_neg word] at opens
    split_ifs at opens with skip
    cases Option.some.inj opens
    unfold View.onDigit
    split
    · rename_i sign
      rw [sign] at rest
      cases rest
    · rfl
    · contradiction
    · rfl

theorem copySlice_none (env : Env) (u : View) (bs : Bytes) (plan : u.plan = some 0)
    (pend : u.pend = bs) : u.copySlice env bs = u := by
  have due : ¬ 0 < u.due bs := by simp [View.due,plan,pend]
  rw [View.copySlice,if_neg due]

theorem copySlice_plain (env : Env) (u : View) (x bs : Bytes) (plan : u.plan = some 0)
    (pend : u.pend = x ++ bs) (some_ : x ≠ [])
    (plain : wordIn env.lower (toLower env.lower x) listWords = false) : u.copySlice env bs =
      {u with
        prevWord := toLower env.lower x
        out := u.out ++ fit x.length (toLower env.lower x) ++ (if u.addSpace then [byte ' '] else [])
        pend := if u.addSpace then bs.drop 1 else bs
        addSpace := false} := by
  have due : u.due bs = x.length := by simp [View.due,plan,pend]
  have positive : 0 < x.length := List.length_pos_iff.mpr some_
  have taken : u.pend.take x.length = x := by rw [pend,List.take_left]
  have dropped : u.pend.drop x.length = bs := by rw [pend,List.drop_left]
  rw [View.copySlice,due,if_pos positive,taken,View.copyWord,dropped,View.afterCopy]
  dsimp only
  rw [plain]
  by_cases space : u.addSpace = true
  · simp [space,View.write]
  · simp [space]

section
variable {env : Env} {v : View} (opens : numberState env v = some t) (rest : rested v.s = true)
  (calm : skips v.s = false)
include opens rest calm

theorem digit_changes {d : UInt8} (digit : isDigit d.toNat = true) :
    View.step env v d.toNat [d] = .ok (View.finish env {(v.read [d]).mark with s := t} d.toNat [d]) := by
  have part : (v.read [d]).skipPart d.toNat [d] = .through (v.read [d]) := by
    rw [view_skipPart_other (v.read [d]) d.toNat [d] calm,digit_space digit]
    rfl
  have change : (v.read [d]).changeState env d.toNat [d] = .ok {(v.read [d]).mark with s := t} := by
    rw [View.changeState,if_pos digit,onDigit_opens env (v.read [d]) opens rest]
  rw [step_enters part,change]
  rfl

-- What the copy in front of a digit writes.
def flushed (env : Env) (v : View) : Bytes :=
  if v.pend = [] then [] else fit v.pend.length (toLower env.lower v.pend) ++
    (if v.addSpace then [byte ' '] else [])

-- The pending text is copied in front of a digit, or there is none.
theorem digit_step (plain : wordIn env.lower (toLower env.lower v.pend) listWords = false) :
    ∃ (w : View) (keep : Bool),w.s = t ∧ w.plan = none ∧ w.sqlState = v.sqlState ∧
      w.far = min 4 (v.far+1) ∧ w.gap = min 2 (v.gap+1) ∧
      w.out = v.out ++ flushed env v ∧
      ∀ d : UInt8,isDigit d.toNat = true →
      View.step env v d.toNat [d] = .ok {w with pr := d.toNat,pend := if keep then [d] else []} := by
  by_cases none_ : v.pend = []
  · refine ⟨{v with
      plan := none,marked := decide (3 ≤ v.far),s := t,far := min 4 (v.far+1),gap := min 2 (v.gap+1)},true,
      rfl,rfl,rfl,rfl,rfl,?_,fun d digit => ?_⟩
    · rw [flushed,if_pos none_,List.append_nil]
    have idle :=
      copySlice_none env {(v.read [d]).mark with s := t} [d] rfl (by simp [View.read,View.mark,none_])
    rw [digit_changes opens rest calm digit,View.finish,idle]
    simp [View.read,View.mark,View.advance,none_]
  · refine ⟨{v with
      prevWord := toLower env.lower v.pend
      out := v.out ++ fit v.pend.length (toLower env.lower v.pend) ++ (if v.addSpace then [byte ' '] else [])
      addSpace := false,plan := none,marked := decide (3 ≤ v.far),s := t,far := min 4 (v.far+1),
      gap := min 2 (v.gap+1)},!v.addSpace,
      rfl,rfl,rfl,rfl,rfl,?_,fun d digit => ?_⟩
    · rw [flushed,if_neg none_,List.append_assoc]
    have copied := copySlice_plain env {(v.read [d]).mark with s := t} v.pend [d] rfl rfl none_ plain
    rw [digit_changes opens rest calm digit,View.finish,copied]
    cases space : v.addSpace <;> simp [space,View.read,View.mark,View.advance]

end

theorem digit_ascii {b : UInt8} (digit : isDigit b.toNat = true) : b.toNat < 0x80 := by
  simp only [isDigit,Bool.and_eq_true,decide_eq_true_eq] at digit
  omega

-- The view as a function of the digits read so far.
theorem collect_run (env : Env) (f : Bytes → View)
    (step : ∀ (m : Bytes) (d : UInt8),isDigit d.toNat = true →
    View.step env (f m) d.toNat [d] = .ok (f (m ++ [d])))
    (n : Bytes) (digits : ∀ b ∈ n,isDigit b.toNat = true) (m : Bytes) :
    View.run env (runes n) (f m) = .ok (f (m ++ n)) := by
  induction n generalizing m with
  | nil => simp [View.run]
  | cons d n ih =>
    obtain ⟨digit,later⟩ := List.forall_mem_cons.mp digits
    rw [runes_cons_ascii (digit_ascii digit),View.run,step m d digit]
    change View.run env (runes n) (f (m ++ [d])) = _
    rw [ih later,List.append_assoc,List.singleton_append]

theorem digits_run (env : Env) (w : View) (state : w.s = .inNumber ∨ w.s = .inNumberInWord)
    (far : w.far = 4) (gap : w.gap = 2)
    (n : Bytes) (digits : ∀ b ∈ n,isDigit b.toNat = true) :
    View.run env (runes n) w = .ok {w with pend := w.pend ++ n} := by
  have run := collect_run env (fun m => {w with pend := w.pend ++ m}) ?_ n digits []
  · simpa using run
  intro m d digit
  have numeral : inNumeral d.toNat = true := by simp [inNumeral,digit]
  rcases state with state | state
  · simp [View.step,View.skipPart,View.read,View.endNumber,state,numeral,View.advance,far,gap]
  · simp [View.step,View.skipPart,View.read,View.endNumberInWord,state,digit,View.advance,far,gap]

-- The rune behind a number forgets it, and with it the previous rune.
theorem number_end (env : Env) (w : View) (state : w.s = .inNumber ∧ w.sqlState ≠ .inMySQLCode ∨
    w.s = .inNumberInWord)
    (left : isDigit d = true) (right : isDigit e = true) (r : Nat) (numeral : inNumeral r = false)
    (word : notNumeral r = false)
    (bs x y : Bytes) : Alike (View.step env {w with pr := d,pend := x} r bs)
    (View.step env {w with pr := e,pend := y} r bs) := by
  have notDigit : isDigit r = false := by
    simp only [inNumeral,Bool.or_eq_false_iff] at numeral
    exact numeral.1.1.1.1.1
  have notDash : r ≠ rune '-' := by
    rintro rfl
    cases numeral
  have finish (u : View) : Alike (View.changeState env {u with pr := d} r bs >>= fun u =>
      .ok (u.finish env r bs))
      (View.changeState env {u with pr := e} r bs >>= fun u => .ok (u.finish env r bs)) := by
    have both := changeState_pr env u r bs d e (digit_dull left) (digit_dull right) notDigit notDash
    generalize View.changeState env {u with pr := d} r bs = one at both ⊢
    generalize View.changeState env {u with pr := e} r bs = two at both ⊢
    cases both with
    | ok u =>
      left
      exact congrArg Except.ok ((finish_pr env u r bs d).trans (finish_pr env u r bs e).symm)
    | error u exit => exact Or.inr ⟨_,_,exit,rfl,rfl⟩
  rcases state with ⟨state,code⟩ | state
  · rw [step_enters (w := {((w.fromHere bs).mark).write [byte '?'] with s := .unknown,pr := d})
        (by simp [View.skipPart,View.read,View.endNumber,state,numeral,word,code,View.fromHere,
          View.mark,View.write]),
      step_enters (w := {((w.fromHere bs).mark).write [byte '?'] with s := .unknown,pr := e})
        (by simp [View.skipPart,View.read,View.endNumber,state,numeral,word,code,View.fromHere,
          View.mark,View.write])]
    exact finish {((w.fromHere bs).mark).write [byte '?'] with s := .unknown}
  · rw [step_enters (w := {(w.fromHere bs).write [byte '?'] with
      s := if isSpace r then .unknown else .inWord,pr := d})
        (by simp [View.skipPart,View.read,View.endNumberInWord,state,notDigit,View.fromHere,View.write]),
      step_enters (w := {(w.fromHere bs).write [byte '?'] with
        s := if isSpace r then .unknown else .inWord,pr := e})
        (by simp [View.skipPart,View.read,View.endNumberInWord,state,notDigit,View.fromHere,View.write])]
    exact finish {(w.fromHere bs).write [byte '?'] with s := if isSpace r then .unknown else .inWord}

theorem wide_apart (wide : 0x80 ≤ r) : inNumeral r = false ∧ notNumeral r = false := by
  have letter (c : Char) (small : rune c < 0x80) : ¬ r = rune c := by omega
  have above (c : Char) (small : rune c < 0x80) : ¬ r ≤ rune c := by omega
  have digit : ¬ r ≤ 0x39 := by omega
  constructor
  · simp [inNumeral,isDigit,digit,above 'f' (by decide),above 'F' (by decide),
      letter '.' (by decide),letter 'x' (by decide),letter '-' (by decide)]
  · simp [notNumeral,above 'z' (by decide),above 'Z' (by decide),letter '_' (by decide)]

theorem goesOn_apart : ∀ b : UInt8,goesOn b = false → inNumeral b.toNat = false ∧
    notNumeral b.toNat = false :=
  every_byte (by decide +kernel)

-- The first rune of what follows the number neither goes on with it nor makes it a word.
theorem apart_rune (s : Bytes) (apart : startsApart s = true) :
    ∃ r bs rest,runes (s ++ [byte ' ']) = (r,bs) :: rest ∧
    inNumeral r = false ∧ notNumeral r = false := by
  cases s with
  | nil => exact ⟨0x20,[byte ' '],[],rfl,rfl,rfl⟩
  | cons b t =>
    rw [List.cons_append,runes_cons]
    refine ⟨_,_,_,rfl,?_⟩
    by_cases ascii : (decodeRune b (t ++ [byte ' '])).1 < 0x80
    · rw [decodeRune_ascii ascii]
      apply goesOn_apart
      simpa [startsApart] using apart
    · exact wide_apart (by omega)

theorem numberState_kind (opens : numberState env v = some t) : t = .inNumber ∨ t = .inNumberInWord := by
  unfold numberState at opens
  split_ifs at opens <;> cases Option.some.inj opens
  · exact Or.inl rfl
  · exact Or.inr rfl
  · exact Or.inl rfl

theorem number_same (env : Env) (v : View) (opens : numberState env v = some t)
    (rest : rested v.s = true) (calm : skips v.s = false)
    (plain : wordIn env.lower (toLower env.lower v.pend) listWords = false)
    (code : t ≠ .inNumber ∨ v.sqlState ≠ .inMySQLCode)
    (far : 3 ≤ v.far) (gap : 1 ≤ v.gap) (first : isDigits one = true) (second : isDigits two = true)
    (apart : startsApart s = true) :
    Same (View.run env (runes one ++ runes (s ++ [byte ' '])) v)
      (View.run env (runes two ++ runes (s ++ [byte ' '])) v) := by
  obtain ⟨w,keep,state,idle,sql,wFar,wGap,_,steps⟩ := digit_step opens rest calm plain
  have kind := numberState_kind opens
  have topFar : w.far = 4 := by omega
  have topGap : w.gap = 2 := by omega
  have number {n : Bytes} (digits : isDigits n = true) :
      ∃ d x,isDigit d = true ∧ View.run env (runes n) v = .ok {w with pr := d,pend := x} := by
    cases n with
    | nil => cases digits
    | cons b n =>
      have all := List.all_eq_true.mp (Bool.and_eq_true_iff.mp digits).2
      obtain ⟨digit,later⟩ := List.forall_mem_cons.mp all
      refine ⟨b.toNat,(if keep then [b] else []) ++ n,digit,?_⟩
      rw [runes_cons_ascii (digit_ascii digit),View.run,steps b digit]
      exact digits_run env {w with
        pr := b.toNat,pend := if keep then [b] else []} (by rw [← state] at kind; exact kind) topFar topGap n later
  obtain ⟨d,x,left,firstRun⟩ := number first
  obtain ⟨e,y,right,secondRun⟩ := number second
  obtain ⟨r,bs,pieces,starts,numeral,word⟩ := apart_rune s apart
  rw [run_append,run_append,firstRun,secondRun,starts]
  change Same (View.run env ((r,bs) :: pieces) {w with pr := d,pend := x})
    (View.run env ((r,bs) :: pieces) {w with pr := e,pend := y})
  have final : w.s = .inNumber ∧ w.sqlState ≠ .inMySQLCode ∨ w.s = .inNumberInWord := by
    rw [state,sql]
    rcases kind with rfl | rfl
    · exact Or.inl ⟨rfl,code.resolve_left (fun other => other rfl)⟩
    · exact Or.inr rfl
  have ends := number_end env w final left right r numeral word bs x y
  rw [View.run,View.run]
  rcases ends with same | ⟨u,u',exit,one,two⟩
  · rw [same]
    exact .refl _
  · rw [one,two]
    exact .error

-- In a quoted value, or in a list whose parenthesis is open, the text goes when the literal or the list ends.
def Buried (v : View) : Prop := v.plan = none ∧ (v.s = .inQuote ∨ (v.s = .inValues ∧ 0 < v.parOpen))

theorem buried_values (r : Nat) (bs : Bytes) (calm : v.plan = none) (state : v.s = .inValues)
    (open_ : 0 < v.parOpen) :
    valuesFate v r = .dropped ∨ (valuesFate v r = .kept ∧ Buried (v.skipValues r bs)) := by
  have inside : Buried v := ⟨calm,Or.inr ⟨state,open_⟩⟩
  unfold valuesFate View.skipValues
  by_cases shut : r = rune ')'
  · rw [if_pos shut,if_pos shut]
    by_cases more : 0 < v.parOpen-1
    · refine Or.inr ⟨if_pos more,?_⟩
      rw [View.balanceValues,if_pos (by exact more)]
      exact ⟨calm,Or.inr ⟨state,more⟩⟩
    · exact Or.inl (if_neg more)
  rw [if_neg shut,if_neg shut]
  by_cases opens : r = rune '('
  · rw [if_pos opens,if_pos opens]
    have more : 0 < v.parOpen+1 := by omega
    refine Or.inr ⟨if_pos more,?_⟩
    rw [View.balanceValues,if_pos (by exact more)]
    exact ⟨calm,Or.inr ⟨state,more⟩⟩
  rw [if_neg opens,if_neg opens]
  by_cases quote : r = rune '\'' ∨ r = rune '"'
  · rw [if_pos quote,if_pos quote]
    exact Or.inr ⟨rfl,calm,Or.inl rfl⟩
  rw [if_neg quote,if_neg quote,if_pos open_,View.balanceValues,if_pos open_]
  exact Or.inr ⟨ite_self _,by rw [ite_self]; exact inside⟩

theorem buried_step (env : Env) (r : Nat) (bs : Bytes) (buried : Buried v) :
    fate env v r = .dropped ∨ (fate env v r = .kept ∧ ∃ w,View.step env v r bs = .ok w ∧ Buried w) := by
  obtain ⟨calm,state | ⟨state,open_⟩⟩ := buried
  · rw [fate,if_pos calm,stateFate,state]
    dsimp only
    by_cases ends : r = v.quoteChar ∧ v.escape = false
    · exact Or.inl (if_pos ends)
    · refine Or.inr ⟨if_neg ends,_,quote_step env state r bs,?_⟩
      apply View.skipQuote_cases (motive := fun u => Buried (u.advance bs))
      · exact fun _ => ⟨calm,Or.inl state⟩
      · exact fun quote plain => absurd ⟨quote,plain⟩ ends
      · exact fun quote plain => absurd ⟨quote,plain⟩ ends
  · rw [fate,if_pos calm,stateFate,state]
    dsimp only
    rcases buried_values (v := v.read bs) r bs calm state open_ with drop | ⟨keep,later⟩
    · exact Or.inl drop
    · exact Or.inr ⟨keep,_,values_step env state r bs,later.1,later.2⟩

theorem buried_unread (env : Env) (pieces : List (Nat × Bytes)) (buried : Buried v) :
    unread env pieces v = true := by
  induction pieces generalizing v with
  | nil => rfl
  | cons piece rest ih =>
    rw [unread]
    rcases buried_step env piece.1 piece.2 buried with drop | ⟨keep,w,step,later⟩
    · rw [drop]
    · rw [keep,step]
      exact ih later

-- A digit in a quoted value or in a list is only collected.
theorem buried_digit (env : Env) {d : UInt8} (digit : isDigit d.toNat = true) (buried : Buried v)
    (quoting : v.s = .inQuote → isQuote v.quoteChar) :
    View.step env v d.toNat [d] = .ok {v with
      pend := v.pend ++ [d],escape := if v.s = .inQuote then false else v.escape
      far := min 4 (v.far+1),gap := min 2 (v.gap+1)} := by
  have notChar (c : Char) (other : isDigit (rune c) = false) : d.toNat ≠ rune c := by
    intro same
    rw [same,other] at digit
    cases digit
  have notSlash := notChar '\\' rfl
  obtain ⟨calm,state | ⟨state,open_⟩⟩ := buried
  · have notQuote : d.toNat ≠ v.quoteChar := by
      intro same
      rcases quoting state with quote | quote
      · exact notChar '\'' rfl (same.trans quote)
      · exact notChar '"' rfl (same.trans quote)
    rw [quote_step env state,if_pos state,View.skipQuote,if_pos (by exact notQuote)]
    by_cases escape : v.escape = true
    · rw [if_pos (by exact escape)]
      rfl
    · rw [if_neg (by exact escape),if_neg notSlash]
      rw [Bool.not_eq_true] at escape
      simp [View.read,View.advance,escape]
  · have space := digit_space digit
    simp [View.step,View.skipPart,View.read,View.skipValues,state,notChar ')' rfl,notChar '(' rfl,
      notChar '\'' rfl,notChar '"' rfl,space,
      View.balanceValues,open_,View.advance]

theorem buried_digits (env : Env) (regular : Regular v) (buried : Buried v) (far : 3 ≤ v.far)
    (gap : 1 ≤ v.gap) (some_ : isDigits n = true) :
    View.run env (runes n) v = .ok {v with
      pend := v.pend ++ n,escape := if v.s = .inQuote then false else v.escape,far := 4,gap := 2} := by
  cases n with
  | nil => cases some_
  | cons d n =>
    obtain ⟨digit,later⟩ := List.forall_mem_cons.mp (List.all_eq_true.mp (Bool.and_eq_true_iff.mp some_).2)
    have topFar : min 4 (v.far+1) = 4 := by omega
    have topGap : min 2 (v.gap+1) = 2 := by omega
    have first := buried_digit env digit buried regular.quote
    rw [topFar,topGap] at first
    rw [runes_cons_ascii (digit_ascii digit),View.run,first]
    refine (collect_run env (fun m => {v with
      pend := v.pend ++ m,escape := if v.s = .inQuote then false else v.escape,far := 4,
      gap := 2}) ?_ n later [d]).trans ?_
    · intro m d digit
      have next := buried_digit env digit (v := {v with
        pend := v.pend ++ m,escape := if v.s = .inQuote then false else v.escape,far := 4,
        gap := 2}) buried regular.quote
      dsimp only at next
      rw [next,List.append_assoc]
      by_cases state : v.s = .inQuote
      · simp [state]
      · simp [state]
    · rfl

theorem digit_foreign : ∀ d : UInt8,isDigit d.toNat = true → foreign listWords d = true :=
  every_byte (by decide +kernel)

theorem separator_foreign : ∀ c : UInt8,separates c.toNat = true → foreign listWords c = true :=
  every_byte (by decide +kernel)

theorem separator_ascii : ∀ c : UInt8,separates c.toNat = true → c.toNat < 0x80 ∧
    c.toNat ≠ rune '`' :=
  every_byte (by decide +kernel)

theorem buried_same (env : Env) (regular : Regular v) (buried : Buried v) (far : 3 ≤ v.far)
    (gap : 1 ≤ v.gap) (first : isDigits one = true)
    (second : isDigits two = true) (pieces : List (Nat × Bytes)) :
    Same (View.run env (runes one ++ pieces) v) (View.run env (runes two ++ pieces) v) := by
  have unlisted {n : Bytes} (digits : isDigits n = true) : Unlisted env (v.pend ++ n) := by
    obtain ⟨some_,all⟩ := Bool.and_eq_true_iff.mp digits
    obtain ⟨d,mem⟩ := List.exists_mem_of_ne_nil n (of_decide_eq_true some_)
    have digit := List.all_eq_true.mp all d mem
    refine foreign_unlisted (c := d) ?_ (List.mem_append_right _ mem) env
    exact digit_foreign d digit
  rw [run_append,run_append,buried_digits env regular buried far gap first,
    buried_digits env regular buried far gap second]
  have kept := buried_unread env pieces (v := {v with
      pend := v.pend ++ one,escape := if v.s = .inQuote then false else v.escape,far := 4,gap := 2}) buried
  exact unread_run env pieces _ kept (unlisted first) (unlisted second)

theorem runes_number (p t : Bytes) (some_ : isDigits n = true) :
    runes (p ++ (n ++ t)) = runes p ++ (runes n ++ runes t) := by
  obtain ⟨some_,all⟩ := Bool.and_eq_true_iff.mp some_
  exact runes_append_text p t (of_decide_eq_true some_) fun b mem =>
    digit_ascii (List.all_eq_true.mp all b mem)

-- The state in front of a number, behind a front of three bytes that ends with a separator.
structure Stands (env : Env) (v : View) : Prop where
  regular : Regular v
  rest : rested v.s = true
  plain : wordIn env.lower (toLower env.lower v.pend) listWords = false
  far : 3 ≤ v.far
  gap : 1 ≤ v.gap

theorem run_plain {c : UInt8} (sep : separates c.toNat = true)
    (run : View.run env (runes (p ++ [c])) .start = .ok v) :
    wordIn env.lower (toLower env.lower v.pend) listWords = false := by
  have own := separator_foreign c sep
  obtain ⟨front,same⟩ := run_pend run
  rcases List.eq_nil_or_concat v.pend with none_ | ⟨text,last,pend⟩
  · rw [none_]
    rfl
  · rw [pend,List.concat_eq_append,← List.append_assoc] at same
    have last : last = c := by simpa using (List.append_inj_right' same rfl)
    refine foreign_wordIn own (foreign_lower own ?_ env.lower) env.lower
    rw [pend,last]
    simp

theorem run_stands {c : UInt8} (sep : separates c.toNat = true) (long : 3 ≤ (p ++ [c]).length)
    (run : View.run env (runes (p ++ [c])) .start = .ok v) : Stands env v := by
  have ascii := (separator_ascii c sep).1
  refine ⟨run_regular start_regular run,run_rested ascii sep run,run_plain sep run,?_,(run_gap ascii run).1⟩
  rw [run_far_eq run]
  omega

theorem numberState_calm (opens : numberState env v = some t) : skips v.s = false := by
  unfold numberState at opens
  by_cases word : v.s = .inWord
  · rw [word]
    rfl
  · rw [if_neg word] at opens
    by_cases skip : skips v.s = true
    · rw [if_pos skip] at opens
      cases opens
    · exact Bool.eq_false_iff.mpr skip

theorem safe_same (env : Env) (stands : Stands env v) (apart_ : safe env v = true)
    (first : isDigits one = true)
    (second : isDigits two = true) (apart : startsApart s = true) :
    Same (View.run env (runes one ++ runes (s ++ [byte ' '])) v)
      (View.run env (runes two ++ runes (s ++ [byte ' '])) v) := by
  obtain ⟨regular,rest,plain,far,gap⟩ := stands
  by_cases hidden : v.s = .inQuote ∨ (v.s = .inValues ∧ 0 < v.parOpen)
  · have calm : v.plan = none := by
      apply regular.plan
      rcases hidden with state | ⟨state,_⟩ <;> rw [state] <;> exact nofun
    exact buried_same env regular ⟨calm,hidden⟩ far gap first second _
  · obtain ⟨t,opens,code⟩ : ∃ t,numberState env v = some t ∧ (t ≠ .inNumber ∨ v.sqlState ≠ .inMySQLCode) := by
      obtain ⟨notQuote,notList⟩ := not_or.mp hidden
      unfold safe at apart_
      rw [decide_eq_false notQuote,Bool.false_or,
        show (decide (v.s = .inValues) && decide (0 < v.parOpen)) = false by simpa using notList,
        Bool.false_or] at apart_
      cases opens : numberState env v with
      | none =>
        rw [opens] at apart_
        cases apart_
      | some t =>
        rw [opens] at apart_
        exact ⟨t,rfl,by simpa using apart_⟩
    exact number_same env v opens rest (numberState_calm opens) plain code far gap first second apart

-- Two queries that differ in the digits of a number, behind a front at which a digit is replaced.
theorem number_result (env : Env) {c : UInt8} (sep : separates c.toNat = true) (long : 3 ≤ (p ++ [c]).length)
    (safely : safeAfter env (p ++ [c]) = true) (first : isDigits one = true)
    (second : isDigits two = true) (apart : startsApart s = true) :
    Same (View.result env (p ++ [c] ++ (one ++ s))) (View.result env (p ++ [c] ++ (two ++ s))) := by
  have result {n : Bytes} (digits : isDigits n = true) : View.result env (p ++ [c] ++ (n ++ s)) =
      (View.run env (runes (p ++ [c])) .start >>= View.run env (runes n ++ runes (s ++ [byte ' ']))) := by
    rw [View.result,List.append_assoc _ (n ++ s),List.append_assoc n,runes_number _ _ digits,run_append]
  rw [result first,result second]
  cases prior : View.run env (runes (p ++ [c])) .start with
  | error stop => exact .refl _
  | ok v =>
    rw [safeAfter,prior] at safely
    exact safe_same env (run_stands sep long prior) safely first second apart

end SqlReview.FingerprintNumber
