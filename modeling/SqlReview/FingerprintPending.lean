import SqlReview.FingerprintLiteral

-- What becomes of the text from cpFromOffset on: runs that differ in it, and in nothing else,
-- return the same fingerprint as long as nothing reads it.
namespace SqlReview.FingerprintPending
open GoBytes Fingerprint FingerprintView FingerprintLiteral

-- Two outcomes with the same answer, unless that is the query itself.
inductive Same : Except Stop View → Except Stop View → Prop where
  | ok : v.out = w.out → Same (.ok v) (.ok w)
  | error : Same (.error ⟨v,exit⟩) (.error ⟨w,exit⟩)

theorem Same.refl (one : Except Stop View) : Same one one := by
  cases one with
  | ok v => exact .ok rfl
  | error stop => exact .error

theorem Same.symm (same : Same one two) : Same two one := by
  cases same with
  | ok out => exact .ok out.symm
  | error => exact .error

theorem Same.trans (first : Same one two) (second : Same two three) : Same one three := by
  cases first with
  | ok out =>
    cases second with
    | ok out' => exact .ok (out.trans out')
  | error =>
    cases second with
    | error => exact .error

theorem Same.of_alike (alike : Alike one two) : Same one two := by
  rcases alike with same | ⟨v,w,exit,left,right⟩
  · rw [same]
    exact .refl two
  · rw [left,right]
    exact .error

theorem notCommand {query : Bytes} (command : run env query ≠ .error .adminCommand)
    (completes : Completes (run env query)) :
    ∀ v,View.result env query ≠ .error ⟨v,.adminCommand⟩ := by
  intro v result
  have follows := run_follows env query
  rw [result] at follows
  rcases follows with ⟨same,_⟩ | ⟨same,_⟩
  · exact command same
  · rw [same] at completes
    exact completes rfl

theorem Same.answer (same : Same one two) (command : ∀ v,one ≠ .error ⟨v,.adminCommand⟩) (p q : Bytes) :
    View.answer p one = View.answer q two := by
  cases same with
  | ok out => rw [View.answer,View.answer,out]
  | @error v exit w =>
    cases exit with
    | adminCommand => exact absurd rfl (command v)
    | _ => rfl

theorem Same.fingerprint {p q : Bytes} (same : Same (View.result env p) (View.result env q))
    (command : run env p ≠ .error .adminCommand) (left : Completes (run env p))
    (right : Completes (run env q)) :
    fingerprint env p = fingerprint env q := by
  rw [fingerprint_answer left,fingerprint_answer right]
  exact congrArg some (same.answer (notCommand command left) p q)

inductive Fate where
  | dropped | kept | used
  deriving DecidableEq

def valuesFate (v : View) (r : Nat) : Fate :=
  if r = rune ')' then if 0 < v.parOpen-1 then .kept else .dropped
  else if r = rune '(' then if 0 < v.parOpen+1 then .kept else if v.parOpenTotal = 0 then .kept else .dropped
  else if r = rune '\'' ∨ r = rune '"' then .kept
  else if isSpace r then .kept
  else if 0 < v.parOpen then .kept else if v.parOpenTotal = 0 then .kept else .dropped

def digitFate (env : Env) (v : View) : Fate :=
  if v.s = .inWord ∧ v.pr ≠ rune '(' ∧ v.pr ≠ rune ',' ∧ env.replaceNumbersInWords = false then .kept
  else .used

def spaceFate (v : View) : Fate :=
  match v.s with
  | .unknown => if v.endsInText then .dropped else .kept
  | .inDash => if v.marked then .used else .kept
  | .moreValuesOrUnknown => .kept
  | _ => .used

def quoteFate (v : View) : Fate :=
  if v.pr ≠ rune '\\' ∧ v.s ≠ .inQuote then if v.pr = rune 'x' ∨ v.pr = rune 'b' then .kept else .used
  else .kept

-- A list begins because of the word before, whatever is pending.
def listFollows (v : View) : Bool :=
  v.sqlState ≠ .onDupeKeyUpdate && ((v.s = .inSpace || v.s = .moreValuesOrUnknown) &&
    (v.prevWord = str "value" || v.prevWord = str "values" || v.prevWord = str "in"))

def openFate (v : View) : Fate :=
  if v.prevWord = str "call" then .used
  else if listFollows v then if v.valueNo = 0 then .used else .kept
  else if v.s ≠ .inWord then .dropped
  else .kept

def restart (v : View) : Fate := if v.s ≠ .inWord ∧ v.s ≠ .inOp then .dropped else .kept

def changeFate (env : Env) (v : View) (r : Nat) : Fate :=
  if isDigit r then digitFate env v
  else if isSpace r then spaceFate v
  else if r = rune '\'' ∨ r = rune '"' then quoteFate v
  else if r = rune '`' then .kept
  else if r = rune '=' ∨ r = rune '<' ∨ r = rune '>' ∨ r = rune '!' then restart v
  else if r = rune '/' then .kept
  else if r = rune '*' ∧ v.s = .divOrMLC then .kept
  else if r = rune '+' then .kept
  else if r = rune '-' then .kept
  else if r = rune '.' then if v.s = .inNumber ∨ v.s = .inOp then .used else .kept
  else if r = rune '(' then openFate v
  else if r = rune ',' ∧ v.s = .moreValuesOrUnknown then .kept
  else if r = rune ':' ∧ v.prevWord = str "administrator" then .kept
  else if r = rune '#' then .kept
  else restart v

def stateFate (env : Env) (v : View) (r : Nat) : Fate :=
  match v.s with
  | .inQuote => if r = v.quoteChar ∧ v.escape = false then .dropped else .kept
  | .inBackticks => if r = rune '`' ∧ v.escape = false then .used else .kept
  | .inNumberInWord => if isDigit r then .kept else .dropped
  | .inNumber =>
    if inNumeral r then .kept else if notNumeral r ∨ v.sqlState = .inMySQLCode then .used else .dropped
  | .inValues => valuesFate v r
  | .inMLC | .mlcOrMySQLCode | .inOLC => .kept
  | _ => if isSpace r && isSpace v.pr then .dropped else changeFate env v r

-- What the iteration on r does to the pending text, as far as that does not depend on the text:
-- forget it, go on collecting, or read it. A name in backticks is read once it closes.
def fate (env : Env) (v : View) (r : Nat) : Fate := if v.plan = none then stateFate env v r else .used

-- Two outcomes that differ in the pending text alone, with nothing due for copying.
inductive Beside (a b : Bytes) : Except Stop View → Except Stop View → Prop where
  | ok (u : View) (calm : u.plan = none) : Beside a b (.ok {u with pend := a}) (.ok {u with pend := b})
  | error (u : View) (exit : Exit) : Beside a b (.error ⟨{u with pend := a},exit⟩)
    (.error ⟨{u with pend := b},exit⟩)

def Told (fate : Fate) (a b : Bytes) (one two : Except Stop View) : Prop :=
  match fate with
  | .dropped => one = two
  | .kept => Beside a b one two
  | .used => True

theorem Told.same (one : Except Stop View) : Told .dropped a b one one := rfl

theorem Told.beside (u : View) (calm : u.plan = none) :
    Told .kept a b (.ok {u with pend := a}) (.ok {u with pend := b}) :=
  Beside.ok u calm

theorem Told.stops (u : View) (exit : Exit) :
    Told .kept a b (.error ⟨{u with pend := a},exit⟩) (.error ⟨{u with pend := b},exit⟩) :=
  Beside.error u exit

theorem Told.ite {c : Prop} [Decidable c] {one two one' two' : Except Stop View}
    (yes : c → Told x a b one two)
    (no : ¬ c → Told y a b one' two') :
    Told (if c then x else y) a b (if c then one else one') (if c then two else two') := by
  by_cases h : c
  · rw [if_pos h,if_pos h,if_pos h]
    exact yes h
  · rw [if_neg h,if_neg h,if_neg h]
    exact no h

theorem Told.pure_ite {c : Prop} [Decidable c] {v w v' w' : View} (yes : c → Told x a b (.ok v) (.ok w))
    (no : ¬ c → Told y a b (.ok v') (.ok w')) :
    Told (if c then x else y) a b (.ok (if c then v else v')) (.ok (if c then w else w')) := by
  by_cases h : c
  · rw [if_pos h,if_pos h,if_pos h]
    exact yes h
  · rw [if_neg h,if_neg h,if_neg h]
    exact no h

section
variable (env : Env) (v : View) (r : Nat) (bs a b : Bytes) (calm : v.plan = none)
include calm

theorem onDigit_told : Told (digitFate env v) a b (.ok (View.onDigit env {v with pend := a}))
    (.ok (View.onDigit env {v with pend := b})) := by
  unfold digitFate
  split_ifs with word
  · obtain ⟨state,par,comma,off⟩ := word
    have same (t : Bytes) : View.onDigit env {v with pend := t} = {v with pend := t} := by
      simp [View.onDigit,state,par,comma,off]
    rw [same,same]
    exact .beside v calm
  · trivial

theorem onSpace_told : Told (spaceFate v) (a ++ bs) (b ++ bs) (View.onSpace env {v with pend := a ++ bs} bs)
    (View.onSpace env {v with pend := b ++ bs} bs) := by
  cases state : v.s with
  | unknown =>
    simp only [spaceFate,View.onSpace,state]
    exact .pure_ite (fun _ => .same _) fun _ => .beside {v with s := .unknown} calm
  | inDash =>
    simp only [spaceFate,View.onSpace,state]
    by_cases marked : v.marked = true
    · rw [if_pos marked]
      trivial
    · rw [if_neg marked,if_neg marked]
      exact .beside {v with s := .inOLC} calm
  | moreValuesOrUnknown =>
    simp only [spaceFate,View.onSpace,state]
    by_cases first : v.valueNo = 1
    · rw [if_pos first,if_pos first]
      exact .beside {v.write [byte ' '] with s := .moreValuesOrUnknown} calm
    · rw [if_neg first,if_neg first]
      exact .beside {v with s := .moreValuesOrUnknown} calm
  | _ =>
    simp only [spaceFate,state]
    trivial

theorem onQuote_told :
    Told (quoteFate v) a b (.ok (View.onQuote {v with pend := a} r))
      (.ok (View.onQuote {v with pend := b} r)) := by
  unfold quoteFate
  refine .pure_ite (fun _ => .pure_ite (fun _ => ?_) fun _ => trivial) fun _ => .beside v calm
  exact .beside {v with s := .inQuote,quoteChar := r,plan := none,marked := false} rfl

theorem onOperator_told :
    Told (restart v) (a ++ bs) (b ++ bs) (.ok (View.onOperator {v with pend := a ++ bs} bs))
    (.ok (View.onOperator {v with pend := b ++ bs} bs)) := by
  unfold restart View.onOperator
  dsimp only
  by_cases fresh : v.s ≠ .inWord ∧ v.s ≠ .inOp
  · rw [if_pos fresh,if_pos fresh,if_pos fresh]
    exact .same _
  · rw [if_neg fresh,if_neg fresh,if_neg fresh]
    exact .beside {v with s := .inOp} calm

theorem onOther_told : Told (restart v) (a ++ bs) (b ++ bs) (.ok (View.onOther {v with pend := a ++ bs} bs))
    (.ok (View.onOther {v with pend := b ++ bs} bs)) := by
  unfold restart
  exact .pure_ite (fun _ => .same _) fun _ => .beside {v with s := .inWord} calm

omit calm in
theorem beginsValues_other (other : wordIn env.lower a listWords = false) :
    View.beginsValues env {v with pend := a ++ bs} (View.word {v with pend := a ++ bs} bs) =
      listFollows v := by
  have pending : View.word {v with pend := a ++ bs} bs = a := by simp [View.word]
  have words : wordIn env.lower a [str "value",str "values",str "in"] = false := by
    simp only [wordIn,listWords] at other ⊢
    simp only [List.contains_cons,List.contains_nil,Bool.or_false] at other ⊢
    simp only [Bool.or_eq_false_iff] at other ⊢
    exact ⟨other.2.1,other.2.2,other.1⟩
  rw [pending,View.beginsValues,words,Bool.or_false]
  rfl

theorem onOpenPar_told (left : wordIn env.lower a listWords = false)
    (right : wordIn env.lower b listWords = false) :
    Told (openFate v) (a ++ bs) (b ++ bs) (View.onOpenPar env {v with pend := a ++ bs} bs)
      (View.onOpenPar env {v with pend := b ++ bs} bs) := by
  unfold openFate View.onOpenPar
  rw [beginsValues_other env v bs a left,beginsValues_other env v bs b right]
  refine .ite (fun _ => trivial) fun _ => .ite (fun _ => ?list) fun _ =>
    .ite (fun _ => .same _) fun _ => .beside v calm
  case list =>
    by_cases first : v.valueNo = 0
    · rw [if_pos first]
      trivial
    · rw [if_neg first]
      dsimp only
      rw [if_neg first,if_neg first]
      exact .beside {v with s := .inValues,sqlState := .inValues,parOpen := 1,gap := 0} calm

theorem changeState_told (left : wordIn env.lower a listWords = false)
    (right : wordIn env.lower b listWords = false) :
    Told (changeFate env v r) (a ++ bs) (b ++ bs) (View.changeState env {v with pend := a ++ bs} r bs)
      (View.changeState env {v with pend := b ++ bs} r bs) := by
  unfold changeFate
  refine .ite (fun _ => onDigit_told env v _ _ calm) fun _ =>
    .ite (fun _ => onSpace_told env v bs a b calm) fun _ =>
    .ite (fun _ => onQuote_told v r _ _ calm) fun _ => .ite (fun _ => ?tick) fun _ =>
    .ite (fun _ => onOperator_told v bs a b calm) fun _ =>
      .ite (fun _ => .beside {v with s := .divOrMLC} calm) fun _ =>
    .ite (fun _ => .beside {v with s := .mlcOrMySQLCode} calm) fun _ =>
      .ite (fun _ => .beside {v with s := .opOrNumber} calm) fun _ =>
    .ite (fun _ => .beside {v with s := if v.pr = rune '-' then .inDash else .opOrNumber} calm) fun _ =>
    .ite (fun _ => ?dot) fun _ => .ite (fun _ => onOpenPar_told env v bs a b calm left right) fun _ =>
    .ite (fun _ => .beside v calm) fun _ => .ite (fun _ => .stops v _) fun _ =>
    .ite (fun _ => .beside {v with addSpace := false,s := .inOLC} calm) fun _ => onOther_told v bs a b calm
  case tick =>
    by_cases opens : v.pr ≠ rune '\\' ∧ v.s ≠ .inBackticks
    · simp only [View.onBacktick,if_pos opens]
      exact .beside {v with s := .inBackticks} calm
    · simp only [View.onBacktick,if_neg opens]
      exact .beside v calm
  case dot => exact .pure_ite (fun _ => trivial) fun _ => .beside v calm

theorem copySlice_calm : v.copySlice env bs = v := by
  have none_ : ¬ 0 < v.due bs := by simp [View.due,calm]
  rw [View.copySlice,if_neg none_]

end

theorem copySlice_idle (env : Env) (idle : u.due bs = 0) : View.copySlice env u bs = u := by
  rw [View.copySlice,idle]
  rfl

theorem due_split {u : View} (plan : u.plan = some back) (pend : u.pend = x ++ bs) :
    u.due bs = x.length-back := by
  unfold View.due
  rw [plan,pend,List.length_append]
  dsimp only
  omega

theorem balanceValues_told (v : View) (r : Nat) (bs a b : Bytes) (calm : v.plan = none) :
    Told (if 0 < v.parOpen then .kept else if v.parOpenTotal = 0 then .kept else .dropped) (a ++ bs) (b ++ bs)
      (.ok (View.balanceValues {v with pend := a ++ bs} r bs))
      (.ok (View.balanceValues {v with pend := b ++ bs} r bs)) := by
  refine .pure_ite (fun _ => .beside v calm) fun _ =>
    .pure_ite (fun _ => .beside {v with s := .inWord} calm) fun _ => ?_
  have same (t : Bytes) : View.endValues {v with pend := t} r bs = v.endValues r bs := by
    rw [View.endValues_eq,View.endValues_eq]
    rfl
  rw [same (a ++ bs),same (b ++ bs)]
  exact .same _

theorem skipValues_told (v : View) (r : Nat) (bs a b : Bytes) (calm : v.plan = none) :
    Told (valuesFate v r) (a ++ bs) (b ++ bs) (.ok (View.skipValues {v with pend := a ++ bs} r bs))
      (.ok (View.skipValues {v with pend := b ++ bs} r bs)) := by
  refine .pure_ite (fun _ => ?shut) fun _ => .pure_ite (fun _ => ?opens) fun _ =>
    .pure_ite (fun _ => ?quote) fun _ =>
    .pure_ite (fun _ => .beside v calm) fun _ => balanceValues_told v r bs a b calm
  case shut =>
    have told :=
      balanceValues_told {v with parOpen := v.parOpen-1,parOpenTotal := v.parOpenTotal+1} r bs a b calm
    simpa using told
  case opens =>
    exact balanceValues_told {v with
      parOpen := v.parOpen+1,gap := if v.parOpen+1 = 1 then 0 else v.gap} r bs a b calm
  case quote => exact .beside {v with s := .inQuote,quoteChar := r} calm

theorem skipQuote_told (v : View) (r : Nat) (bs a b : Bytes) (calm : v.plan = none) :
    Told (if r = v.quoteChar ∧ v.escape = false then .dropped else .kept) (a ++ bs) (b ++ bs)
      (.ok (View.skipQuote {v with pend := a ++ bs} r bs))
      (.ok (View.skipQuote {v with pend := b ++ bs} r bs)) := by
  unfold View.skipQuote
  dsimp only
  by_cases quote : r = v.quoteChar
  · rw [if_neg (not_not.mpr quote),if_neg (not_not.mpr quote)]
    by_cases escape : v.escape = true
    · rw [if_neg (by simp [escape]),if_pos escape,if_pos escape]
      exact .beside {v with escape := false} calm
    · rw [if_pos ⟨quote,Bool.not_eq_true _ ▸ escape⟩,if_neg escape,if_neg escape]
      exact .same _
  · rw [if_neg (fun both => quote both.1),if_pos quote,if_pos quote]
    by_cases escape : v.escape = true
    · rw [if_pos escape,if_pos escape]
      exact .beside {v with escape := false} calm
    · rw [if_neg escape,if_neg escape]
      by_cases slash : r = rune '\\'
      · rw [if_pos slash,if_pos slash]
        exact .beside {v with escape := true} calm
      · rw [if_neg slash,if_neg slash]
        exact .beside v calm

theorem skipBackticks_told (v : View) (r : Nat) (bs a b : Bytes) (calm : v.plan = none) :
    Told (if r = rune '`' ∧ v.escape = false then .used else .kept) (a ++ bs) (b ++ bs)
      (.ok (View.skipBackticks {v with pend := a ++ bs} r))
      (.ok (View.skipBackticks {v with pend := b ++ bs} r)) := by
  unfold View.skipBackticks
  dsimp only
  by_cases tick : r = rune '`'
  · rw [if_neg (not_not.mpr tick),if_neg (not_not.mpr tick)]
    by_cases escape : v.escape = true
    · rw [if_neg (by simp [escape]),if_pos escape,if_pos escape]
      exact .beside {v with escape := false} calm
    · rw [if_pos ⟨tick,Bool.not_eq_true _ ▸ escape⟩]
      trivial
  · rw [if_neg (fun both => tick both.1),if_pos tick,if_pos tick]
    by_cases escape : v.escape = true
    · rw [if_pos escape,if_pos escape]
      exact .beside {v with escape := false} calm
    · rw [if_neg escape,if_neg escape]
      by_cases slash : r = rune '\\'
      · rw [if_pos slash,if_pos slash]
        exact .beside {v with escape := true} calm
      · rw [if_neg slash,if_neg slash]
        exact .beside v calm

theorem Told.advance (told : Told f a b (.ok v) (.ok w)) (bs : Bytes) :
    Told f a b (.ok (v.advance bs)) (.ok (w.advance bs)) := by
  cases f with
  | dropped =>
    cases told
    exact .same _
  | kept =>
    cases told with
    | ok u calm => exact .beside (u.advance bs) calm
  | used => trivial

theorem Told.finish (env : Env) (told : Told f a b one two) (r : Nat) (bs : Bytes) :
    Told f a b (one >>= fun u => .ok (u.finish env r bs)) (two >>= fun u => .ok (u.finish env r bs)) := by
  cases f with
  | dropped =>
    cases told
    exact .same _
  | kept =>
    cases told with
    | ok u calm =>
      have left := copySlice_calm env {u with pend := a} bs calm
      have right := copySlice_calm env {u with pend := b} bs calm
      change Told .kept a b
        (.ok (View.advance {View.copySlice env {u with pend := a} bs with pr := r,plan := none} bs))
        (.ok (View.advance {View.copySlice env {u with pend := b} bs with pr := r,plan := none} bs))
      rw [left,right]
      exact .beside (View.advance {u with pr := r,plan := none} bs) rfl
    | error u exit => exact .stops u exit
  | used => trivial

section
variable {env : Env} {v : View} {r : Nat} {bs a b : Bytes}

theorem Told.skip (k : View → View)
    (told : Told f (a ++ bs) (b ++ bs) (.ok (k {v with pend := a ++ bs})) (.ok (k {v with pend := b ++ bs})))
    (part : ∀ t,View.skipPart {v with pend := t} r bs = .skip (k {v with pend := t})) :
    Told f (a ++ bs) (b ++ bs) (View.step env {v with pend := a} r bs)
      (View.step env {v with pend := b} r bs) := by
  have step (t : Bytes) : View.step env {v with pend := t} r bs =
      .ok ((k {v with pend := t ++ bs}).advance bs) := by
    apply step_skips
    exact part (t ++ bs)
  rw [step,step]
  exact told.advance bs

theorem Told.through (k : View → View)
    (told : Told f (a ++ bs) (b ++ bs) (View.changeState env (k {v with pend := a ++ bs}) r bs)
    (View.changeState env (k {v with pend := b ++ bs}) r bs))
    (part : ∀ t,View.skipPart {v with pend := t} r bs = .through (k {v with pend := t})) :
    Told f (a ++ bs) (b ++ bs) (View.step env {v with pend := a} r bs)
      (View.step env {v with pend := b} r bs) := by
  have step (t : Bytes) : View.step env {v with pend := t} r bs =
      (View.changeState env (k {v with pend := t ++ bs}) r bs >>= fun u => .ok (u.finish env r bs)) := by
    apply step_enters
    exact part (t ++ bs)
  rw [step,step]
  exact told.finish env r bs

end

theorem number_told (env : Env) (v : View) (r : Nat) (bs a b : Bytes) (calm : v.plan = none)
    (state : v.s = .inNumber) :
    Told (if inNumeral r then .kept else if notNumeral r ∨ v.sqlState = .inMySQLCode then .used
      else .dropped) (a ++ bs) (b ++ bs)
      (View.step env {v with pend := a} r bs) (View.step env {v with pend := b} r bs) := by
  by_cases digit : inNumeral r = true
  · rw [if_pos digit]
    apply Told.skip id (.beside v calm)
    intro t
    simp [View.skipPart,state,View.endNumber,digit]
  · rw [if_neg digit]
    by_cases kept : notNumeral r = true ∨ v.sqlState = .inMySQLCode
    · rw [if_pos kept]
      trivial
    · rw [if_neg kept]
      refine Told.through
        (fun w => {((w.fromHere bs).mark).write [byte '?'] with s := .unknown}) ?_ fun t => ?_
      · exact .same _
      obtain ⟨word,code⟩ := not_or.mp kept
      simp [View.skipPart,state,View.endNumber,digit,word,code]

theorem numberInWord_told (env : Env) (v : View) (r : Nat) (bs a b : Bytes) (calm : v.plan = none)
    (state : v.s = .inNumberInWord) :
    Told (if isDigit r then .kept else .dropped) (a ++ bs) (b ++ bs) (View.step env {v with pend := a} r bs)
      (View.step env {v with pend := b} r bs) := by
  by_cases digit : isDigit r = true
  · rw [if_pos digit]
    apply Told.skip id (.beside v calm)
    intro t
    simp [View.skipPart,state,View.endNumberInWord,digit]
  · rw [if_neg digit]
    refine Told.through
      (fun w => {(w.fromHere bs).write [byte '?'] with
      s := if isSpace r then .unknown else .inWord}) ?_ fun t => ?_
    · exact .same _
    simp [View.skipPart,state,View.endNumberInWord,digit]

theorem calm_told (env : Env) (v : View) (r : Nat) (bs a b : Bytes) (calm : v.plan = none)
    (state : skips v.s = false)
    (left : wordIn env.lower a listWords = false) (right : wordIn env.lower b listWords = false) :
    Told (if isSpace r && isSpace v.pr then .dropped else changeFate env v r) (a ++ bs) (b ++ bs)
      (View.step env {v with pend := a} r bs) (View.step env {v with pend := b} r bs) := by
  by_cases spaces : (isSpace r && isSpace v.pr) = true
  · rw [if_pos spaces]
    refine Told.skip (fun w => {w.fromNext bs with pr := r,plan := none}) ?_ fun t => ?_
    · exact .same _
    rw [view_skipPart_other {v with pend := t} r bs state,if_pos (by exact spaces)]
  · rw [if_neg spaces]
    apply Told.through id (changeState_told env v r bs a b calm left right)
    intro t
    rw [view_skipPart_other {v with pend := t} r bs state,if_neg (by exact spaces)]
    rfl

theorem code_told (env : Env) (v : View) (r : Nat) (bs a b : Bytes) (calm : v.plan = none)
    (state : v.s = .mlcOrMySQLCode) :
    Told .kept (a ++ bs) (b ++ bs) (View.step env {v with pend := a} r bs)
      (View.step env {v with pend := b} r bs) := by
  by_cases bang : r = rune '!'
  · subst bang
    refine Told.through (fun w => {w with s := .inWord,sqlState := .inMySQLCode}) ?_ fun t => ?_
    · exact .beside {v with s := .inOp,sqlState := .inMySQLCode} calm
    · simp [View.skipPart,state]
  · apply Told.skip (fun w => {w with pr := r,s := .inMLC}) (.beside {v with pr := r,s := .inMLC} calm)
    intro t
    simp [View.skipPart,state,bang]

theorem comment_told (env : Env) (v : View) (r : Nat) (bs a b : Bytes) (calm : v.plan = none)
    (state : v.s = .inMLC) :
    Told .kept (a ++ bs) (b ++ bs) (View.step env {v with pend := a} r bs)
      (View.step env {v with pend := b} r bs) := by
  by_cases ends : v.pr = rune '*' ∧ r = rune '/'
  · apply Told.skip (fun w => {w with s := .unknown}) (.beside {v with s := .unknown} calm)
    intro t
    simp [View.skipPart,View.skipComment,state,ends]
  · apply Told.skip (fun w => {w with pr := r}) (.beside {v with pr := r} calm)
    intro t
    simp [View.skipPart,View.skipComment,state,ends]

theorem line_told (env : Env) (v : View) (r : Nat) (bs a b : Bytes) (calm : v.plan = none)
    (state : v.s = .inOLC) :
    Told .kept (a ++ bs) (b ++ bs) (View.step env {v with pend := a} r bs)
      (View.step env {v with pend := b} r bs) := by
  by_cases ends : r = 0x0A
  · apply Told.skip (fun w => {w with s := .unknown}) (.beside {v with s := .unknown} calm)
    intro t
    simp [View.skipPart,state,ends]
  · apply Told.skip id (.beside v calm)
    intro t
    simp [View.skipPart,state,ends]

theorem calm_skips {s : State} (quote : s ≠ .inQuote) (ticks : s ≠ .inBackticks)
    (word : s ≠ .inNumberInWord) (number : s ≠ .inNumber)
    (values : s ≠ .inValues) (comment : s ≠ .inMLC) (code : s ≠ .mlcOrMySQLCode)
    (line : s ≠ .inOLC) : skips s = false := by
  cases s <;> first | rfl | contradiction

-- A step on pending text that is no list word does what its fate says.
theorem step_told (env : Env) (v : View) (r : Nat) (bs a b : Bytes)
    (left : wordIn env.lower a listWords = false)
    (right : wordIn env.lower b listWords = false) :
    Told (fate env v r) (a ++ bs) (b ++ bs) (View.step env {v with pend := a} r bs)
      (View.step env {v with pend := b} r bs) := by
  by_cases calm : v.plan = none
  · rw [fate,if_pos calm,stateFate]
    split
    case h_1 state =>
      apply Told.skip (fun w => w.skipQuote r bs) (skipQuote_told v r bs a b calm)
      intro t
      simp [View.skipPart,state]
    case h_2 state =>
      apply Told.skip (fun w => w.skipBackticks r) (skipBackticks_told v r bs a b calm)
      intro t
      simp [View.skipPart,state]
    case h_3 state => exact numberInWord_told env v r bs a b calm state
    case h_4 state => exact number_told env v r bs a b calm state
    case h_5 state =>
      apply Told.skip (fun w => w.skipValues r bs) (skipValues_told v r bs a b calm)
      intro t
      simp [View.skipPart,state]
    case h_6 state => exact comment_told env v r bs a b calm state
    case h_7 state => exact code_told env v r bs a b calm state
    case h_8 state => exact line_told env v r bs a b calm state
    case h_9 quote ticks word number values comment code line =>
      exact calm_told env v r bs a b calm
        (calm_skips quote ticks word number values comment code line) left right
  · rw [fate,if_neg calm]
    trivial

-- No text that goes on from this one is a list word.
def Unlisted (env : Env) (text : Bytes) : Prop := ∀ more,wordIn env.lower (text ++ more) listWords = false

-- Whether the pending text is forgotten before anything reads it.
def unread (env : Env) : List (Nat × Bytes) → View → Bool
  | [],_ => true
  | piece :: rest,v =>
    match fate env v piece.1 with
    | .dropped => true
    | .used => false
    | .kept =>
      match v.step env piece.1 piece.2 with
      | .ok w => unread env rest w
      | .error _ => true

theorem unread_run (env : Env) (pieces : List (Nat × Bytes)) (v : View)
    (free : unread env pieces v = true) (unlisted : Unlisted env v.pend)
    (other : Unlisted env b) : Same (View.run env pieces v) (View.run env pieces {v with pend := b}) := by
  induction pieces generalizing v b with
  | nil => exact .ok rfl
  | cons piece rest ih =>
    have told :=
      step_told env v piece.1 piece.2 v.pend b (List.append_nil v.pend ▸ unlisted [])
        (List.append_nil b ▸ other [])
    rw [unread] at free
    rw [View.run,View.run]
    cases own : fate env v piece.1 with
    | dropped =>
      rw [own] at told
      rw [show View.step env {v with pend := b} piece.1 piece.2 =
        View.step env v piece.1 piece.2 from told.symm]
      exact .refl _
    | used =>
      rw [own] at free
      cases free
    | kept =>
      rw [own] at told free
      change Beside _ _ (View.step env v piece.1 piece.2) _ at told
      generalize one : View.step env v piece.1 piece.2 = turn at told free ⊢
      generalize two : View.step env {v with pend := b} piece.1 piece.2 = turn' at told ⊢
      cases told with
      | ok u calm =>
        refine ih {u with pend := v.pend ++ piece.2} free ?_ ?_
        · intro more
          rw [List.append_assoc]
          exact unlisted _
        · intro more
          rw [List.append_assoc]
          exact other _
      | error u exit => exact .error

theorem unread_pend (env : Env) (pieces : List (Nat × Bytes)) (v : View) (left : Unlisted env a)
    (right : Unlisted env b) :
    unread env pieces {v with pend := a} = unread env pieces {v with pend := b} := by
  induction pieces generalizing v a b with
  | nil => rfl
  | cons piece rest ih =>
    have told :=
      step_told env v piece.1 piece.2 a b (List.append_nil a ▸ left []) (List.append_nil b ▸ right [])
    rw [unread,unread]
    have same (t : Bytes) : fate env {v with pend := t} piece.1 = fate env v piece.1 := rfl
    rw [same a,same b]
    cases own : fate env v piece.1 with
    | dropped => rfl
    | used => rfl
    | kept =>
      rw [own] at told
      change Beside _ _ _ _ at told
      dsimp only
      generalize View.step env {v with pend := a} piece.1 piece.2 = one at told ⊢
      generalize View.step env {v with pend := b} piece.1 piece.2 = two at told ⊢
      cases told with
      | ok u calm =>
        apply ih
        · intro more
          rw [List.append_assoc]
          exact left _
        · intro more
          rw [List.append_assoc]
          exact right _
      | error u exit => rfl

end SqlReview.FingerprintPending
