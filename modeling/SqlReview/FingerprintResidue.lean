import SqlReview.FingerprintEscape
import SqlReview.FingerprintGaps
import SqlReview.FingerprintLag
import SqlReview.FingerprintRows

-- The five runes of a residue beside the one rune of its operator.
namespace SqlReview.FingerprintResidue
open GoBytes GoSpace ListSwap Unescape Fingerprint FingerprintView FingerprintLiteral
  FingerprintPending FingerprintRegular FingerprintNumber
open FingerprintRows FingerprintTwin FingerprintSigns FingerprintEscape FingerprintSlack FingerprintLag

-- The bytes of residues and of operators.
def marks : Bytes := [0x75,0x30,0x33,0x65,0x63]
def signs : Bytes := [0x3E,0x3C]

-- None of them ends a literal, a name, a row or a comment.
theorem marks_inner : ∀ b ∈ marks ++ signs,¬ b.toNat = rune '\\' ∧ b.toNat ≠ rune '\x60' ∧
    ¬ b.toNat = rune ')' ∧ ¬ b.toNat = rune '(' ∧ ¬ (b.toNat = rune '\'' ∨ b.toNat = rune '"') ∧
    ¬ isSpace b.toNat = true ∧ ¬ b.toNat = 0x0A ∧ ¬ b.toNat = rune '/' ∧ b.toNat ≠ rune '!' := by decide +kernel

theorem marks_word : ∀ b ∈ marks,(isLetter b = true ∨ isDigit b.toNat = true) ∧ isSpace b.toNat = false ∧
    b.toNat ≠ rune '(' ∧ b.toNat ≠ rune ',' := by decide +kernel

-- The view with `s` more pending text, behind the rune `pr`.
def grow (pr : Nat) (state : State) (s : Bytes) (v : View) : View :=
  View.advance {v.read s with pr := pr,s := state} s

theorem grow_grow (v : View) : grow p q s (grow p' q' t v) = grow p q (t ++ s) v := by
  simp only [grow,View.advance,View.read,List.length_append,List.append_assoc]
  congr 1 <;> omega

theorem marks_run (env : Env) {v : View} {s : Bytes} {b : UInt8} (holds : View → Prop)
    (follows : Nat → Nat) (state : State)
    (step : ∀ u,holds u → ∀ b ∈ marks,View.step env u b.toNat [b] = .ok (grow (follows b.toNat) state [b] u))
    (keeps : ∀ u,holds u → ∀ b ∈ marks,∀ s,holds (grow (follows b.toNat) state s u))
    (start : holds v) (own : ∀ c ∈ s ++ [b],c ∈ marks) :
    View.run env ((s ++ [b]).map fun b => (b.toNat,[b])) v =
      .ok (grow (follows b.toNat) state (s ++ [b]) v) := by
  induction s generalizing v with
  | nil => exact run_step (step v start b (own b (List.mem_singleton.mpr rfl))) []
  | cons c s ih =>
    obtain ⟨first,later⟩ := List.forall_mem_cons.mp own
    have rest := ih (keeps v start c first [c]) later
    rw [grow_grow] at rest
    rw [List.cons_append,List.map_cons,run_step (step v start c first)]
    exact rest

-- In literals, names, rows and comments on a line, nothing happens.
def inert (v : View) : Bool :=
  match v.s with
  | .inQuote | .inBackticks => !v.escape
  | .inValues => 0 < v.parOpen
  | .inOLC => true
  | _ => false

theorem inert_part {v : View} {b : UInt8} (char : v.s = .inQuote → isQuote v.quoteChar)
    (still : inert v = true) (mark : b ∈ marks ++ signs) :
    (v.read [b]).skipPart b.toNat [b] = .skip (v.read [b]) := by
  obtain ⟨slash,tick,shut,opens,quote,space,line,_⟩ := marks_inner b mark
  unfold inert at still
  cases state : v.s with
  | inQuote =>
    rw [state] at still
    have other : b.toNat ≠ v.quoteChar := fun same => quote (same ▸ char state)
    have plain : ¬ v.escape = true := by simpa using still
    rw [skipPart_inQuote (v.read [b]) b.toNat [b] state,View.skipQuote,if_pos (by exact other),
      if_neg (by exact plain),if_neg slash]
  | inBackticks =>
    rw [state] at still
    have plain : ¬ v.escape = true := by simpa using still
    rw [skipPart_inBackticks (v.read [b]) b.toNat [b] state,View.skipBackticks,if_pos tick,
      if_neg (by exact plain),if_neg slash]
  | inValues =>
    rw [state] at still
    have inside : 0 < v.parOpen := by simpa using still
    rw [skipPart_inValues (v.read [b]) b.toNat [b] state,View.skipValues,if_neg shut,if_neg opens,
      if_neg quote,if_neg space,View.balanceValues,if_pos (by exact inside)]
  | inOLC =>
    rw [skipPart_inOLC (v.read [b]) b.toNat [b] state,if_neg line]
  | _ =>
    rw [state] at still
    cases still

theorem inert_step {v : View} {b : UInt8} (env : Env) (char : v.s = .inQuote → isQuote v.quoteChar)
    (still : inert v = true) (mark : b ∈ marks ++ signs) :
    View.step env v b.toNat [b] = .ok (grow v.pr v.s [b] v) := by
  rw [step_skips (inert_part char still mark)]
  rfl

-- In a comment only the previous rune is noted.
theorem comment_step {v : View} {b : UInt8} (env : Env)
    (state : v.s = .inMLC ∨ v.s = .mlcOrMySQLCode) (mark : b ∈ marks ++ signs) :
    View.step env v b.toNat [b] = .ok (grow b.toNat .inMLC [b] v) := by
  obtain ⟨_,_,_,_,_,_,_,slash,bang⟩ := marks_inner b mark
  have part : (v.read [b]).skipPart b.toNat [b] = .skip {v.read [b] with pr := b.toNat,s := .inMLC} := by
    rcases state with state | state
    · rw [skipPart_inMLC (v.read [b]) b.toNat [b] state,View.skipComment,if_neg fun both =>
        slash both.2,← state]
      rfl
    · rw [skipPart_mlcOrMySQLCode (v.read [b]) b.toNat [b] state,if_pos bang]
  rw [step_skips part]
  rfl

-- In a word, behind another character than "(" and ",", letters and digits go on.
structure Inside (v : View) : Prop where
  word : v.s = .inWord
  plan : v.plan = none
  par : v.pr ≠ rune '('
  comma : v.pr ≠ rune ','

theorem before_step {v : View} {b : UInt8} (env : Env) (regular : Regular v)
    (state : v.s = .inValues) (shut : v.parOpen ≤ 0)
    (mark : b ∈ marks ++ signs) : View.step env v b.toNat [b] = .ok (grow v.pr .inWord [b] v) := by
  obtain ⟨_,_,closes,opens,quote,space,_⟩ := marks_inner b mark
  have part : (v.read [b]).skipPart b.toNat [b] = .skip {v.read [b] with s := .inWord} := by
    rw [skipPart_inValues (v.read [b]) b.toNat [b] state,View.skipValues,if_neg closes,if_neg opens,
      if_neg quote,if_neg space,
      View.balanceValues,if_neg (by exact Int.not_lt.mpr shut),if_pos (by exact regular.balance shut)]
  rw [step_skips part]
  rfl

theorem inside_step {u : View} {b : UInt8} (digits : env.replaceNumbersInWords = false)
    (inside : Inside u) (mark : b ∈ marks) :
    View.step env u b.toNat [b] = .ok (grow b.toNat .inWord [b] u) := by
  obtain ⟨kinds,ink,_,_⟩ := marks_word b mark
  have changed : View.changeState env (u.read [b]) b.toNat [b] = .ok {u.read [b] with s := .inWord} := by
    rcases kinds with letter | digit
    · rw [letter_changes env _ [b] letter,View.onOther,if_neg fun both => both.1 inside.word]
    · have same : (u.read [b]) = {u.read [b] with s := .inWord} := by rw [← inside.word]; rfl
      rw [View.changeState,if_pos digit,onDigit_eq,
        if_neg (by rw [show (u.read [b]).s = .inWord from inside.word]; decide),
        if_pos (by exact inside.word),if_neg (by exact inside.par),if_neg (by exact inside.comma),
          if_neg (by rw [digits]; exact Bool.false_ne_true),← same]
  have step := calm_step (by rw [inside.word]; rfl) (by rw [ink]; rfl) changed
  rw [View.finish,copySlice_calm env {u.read [b] with s := .inWord} [b] inside.plan] at step
  rw [step]
  have plan : u.plan = none := inside.plan
  simp [grow,View.read,plan]

-- The text that is due at the head of an iteration is a name in backticks.
def settle (env : Env) (v : View) : View :=
  if v.plan = none then v
  else {v with
    prevWord := toLower env.lower v.pend,
    out := v.out ++ fit v.pend.length (toLower env.lower v.pend),pend := []}

-- Where a residue or an operator begins.
def opened (v : View) : View := if v.s = .inWord ∨ v.s = .inOp then v else {v with pend := []}

theorem copySlice_settle (env : Env) {v : View} (bs : Bytes) (s : State)
    (tick : v.plan = none ∨ (v.plan = some 0 ∧ byte '\x60' ∈ v.pend))
    (add : v.plan = none ∨ v.addSpace = false) : View.copySlice env {v.read bs with s := s} bs =
    {(settle env v).read bs with s := s} := by
  rcases tick with none_ | ⟨plan,mem⟩
  · rw [copySlice_calm env {v.read bs with s := s} bs none_,settle,if_pos none_]
  · have none_ : ¬ v.plan = none := by rw [plan]; exact Option.some_ne_none _
    have add := add.resolve_left none_
    have due : View.due {v.read bs with s := s} bs = v.pend.length :=
      due_split (u := {v.read bs with s := s}) plan rfl
    have some_ : 0 < v.pend.length := List.length_pos_of_mem mem
    have slice : (v.read bs).pend.take v.pend.length = v.pend := List.take_left
    have rest : (v.read bs).pend.drop v.pend.length = bs := List.drop_left
    have tick : foreign listWords (byte '\x60') = true := by decide
    have unlisted := foreign_wordIn tick (foreign_lower tick mem env.lower) env.lower
    unfold View.copySlice
    dsimp only
    rw [due,if_pos some_,slice]
    unfold View.copyWord
    dsimp only
    rw [rest,View.afterCopy,if_neg (by rw [unlisted]; exact fun both => Bool.false_ne_true both.1),
      if_neg (by rw [show (v.read bs).addSpace = false from add]; exact Bool.false_ne_true),settle,
      if_neg none_]
    rfl

-- What the first rune of a residue meets: no text with a space due behind it.
def starts (v : View) : Bool := if v.s = .inWord ∨ v.s = .inOp then v.plan = none || !v.addSpace else true

-- The first letter of a word forgets the rows read before it.
def cleared (v : View) : View :=
  if v.s = .inWord ∨ v.s = .inOp then v
  else {v with valueNo := 0,sqlState := if v.sqlState = .inValues then .unknown else v.sqlState}

-- A name in backticks that is due is the same in both runs, or not longer in lower case.
def fitsAlike (env : Env) (v w : View) : Bool :=
  v.plan = none || v.pend = w.pend || (toLower env.lower v.pend).length ≤ v.pend.length

theorem opened_plan {v : View} (regular : Regular v) (signed : Signed v) :
    (opened v).plan = none ∨ ((opened v).plan = some 0 ∧ byte '\x60' ∈ (opened v).pend) := by
  unfold opened
  split
  · exact signed.tick
  · rename_i other
    exact .inl (regular.plan fun word => other (.inl word))

theorem opened_space {v : View} (regular : Regular v) (starts_ : starts v = true) :
    (opened v).plan = none ∨ (opened v).addSpace = false := by
  unfold opened
  unfold starts at starts_
  split
  · rename_i word
    rw [if_pos word,Bool.or_eq_true] at starts_
    rcases starts_ with plan | add
    · exact .inl (by simpa using plan)
    · exact .inr (by simpa using add)
  · rename_i other
    exact .inl (regular.plan fun word => other (.inl word))

theorem begins_step {v : View} {r : Nat} {bs : Bytes} {s : State} (regular : Regular v)
    (signed : Signed v) (calm : skips v.s = false) (starts_ : starts v = true)
    (ink : isSpace r = false)
    (changed : View.changeState env (v.read bs) r bs = .ok {(opened v).read bs with s := s}) :
    View.step env v r bs = .ok (grow r s bs {settle env (opened v) with plan := none}) := by
  have step := calm_step calm (by rw [ink]; rfl) changed
  rw [View.finish,copySlice_settle env bs s (opened_plan regular signed)
    (opened_space regular starts_)] at step
  exact step

theorem letter_begins (env : Env) {v : View} {b : UInt8} (regular : Regular v) (signed : Signed v)
    (calm : skips v.s = false) (starts_ : starts v = true) (forgot : cleared v = v)
    (letter : isLetter b = true) :
    View.step env v b.toNat [b] =
      .ok (grow b.toNat .inWord [b] {settle env (opened v) with plan := none}) := by
  apply begins_step regular signed calm starts_ (letter_other b letter).2.1
  rw [letter_changes env _ [b] letter]
  unfold View.onOther opened
  by_cases word : v.s = .inWord ∨ v.s = .inOp
  · rw [if_neg fun both => word.elim both.1 both.2,if_pos word]
  · rw [cleared,if_neg word] at forgot
    have fresh : (v.read [b]).s ≠ .inWord ∧ (v.read [b]).s ≠ .inOp := not_or.mp word
    rw [if_pos fresh,if_neg word]
    exact congrArg (fun u : View => Except.ok {u with pend := [b],s := .inWord}) forgot

theorem operator_begins (env : Env) {v : View} (regular : Regular v) (signed : Signed v)
    (calm : skips v.s = false) (starts_ : starts v = true) (g : Bool) :
    View.step env v (sign g).toNat [sign g] =
      .ok (grow (sign g).toNat .inOp [sign g] {settle env (opened v) with plan := none}) := by
  apply begins_step regular signed calm starts_ (by cases g <;> rfl)
  have changes : View.changeState env (v.read [sign g]) (sign g).toNat [sign g] =
      .ok ((v.read [sign g]).onOperator [sign g]) := by
    cases g <;> rfl
  rw [changes]
  unfold View.onOperator opened
  by_cases word : v.s = .inWord ∨ v.s = .inOp
  · rw [if_neg fun both => word.elim both.1 both.2,if_pos word]
  · have fresh : (v.read [sign g]).s ≠ .inWord ∧ (v.read [sign g]).s ≠ .inOp := not_or.mp word
    rw [if_pos fresh,if_neg word]
    rfl

-- Behind a residue and its operator: one run is in a word, the other behind an operator.
structure Behind (v w : View) : Prop where
  word : v.s = .inWord
  operator : w.s = .inOp
  sign : ∃ g,w.pr = (sign g).toNat
  twin : Twin escaped v {w with s := .inWord}

-- The second view at the distances of the first.
def level (v w : View) : View := {w with far := v.far,gap := v.gap,marked := v.marked}

structure Linked (v w : View) : Prop where
  left : Good v
  right : Good w
  gap : v.gap = w.gap ∨ (1 ≤ v.gap ∧ 1 ≤ w.gap)
  list : v.s = .inValues → v.gap = w.gap ∧ 1 ≤ v.gap
  views : Twin escaped v (level v w) ∨ Behind v (level v w)

-- Two outcomes with related views, or with one reason to stop.
inductive Joined (R : View → View → Prop) : Except Stop View → Except Stop View → Prop where
  | ok : R v w → Joined R (.ok v) (.ok w)
  | error (exit : Exit) : Joined R (.error ⟨v,exit⟩) (.error ⟨w,exit⟩)
  | call : Unescapes a b → Joined R (.error ⟨v,.callProc a⟩) (.error ⟨w,.callProc b⟩)

theorem Joined.bind {R : View → View → Prop} {k k' : View → Except Stop View} {one two : Except Stop View}
    (joined : Joined R one two)
    (next : ∀ v w,one = .ok v → two = .ok w → R v w → Joined R (k v) (k' w)) :
    Joined R (one >>= k) (two >>= k') := by
  cases joined with
  | ok linked => exact next _ _ rfl rfl linked
  | error exit => exact .error exit
  | call texts => exact .call texts

theorem level_slack (linked : Linked v w) : Slack (level v w) w := ⟨rfl,.inl rfl,linked.gap⟩

theorem level_good (linked : Linked v w) : Good (level v w) :=
  have regular := linked.right.regular
  have signed := linked.right.signed
  ⟨⟨regular.plan,regular.quote,regular.spaced,regular.values,regular.balance,regular.escape⟩,
    ⟨signed.sign,signed.dash,signed.minus,signed.tick⟩⟩

theorem follows_slack (follows : Follows p q)
    (slack : q = r ∨ (isSpace q = true ∧ isSpace r = true)) : Follows p r := by
  rcases slack with rfl | ⟨middle,right⟩
  · exact follows
  · rcases follows with rfl | ⟨g,last,_⟩ | ⟨left,_⟩
    · exact .inr (.inr ⟨middle,right⟩)
    · exact .inr (.inl ⟨g,last,space_quiet right⟩)
    · exact .inr (.inr ⟨left,right⟩)

theorem twin_level {v u w : View} (twin : Twin escaped v u) (slack : Slack u w) :
    Twin escaped v (level v w) := by
  have control : level v w = {u with pr := w.pr} := by
    rw [level,slack.control,twin.control]
  rw [control]
  exact twin.setPr (follows_slack twin.pr slack.pr)

theorem paired_joined (paired : Paired escaped one two) (turned : Turned two three)
    (left : ∀ v,one = .ok v → Good v ∧ 1 ≤ v.gap)
    (right : ∀ w,three = .ok w → Good w) : Joined Linked one three := by
  cases paired with
  | @ok v u twin =>
    cases turned with
    | @ok _ w slack gap =>
      have same : v.gap = w.gap := twin.gap.symm.trans gap
      exact .ok ⟨(left v rfl).1,right w rfl,.inl same,fun _ => ⟨same,(left v rfl).2⟩,
        .inl (twin_level twin slack)⟩
  | error exit =>
    cases turned
    exact .error exit
  | call texts =>
    cases turned
    exact .call texts

-- Behind a residue no digit, no point and no opening parenthesis follows, but for that of a CALL; a
-- residue in front of a list is not followed by whitespace; and a "-- " is met with the same answer
-- to cpToOffset > 2, or with nothing before it to copy.
def pieceSafe (env : Env) (v w : View) (piece : Nat × Bytes) : Bool :=
  (v.s = w.s || !(isDigit piece.1 || piece.1 = rune '.' ||
    (piece.1 = rune '(' && v.prevWord ≠ str "call"))) &&
  (!isSpace piece.1 || isSpace v.pr = isSpace w.pr) &&
  (v.marked = w.marked || !(isSpace piece.1 && v.s = .inDash) || v.pend.length ≤ 2) &&
  copiesAlike env v {w with s := v.s} piece.1 piece.2

theorem sign_other (g : Bool) : isSpace (sign g).toNat = false ∧ (sign g).toNat ≠ rune '\\' ∧
    (sign g).toNat ≠ rune '-' := by
  cases g <;> decide

theorem behind_good {v w : View} (good : Good w) (behind : Behind v w) : Good {w with s := .inWord} := by
  obtain ⟨g,pr⟩ := behind.sign
  obtain ⟨ink,_,dash⟩ := sign_other g
  obtain ⟨regular,signed⟩ := good
  refine ⟨⟨nofun,nofun,fun space => ?_,nofun,regular.balance,?_⟩,⟨nofun,nofun,fun minus => ?_,signed.tick⟩⟩
  · change isSpace w.pr = true at space
    rw [pr,ink] at space
    cases space
  · intro _ _
    exact regular.escape (by rw [behind.operator]; exact nofun) (by rw [behind.operator]; exact nofun)
  · exact absurd (pr.symm.trans minus) dash

theorem swaps_short (swaps : Unescapes a b) (short : a.length ≤ 2) : a = b := by
  cases swaps with
  | text _ => rfl
  | more s g _ =>
    rw [residue_eq] at short
    simp only [List.length_append,List.length_cons] at short
    omega

theorem copied_slack {v w : View} (slack : Slack v w) (env : Env) (bs : Bytes)
    (marked : isSpace r = true → v.s = .inDash → v.marked = w.marked)
    (gap : v.s = .inValues → v.gap = w.gap) : v.copied env r bs = w.copied env r bs := by
  have parts := skipPart_slack (slack.read bs) bs marked gap
  unfold View.copied
  generalize (v.read bs).skipPart r bs = one at parts ⊢
  generalize (w.read bs).skipPart r bs = two at parts ⊢
  cases parts with
  | skip _ => rfl
  | @through a b slack marked =>
    have changed := changeState_slack slack env r bs marked
    dsimp only
    generalize a.changeState env r bs = one at changed ⊢
    generalize b.changeState env r bs = two at changed ⊢
    cases changed with
    | ok slack =>
      dsimp only
      rw [View.due,View.due,slack.plan,slack.pend]
    | error exit => rfl

-- Two "-- " with nothing before them to copy.
theorem dash_joined {v w : View} (linked : Linked v w) (piece : Piece r bs) (some_ : bs ≠ [])
    (state : v.s = .inDash) (space : isSpace r = true)
    (short : v.pend.length ≤ 2) : Joined Linked (View.step env v r bs) (View.step env w r bs) := by
  have twin : Twin escaped v (level v w) := linked.views.resolve_right fun behind => by
    have word := behind.word
    rw [state] at word
    cases word
  have texts : Unescapes v.pend w.pend := twin.pend
  have state' : w.s = .inDash := twin.s.trans state
  have first : View.step env v r bs =
      .ok (View.advance {v.read bs with s := .inOLC,pr := r,plan := none} bs) :=
    FingerprintGaps.dash_short env linked.left.regular state space short
  have second : View.step env w r bs =
      .ok (View.advance {w.read bs with s := .inOLC,pr := r,plan := none} bs) :=
    FingerprintGaps.dash_short env linked.right.regular state' space (swaps_short texts short ▸ short)
  have one := (step_gap first some_).1
  have two := (step_gap second some_).1
  have good := step_good linked.left piece first
  have good' := step_good linked.right piece second
  rw [first,second]
  refine .ok ⟨good,good',.inr ⟨one,two⟩,nofun,.inl ?_⟩
  exact ((twin.setPend (texts.append (.text bs))).setPr (.inl rfl)).set
    (fun u => {u with
      s := .inOLC,plan := none,far := min 4 (v.far+bs.length),
      gap := min 2 (v.gap+bs.length)}) fun _ _ _ _ _ _ => rfl

theorem piece_joined {v w : View} (linked : Linked v w) (piece : Piece r bs) (some_ : bs ≠ [])
    (safe : pieceSafe env v w (r,bs) = true) :
    Joined Linked (View.step env v r bs) (View.step env w r bs) := by
  simp only [pieceSafe,Bool.and_eq_true] at safe
  obtain ⟨⟨⟨follows,spaces⟩,marks⟩,copies⟩ := safe
  by_cases early : v.marked ≠ w.marked ∧ isSpace r = true ∧ v.s = .inDash
  · obtain ⟨differ,space,state⟩ := early
    exact dash_joined linked piece some_ state space (by simpa [differ,space,state] using marks)
  have spaces : isSpace r = true → isSpace v.pr = isSpace w.pr := by
    intro space
    simpa [space] using spaces
  have slack := level_slack linked
  have good := level_good linked
  have state (s : State) (outside : s ≠ .inOp) (here : w.s = s) : v.s = s := by
    rcases linked.views with twin | behind
    · exact twin.s.symm.trans here
    · exact absurd (here.symm.trans behind.operator) outside
  have marked : isSpace r = true → w.s = .inDash → v.marked = w.marked := by
    intro space dash
    by_contra differ
    exact early ⟨differ,space,state _ nofun dash⟩
  have list : w.s = .inValues → v.gap = w.gap := fun here => (linked.list (state _ nofun here)).1
  have same : View.copied env {level v w with s := v.s} r bs = View.copied env {w with s := v.s} r bs := by
    apply copied_slack (slack.setState v.s) env bs
    · intro space dash
      by_contra differ
      exact early ⟨differ,space,dash⟩
    · exact fun here => (linked.list here).1
  have copies : copiesAlike env v {level v w with s := v.s} r bs = true := by
    unfold copiesAlike at copies ⊢
    rw [same]
    exact copies
  have turned := step_slack slack env some_ (r := r) marked list
  refine paired_joined ?_ turned
    (fun u step => ⟨step_good linked.left piece step,(step_gap step some_).1⟩) fun u step =>
    step_good linked.right piece step
  rcases linked.views with twin | behind
  · have same : ({level v w with s := v.s} : View) = level v w := by rw [← twin.s]
    rw [same] at copies
    exact step_escaped linked.left good twin piece spaces copies
  · obtain ⟨g,pr⟩ := behind.sign
    obtain ⟨ink,slash,_⟩ := sign_other g
    have other : ¬ v.s = w.s := by
      rw [behind.word]
      exact fun same => absurd (same.trans behind.operator) nofun
    rw [behind.word] at copies
    simp only [other,decide_false,Bool.false_or,Bool.not_eq_true',Bool.or_eq_false_iff,
      decide_eq_false_iff_not,Bool.and_eq_false_iff] at follows
    obtain ⟨⟨digit,dot⟩,par⟩ := follows
    have call : r = rune '(' → w.prevWord = str "call" := by
      intro opens
      have named : v.prevWord = str "call" := by simpa [opens] using par
      exact (prev_iff (escaped_lawful env) behind.twin (by decide)).mp named
    have paired := step_escaped linked.left (behind_good good behind) behind.twin piece spaces copies
    exact outcome_paired paired (operator_step env bs behind.operator (by rw [pr]; exact ink)
      (by rw [pr]; exact slash) digit dot call).symm

theorem run_good {v w : View} (good : Good v)
    (pieces : ∀ piece ∈ ps,Piece piece.1 piece.2 ∧ piece.2 ≠ []) (run : View.run env ps v = .ok w) :
    Good w := by
  induction ps generalizing v with
  | nil =>
    cases run
    exact good
  | cons piece rest ih =>
    obtain ⟨first,later⟩ := List.forall_mem_cons.mp pieces
    rw [View.run] at run
    cases step : v.step env piece.1 piece.2 with
    | error stop =>
      rw [step] at run
      cases run
    | ok u =>
      rw [step] at run
      exact ih (step_good good first.1 step) later run

theorem text_pieces (s : Bytes) : ∀ piece ∈ runes s,Piece piece.1 piece.2 ∧ piece.2 ≠ [] := by
  intro piece mem
  obtain ⟨some_,ascii⟩ := runes_piece s piece mem
  exact ⟨ascii,List.length_pos_iff.mp some_⟩

-- The residue and its operator are read from related views.
theorem grow_twin {a b : View} (twin : Twin escaped a (level a {b with s := a.s}))
    (follows : Follows p p') (s : State) (g : Bool) :
    Twin escaped (grow p s (residue g) a) (level (grow p s (residue g) a) (grow p' s (operator g) b)) := by
  have texts : Unescapes (a.pend ++ residue g) (b.pend ++ operator g) :=
    (twin.pend : Unescapes a.pend b.pend).append (swaps_one g)
  refine ⟨texts,twin.out,twin.word,follows,twin.char,?_⟩
  have control := twin.control
  have grown : level (grow p s (residue g) a) (grow p' s (operator g) b) =
      {level a {b with s := a.s} with
        pend := b.pend ++ operator g,pr := p',s := s,far := min 4 (a.far+(residue g).length),
        gap := min 2 (a.gap+(residue g).length)} := rfl
  rw [grown,control]
  rfl

theorem opened_twin (twin : Twin escaped v w) : Twin escaped (opened v) (opened w) :=
  twin_ite (by rw [twin.s]) (fun _ => twin) fun _ => twin.setPend (.text [])

theorem settle_twin {v w : View} (env : Env) (twin : Twin escaped v w)
    (fits : v.plan = none ∨ v.pend = w.pend ∨ (toLower env.lower v.pend).length ≤ v.pend.length) :
    Twin escaped (settle env v) (settle env w) := by
  refine twin_ite (by rw [twin.plan]) (fun _ => twin) fun planned => ?_
  have pend : Unescapes v.pend w.pend := twin.pend
  refine ((twin.setWord (toLower_swaps pend env.lower)).setOut ?_).setPend (.text [])
  exact (twin.out : Unescapes v.out w.out).append (fit_swaps pend env.lower (fits.resolve_left planned))

section
variable (env : Env) (v : View)

theorem settle_far : (settle env (opened v)).far = v.far := by
  unfold settle opened
  split <;> split <;> rfl

theorem settle_gap : (settle env (opened v)).gap = v.gap := by
  unfold settle opened
  split <;> split <;> rfl

theorem settle_marked : (settle env (opened v)).marked = v.marked := by
  unfold settle opened
  split <;> split <;> rfl

theorem settle_s : (settle env (opened v)).s = v.s := by
  unfold settle opened
  split <;> split <;> rfl

theorem opened_level (w : View) : opened (level v w) = level v (opened w) := by
  unfold opened
  by_cases word : w.s = .inWord ∨ w.s = .inOp
  · rw [if_pos word,if_pos (by exact word)]
  · rw [if_neg word,if_neg (by exact word)]
    rfl

theorem settle_level (w : View) : settle env (level v w) = level v (settle env w) := by
  unfold settle
  by_cases plan : w.plan = none
  · rw [if_pos plan,if_pos (by exact plan)]
  · rw [if_neg plan,if_neg (by exact plan)]
    rfl
end

theorem opened_fits {v w : View} (regular : Regular v) (twin : Twin escaped v w)
    (fits : fitsAlike env v w = true) :
    (opened v).plan = none ∨ (opened v).pend = (opened w).pend ∨
      (toLower env.lower (opened v).pend).length ≤ (opened v).pend.length := by
  unfold opened
  rw [twin.s]
  split
  · simpa [fitsAlike,or_assoc] using fits
  · rename_i other
    exact .inl (regular.plan fun word => other (.inl word))

theorem starts_twin {v w : View} (twin : Twin escaped v w) : starts v = starts w := by
  unfold starts
  rw [twin.s,twin.plan,twin.addSpace]

-- Behind IN and VALUES, before a parenthesis: a letter or an operator begins a word, and the
-- previous rune stays.
def before (v w : View) : Bool := v.s = .inValues && v.parOpen ≤ 0 && quiet w.pr

-- Where nothing happens, in a comment, and in front of a list.
def stays (env : Env) (v w : View) : Bool :=
  inert v || v.s = .inMLC || v.s = .mlcOrMySQLCode || (!env.replaceNumbersInWords && before v w)

-- Where a word or an operator goes on or begins.
def opens (env : Env) (v w : View) : Bool :=
  !env.replaceNumbersInWords && !skips v.s && starts v && fitsAlike env v w

theorem last_mark (g : Bool) : ∀ c ∈ ([0x75,0x30,0x30,0x33] : Bytes) ++ [last g],c ∈ marks := by
  cases g <;> simp [marks,last]

theorem sign_mark (g : Bool) : sign g ∈ marks ++ signs := by
  cases g <;> decide

section
variable {env : Env} {v w : View} (g : Bool)

theorem operator_run (step : View.step env w (sign g).toNat [sign g] = .ok u) :
    View.run env (runes (operator g)) w = .ok u := by
  rw [operator_runes]
  exact run_step step []

theorem inert_residue (char : v.s = .inQuote → isQuote v.quoteChar) (still : inert v = true) :
    View.run env (runes (residue g)) v = .ok (grow v.pr v.s (residue g) v) := by
  have run :=
    marks_run env (fun u => u.s = v.s ∧ u.pr = v.pr ∧ u.quoteChar = v.quoteChar ∧
      u.escape = v.escape ∧ u.parOpen = v.parOpen)
    (fun _ => v.pr) v.s ?step ?keeps ⟨rfl,rfl,rfl,rfl,rfl⟩ (last_mark g)
  · rw [residue_runes,run,residue_eq]
    rfl
  case step =>
    rintro u ⟨state,pr,quote,escape,open_⟩ b mark
    have same : inert u = inert v := by rw [inert,inert,state,escape,open_]
    rw [← state,← pr]
    apply inert_step env _ (same.trans still) (List.mem_append_left _ mark)
    rw [state,quote]
    exact char
  case keeps =>
    rintro u ⟨_,_,quote,escape,open_⟩ b _ s
    exact ⟨rfl,rfl,quote,escape,open_⟩

theorem comment_residue (state : v.s = .inMLC ∨ v.s = .mlcOrMySQLCode) :
    View.run env (runes (residue g)) v = .ok (grow (last g).toNat .inMLC (residue g) v) := by
  have run := marks_run env (fun u => u.s = .inMLC ∨ u.s = .mlcOrMySQLCode) id .inMLC
    (fun u state b mark => comment_step env state (List.mem_append_left _ mark))
      (fun _ _ _ _ _ => .inl rfl) state (last_mark g)
  rw [residue_runes,run,residue_eq]
  rfl

-- The runes behind the first of a residue go on with its word.
theorem rest_residue {u : View} (digits : env.replaceNumbersInWords = false)
    (inside : Inside (grow r .inWord [0x75] u)) :
    View.run env ((([0x30,0x30,0x33] : Bytes) ++ [last g]).map fun b => (b.toNat,[b]))
      (grow r .inWord [0x75] u) =
      .ok (grow (last g).toNat .inWord (residue g) u) := by
  have run := marks_run env (v := grow r .inWord [0x75] u) Inside id .inWord
    (s := [0x30,0x30,0x33]) (b := last g) (fun u inside b mark => inside_step digits inside mark)
    (fun u inside b mark s => ⟨rfl,inside.plan,(marks_word b mark).2.2.1,(marks_word b mark).2.2.2⟩) inside
      (List.forall_mem_cons.mp (last_mark g)).2
  rw [grow_grow] at run
  rw [run,residue_eq]
  rfl

theorem word_residue (regular : Regular v) (signed : Signed v) (calm : skips v.s = false)
    (starts_ : starts v = true) (forgot : cleared v = v)
    (digits : env.replaceNumbersInWords = false) :
    View.run env (runes (residue g)) v =
      .ok (grow (last g).toNat .inWord (residue g) {settle env (opened v) with plan := none}) := by
  have first := letter_begins env (b := 0x75) regular signed calm starts_ forgot (by decide)
  have other : (0x75 : UInt8).toNat ≠ rune '(' ∧ (0x75 : UInt8).toNat ≠ rune ',' := by decide
  rw [residue_runes]
  exact (run_step first _).trans (rest_residue g digits ⟨rfl,rfl,other.1,other.2⟩)

theorem before_residue (regular : Regular v) (state : v.s = .inValues) (shut : v.parOpen ≤ 0)
    (par : v.pr ≠ rune '(') (comma : v.pr ≠ rune ',')
    (digits : env.replaceNumbersInWords = false) :
    View.run env (runes (residue g)) v = .ok (grow (last g).toNat .inWord (residue g) v) := by
  have first := before_step (b := 0x75) env regular state shut List.mem_cons_self
  have plan : v.plan = none := regular.plan (by rw [state]; exact nofun)
  rw [residue_runes]
  exact (run_step first _).trans (rest_residue g digits ⟨rfl,plan,par,comma⟩)

theorem grow_gap (v : View) (some_ : s ≠ []) : 1 ≤ (grow p state s v).gap := by
  have bytes := List.length_pos_iff.mpr some_
  simp only [grow,View.advance,View.read]
  omega

-- Both runs have read the residue, or the operator, and stand in related views.
theorem residue_joined (linked : Linked v w) {a b : View}
    (first : View.run env (runes (residue g)) v = .ok (grow p state (residue g) a))
    (second : View.run env (runes (operator g)) w = .ok (grow p' state' (operator g) b))
    (list : state = .inValues → 1 ≤ a.gap ∧ 1 ≤ b.gap)
    (views : Twin escaped (grow p state (residue g) a)
    (level (grow p state (residue g) a) (grow p' state' (operator g) b)) ∨
      Behind (grow p state (residue g) a)
    (level (grow p state (residue g) a) (grow p' state' (operator g) b))) :
    ∃ v' w',View.run env (runes (residue g)) v = .ok v' ∧
    View.run env (runes (operator g)) w = .ok w' ∧ Linked v' w' := by
  have some_ : residue g ≠ [] ∧ operator g ≠ [] := by
    rw [residue_eq,operator_eq]
    exact ⟨List.cons_ne_nil _ _,List.cons_ne_nil _ _⟩
  refine ⟨_,_,first,second,run_good linked.left (text_pieces _) first,
    run_good linked.right (text_pieces _) second,
    .inr ⟨grow_gap a some_.1,grow_gap b some_.2⟩,fun values => ⟨?_,grow_gap a some_.1⟩,views⟩
  -- Both are at their cap.
  obtain ⟨one,two⟩ := list values
  have bytes := List.length_pos_iff.mpr some_.1
  have bytes' := List.length_pos_iff.mpr some_.2
  simp only [grow,View.advance,View.read]
  omega

theorem stays_linked (linked : Linked v w) (safe : stays env v w = true) :
    ∃ v' w',View.run env (runes (residue g)) v = .ok v' ∧
      View.run env (runes (operator g)) w = .ok w' ∧ Linked v' w' := by
  have left := linked.left
  have right := linked.right
  simp only [stays,before,Bool.and_eq_true,Bool.or_eq_true,decide_eq_true_eq,Bool.not_eq_true'] at safe
  have beside : Twin escaped v (level v {w with s := v.s}) := by
    rcases linked.views with twin | behind
    · have same : w.s = v.s := twin.s
      rw [← same]
      exact twin
    · rw [behind.word]
      exact behind.twin
  have inside (state : State) (outside : state ≠ .inWord) (here : v.s = state) : Twin escaped v (level v w) :=
    linked.views.resolve_right fun behind => outside (here.symm.trans behind.word)
  have comments (comment : v.s = .inMLC ∨ v.s = .mlcOrMySQLCode) :
      ∃ v' w',View.run env (runes (residue g)) v = .ok v' ∧
        View.run env (runes (operator g)) w = .ok w' ∧ Linked v' w' := by
    have twin : Twin escaped v (level v w) := comment.elim (inside _ (by decide)) (inside _ (by decide))
    have comment' : w.s = .inMLC ∨ w.s = .mlcOrMySQLCode := comment.imp twin.s.trans twin.s.trans
    have second := operator_run g (comment_step env comment' (sign_mark g))
    rw [← operator_eq] at second
    exact residue_joined g linked (comment_residue g comment) second (by simp)
      (.inl (grow_twin beside (follows_sign g) .inMLC g))
  rcases safe with ((still | comment) | comment) | ⟨digits,⟨values,shut⟩,quiet_⟩
  · have twin : Twin escaped v (level v w) := linked.views.resolve_right fun behind => by
      rw [inert,behind.word] at still
      cases still
    have same : w.s = v.s := twin.s
    have still' : inert w = true := by
      have escape : w.escape = v.escape := twin.escape
      have open_ : w.parOpen = v.parOpen := twin.parOpen
      rw [inert,same,escape,open_]
      exact still
    have second := operator_run g (inert_step env right.regular.quote still' (sign_mark g))
    rw [← operator_eq,same] at second
    refine residue_joined g linked (inert_residue g left.regular.quote still) second ?_
      (.inl (grow_twin beside twin.pr v.s g))
    intro values
    obtain ⟨gap,some_⟩ := linked.list values
    exact ⟨some_,gap ▸ some_⟩
  · exact comments (.inl comment)
  · exact comments (.inr comment)
  · have twin : Twin escaped v (level v w) := inside .inValues (by decide) values
    have values' : w.s = .inValues := twin.s.trans values
    have shut' : w.parOpen ≤ 0 := (twin.parOpen : w.parOpen = v.parOpen) ▸ shut
    have other (c : Nat) (listed : c ∈ prRunes) : v.pr ≠ c := by
      intro same
      have follows : Follows v.pr w.pr := twin.pr
      have pr : w.pr = c := ((follows_tests follows 0 (by simp [isSpace])).prSame c listed).mp same
      rw [pr] at quiet_
      simp [quiet,listed] at quiet_
    have second := operator_run g (before_step env right.regular values' shut' (sign_mark g))
    rw [← operator_eq] at second
    have first := before_residue g left.regular values shut (other _ (by decide)) (other _ (by decide)) digits
    exact residue_joined g linked first second (by simp)
      (.inl (grow_twin beside (.inr (.inl ⟨g,rfl,quiet_⟩)) .inWord g))

theorem word_linked (linked : Linked v w) (forgot : cleared v = v) (safe : opens env v w = true) :
    ∃ v' w',View.run env (runes (residue g)) v = .ok v' ∧
      View.run env (runes (operator g)) w = .ok w' ∧ Linked v' w' := by
  have left := linked.left
  have right := linked.right
  simp only [opens,Bool.and_eq_true,Bool.not_eq_true'] at safe
  obtain ⟨⟨⟨digits,calm⟩,starts_⟩,fits⟩ := safe
  have settled : Twin escaped {settle env (opened v) with plan := none}
        (level {settle env (opened v) with plan := none} {settle env (opened w) with
          plan := none,s := (settle env (opened v)).s}) ∧
      skips w.s = false ∧ starts w = true := by
    rcases linked.views with twin | behind
    · have same : w.s = v.s := twin.s
      have settled := settle_twin env (opened_twin twin) (opened_fits left.regular twin fits)
      have leveled : level {settle env (opened v) with plan := none} {settle env (opened w) with
          plan := none,s := (settle env (opened v)).s} =
          {settle env (opened (level v w)) with plan := none} := by
        rw [opened_level,settle_level,level,settle_far,settle_gap,settle_marked,settle_s,← same,
          ← settle_s env w]
        rfl
      rw [leveled]
      refine ⟨settled.set (fun u => {u with plan := none}) fun _ _ _ _ _ _ => rfl,
        by rw [same]; exact calm,?_⟩
      rw [starts_twin twin] at starts_
      exact starts_
    · have plan : w.plan = none :=
        right.regular.plan (by rw [show w.s = .inOp from behind.operator]; decide)
      have plan' : v.plan = none := behind.twin.plan.symm.trans plan
      have idle (u : View) (plan : u.plan = none) (word : u.s = .inWord ∨
          u.s = .inOp) : settle env (opened u) = u := by
        rw [opened,if_pos word,settle,if_pos plan]
      rw [idle v plan' (.inl behind.word),idle w plan (.inr behind.operator),behind.word]
      refine ⟨behind.twin.set (fun u => {u with plan := none}) fun _ _ _ _ _ _ => rfl,
        by rw [show w.s = .inOp from behind.operator]; rfl,?_⟩
      rw [starts,if_pos (.inr behind.operator),plan]
      rfl
  obtain ⟨twin,calm',starts'⟩ := settled
  have second := operator_run g (operator_begins env right.regular right.signed calm' starts' g)
  rw [← operator_eq] at second
  refine residue_joined g linked
    (word_residue g left.regular left.signed calm starts_ forgot digits) second (by simp) (.inr ⟨rfl,rfl,⟨g,rfl⟩,?_⟩)
  exact grow_twin (b := {settle env (opened w) with plan := none}) twin (follows_sign g) .inWord g

end

theorem cleared_lag (v : View) : Lag (cleared v) v := by
  unfold cleared
  split
  · exact ⟨rfl,.inl rfl⟩
  · refine ⟨rfl,?_⟩
    by_cases list : v.sqlState = .inValues
    · exact .inr ⟨if_pos list,list⟩
    · exact .inl (if_neg list).symm

theorem cleared_twice (v : View) : cleared (cleared v) = cleared v := by
  by_cases word : v.s = .inWord ∨ v.s = .inOp
  · rw [cleared,cleared,if_pos word,if_pos word]
  · have again : ¬ ((cleared v).s = .inWord ∨ (cleared v).s = .inOp) := by rwa [← (cleared_lag v).s]
    rw [cleared,if_neg again,cleared,if_neg word]
    by_cases list : v.sqlState = .inValues <;> simp [list]

theorem cleared_good {v : View} (good : Good v) (calm : skips v.s = false) : Good (cleared v) := by
  obtain ⟨regular,signed⟩ := good
  unfold cleared
  split
  · exact ⟨regular,signed⟩
  · refine ⟨⟨regular.plan,regular.quote,regular.spaced,fun list => ?_,regular.balance,regular.escape⟩,
      ⟨signed.sign,signed.dash,signed.minus,signed.tick⟩⟩
    have list : v.s = .inValues := list
    rw [list] at calm
    cases calm

theorem cleared_level (v w : View) : level (cleared v) (cleared w) = cleared (level v w) := by
  have far : (cleared v).far = v.far := (congrArg View.far (cleared_lag v).control).symm
  have gap : (cleared v).gap = v.gap := (congrArg View.gap (cleared_lag v).control).symm
  have marked : (cleared v).marked = v.marked := (cleared_lag v).marked.symm
  rw [level,far,gap,marked]
  unfold cleared
  by_cases word : w.s = .inWord ∨ w.s = .inOp
  · have same : (level v w).s = .inWord ∨ (level v w).s = .inOp := word
    rw [if_pos word,if_pos same]
    rfl
  · have same : ¬ ((level v w).s = .inWord ∨ (level v w).s = .inOp) := word
    rw [if_neg word,if_neg same]
    rfl

theorem cleared_twin (twin : Twin escaped v w) : Twin escaped (cleared v) (cleared w) := by
  refine twin_ite (by rw [twin.s]) (fun _ => twin) fun _ => ?_
  exact twin.set (fun u => {u with
    valueNo := 0,sqlState := if u.sqlState = .inValues then .unknown else u.sqlState}) fun _ _ _ _ _ _ => rfl

theorem cleared_linked {v w : View} (linked : Linked v w) (calm : skips v.s = false) :
    Linked (cleared v) (cleared w) := by
  have gap (u : View) : (cleared u).gap = u.gap := (congrArg View.gap (cleared_lag u).control).symm
  have views : Twin escaped (cleared v) (level (cleared v) (cleared w)) ∨
      Behind (cleared v) (level (cleared v) (cleared w)) := by
    rw [cleared_level]
    rcases linked.views with twin | behind
    · exact .inl (cleared_twin twin)
    · rw [cleared,if_pos (.inl behind.word),cleared,if_pos (.inr behind.operator)]
      exact .inr behind
  have calm' : skips w.s = false := by
    rcases linked.views with twin | behind
    · rw [show w.s = v.s from twin.s]
      exact calm
    · rw [show w.s = .inOp from behind.operator]
      rfl
  refine ⟨cleared_good linked.left calm,cleared_good linked.right calm',?_,fun list => ?_,views⟩
  · rw [gap,gap]
    exact linked.gap
  · rw [gap,gap]
    exact linked.list ((cleared_lag v).s.trans list)

theorem cleared_opens {env : Env} {v w : View} (safe : opens env v w = true) :
    opens env (cleared v) (cleared w) = true := by
  have one := cleared_lag v
  have pend := (cleared_lag w).pend
  unfold opens starts fitsAlike at safe ⊢
  rwa [← one.s,← one.plan,← one.addSpace,← one.pend,← pend]

-- So the word of a residue is read alike from the cleared view.
theorem residue_forgets (env : Env) {v : View} (calm : skips v.s = false) (g : Bool) :
    View.run env (runes (residue g)) v = View.run env (runes (residue g)) (cleared v) := by
  have first (u : View) (calm : skips u.s = false) : View.step env u (0x75 : UInt8).toNat [0x75] =
      .ok (((u.read [0x75]).onOther [0x75]).finish env (0x75 : UInt8).toNat [0x75]) :=
    calm_step calm (by rfl) (letter_changes env (b := 0x75) _ _ (by decide))
  have same : ((cleared v).read [0x75]).onOther [0x75] = (v.read [0x75]).onOther [0x75] := by
    by_cases word : v.s = .inWord ∨ v.s = .inOp
    · rw [cleared,if_pos word]
    · have fresh : (v.read [0x75]).s ≠ .inWord ∧ (v.read [0x75]).s ≠ .inOp := not_or.mp word
      rw [cleared,if_neg word,View.onOther,if_pos (by exact fresh),View.onOther,if_pos fresh]
      by_cases list : v.sqlState = .inValues <;> simp [View.read,View.fromHere,list]
  have calm' : skips (cleared v).s = false := by rwa [← (cleared_lag v).s]
  rw [residue_runes]
  exact (run_step (first v calm) _).trans ((run_step (same ▸ first (cleared v) calm') _).symm)

-- The second view with the rows and the list of the first.
def caught (v w : View) : View := {w with valueNo := v.valueNo,sqlState := v.sqlState}

-- Behind a closed list the run over the operators still has its rows.
structure Trails (v w : View) : Prop where
  linked : Linked v (caught v w)
  lag : Lag (caught v w) w

theorem Linked.trails {v u w : View} (linked : Linked v u) (lag : Lag u w) : Trails v w := by
  have rows : u.valueNo = v.valueNo := linked.views.elim (·.valueNo) (·.twin.valueNo)
  have sql : u.sqlState = v.sqlState := linked.views.elim (·.sqlState) (·.twin.sqlState)
  have same : caught v w = u := by
    rw [caught,← rows,← sql,lag.control]
  exact ⟨same ▸ linked,same ▸ lag⟩

def trailSafe (env : Env) (v w : View) (piece : Nat × Bytes) : Bool :=
  pieceSafe env v (caught v w) piece && lagSafe env (caught v w) w piece

theorem piece_trails {v w : View} (trails : Trails v w) (piece : Piece r bs) (some_ : bs ≠ [])
    (safe : trailSafe env v w (r,bs) = true) :
    Joined Trails (View.step env v r bs) (View.step env w r bs) := by
  obtain ⟨texts,rows⟩ := Bool.and_eq_true_iff.mp safe
  have joined := piece_joined trails.linked piece some_ texts
  have lags := step_lag trails.lag trails.linked.right.regular.values rows
  generalize View.step env v r bs = one at joined ⊢
  generalize View.step env (caught v w) r bs = two at joined lags
  generalize View.step env w r bs = three at lags ⊢
  cases joined with
  | ok linked =>
    cases lags with
    | ok lag => exact .ok (linked.trails lag)
  | error exit =>
    cases lags
    exact .error exit
  | call texts =>
    cases lags
    exact .call texts

-- A residue may stand where it stays, or where a word or an operator goes on or begins.
def residueSafe (env : Env) (v w : View) : Bool := stays env v w || opens env v w

-- Its operator does not ask for the rows outside a list.
theorem sign_lags (env : Env) {v : View} (w : View) (calm : skips v.s = false) (g : Bool) :
    lagSafe env v w ((sign g).toNat,[sign g]) = true := by
  have part := view_skipPart_other (v.read [sign g]) (sign g).toNat [sign g] calm
  have asks (m : View) : asksRows env m (sign g).toNat [sign g] = false := by
    have par : (sign g).toNat ≠ rune '(' := by cases g <;> decide
    simp [asksRows,(sign_other g).1,par]
  have outside : v.s ≠ .inValues ∧ v.s ≠ .inQuote := by
    constructor <;> intro state <;> rw [state] at calm <;> cases calm
  rw [(sign_other g).1,Bool.false_and,if_neg Bool.false_ne_true] at part
  simp [lagSafe,part,asks,outside]

theorem operator_lags {v w u : View} (lag : Lag v w) (values : v.s = .inValues → v.sqlState = .inValues)
    (safe : lagSafe env v w ((sign g).toNat,[sign g]) = true)
    (run : View.run env (runes (operator g)) v = .ok u) :
    ∃ t,View.run env (runes (operator g)) w = .ok t ∧ Lag u t := by
  have lags := step_lag lag values safe
  rw [operator_runes,View.run] at run ⊢
  generalize View.step env v (sign g).toNat [sign g] = one at lags run
  generalize View.step env w (sign g).toNat [sign g] = two at lags ⊢
  cases lags with
  | ok lag =>
    cases run
    exact ⟨_,rfl,lag⟩
  | error exit => cases run

theorem residue_trails {v w : View} (g : Bool) (trails : Trails v w)
    (safe : residueSafe env v (caught v w) = true)
    (rows : lagSafe env (caught v w) w ((sign g).toNat,[sign g]) = true) :
    ∃ v' w',View.run env (runes (residue g)) v = .ok v' ∧
      View.run env (runes (operator g)) w = .ok w' ∧ Trails v' w' := by
  have linked := trails.linked
  rcases Bool.or_eq_true_iff.mp safe with safe | safe
  · obtain ⟨v',u,first,second,after⟩ := stays_linked g linked safe
    obtain ⟨w',run,lag⟩ := operator_lags trails.lag linked.right.regular.values rows second
    exact ⟨v',w',first,run,after.trails lag⟩
  -- The word of the residue forgets the rows, its operator does not.
  · have calm : skips v.s = false := by
      simp only [opens,Bool.and_eq_true,Bool.not_eq_true'] at safe
      exact safe.1.1.2
    have ready := cleared_linked linked calm
    obtain ⟨v',u,first,second,after⟩ := word_linked g ready (cleared_twice v) (cleared_opens safe)
    have calm' : skips (cleared (caught v w)).s = false := by
      rcases ready.views with twin | behind
      · rw [show (cleared (caught v w)).s = (cleared v).s from twin.s,← (cleared_lag v).s]
        exact calm
      · rw [show (cleared (caught v w)).s = .inOp from behind.operator]
        rfl
    obtain ⟨w',run,lag⟩ :=
      operator_lags ((cleared_lag _).trans trails.lag) ready.right.regular.values (sign_lags env w calm' g) second
    exact ⟨v',w',(residue_forgets env calm g).trans first,run,after.trails lag⟩

-- The two runs over a text without residues.
def textSafe (env : Env) (s : Bytes) : View → View → Bool :=
  lockstep env (fun v w piece _ => trailSafe env v w piece) (runes s) (runes s)

-- The condition over the whole text: at each rune outside the residues, and at each residue.
def chunksSafe (env : Env) : Bytes → List (Bool × Bytes) → View → View → Bool
  | s,[],v,w => textSafe env s v w
  | s,(g,t) :: rest,v,w => textSafe env s v w &&
      match View.run env (runes s) v,View.run env (runes s) w with
      | .ok v,.ok w =>
          residueSafe env v (caught v w) && lagSafe env (caught v w) w ((sign g).toNat,[sign g]) &&
          match View.run env (runes (residue g)) v,View.run env (runes (operator g)) w with
          | .ok v,.ok w => chunksSafe env t rest v w
          | _,_ => true
      | _,_ => true

theorem text_joined {v w : View} (trails : Trails v w)
    (pieces : ∀ piece ∈ ps,Piece piece.1 piece.2 ∧ piece.2 ≠ [])
    (safe : lockstep env (fun v w piece _ => trailSafe env v w piece) ps ps v w = true) :
    Joined Trails (View.run env ps v) (View.run env ps w) := by
  induction ps generalizing v w with
  | nil => exact .ok trails
  | cons piece rest ih =>
    obtain ⟨first,later⟩ := List.forall_mem_cons.mp pieces
    rw [lockstep,Bool.and_eq_true] at safe
    obtain ⟨here,more⟩ := safe
    apply (piece_trails trails first.1 first.2 here).bind
    intro v w one two trails
    rw [one,two] at more
    exact ih trails later more

theorem chunks_joined {v w : View} (trails : Trails v w) (safe : chunksSafe env s rest v w = true) :
    Joined Trails (View.run env (runes (whole residue s rest)) v)
      (View.run env (runes (whole operator s rest)) w) := by
  induction rest generalizing s v w with
  | nil =>
    have same (piece : Bool → Bytes) : whole piece s [] = s := by simp [whole]
    rw [same,same]
    exact text_joined trails (text_pieces s) safe
  | cons chunk rest ih =>
    obtain ⟨g,t⟩ := chunk
    rw [chunksSafe,Bool.and_eq_true] at safe
    obtain ⟨text,more⟩ := safe
    rw [whole_cons,whole_cons,runes_append_text s _ (by rw [residue_eq]; exact List.cons_ne_nil _ _)
      (residue_ascii g),
      runes_append_text s _ (by rw [operator_eq]; exact List.cons_ne_nil _ _)
        (operator_ascii g),run_append,run_append]
    apply (text_joined trails (text_pieces s) text).bind
    intro v w one two trails
    rw [one,two] at more
    dsimp only at more
    rw [Bool.and_eq_true,Bool.and_eq_true] at more
    obtain ⟨⟨here,rows⟩,later⟩ := more
    obtain ⟨v',w',first,second,trails⟩ := residue_trails g trails here rows
    rw [first,second] at later
    rw [run_append,run_append,first,second]
    exact ih trails later

theorem answer_swaps (joined : Joined Trails one two) (queries : Unescapes p q) :
    Unescapes (View.answer p one) (View.answer q two) := by
  cases joined with
  | @ok v w trails =>
    have out : Unescapes v.out w.out := trails.linked.views.elim (·.out) (·.twin.out)
    have trimmed := out.rdropWhile (p := fun b => isSpace b.toNat) (by
      intro g
      exact ⟨last g,sign g,[0x75,0x30,0x30,0x33],[],residue_eq g,operator_eq g,by cases g <;> rfl,
        by cases g <;> rfl⟩)
    have filtered := trimmed.filter (· ≠ 0)
    have whole : (fun g => (residue g).filter (· ≠ 0)) = residue ∧
        (fun g => (operator g).filter (· ≠ 0)) = operator := by
      constructor <;> funext g
      · rw [residue_eq]
        cases g <;> rfl
      · rw [operator_eq]
        cases g <;> rfl
    rwa [whole.1,whole.2] at filtered
  | error exit =>
    cases exit with
    | adminCommand => exact queries
    | _ => exact .text _
  | call texts => exact texts.behind _

theorem unescape_space (t : Bytes) : unescape (t ++ [byte ' ']) = unescape t ++ [byte ' '] := by
  have one (g : Bool) (s : Bytes) : pass g (s ++ [byte ' ']) = pass g s ++ [byte ' '] := by
    rw [pass_apart (by cases g <;> decide)]
    cases g <;> rfl
  rw [unescape_passes,one,one,unescape_passes]

def escapeKept (env : Env) (t : Bytes) : Bool :=
  chunksSafe env (chunks (t ++ [byte ' '])).1 (chunks (t ++ [byte ' '])).2 .start .start

theorem start_linked : Linked .start .start :=
  have good : Good .start := ⟨start_regular,start_signed⟩
  ⟨good,good,.inl rfl,nofun,.inl ⟨.text [],.text [],.text [],.inl rfl,rfl,rfl⟩⟩

theorem unescaping_commutes {env : Env} {t : Bytes} (kept : escapeKept env t = true)
    (left : Completes (run env t)) (right : Completes (run env (unescape t))) :
    (fingerprint env t).map (fun line => unescape (trimSpace line)) =
      (fingerprint env (unescape t)).map fun line => unescape (trimSpace line) := by
  have joined := chunks_joined (start_linked.trails ⟨rfl,.inl rfl⟩) kept
  obtain ⟨first,second⟩ := chunks_whole (t ++ [byte ' '])
  rw [first,second,unescape_space] at joined
  rw [fingerprint_answer left,fingerprint_answer right,Option.map_some,Option.map_some]
  exact congrArg some (unescape_same (trimSpace_swaps (answer_swaps joined (unescape_swaps t))))

theorem comparisons_unescaped :
    escapeKept asciiEnv
      (str "select a from t where \x60a\x60u003e 5 and bu003c=u003e'x' and c u003c -1 /* u003e */") = true ∧
    (fingerprint asciiEnv
      (str "select a from t where \x60a\x60u003e 5 and bu003c=u003e'x' and c u003c -1 /* u003e */")).map (fun line => unescape (trimSpace line)) =
      (fingerprint asciiEnv
      (unescape (str "select a from t where \x60a\x60u003e 5 and bu003c=u003e'x' and c u003c -1 /* u003e */"))).map
        fun line => unescape (trimSpace line) := by
  have kept : escapeKept asciiEnv
      (str "select a from t where \x60a\x60u003e 5 and bu003c=u003e'x' and c u003c -1 /* u003e */") = true := by
    decide +kernel
  exact ⟨kept,unescaping_commutes kept (by decide +kernel) (by decide +kernel)⟩

theorem literal_left_in : unescape (str "select a from t where b u003e5") = str "select a from t where b >5" ∧
    (fingerprint asciiEnv (str "select a from t where b u003e5")).map
      (fun line => unescape (trimSpace line)) = some (str "select a from t where b >5") ∧
    (fingerprint asciiEnv (str "select a from t where b >5")).map
      (fun line => unescape (trimSpace line)) = some (str "select a from t where b >?") := by
  decide +kernel

end SqlReview.FingerprintResidue
