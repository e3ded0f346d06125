import SqlReview.FingerprintTwin

-- What the machine does not look at: which whitespace was read last, and how far from the start of
-- the query it is.
namespace SqlReview.FingerprintSlack
open GoBytes Fingerprint FingerprintView FingerprintLiteral FingerprintPending FingerprintRegular
  FingerprintNumber
open FingerprintTwin (onDigit_eq)

structure Slack (v w : View) : Prop where
  control : w = {v with pr := w.pr,far := w.far,gap := w.gap,marked := w.marked}
  pr : v.pr = w.pr ∨ (isSpace v.pr = true ∧ isSpace w.pr = true)
  gap : v.gap = w.gap ∨ (1 ≤ v.gap ∧ 1 ≤ w.gap)

inductive Slacks : Except Stop View → Except Stop View → Prop where
  | ok : Slack v w → Slacks (.ok v) (.ok w)
  | error (exit : Exit) : Slacks (.error ⟨v,exit⟩) (.error ⟨w,exit⟩)

section
variable {v w : View} (slack : Slack v w)
include slack

theorem Slack.s : w.s = v.s := (congrArg View.s slack.control :)
theorem Slack.sqlState : w.sqlState = v.sqlState := (congrArg View.sqlState slack.control :)
theorem Slack.prevWord : w.prevWord = v.prevWord := (congrArg View.prevWord slack.control :)
theorem Slack.out : w.out = v.out := (congrArg View.out slack.control :)
theorem Slack.pend : w.pend = v.pend := (congrArg View.pend slack.control :)
theorem Slack.escape : w.escape = v.escape := (congrArg View.escape slack.control :)
theorem Slack.quoteChar : w.quoteChar = v.quoteChar := (congrArg View.quoteChar slack.control :)
theorem Slack.valueNo : w.valueNo = v.valueNo := (congrArg View.valueNo slack.control :)
theorem Slack.parOpen : w.parOpen = v.parOpen := (congrArg View.parOpen slack.control :)
theorem Slack.parOpenTotal : w.parOpenTotal = v.parOpenTotal := (congrArg View.parOpenTotal slack.control :)
theorem Slack.plan : w.plan = v.plan := (congrArg View.plan slack.control :)
theorem Slack.addSpace : w.addSpace = v.addSpace := (congrArg View.addSpace slack.control :)

-- A change of the other variables.
theorem Slack.set (f : View → View) (frame : ∀ u pr far gap marked,
    f {u with pr := pr,far := far,gap := gap,marked := marked} =
    {f u with pr := pr,far := far,gap := gap,marked := marked}) : Slack (f v) (f w) := by
  have left : f v = {f v with pr := v.pr,far := v.far,gap := v.gap,marked := v.marked} :=
    frame v v.pr v.far v.gap v.marked
  have right : f w = {f v with pr := w.pr,far := w.far,gap := w.gap,marked := w.marked} :=
    (congrArg f slack.control).trans (frame v w.pr w.far w.gap w.marked)
  have prLeft : (f v).pr = v.pr := by rw [left]
  have prRight : (f w).pr = w.pr := by rw [right]
  have farRight : (f w).far = w.far := by rw [right]
  have gapLeft : (f v).gap = v.gap := by rw [left]
  have gapRight : (f w).gap = w.gap := by rw [right]
  have markedRight : (f w).marked = w.marked := by rw [right]
  refine ⟨?_,?_,?_⟩
  · rw [prRight,farRight,gapRight,markedRight]
    exact right
  · rw [prLeft,prRight]
    exact slack.pr
  · rw [gapLeft,gapRight]
    exact slack.gap

theorem Slack.place (far far' : Nat) (marked marked' : Bool) :
    Slack {v with far := far,marked := marked} {w with far := far',marked := marked'} :=
  ⟨congrArg (fun u : View => {u with far := far',marked := marked'}) slack.control,slack.pr,slack.gap⟩

theorem Slack.setPr (r : Nat) : Slack {v with pr := r} {w with pr := r} :=
  ⟨congrArg (fun u : View => {u with pr := r}) slack.control,.inl rfl,slack.gap⟩

theorem Slack.setGap (gap : Nat) : Slack {v with gap := gap} {w with gap := gap} :=
  ⟨congrArg (fun u : View => {u with gap := gap}) slack.control,slack.pr,.inl rfl⟩

theorem Slack.setState (state : State) : Slack {v with s := state} {w with s := state} :=
  slack.set (fun u => {u with s := state}) fun _ _ _ _ _ => rfl

theorem Slack.mark (state : State) : Slack {v.mark with s := state} {w.mark with s := state} :=
  (slack.set (fun u => {u with plan := some 0,s := state}) fun _ _ _ _ _ => rfl).place v.far w.far _ _

theorem Slack.read (bs : Bytes) : Slack (v.read bs) (w.read bs) :=
  slack.set (fun u => u.read bs) fun _ _ _ _ _ => rfl

theorem Slack.prIs {c : Nat} (ink : isSpace c = false) : v.pr = c ↔ w.pr = c := by
  rcases slack.pr with same | ⟨left,right⟩
  · rw [same]
  · have no {r : Nat} (space : isSpace r = true) : r ≠ c := by
      rintro rfl
      rw [space] at ink
      cases ink
    exact iff_of_false (no left) (no right)

theorem Slack.prSpace : isSpace v.pr = isSpace w.pr := by
  rcases slack.pr with same | ⟨left,right⟩
  · rw [same]
  · rw [left,right]

-- One character further the distance to the first parenthesis is the same.
theorem Slack.advance (some_ : bs ≠ []) : Slack (v.advance bs) (w.advance bs) ∧
    (v.advance bs).gap = (w.advance bs).gap := by
  have size := List.length_pos_iff.mpr some_
  have gap : min 2 (v.gap+bs.length) = min 2 (w.gap+bs.length) := by
    rcases slack.gap with same | both
    · rw [same]
    · omega
  have placed :=
    (slack.setGap (min 2 (v.gap+bs.length))).place (min 4 (v.far+bs.length))
      (min 4 (w.far+bs.length)) v.marked w.marked
  refine ⟨?_,gap⟩
  unfold View.advance
  rw [← gap]
  exact placed

end

section
variable {v w : View}

theorem Slacks.ite {c d : Prop} [Decidable c] [Decidable d] {one two one' two' : Except Stop View}
    (same : c ↔ d) (yes : c → Slacks one two)
    (no : ¬ c → Slacks one' two') : Slacks (if c then one else one') (if d then two else two') :=
  rel_ite (R := Slacks) same yes no

theorem slack_ite {c d : Prop} [Decidable c] [Decidable d] {v w v' w' : View} (same : c ↔ d)
    (yes : c → Slack v w) (no : ¬ c → Slack v' w') :
    Slack (if c then v else v') (if d then w else w') :=
  rel_ite (R := Slack) same yes no

theorem Slacks.bind {k k' : View → Except Stop View} (slacks : Slacks one two)
    (next : ∀ v w,Slack v w → Slacks (k v) (k' w)) :
    Slacks (one >>= k) (two >>= k') := by
  cases slacks with
  | ok slack => exact next _ _ slack
  | error exit => exact .error exit

end

section
variable {v w : View} (slack : Slack v w) (env : Env) (r : Nat) (bs : Bytes)
include slack

theorem onDigit_slack : Slack (v.onDigit env) (w.onDigit env) := by
  rw [onDigit_eq,onDigit_eq]
  refine slack_ite (by rw [slack.s]) (fun _ => ?sign) fun _ => slack_ite (by rw [slack.s])
    (fun _ => slack_ite (slack.prIs (by decide)) (fun _ => slack.mark _) fun _ =>
      slack_ite (slack.prIs (by decide)) (fun _ => slack.mark _) fun _ =>
      slack_ite Iff.rfl (fun _ => slack.mark _) fun _ => slack) fun _ => slack.mark _
  case sign =>
    exact (slack.set (fun u => {u with plan := some 1,s := .inNumber}) fun _ _ _ _ _ =>
      rfl).place v.far w.far _ _

theorem matchWord_slack (word : Bytes) : Slacks (v.matchWord env word bs) (w.matchWord env word bs) := by
  unfold View.matchWord
  refine .ite (by rw [slack.prevWord]) (fun _ => .error _) fun _ => .ite (by rw [slack.prevWord])
    (fun _ => ?null) fun _ =>
    .ite (by rw [slack.prevWord]) (fun _ => ?order) fun _ => .ite (by rw [slack.sqlState])
      (fun _ => .ite Iff.rfl (fun _ => ?comma) fun _ => ?asc) fun _ =>
    .ite (by rw [slack.prevWord]) (fun _ => ?update) fun _ => .ok slack
  case null =>
    rw [View.nullValue_eq,View.nullValue_eq]
    exact .ok (slack.set (fun u => {u with
      out := u.out ++ byte '?' ::
        (if word.getLast? = some (byte ',') then [byte ',',byte ' '] else [byte ' '])
      pend := bs.drop 1}) fun _ _ _ _ _ => rfl)
  case order => exact .ok (slack.set (fun u => {u with sqlState := .orderBy}) fun _ _ _ _ _ => rfl)
  case comma => exact .ok (slack.set (fun u => (u.fromHere bs).backComma) fun _ _ _ _ _ => rfl)
  case asc => exact .ok (slack.set (fun u => u.fromHere bs) fun _ _ _ _ _ => rfl)
  case update => exact .ok (slack.set (fun u => {u with sqlState := .onDupeKeyUpdate}) fun _ _ _ _ _ => rfl)

theorem endWord_slack : Slacks (v.endWord env bs) (w.endWord env bs) := by
  have word : v.word bs = w.word bs := by rw [View.word,View.word,slack.pend]
  unfold View.endWord
  rw [word]
  apply (matchWord_slack slack env bs _).bind
  intro v w slack
  exact .ok ((slack.mark .inSpace).set (fun u => {u with addSpace := true}) fun _ _ _ _ _ => rfl)

theorem endsInText_slack : v.endsInText = w.endsInText := by rw [View.endsInText,View.endsInText,slack.out]

theorem onSpace_slack (marked : v.s = .inDash → v.marked = w.marked) :
    Slacks (v.onSpace env bs) (w.onSpace env bs) := by
  have state (s : State) : v.s = s ↔ w.s = s := by rw [slack.s]
  rw [onSpace_eq,onSpace_eq]
  refine .ite (state _)
    (fun _ => .ok (slack_ite (by rw [endsInText_slack slack]) (fun _ => ?text) fun _ => slack)) fun _ =>
    .ite (state _) (fun dash => ?dash) fun _ =>
      .ite (state _) (fun _ => .ok (slack_ite (by rw [slack.valueNo]) (fun _ => ?first) fun _ =>
      slack)) fun _ =>
    endWord_slack slack env bs
  case text => exact slack.set (fun u => (u.write [byte ' ']).fromNext bs) fun _ _ _ _ _ => rfl
  case dash =>
    have plan : (if v.marked = true then some 2 else v.plan) = if w.marked = true then some 2
        else w.plan := by
      rw [marked dash,slack.plan]
    rw [plan]
    exact .ok (slack.set
      (fun u => {u with s := .inOLC,plan := if w.marked = true then some 2 else w.plan}) fun _ _ _ _ _ => rfl)
  case first => exact slack.set (fun u => u.write [byte ' ']) fun _ _ _ _ _ => rfl

theorem onQuote_slack : Slack (v.onQuote r) (w.onQuote r) := by
  unfold View.onQuote
  refine slack_ite (and_congr (not_congr (slack.prIs (by decide))) (by rw [slack.s]))
    (fun _ => slack_ite (or_congr (slack.prIs (by decide)) (slack.prIs (by decide)))
      (fun _ => ?hex) fun _ => ?opens) fun _ => slack
  case hex =>
    exact (slack.set (fun u => {u with s := .inQuote,quoteChar := r,plan := none}) fun _ _ _ _ _ =>
      rfl).place v.far w.far false false
  case opens => exact (slack.mark .inQuote).set (fun u => {u with quoteChar := r}) fun _ _ _ _ _ => rfl

theorem beginsValues_slack (pending : Bytes) : v.beginsValues env pending = w.beginsValues env pending := by
  unfold View.beginsValues
  rw [slack.s,slack.sqlState,slack.prevWord]

theorem onOpenPar_slack : Slacks (v.onOpenPar env bs) (w.onOpenPar env bs) := by
  have word : v.word bs = w.word bs := by rw [View.word,View.word,slack.pend]
  unfold View.onOpenPar
  rw [word,beginsValues_slack slack env,slack.prevWord]
  refine .ite Iff.rfl (fun _ => .error _) fun _ => .ite Iff.rfl (fun _ => ?list) fun _ =>
    .ite (by rw [slack.s]) (fun _ => ?random) fun _ => .ok slack
  case list =>
    have chosen : Slack (if v.valueNo = 0 then v.mark else v) (if w.valueNo = 0 then w.mark else w) := by
      refine slack_ite (by rw [slack.valueNo]) (fun _ => ?_) fun _ => slack
      exact (slack.set (fun u => {u with plan := some 0}) fun _ _ _ _ _ => rfl).place v.far w.far _ _
    exact .ok ((chosen.set
      (fun u => {u with s := .inValues,sqlState := .inValues,parOpen := 1}) fun _ _ _ _ _ => rfl).setGap 0)
  case random =>
    exact .ok (slack.set (fun u => {u.fromHere bs with valueNo := 0,s := .inWord}) fun _ _ _ _ _ => rfl)

theorem changeState_slack (marked : isSpace r = true → v.s = .inDash → v.marked = w.marked) :
    Slacks (v.changeState env r bs) (w.changeState env r bs) := by
  unfold View.changeState
  refine .ite Iff.rfl (fun _ => .ok (onDigit_slack slack env)) fun _ =>
    .ite Iff.rfl (fun space => onSpace_slack slack env bs (marked space)) fun _ =>
    .ite Iff.rfl (fun _ => .ok (onQuote_slack slack r)) fun _ =>
      .ite Iff.rfl (fun _ => .ok ?tick) fun _ => .ite Iff.rfl (fun _ => .ok ?operator) fun _ =>
    .ite Iff.rfl (fun _ => .ok (slack.setState _)) fun _ =>
      .ite (by rw [slack.s]) (fun _ => .ok (slack.setState _)) fun _ =>
    .ite Iff.rfl (fun _ => .ok (slack.setState _)) fun _ => .ite Iff.rfl (fun _ => .ok ?dash) fun _ =>
    .ite Iff.rfl (fun _ => .ok (slack_ite (by rw [slack.s]) (fun _ => slack.mark _) fun _ => slack)) fun _ =>
    .ite Iff.rfl (fun _ => onOpenPar_slack slack env bs) fun _ =>
      .ite (by rw [slack.s]) (fun _ => .ok slack) fun _ =>
    .ite (by rw [slack.prevWord]) (fun _ => .error _) fun _ =>
      .ite Iff.rfl (fun _ => .ok ?hash) fun _ => .ok ?other
  case tick =>
    unfold View.onBacktick
    exact slack_ite (and_congr (not_congr (slack.prIs (by decide))) (by rw [slack.s]))
      (fun _ => slack.setState _) fun _ => slack
  case operator =>
    unfold View.onOperator
    rw [slack.s]
    exact slack.set (fun u =>
      {u with pend := if v.s ≠ .inWord ∧ v.s ≠ .inOp then bs else u.pend,s := .inOp}) fun _ _ _ _ _ => rfl
  case dash =>
    have next : (if v.pr = rune '-' then State.inDash else .opOrNumber) =
        if w.pr = rune '-' then State.inDash else .opOrNumber :=
      if_congr (slack.prIs (by decide)) rfl rfl
    rw [← next]
    exact slack.setState _
  case hash => exact slack.set (fun u => {u with addSpace := false,s := .inOLC}) fun _ _ _ _ _ => rfl
  case other =>
    unfold View.onOther
    refine slack_ite (by rw [slack.s]) (fun _ => ?_) fun _ => slack.setState _
    exact slack.set (fun u => {u.fromHere bs with
      valueNo := 0,s := .inWord
      sqlState := if u.sqlState = .inValues then .unknown else u.sqlState}) fun _ _ _ _ _ => rfl

theorem skipQuote_slack : Slack (v.skipQuote r bs) (w.skipQuote r bs) := by
  have calm (b : Bool) : Slack {v with escape := b} {w with escape := b} :=
    slack.set (fun u => {u with escape := b}) fun _ _ _ _ _ => rfl
  unfold View.skipQuote
  refine slack_ite (by rw [slack.quoteChar])
    (fun _ => slack_ite (by rw [slack.escape]) (fun _ => calm false) fun _ =>
    slack_ite Iff.rfl (fun _ => calm true) fun _ => slack) fun _ => slack_ite (by rw [slack.escape])
      (fun _ => calm false) fun _ =>
    slack_ite (by rw [slack.sqlState]) (fun _ => ?_) fun _ => ?_
  · exact slack.set (fun u => {u.fromNext bs with escape := false,s := .inValues}) fun _ _ _ _ _ => rfl
  · exact slack.set (fun u =>
      {(u.fromNext bs).write [byte '?'] with escape := false,s := .unknown}) fun _ _ _ _ _ => rfl

theorem skipBackticks_slack : Slack (v.skipBackticks r) (w.skipBackticks r) := by
  have calm (b : Bool) : Slack {v with escape := b} {w with escape := b} :=
    slack.set (fun u => {u with escape := b}) fun _ _ _ _ _ => rfl
  unfold View.skipBackticks
  refine slack_ite Iff.rfl (fun _ => slack_ite (by rw [slack.escape]) (fun _ => calm false) fun _ =>
    slack_ite Iff.rfl (fun _ => calm true) fun _ => slack)
    fun _ => slack_ite (by rw [slack.escape]) (fun _ => calm false) fun _ => ?_
  exact (slack.set (fun u => {u with escape := false,plan := some 0,s := .inWord}) fun _ _ _ _ _ =>
    rfl).place v.far w.far _ _

theorem balanceValues_slack (gap : v.gap = w.gap) : Slack (v.balanceValues r bs) (w.balanceValues r bs) := by
  unfold View.balanceValues
  refine slack_ite (by rw [slack.parOpen]) (fun _ => slack) fun _ =>
    slack_ite (by rw [slack.parOpenTotal]) (fun _ => slack.setState _) fun _ => ?_
  have list : v.listText = w.listText := by rw [View.listText,View.listText,gap]
  rw [View.endValues_eq,View.endValues_eq,← list,slack.valueNo,gap]
  have ended := slack.set (fun u => {u with
    out := u.out ++ (if v.valueNo = 0 then v.listText else []),pend := bs.drop 1,
    valueNo := v.valueNo+1,s := .moreValuesOrUnknown,parOpenTotal := 0})
    fun _ _ _ _ _ => rfl
  exact (ended.setPr r).setGap (if v.valueNo = 0 then 2 else w.gap)

theorem skipValues_slack (gap : v.gap = w.gap) : Slack (v.skipValues r bs) (w.skipValues r bs) := by
  unfold View.skipValues
  refine slack_ite Iff.rfl (fun _ => ?shut) fun _ => slack_ite Iff.rfl (fun _ => ?opens) fun _ =>
    slack_ite Iff.rfl (fun _ => ?quote) fun _ =>
    slack_ite Iff.rfl (fun _ => slack) fun _ => balanceValues_slack slack r bs gap
  case shut =>
    have shut :=
      slack.set (fun u =>
        {u with parOpen := u.parOpen-1,parOpenTotal := u.parOpenTotal+1}) fun _ _ _ _ _ => rfl
    exact balanceValues_slack shut r bs gap
  case opens =>
    have same : (if v.parOpen+1 = 1 then 0 else v.gap) = if w.parOpen+1 = 1 then 0 else w.gap := by
      rw [slack.parOpen,gap]
    have opens :=
      (slack.set (fun u => {u with parOpen := u.parOpen+1}) fun _ _ _ _ _ => rfl).setGap
        (if w.parOpen+1 = 1 then 0 else w.gap)
    rw [same]
    exact balanceValues_slack opens r bs rfl
  case quote => exact slack.set (fun u => {u with s := .inQuote,quoteChar := r}) fun _ _ _ _ _ => rfl

theorem afterCopy_slack : Slack (v.afterCopy env) (w.afterCopy env) := by
  unfold View.afterCopy
  refine slack_ite (by rw [slack.prevWord,slack.sqlState]) (fun _ => ?_) fun _ =>
    slack_ite (by rw [slack.addSpace]) (fun _ => ?_) fun _ => slack
  · exact slack.set (fun u =>
      {u with addSpace := false,s := .inValues,sqlState := .inValues}) fun _ _ _ _ _ => rfl
  · exact slack.set (fun u =>
      {u.write [byte ' '] with pend := u.pend.drop 1,addSpace := false}) fun _ _ _ _ _ => rfl

theorem copySlice_slack : Slack (v.copySlice env bs) (w.copySlice env bs) := by
  have due : v.due bs = w.due bs := by rw [View.due,View.due,slack.plan,slack.pend]
  unfold View.copySlice
  dsimp only
  rw [due,slack.pend]
  refine slack_ite Iff.rfl (fun _ => ?_) fun _ => slack
  apply afterCopy_slack
  exact slack.set (fun u =>
    u.copyWord (w.due bs) (toLower env.lower (v.pend.take (w.due bs)))) fun _ _ _ _ _ => rfl

end

-- Step 1 ends both iterations or leaves two views for step 2.
inductive SlackPart (r : Nat) : Skipped View → Skipped View → Prop where
  | skip : Slack a b → SlackPart r (.skip a) (.skip b)
  | through : Slack a b → (isSpace r = true → a.s = .inDash → a.marked = b.marked) →
    SlackPart r (.through a) (.through b)

section
variable {v w : View} (slack : Slack v w) {r : Nat} (bs : Bytes) (marked : isSpace r = true →
  v.s = .inDash → v.marked = w.marked)
include slack

theorem endNumberInWord_slack : SlackPart r (v.endNumberInWord r bs) (w.endNumberInWord r bs) := by
  unfold View.endNumberInWord
  by_cases digit : isDigit r = true
  · rw [if_pos digit,if_pos digit]
    exact .skip slack
  · rw [if_neg digit,if_neg digit]
    refine .through (slack.set
      (fun u => {(u.fromHere bs).write [byte '?'] with
      s := if isSpace r then .unknown else .inWord}) fun _ _ _ _ _ => rfl) ?_
    intro space dash
    dsimp only at dash
    rw [if_pos space] at dash
    cases dash

theorem endNumber_slack : SlackPart r (v.endNumber r bs) (w.endNumber r bs) := by
  unfold View.endNumber
  by_cases more : inNumeral r = true
  · rw [if_pos more,if_pos more]
    exact .skip slack
  rw [if_neg more,if_neg more]
  by_cases word : notNumeral r = true
  · rw [if_pos word,if_pos word]
    exact .through (slack.mark .inWord) fun _ => nofun
  rw [if_neg word,if_neg word]
  by_cases code : v.sqlState = .inMySQLCode
  · rw [if_pos code,if_pos (slack.sqlState.trans code)]
    exact .through ((slack.mark .inWord).set
      (fun u => {u with sqlState := .unknown}) fun _ _ _ _ _ => rfl) fun _ => nofun
  · rw [if_neg code,if_neg fun other => code (slack.sqlState.symm.trans other)]
    have fresh := slack.set (fun u => (u.fromHere bs).write [byte '?']) fun _ _ _ _ _ => rfl
    exact .through (fresh.mark .unknown) fun _ => nofun

include marked

theorem skipPart_slack (gap : v.s = .inValues → v.gap = w.gap) :
    SlackPart r (v.skipPart r bs) (w.skipPart r bs) := by
  have other (calm : skips v.s = false) : SlackPart r (v.skipPart r bs) (w.skipPart r bs) := by
    rw [view_skipPart_other v r bs calm,view_skipPart_other w r bs (by rw [slack.s]; exact calm),
      slack.prSpace]
    by_cases spaces : (isSpace r && isSpace w.pr) = true
    · rw [if_pos spaces,if_pos spaces]
      exact .skip ((slack.set (fun u => {u.fromNext bs with plan := none}) fun _ _ _ _ _ => rfl).setPr r)
    · rw [if_neg spaces,if_neg spaces]
      exact .through slack marked
  cases state : v.s with
  | inQuote =>
    rw [skipPart_inQuote v r bs state,skipPart_inQuote w r bs (slack.s.trans state)]
    exact .skip (skipQuote_slack slack r bs)
  | inBackticks =>
    rw [skipPart_inBackticks v r bs state,skipPart_inBackticks w r bs (slack.s.trans state)]
    exact .skip (skipBackticks_slack slack r)
  | inNumberInWord =>
    rw [skipPart_inNumberInWord v r bs state,skipPart_inNumberInWord w r bs (slack.s.trans state)]
    exact endNumberInWord_slack slack bs
  | inNumber =>
    rw [skipPart_inNumber v r bs state,skipPart_inNumber w r bs (slack.s.trans state)]
    exact endNumber_slack slack bs
  | inValues =>
    rw [skipPart_inValues v r bs state,skipPart_inValues w r bs (slack.s.trans state)]
    exact .skip (skipValues_slack slack r bs (gap state))
  | inMLC =>
    rw [skipPart_inMLC v r bs state,skipPart_inMLC w r bs (slack.s.trans state)]
    apply SlackPart.skip
    exact slack_ite (and_congr (slack.prIs (by decide)) Iff.rfl)
      (fun _ => slack.setState .unknown) fun _ => slack.setPr r
  | mlcOrMySQLCode =>
    rw [skipPart_mlcOrMySQLCode v r bs state,skipPart_mlcOrMySQLCode w r bs (slack.s.trans state)]
    by_cases bang : r ≠ rune '!'
    · rw [if_pos bang,if_pos bang]
      exact .skip ((slack.setPr r).setState .inMLC)
    · rw [if_neg bang,if_neg bang]
      exact .through (slack.set
        (fun u => {u with s := .inWord,sqlState := .inMySQLCode}) fun _ _ _ _ _ => rfl) fun _ => nofun
  | inOLC =>
    rw [skipPart_inOLC v r bs state,skipPart_inOLC w r bs (slack.s.trans state)]
    exact .skip (slack_ite Iff.rfl (fun _ => slack.setState .unknown) fun _ => slack)
  | _ => exact other (by rw [state]; rfl)

end

theorem Slack.finish {v w : View} (slack : Slack v w) (env : Env) (r : Nat) (some_ : bs ≠ []) :
    Slack (v.finish env r bs) (w.finish env r bs) ∧ (v.finish env r bs).gap = (w.finish env r bs).gap := by
  unfold View.finish
  apply Slack.advance _ some_
  exact ((copySlice_slack slack env bs).setPr r).set (fun u => {u with plan := none}) fun _ _ _ _ _ => rfl

-- After an iteration the distances to the first parenthesis agree as well.
inductive Turned : Except Stop View → Except Stop View → Prop where
  | ok (slack : Slack v w) (gap : v.gap = w.gap) : Turned (.ok v) (.ok w)
  | error (exit : Exit) : Turned (.error ⟨v,exit⟩) (.error ⟨w,exit⟩)

theorem Slacks.finish (slacks : Slacks one two) (env : Env) (r : Nat) (some_ : bs ≠ []) :
    Turned (one >>= fun u => .ok (u.finish env r bs)) (two >>= fun u => .ok (u.finish env r bs)) := by
  cases slacks with
  | ok slack => exact .ok (slack.finish env r some_).1 (slack.finish env r some_).2
  | error exit => exact .error exit

theorem step_slack {v w : View} (slack : Slack v w) (env : Env) (some_ : bs ≠ [])
    (marked : isSpace r = true → v.s = .inDash → v.marked = w.marked)
    (gap : v.s = .inValues → v.gap = w.gap) : Turned (View.step env v r bs) (View.step env w r bs) := by
  have parts := skipPart_slack (slack.read bs) bs marked gap
  generalize left : (v.read bs).skipPart r bs = one at parts
  generalize right : (w.read bs).skipPart r bs = two at parts
  cases parts with
  | skip slack =>
    rw [step_skips left,step_skips right]
    exact .ok (slack.advance some_).1 (slack.advance some_).2
  | through slack marked =>
    rw [step_enters left,step_enters right]
    exact (changeState_slack slack env r bs marked).finish env r some_

end SqlReview.FingerprintSlack
