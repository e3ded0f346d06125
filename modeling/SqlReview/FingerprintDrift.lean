import SqlReview.FingerprintTwin

-- Two runs over one text that differ in the previous word and in whether a space is due.
namespace SqlReview.FingerprintDrift
open GoBytes Fingerprint FingerprintView FingerprintLiteral FingerprintPending FingerprintNumber
open FingerprintTwin (onDigit_eq lockstep)

def drifted (v : View) (prev : Bytes) (add : Bool) : View := {v with prevWord := prev,addSpace := add}

def Framed (f : View → View) : Prop := ∀ v prev add,f (drifted v prev add) = drifted (f v) prev add

theorem Framed.space (framed : Framed f) (v : View) : (f v).addSpace = v.addSpace :=
  (congrArg View.addSpace (framed v v.prevWord v.addSpace) :)

theorem framed_ite {c : View → Prop} [∀ v,Decidable (c v)]
    (same : ∀ v prev add,c (drifted v prev add) ↔ c v) (yes : Framed f) (no : Framed g) :
    Framed fun v => if c v then f v else g v := by
  intro v prev add
  dsimp only
  by_cases h : c v
  · rw [if_pos h,if_pos ((same v prev add).mpr h)]
    exact yes v prev add
  · rw [if_neg h,if_neg fun other => h ((same v prev add).mp other)]
    exact no v prev add

theorem framed_id : Framed fun v => v := fun _ _ _ => rfl

section
variable (env : Env) (r : Nat) (bs : Bytes)

theorem onDigit_framed : Framed fun v => v.onDigit env := by
  simp only [onDigit_eq]
  exact framed_ite (fun _ _ _ => Iff.rfl) (fun _ _ _ => rfl)
    (framed_ite (fun _ _ _ => Iff.rfl) (framed_ite (fun _ _ _ => Iff.rfl) (fun _ _ _ => rfl)
    (framed_ite (fun _ _ _ => Iff.rfl) (fun _ _ _ => rfl)
      (framed_ite (fun _ _ _ => Iff.rfl) (fun _ _ _ => rfl) framed_id))) fun _ _ _ => rfl)

theorem onQuote_framed : Framed fun v => v.onQuote r :=
  framed_ite (fun _ _ _ => Iff.rfl)
    (framed_ite (fun _ _ _ => Iff.rfl) (fun _ _ _ => rfl) fun _ _ _ => rfl) framed_id

theorem onOther_framed : Framed fun v => v.onOther bs :=
  framed_ite (fun _ _ _ => Iff.rfl) (fun _ _ _ => rfl) fun _ _ _ => rfl

theorem skipQuote_framed : Framed fun v => v.skipQuote r bs :=
  framed_ite (fun _ _ _ => Iff.rfl)
    (framed_ite (fun _ _ _ => Iff.rfl) (fun _ _ _ => rfl)
      (framed_ite (fun _ _ _ => Iff.rfl) (fun _ _ _ => rfl) framed_id))
    (framed_ite (fun _ _ _ => Iff.rfl) (fun _ _ _ => rfl)
      (framed_ite (fun _ _ _ => Iff.rfl) (fun _ _ _ => rfl) fun _ _ _ => rfl))

theorem skipBackticks_framed : Framed fun v => v.skipBackticks r :=
  framed_ite (fun _ _ _ => Iff.rfl)
    (framed_ite (fun _ _ _ => Iff.rfl) (fun _ _ _ => rfl)
      (framed_ite (fun _ _ _ => Iff.rfl) (fun _ _ _ => rfl) framed_id))
    (framed_ite (fun _ _ _ => Iff.rfl) (fun _ _ _ => rfl) fun _ _ _ => rfl)

theorem balanceValues_framed : Framed fun v => v.balanceValues r bs := by
  refine framed_ite (fun _ _ _ => Iff.rfl) framed_id (framed_ite (fun _ _ _ => Iff.rfl) (fun _ _ _ => rfl) ?_)
  intro v prev add
  dsimp only
  rw [View.endValues_eq,View.endValues_eq]
  rfl

theorem skipValues_framed : Framed fun v => v.skipValues r bs :=
  framed_ite (fun _ _ _ => Iff.rfl)
    (fun v => balanceValues_framed r bs {v with parOpen := v.parOpen-1,parOpenTotal := v.parOpenTotal+1})
    (framed_ite (fun _ _ _ => Iff.rfl)
      (fun v => balanceValues_framed r bs {v with
        parOpen := v.parOpen+1,gap := if v.parOpen+1 = 1 then 0 else v.gap})
      (framed_ite (fun _ _ _ => Iff.rfl) (fun _ _ _ => rfl)
        (framed_ite (fun _ _ _ => Iff.rfl) framed_id (balanceValues_framed r bs))))

end

-- Step 1 reads neither of the two.
def onPart (f : View → View) : Skipped View → Skipped View
  | .skip v => .skip (f v)
  | .through v => .through (f v)

theorem skipPart_drifted (v : View) (prev : Bytes) (add : Bool) (r : Nat) (bs : Bytes) :
    (drifted v prev add).skipPart r bs = onPart (fun u => drifted u prev add) (v.skipPart r bs) := by
  have other (calm : skips v.s = false) : (drifted v prev add).skipPart r bs =
      onPart (fun u => drifted u prev add) (v.skipPart r bs) := by
    rw [view_skipPart_other v r bs calm,view_skipPart_other (drifted v prev add) r bs calm,
      show (drifted v prev add).pr = v.pr from rfl]
    split <;> rfl
  cases state : v.s with
  | inQuote =>
    rw [skipPart_inQuote v r bs state,skipPart_inQuote (drifted v prev add) r bs state]
    exact congrArg _ (skipQuote_framed r bs v prev add)
  | inBackticks =>
    rw [skipPart_inBackticks v r bs state,skipPart_inBackticks (drifted v prev add) r bs state]
    exact congrArg _ (skipBackticks_framed r v prev add)
  | inNumberInWord =>
    rw [skipPart_inNumberInWord v r bs state,skipPart_inNumberInWord (drifted v prev add) r bs state]
    unfold View.endNumberInWord
    split <;> rfl
  | inNumber =>
    rw [skipPart_inNumber v r bs state,skipPart_inNumber (drifted v prev add) r bs state]
    unfold View.endNumber
    rw [show (drifted v prev add).sqlState = v.sqlState from rfl]
    split
    · rfl
    · split
      · rfl
      · split <;> rfl
  | inValues =>
    rw [skipPart_inValues v r bs state,skipPart_inValues (drifted v prev add) r bs state]
    exact congrArg _ (skipValues_framed r bs v prev add)
  | inMLC =>
    rw [skipPart_inMLC v r bs state,skipPart_inMLC (drifted v prev add) r bs state]
    unfold View.skipComment
    rw [show (drifted v prev add).pr = v.pr from rfl]
    split <;> rfl
  | mlcOrMySQLCode =>
    rw [skipPart_mlcOrMySQLCode v r bs state,skipPart_mlcOrMySQLCode (drifted v prev add) r bs state]
    split <;> rfl
  | inOLC =>
    rw [skipPart_inOLC v r bs state,skipPart_inOLC (drifted v prev add) r bs state]
    split <;> rfl
  | _ => exact other (by rw [state]; rfl)

-- The words that the previous word is compared with at this character.
def asked (env : Env) (v : View) (r : Nat) (bs : Bytes) : List Bytes :=
  if isSpace r then
    let word := toLower env.lower (v.word bs)
    if word = str "use" then [[]]
    else if word = str "null" then [str "is",str "not"]
    else if word = str "by" ∧ v.sqlState ≠ .orderBy then [str "order"]
    else if word = str "update" then [str "key"]
    else []
  else if r = rune '(' then [str "call",str "value",str "values",str "in"]
  else if r = rune ':' then [str "administrator"]
  else []

-- Whether a space is due is decided at this character.
def decides (v : View) (r : Nat) : Bool :=
  r = rune '#' || (isSpace r && v.s ≠ .unknown && v.s ≠ .inDash && v.s ≠ .moreValuesOrUnknown)

-- Step 2 in the two runs: what is due stays apart, or is the same in both.
inductive Turns (prev : Bytes) (add : Bool) (v : View) : Except Stop View → Except Stop View → Prop where
  | kept (u : View) : u.addSpace = v.addSpace → Turns prev add v (.ok u) (.ok (drifted u prev add))
  | met (u : View) : Turns prev add v (.ok u) (.ok (drifted u prev u.addSpace))
  | error (exit : Exit) : Turns prev add v (.error ⟨w,exit⟩) (.error ⟨w',exit⟩)

section
variable (env : Env) (v : View) {r : Nat} (bs : Bytes) (prev : Bytes) (add : Bool)

theorem turns_framed (framed : Framed f) : Turns prev add v (.ok (f v)) (.ok (f (drifted v prev add))) := by
  rw [framed v prev add]
  exact .kept _ (framed.space v)

-- A branch on a test that both runs answer alike.
theorem Turns.ite {c d : Prop} [Decidable c] [Decidable d] (same : c ↔ d)
    (yes : c → Turns prev add v one two) (no : ¬ c → Turns prev add v one' two') :
    Turns prev add v (if c then one else one') (if d then two else two') :=
  rel_ite (R := Turns prev add v) same yes no

theorem nullValue_framed (word : Bytes) : Framed fun v => v.nullValue word bs := by
  intro v prev add
  dsimp only
  rw [View.nullValue_eq,View.nullValue_eq]
  rfl

-- BY behind ORDER changes nothing in an ORDER BY.
theorem matchWord_by (sql : v.sqlState = .orderBy) : v.matchWord env (str "by") bs = .ok v := by
  have lower : toLower env.lower (str "by") = str "by" :=
    toLower_ascii env.lower (str "by") (by decide +kernel)
  have same : {v with sqlState := .orderBy} = v := by rw [← sql]
  unfold View.matchWord
  rw [wordIn,lower,same,if_neg (fun both => absurd both.1 (by decide)),
    if_neg (fun found => found.elim (fun both => absurd both.1 (by decide)) (by decide))]
  split
  · rfl
  · rw [if_neg (fun both => absurd both.2 (by decide)),if_neg (fun both => absurd both.2 (by decide))]

theorem matchWord_turns (word : Bytes) (use : word = str "use" → (v.prevWord = [] ↔ prev = []))
    (null : word = str "null" →
    ((v.prevWord = str "is" ↔ prev = str "is") ∧ (v.prevWord = str "not" ↔ prev = str "not")))
    (order : word = str "by" → v.sqlState ≠ .orderBy → (v.prevWord = str "order" ↔ prev = str "order"))
    (update : word = str "update" → (v.prevWord = str "key" ↔ prev = str "key")) :
    Turns prev add v (v.matchWord env word bs) ((drifted v prev add).matchWord env word bs) := by
  by_cases calm : word = str "by" ∧ v.sqlState = .orderBy
  · rw [calm.1,matchWord_by env v bs calm.2,matchWord_by env (drifted v prev add) bs calm.2]
    exact .kept v rfl
  unfold View.matchWord
  refine .ite _ _ _ (and_congr_right use) (fun _ => .error _) fun _ =>
    .ite _ _ _ (or_congr_left (and_congr_right fun is => ?null))
    (fun _ => turns_framed v prev add (nullValue_framed bs word)) fun _ =>
      .ite _ _ _ (and_congr_left fun is => order is fun sql => calm ⟨is,sql⟩) (fun _ => ?order)
    fun _ => .ite _ _ _ Iff.rfl (fun _ => .ite _ _ _ Iff.rfl (fun _ => ?comma) fun _ =>
      ?asc) fun _ => .ite _ _ _ (and_congr_left update) (fun _ => ?update)
    fun _ => .kept _ rfl
  case null => exact and_congr (not_congr (null is).1) (not_congr (null is).2)
  case order => exact turns_framed v prev add (f := fun u => {u with sqlState := .orderBy}) fun _ _ _ => rfl
  case comma => exact turns_framed v prev add (f := fun u => (u.fromHere bs).backComma) fun _ _ _ => rfl
  case asc => exact turns_framed v prev add (f := fun u => u.fromHere bs) fun _ _ _ => rfl
  case update =>
    exact turns_framed v prev add (f := fun u => {u with sqlState := .onDupeKeyUpdate}) fun _ _ _ => rfl

theorem asked_word (blank : isSpace r = true) (alike : ∀ x ∈ asked env v r bs,v.prevWord = x ↔ prev = x) :
    Turns prev add v (v.matchWord env (toLower env.lower (v.word bs)) bs)
      ((drifted v prev add).matchWord env (toLower env.lower (v.word bs)) bs) := by
  unfold asked at alike
  rw [if_pos blank] at alike
  dsimp only at alike
  generalize toLower env.lower (v.word bs) = word at alike ⊢
  apply matchWord_turns
  · rintro rfl
    exact alike _ (by simp)
  · rintro rfl
    exact ⟨alike _ (by simp; decide),alike _ (by simp; decide)⟩
  · rintro rfl sql
    exact alike _ (by simp [sql]; decide)
  · rintro rfl
    exact alike _ (by rw [if_neg (by decide),if_neg (by decide),
      if_neg (fun both => absurd both.1 (by decide)),if_pos rfl]; exact List.mem_cons_self)

theorem endWord_turns (blank : isSpace r = true) (alike : ∀ x ∈ asked env v r bs,v.prevWord = x ↔ prev = x) :
    Turns prev add v (v.endWord env bs) ((drifted v prev add).endWord env bs) := by
  have turns := asked_word env v bs prev add blank alike
  unfold View.endWord
  rw [show (drifted v prev add).word bs = v.word bs from rfl]
  generalize v.matchWord env (toLower env.lower (v.word bs)) bs = one at turns ⊢
  generalize (drifted v prev add).matchWord env (toLower env.lower (v.word bs)) bs = two at turns ⊢
  cases turns with
  | kept u => exact .met {u.mark with s := .inSpace,addSpace := true}
  | met u => exact .met {u.mark with s := .inSpace,addSpace := true}
  | error exit => exact .error exit

theorem onSpace_turns (blank : isSpace r = true) (alike : ∀ x ∈ asked env v r bs,v.prevWord = x ↔ prev = x) :
    Turns prev add v (v.onSpace env bs) ((drifted v prev add).onSpace env bs) := by
  rw [onSpace_eq,onSpace_eq]
  refine .ite _ _ _ Iff.rfl (fun _ => ?text) fun _ => .ite _ _ _ Iff.rfl (fun _ => ?dash) fun _ =>
    .ite _ _ _ Iff.rfl (fun _ => ?first)
    fun _ => endWord_turns env v bs prev add blank alike
  case text =>
    exact turns_framed v prev add (f := fun u => if u.endsInText then (u.write [byte ' ']).fromNext bs else u)
      (framed_ite (fun _ _ _ => Iff.rfl) (fun _ _ _ => rfl) framed_id)
  case dash =>
    exact turns_framed v prev add
      (f := fun u => {u with s := .inOLC,plan := if u.marked then some 2 else u.plan}) fun _ _ _ => rfl
  case first =>
    exact turns_framed v prev add (f := fun u => if u.valueNo = 1 then u.write [byte ' '] else u)
      (framed_ite (fun _ _ _ => Iff.rfl) (fun _ _ _ => rfl) framed_id)

theorem onOpenPar_turns (alike : ∀ x ∈ [str "call",str "value",str "values",str "in"],v.prevWord =
    x ↔ prev = x) :
    Turns prev add v (v.onOpenPar env bs) ((drifted v prev add).onOpenPar env bs) := by
  have begins : (drifted v prev add).beginsValues env (v.word bs) = v.beginsValues env (v.word bs) := by
    unfold View.beginsValues drifted
    dsimp only
    rw [decide_eq_decide.mpr (alike (str "value") (by simp)),
      decide_eq_decide.mpr (alike (str "values") (by simp)),
      decide_eq_decide.mpr (alike (str "in") (by simp))]
  unfold View.onOpenPar
  rw [show (drifted v prev add).word bs = v.word bs from rfl,begins]
  refine .ite _ _ _ (alike _ List.mem_cons_self) (fun _ => .error _) fun _ =>
    .ite _ _ _ Iff.rfl (fun _ => ?list) fun _ =>
    .ite _ _ _ Iff.rfl (fun _ => ?random) fun _ => .kept _ rfl
  case list =>
    exact turns_framed v prev add
      (f := fun u => {(if u.valueNo = 0 then u.mark else u) with
      s := .inValues,sqlState := .inValues,parOpen := 1,gap := 0})
      fun u prev add => congrArg
        (fun u : View => {u with s := .inValues,sqlState := .inValues,parOpen := 1,gap := 0})
        (framed_ite (f := View.mark) (c := fun u => u.valueNo = 0) (fun _ _ _ => Iff.rfl)
          (fun _ _ _ => rfl) framed_id u prev add)
  case random =>
    exact turns_framed v prev add
      (f := fun u => {u.fromHere bs with valueNo := 0,s := .inWord}) fun _ _ _ => rfl

theorem changeState_turns (alike : ∀ x ∈ asked env v r bs,v.prevWord = x ↔ prev = x) :
    Turns prev add v (v.changeState env r bs) ((drifted v prev add).changeState env r bs) := by
  have state (s : State) : Framed fun u => {u with s := s} := fun _ _ _ => rfl
  unfold View.changeState
  refine .ite _ _ _ Iff.rfl (fun _ => turns_framed v prev add (onDigit_framed env)) fun _ =>
    .ite _ _ _ Iff.rfl (fun space => onSpace_turns env v bs prev add space alike) fun space =>
    .ite _ _ _ Iff.rfl (fun _ => turns_framed v prev add (onQuote_framed r)) fun _ =>
      .ite _ _ _ Iff.rfl (fun _ => ?tick) fun _ =>
    .ite _ _ _ Iff.rfl (fun _ => ?operator) fun _ =>
      .ite _ _ _ Iff.rfl (fun _ => turns_framed v prev add (state _)) fun _ =>
    .ite _ _ _ Iff.rfl (fun _ => turns_framed v prev add (state _)) fun _ =>
      .ite _ _ _ Iff.rfl (fun _ => turns_framed v prev add (state _)) fun _ =>
    .ite _ _ _ Iff.rfl (fun _ => ?dash) fun _ => .ite _ _ _ Iff.rfl (fun _ => ?point) fun _ =>
    .ite _ _ _ Iff.rfl (fun par => onOpenPar_turns env v bs prev add ?par) fun _ =>
      .ite _ _ _ Iff.rfl (fun _ => .kept v rfl) fun _ =>
    .ite _ _ _ (and_congr_right fun colon => ?admin) (fun _ => .error _) fun _ =>
      .ite _ _ _ Iff.rfl (fun _ => .met {v with addSpace := false,s := .inOLC}) fun _ =>
    turns_framed v prev add (onOther_framed bs)
  case tick =>
    exact turns_framed v prev add (f := View.onBacktick)
      (framed_ite (fun _ _ _ => Iff.rfl) (state .inBackticks) framed_id)
  case operator => exact turns_framed v prev add (f := fun u => u.onOperator bs) fun _ _ _ => rfl
  case dash =>
    exact turns_framed v prev add
      (f := fun u => {u with s := if u.pr = rune '-' then .inDash else .opOrNumber}) fun _ _ _ => rfl
  case point =>
    exact turns_framed v prev add
      (f := fun u => if u.s = .inNumber ∨ u.s = .inOp then {u.mark with s := .inNumber} else u)
      (framed_ite (fun _ _ _ => Iff.rfl) (fun _ _ _ => rfl) framed_id)
  case par =>
    unfold asked at alike
    rwa [if_neg space,if_pos par] at alike
  case admin =>
    unfold asked at alike
    rw [if_neg space,if_neg (by rw [colon]; decide),if_pos colon] at alike
    exact alike _ List.mem_cons_self

end

theorem endWord_space (env : Env) {v u : View} (ended : v.endWord env bs = .ok u) : u.addSpace = true := by
  unfold View.endWord at ended
  cases matched : v.matchWord env (toLower env.lower (v.word bs)) bs with
  | error stop =>
    rw [matched] at ended
    cases ended
  | ok w =>
    rw [matched] at ended
    cases ended
    rfl

theorem decided {env : Env} {v u : View} (decides_ : decides v r = true)
    (changed : v.changeState env r bs = .ok u) : u.addSpace = isSpace r := by
  simp only [decides,Bool.or_eq_true,Bool.and_eq_true,decide_eq_true_eq] at decides_
  rcases decides_ with rfl | ⟨⟨⟨space,unknown⟩,dash⟩,more⟩
  · cases changed
    rfl
  · have digit : ¬ isDigit r = true := by
      intro digit
      rw [digit_space digit] at space
      cases space
    unfold View.changeState at changed
    rw [if_neg digit,if_pos space,onSpace_eq,if_neg unknown,if_neg dash,if_neg more] at changed
    rw [space]
    exact endWord_space env changed

-- The previous word is asked for what it is in both runs, and text is copied with the same space behind it.
def driftSafe (env : Env) (v w : View) (piece : Nat × Bytes) : Bool :=
  match (v.read piece.2).skipPart piece.1 piece.2 with
  | .skip _ => true
  | .through m => (asked env m piece.1 piece.2).all (fun x => (v.prevWord = x) = (w.prevWord = x)) &&
      (v.addSpace = w.addSpace || decides m piece.1 || v.copied env piece.1 piece.2 = [] ||
        (wordIn env.lower (toLower env.lower (v.copied env piece.1 piece.2)) listWords &&
          m.sqlState ≠ .onDupeKeyUpdate))

-- Elsewhere the space stays due or not, and no ON DUPLICATE KEY UPDATE begins.
structure Undecided (v u : View) : Prop where
  space : u.addSpace = v.addSpace
  dupe : u.sqlState = .onDupeKeyUpdate → v.sqlState = .onDupeKeyUpdate

theorem undecided {env : Env} {v u : View} (decides_ : decides v r = false)
    (changed : v.changeState env r bs = .ok u) : Undecided v u := by
  have calm {w : View} (add : w.addSpace = v.addSpace) (sql : w.sqlState = v.sqlState)
      (found : Except.ok w = (.ok u : Except Stop View)) : Undecided v u := by
    cases found
    exact ⟨add,fun dupe => by rwa [← sql]⟩
  revert changed
  apply View.changeState_cases (motive := fun one => one = .ok u → Undecided v u)
  case digit =>
    intro _
    refine View.onDigit_cases (motive := fun w => Except.ok w = (.ok u : Except Stop View) →
      Undecided v u) env v ?_ ?_ ?_ ?_
    case refine_3 => exact fun _ _ => calm rfl rfl
    all_goals exact fun _ => calm rfl rfl
  case space =>
    intro space
    apply View.onSpace_cases (motive := fun one => one = .ok u → Undecided v u)
    case word =>
      intro unknown dash more
      rw [decides,space] at decides_
      simp [unknown,dash,more] at decides_
    case dash => exact fun _ => calm rfl rfl
    all_goals exact fun _ _ => calm rfl rfl
  case quote =>
    intro _
    refine View.onQuote_cases (motive := fun w => Except.ok w = (.ok u : Except Stop View) →
      Undecided v u) v r ?_ ?_ ?_
    all_goals exact fun _ => calm rfl rfl
  case tick =>
    intro _
    unfold View.onBacktick
    split
    · exact calm rfl rfl
    · exact calm rfl rfl
  case par =>
    intro _
    apply View.onOpenPar_cases (motive := fun one => one = .ok u → Undecided v u)
    case call => exact fun _ => nofun
    case first | next =>
      intro _ _ found
      cases found
      exact ⟨rfl,nofun⟩
    all_goals exact fun _ => calm rfl rfl
  case admin => exact fun _ _ => nofun
  case hash =>
    rintro rfl
    cases decides_
  case other =>
    intro _ found
    cases found
    unfold View.onOther
    split
    · refine ⟨rfl,fun dupe => ?_⟩
      dsimp only at dupe
      split at dupe
      · cases dupe
      · exact dupe
    · exact ⟨rfl,id⟩
  all_goals intros; apply calm _ _ ‹_› <;> rfl

-- Text is copied with the same space behind it, or nothing is copied.
theorem copySlice_drifted (env : Env) (u : View) (prev : Bytes) (add : Bool)
    (fine : add = u.addSpace ∨ u.pend.take (u.due bs) = [] ∨
      wordIn env.lower (toLower env.lower (u.pend.take (u.due bs))) listWords = true ∧
    u.sqlState ≠ .onDupeKeyUpdate) :
    ∃ prev' add',(drifted u prev add).copySlice env bs = drifted (u.copySlice env bs) prev' add' := by
  have due : (drifted u prev add).due bs = u.due bs := rfl
  unfold View.copySlice
  rw [due]
  dsimp only
  by_cases some_ : 0 < u.due bs
  · have whole : u.due bs ≤ u.pend.length := by
      unfold View.due
      split
      · exact Nat.zero_le _
      · exact Nat.sub_le _ _
    have text : u.pend.take (u.due bs) ≠ [] := by
      intro none_
      have size := congrArg List.length none_
      rw [List.length_take,List.length_nil] at size
      omega
    have same : ((drifted u prev add).copyWord (u.due bs)
      (toLower env.lower (u.pend.take (u.due bs)))).afterCopy env =
        (u.copyWord (u.due bs) (toLower env.lower (u.pend.take (u.due bs)))).afterCopy env := by
      rcases fine with rfl | none_ | ⟨list,sql⟩
      · rfl
      · exact absurd none_ text
      · unfold View.afterCopy
        rw [if_pos ⟨list,sql⟩,if_pos ⟨list,sql⟩]
        rfl
    rw [if_pos some_,if_pos some_]
    exact ⟨_,_,same⟩
  · rw [if_neg some_,if_neg some_]
    exact ⟨prev,add,rfl⟩

structure Drift (v w : View) : Prop where
  control : w = drifted v w.prevWord w.addSpace

theorem drift_drifted (v : View) (prev : Bytes) (add : Bool) : Drift v (drifted v prev add) := ⟨rfl⟩

inductive Drifts : Except Stop View → Except Stop View → Prop where
  | ok : Drift v w → Drifts (.ok v) (.ok w)
  | error (exit : Exit) : Drifts (.error ⟨v,exit⟩) (.error ⟨w,exit⟩)

theorem step_drifts (env : Env) {v w : View} (drift : Drift v w) (safe : driftSafe env v w (r,bs) = true) :
    Drifts (v.step env r bs) (w.step env r bs) := by
  rw [drift.control]
  have part : ((drifted v w.prevWord w.addSpace).read bs).skipPart r bs =
      onPart (fun u => drifted u w.prevWord w.addSpace) ((v.read bs).skipPart r bs) :=
    skipPart_drifted (v.read bs) w.prevWord w.addSpace r bs
  have own : (v.read bs).skipPart r bs = onPart (fun u => drifted u v.prevWord v.addSpace)
      ((v.read bs).skipPart r bs) :=
    skipPart_drifted (v.read bs) v.prevWord v.addSpace r bs
  unfold driftSafe at safe
  dsimp only at safe
  cases found : (v.read bs).skipPart r bs with
  | skip m =>
    rw [found] at part
    rw [step_skips found,step_skips part]
    exact .ok (drift_drifted (m.advance bs) _ _)
  | through m =>
    rw [found] at part own safe
    have words : m.prevWord = v.prevWord := (congrArg View.prevWord (Skipped.through.inj own) :)
    have add : m.addSpace = v.addSpace := (congrArg View.addSpace (Skipped.through.inj own) :)
    simp only [Bool.and_eq_true,List.all_eq_true,decide_eq_true_eq] at safe
    obtain ⟨alike,space⟩ := safe
    have turns := changeState_turns env m (r := r) bs w.prevWord w.addSpace fun x mem => by
      rw [words]
      exact iff_of_eq (alike x mem)
    rw [step_enters found,step_enters part]
    dsimp only
    cases changed : m.changeState env r bs with
    | error stop =>
      rw [changed] at turns
      generalize (drifted m w.prevWord w.addSpace).changeState env r bs = two at turns ⊢
      cases turns with
      | error exit => exact .error exit
    | ok u =>
      rw [View.copied_eq found changed] at space
      have finished (prev : Bytes) (add : Bool) (fine : add = u.addSpace ∨ u.pend.take (u.due bs) = [] ∨
          wordIn env.lower (toLower env.lower (u.pend.take (u.due bs))) listWords = true ∧
            u.sqlState ≠ .onDupeKeyUpdate) :
          Drifts (.ok (u.finish env r bs)) (.ok (View.finish env (drifted u prev add) r bs)) := by
        obtain ⟨prev',add',same⟩ := copySlice_drifted env u prev add fine
        unfold View.finish
        rw [same]
        exact .ok (drift_drifted (View.advance {u.copySlice env bs with pr := r,plan := none} bs) prev' add')
      rw [changed] at turns
      cases changed' : (drifted m w.prevWord w.addSpace).changeState env r bs with
      | error stop =>
        rw [changed'] at turns
        cases turns
      | ok u' =>
        rw [changed'] at turns
        cases turns with
        | met => exact finished _ _ (.inl rfl)
        | kept _ kept =>
          apply finished
          by_cases decides_ : decides m r = true
          · left
            rw [decided decides_ changed]
            exact decided (v := drifted m w.prevWord w.addSpace)
              (u := drifted u w.prevWord w.addSpace) decides_ changed'
          · rw [Bool.eq_false_iff.mpr decides_,Bool.or_false] at space
            simp only [Bool.or_eq_true,Bool.and_eq_true,decide_eq_true_eq] at space
            rcases space with (same | none_) | ⟨list,sql⟩
            · exact .inl (by rw [kept,add,same])
            · exact .inr (.inl none_)
            · exact .inr (.inr ⟨list,fun dupe =>
                sql ((undecided (Bool.eq_false_iff.mpr decides_) changed).dupe dupe)⟩)

theorem run_drifts (env : Env) {v w : View} (drift : Drift v w)
    (safe : lockstep env (fun v w piece _ => driftSafe env v w piece) ps ps v w = true) :
    Drifts (View.run env ps v) (View.run env ps w) := by
  induction ps generalizing v w with
  | nil => exact .ok drift
  | cons p ps ih =>
    rw [lockstep,Bool.and_eq_true] at safe
    obtain ⟨here,later⟩ := safe
    have stepped := step_drifts env drift here
    rw [View.run,View.run]
    generalize v.step env p.1 p.2 = one at stepped later ⊢
    generalize w.step env p.1 p.2 = two at stepped later ⊢
    cases stepped with
    | ok drift => exact ih drift later
    | error exit => exact .error exit

theorem Drifts.same (drifts : Drifts one two) : Same one two := by
  cases drifts with
  | ok drift => exact .ok (congrArg View.out drift.control :).symm
  | error exit => exact .error

end SqlReview.FingerprintDrift
