import SqlReview.FingerprintDrift
import SqlReview.FingerprintGaps

-- The whitespace of the fingerprint itself.
namespace SqlReview.FingerprintTidy
open GoBytes Fingerprint FingerprintView FingerprintLiteral FingerprintPending FingerprintRegular
  FingerprintGaps
open FingerprintDrift (decides decided undecided)

-- Where a scan of the fingerprint is: behind whitespace or a backslash, or in a name in backticks.
inductive Spot where
  | plain (space slash : Bool)
  | name (escape : Bool)
  deriving DecidableEq

-- Outside names a space may follow anything but whitespace, and no other whitespace is allowed.
def Spot.next : Spot → UInt8 → Option Spot
  | .plain space slash,b =>
    if isSpace b.toNat then if space || b != byte ' ' then none else some (.plain true false)
    else if b == byte '\x60' && !slash then some (.name false)
    else some (.plain false (b == byte '\\'))
  | .name escape,b =>
    if escape then some (.name false)
    else if b == byte '\\' then some (.name true)
    else if b == byte '\x60' then some (.plain false false)
    else some (.name false)

def scan (spot : Spot) (text : Bytes) : Option Spot := text.foldlM Spot.next spot

def tidy (text : Bytes) : Bool := (scan (.plain false false) text).isSome

-- What the fingerprint keeps of the buffer.
def visible (text : Bytes) : Bytes := text.filter (· ≠ 0)

-- Where the fingerprint so far ends, and the text that may follow there.
def spot (out : Bytes) : Spot := (scan (.plain false false) (visible out)).getD (.plain false false)

def fits (out text : Bytes) : Bool := (scan (spot out) (visible text)).isSome

-- Step 2 writes a space of its own.
def writesSpace (m : View) (r : Nat) : Bool :=
  isSpace r && ((m.s = .unknown && m.endsInText) || (m.s = .moreValuesOrUnknown && m.valueNo = 1))

-- A space is due behind the text that step 3 copies.
def spaceDue (m : View) (r : Nat) : Bool := if decides m r then isSpace r else m.addSpace

def inLower (env : Env) (text : Bytes) : Bytes := fit text.length (toLower env.lower text)

-- Before step 2: no space follows whitespace, the pending text brings no whitespace but single
-- spaces if it is copied, nor does it if it is the name of a procedure behind the space of CALL.
def neatly (env : Env) (v : View) (r : Nat) (bs : Bytes) : Bool :=
  match (v.read bs).skipPart r bs with
  | .skip _ => true
  | .through m =>
    (!writesSpace m r || fits m.out [byte ' ']) &&
    (v.copied env r bs = [] ||
      fits m.out (inLower env (v.copied env r bs) ++ if spaceDue m r then [byte ' '] else [])) &&
    (r ≠ rune '(' || m.prevWord ≠ str "call" || (scan (.plain true false) (m.word bs)).isSome)

-- The condition on every iteration of a run.
def orderly (env : Env) : List (Nat × Bytes) → View → Bool
  | [],_ => true
  | piece :: rest,v => neatly env v piece.1 piece.2 &&
    match v.step env piece.1 piece.2 with
    | .ok w => orderly env rest w
    | .error _ => true

theorem scan_append (spot : Spot) (one two : Bytes) :
    scan spot (one ++ two) = (scan spot one).bind fun spot => scan spot two := by
  unfold scan
  rw [List.foldlM_append]
  rfl

theorem visible_append (one two : Bytes) : visible (one ++ two) = visible one ++ visible two :=
  List.filter_append one two

theorem tidy_prefix (whole : tidy (one ++ two) = true) : tidy one = true := by
  unfold tidy at whole ⊢
  rw [scan_append] at whole
  cases first : scan (.plain false false) one with
  | none =>
    rw [first] at whole
    cases whole
  | some spot => rfl

def Neat (out : Bytes) : Prop := tidy (visible out) = true

theorem Neat.nil : Neat [] := rfl

theorem Neat.front (neat : Neat (one ++ two)) : Neat one := by
  unfold Neat at neat ⊢
  rw [visible_append] at neat
  exact tidy_prefix neat

theorem Neat.write (neat : Neat out) (follows : fits out text = true) : Neat (out ++ text) := by
  unfold Neat tidy at neat ⊢
  obtain ⟨here,scanned⟩ := Option.isSome_iff_exists.mp neat
  rw [visible_append,scan_append,scanned]
  unfold fits spot at follows
  rwa [scanned] at follows

-- A text of the function's own that fits behind anything.
def Plain (text : Bytes) : Prop := ∀ spot,(scan spot (visible text)).isSome = true

theorem Neat.writePlain (neat : Neat out) (plain : Plain text) : Neat (out ++ text) := neat.write (plain _)

theorem every_spot {P : Spot → Prop} (plain : ∀ space slash,P (.plain space slash))
    (name : ∀ escape,P (.name escape)) : ∀ spot,P spot := by
  intro spot
  cases spot with
  | plain space slash => exact plain space slash
  | name escape => exact name escape

theorem question_plain : Plain [byte '?'] := every_spot (by decide) (by decide)

theorem list_plain (v : View) : Plain v.listText := by
  unfold View.listText
  split
  · exact every_spot (by decide) (by decide)
  · exact every_spot (by decide) (by decide)

theorem null_plain (word : Bytes) :
    Plain (byte '?' :: if word.getLast? = some (byte ',') then [byte ',',byte ' '] else [byte ' ']) := by
  split
  · exact every_spot (by decide) (by decide)
  · exact every_spot (by decide) (by decide)

theorem comma_plain : Plain [byte ',',byte ' '] := every_spot (by decide) (by decide)

-- The comma of "ASC," over the last byte.
theorem Neat.comma (neat : Neat out) : Neat (out.dropLast ++ [byte ',',byte ' ']) := by
  apply Neat.writePlain _ comma_plain
  rcases List.eq_nil_or_concat out with rfl | ⟨front,b,same⟩
  · exact Neat.nil
  · rw [same,List.concat_eq_append] at neat
    rw [same,List.concat_eq_append,List.dropLast_concat]
    exact neat.front

def PartNeat : Skipped View → Prop
  | .skip w => Neat w.out
  | .through w => Neat w.out

theorem skipPart_neat {v : View} (neat : Neat v.out) (r : Nat) (bs : Bytes) :
    PartNeat ((v.read bs).skipPart r bs) := by
  have asked : Neat (v.out ++ [byte '?']) := neat.writePlain question_plain
  have balance (u : View) (out : u.out = v.out) : Neat (u.balanceValues r bs).out := by
    have same : Neat u.out := by rwa [out]
    apply View.balanceValues_cases (motive := fun w => Neat w.out)
    · exact fun _ => same
    · exact fun _ _ => same
    · intro _ _
      rw [View.endValues_eq]
      dsimp only
      split
      · exact same.writePlain (list_plain u)
      · rw [List.append_nil]
        exact same
  apply View.skipPart_cases (motive := PartNeat)
  case quote =>
    intro _
    apply View.skipQuote_cases (motive := fun w => Neat w.out)
    · exact fun _ => neat
    · exact fun _ _ _ => neat
    · exact fun _ _ _ => asked
  case backticks =>
    intro _
    apply View.skipBackticks_cases (motive := fun w => Neat w.out)
    · exact fun _ => neat
    · exact neat
  case values =>
    intro _
    apply View.skipValues_cases (motive := fun w => Neat w.out)
    · exact fun _ => balance _ rfl
    · exact fun _ => balance _ rfl
    · exact fun _ => neat
    · exact fun _ => neat
    · exact balance _ rfl
  case endNumberInWord => exact fun _ => asked
  case endNumber => exact fun _ _ => asked
  all_goals
    intros
    exact neat

theorem endWord_neat {w u : View} (neat : Neat w.out) (ran : w.endWord env bs = .ok u) : Neat u.out := by
  have cases :=
    View.endWord_cases (motive := fun turn => turn = .ok u →
      Neat u.out) env w bs ?use ?null ?order ?asc ?ascComma ?update ?other
  · exact cases ran
  case use =>
    intro _ _ same
    cases same
  case null =>
    intro word _ _ same
    rw [View.nullValue_eq] at same
    cases same
    exact neat.writePlain (null_plain word)
  case ascComma =>
    intro _ _ _ same
    cases same
    exact neat.comma
  all_goals
    intros
    rename_i same
    cases same
    exact neat

theorem onSpace_neat {w u : View} (neat : Neat w.out) (space : isSpace r = true)
    (follows : writesSpace w r = true → fits w.out [byte ' '] = true)
    (ran : w.onSpace env bs = .ok u) : Neat u.out := by
  have cases :=
    View.onSpace_cases (motive := fun turn => turn = .ok u →
      Neat u.out) env w bs ?text ?lost ?dash ?first ?more ?word
  · exact cases ran
  case text =>
    intro state text same
    cases same
    exact neat.write (follows (by simp [writesSpace,space,state,text]))
  case first =>
    intro state value same
    cases same
    exact neat.write (follows (by simp [writesSpace,space,state,value]))
  case word => exact fun _ _ _ ran => endWord_neat neat ran
  all_goals
    intros
    rename_i same
    cases same
    exact neat

theorem changeState_neat {w u : View} (neat : Neat w.out)
    (follows : writesSpace w r = true → fits w.out [byte ' '] = true)
    (ran : w.changeState env r bs = .ok u) : Neat u.out := by
  have cases := View.changeState_cases (motive := fun turn => turn = .ok u → Neat u.out) env w r bs
    ?digit ?space ?quote ?tick ?operator ?div ?star ?plus ?dash ?point ?dot ?par ?comma ?admin ?hash ?other
  · exact cases ran
  case digit =>
    intro _ same
    cases same
    apply View.onDigit_cases (motive := fun u => Neat u.out)
    all_goals
      intros
      exact neat
  case space => exact fun space ran => onSpace_neat neat space follows ran
  case quote =>
    intro _ same
    cases same
    apply View.onQuote_cases (motive := fun u => Neat u.out)
    all_goals
      intros
      exact neat
  case tick =>
    intro _ same
    cases same
    unfold View.onBacktick
    split
    · exact neat
    · exact neat
  case par =>
    intro _
    apply View.onOpenPar_cases (motive := fun turn => turn = .ok u → Neat u.out)
    · intro _ same
      cases same
    all_goals
      intros
      rename_i same
      cases same
      exact neat
  case admin =>
    intro _ _ same
    cases same
  case other =>
    intro _ same
    cases same
    unfold View.onOther
    split
    · exact neat
    · exact neat
  all_goals
    intros
    rename_i same
    cases same
    exact neat

theorem due_within (u : View) (bs : Bytes) : (u.pend.take (u.due bs)).length = u.due bs := by
  rw [List.length_take,Nat.min_eq_left]
  unfold View.due
  split
  · exact Nat.zero_le _
  · exact Nat.sub_le _ _

theorem copySlice_neat {u : View} (neat : Neat u.out) (follows : u.pend.take (u.due bs) ≠ [] →
    fits u.out (inLower env (u.pend.take (u.due bs)) ++ if u.addSpace then [byte ' '] else []) =
    true) : Neat (u.copySlice env bs).out := by
  apply View.copySlice_cases (motive := fun w => Neat w.out)
  case idle => exact fun _ => neat
  case copy =>
    intro w lower due
    have size := due_within u bs
    have some_ : u.pend.take (u.due bs) ≠ [] := by
      intro none_
      rw [none_,List.length_nil] at size
      omega
    have whole := neat.write (follows some_)
    rw [← List.append_assoc,inLower,size,lower] at whole
    apply View.afterCopy_cases (motive := fun w => Neat w.out)
    case list => exact fun _ => whole.front
    case space =>
      intro space
      rw [if_pos (show u.addSpace = true from space)] at whole
      exact whole
    case keep => exact fun _ => whole.front

theorem due_next {u : View} (pend : u.pend = bs.drop k) : u.due bs = 0 := by
  have size := congrArg List.length pend
  rw [List.length_drop] at size
  unfold View.due
  split
  · rfl
  · omega

-- Step 2 writes nothing before text is copied.
theorem changeState_out {m u : View} (plan : m.s = .moreValuesOrUnknown → m.plan = none)
    (ran : m.changeState env r bs = .ok u) :
    u.out = m.out ∨ u.due bs = 0 := by
  have kept {w : View} (out : w.out = m.out) (found : Except.ok w =
      (.ok u : Except Stop View)) : u.out = m.out ∨ u.due bs = 0 := by
    cases found
    exact .inl out
  have dropped {w : View} {k : Nat} (pend : w.pend = bs.drop k) (found : Except.ok w =
      (.ok u : Except Stop View)) : u.out = m.out ∨ u.due bs = 0 := by
    cases found
    exact .inr (due_next pend)
  have cases :=
    View.changeState_cases (motive := fun turn => turn = .ok u → u.out = m.out ∨ u.due bs = 0) env m r bs
    ?digit ?space ?quote ?tick ?operator ?div ?star ?plus ?dash ?point ?dot ?par ?comma ?admin ?hash ?other
  · exact cases ran
  case digit =>
    exact fun _ => kept (View.onDigit_cases (motive := fun w => w.out = m.out) env m (fun _ => rfl)
      (fun _ => rfl) (fun _ _ => rfl) fun _ => rfl)
  case quote =>
    exact fun _ => kept (View.onQuote_cases (motive := fun w => w.out = m.out) m r (fun _ => rfl)
      (fun _ => rfl) fun _ => rfl)
  case tick =>
    intro _
    unfold View.onBacktick
    split
    · exact kept rfl
    · exact kept rfl
  case other =>
    intro _
    unfold View.onOther
    split
    · exact kept rfl
    · exact kept rfl
  case par =>
    intro _
    apply View.onOpenPar_cases (motive := fun turn => turn = .ok u → u.out = m.out ∨ u.due bs = 0)
    case call => exact fun _ => nofun
    case first | next => exact fun _ _ => kept rfl
    all_goals exact fun _ => kept rfl
  case admin => exact fun _ _ => nofun
  case space =>
    intro _
    apply View.onSpace_cases (motive := fun turn => turn = .ok u → u.out = m.out ∨ u.due bs = 0)
    case text => exact fun _ _ => dropped (k := 1) rfl
    case lost => exact fun _ _ => kept rfl
    case dash => exact fun _ => kept rfl
    case first =>
      intro state _ same
      cases same
      right
      unfold View.due
      rw [show View.plan (m.write [byte ' ']) = none from plan state]
    case more => exact fun _ _ => kept rfl
    case word =>
      intro _ _ _
      apply View.endWord_cases (motive := fun turn => turn = .ok u → u.out = m.out ∨ u.due bs = 0)
      case use => exact fun _ _ => nofun
      case null =>
        intro word _ _
        rw [View.nullValue_eq]
        exact dropped (k := 1) rfl
      case order => exact fun _ => kept rfl
      case asc => exact fun _ _ => kept rfl
      case ascComma => exact fun _ _ _ => dropped (k := 0) rfl
      case update => exact fun _ => kept rfl
      case other => exact kept rfl
  case operator => exact fun _ => kept rfl
  case star | point | dot | comma => exact fun _ _ => kept rfl
  all_goals exact fun _ => kept rfl

theorem addSpace_due {m u : View} (changed : m.changeState env r bs = .ok u) : u.addSpace = spaceDue m r := by
  unfold spaceDue
  split
  · exact decided ‹_› changed
  · exact (undecided (Bool.eq_false_iff.mpr ‹_›) changed).space

theorem through_plan {v m : View} (regular : Regular v)
    (through : (v.read bs).skipPart r bs = .through m) (state : m.s = .moreValuesOrUnknown) :
    m.plan = none := by
  revert through
  apply View.skipPart_cases (motive := fun part => part = .through m → m.plan = none)
  case through =>
    intro _ _ same
    cases same
    exact regular.plan (by rw [show v.s = .moreValuesOrUnknown from state]; exact nofun)
  case endNumberInWord =>
    intro _ same
    cases same
    dsimp only at state
    split at state
    · cases state
    · cases state
  case notNumber | endNumber =>
    intro _ _ same
    cases same
    cases state
  case version =>
    intro _ _ _ same
    cases same
    cases state
  case code =>
    intro _ _ same
    cases same
    cases state
  all_goals
    intros
    rename_i same
    cases same

theorem step_neat {v w : View} (regular : Regular v) (neat : Neat v.out)
    (fine : neatly env v r bs = true) (ran : View.step env v r bs = .ok w) : Neat w.out := by
  have part := skipPart_neat neat r bs
  have cases :=
    View.step_cases (motive := fun turn => turn = .ok w → Neat w.out) env v r bs ?skip ?stop ?through
  · exact cases ran
  case skip =>
    intro u found same
    rw [found] at part
    cases same
    exact part
  case stop =>
    intro _ _ _ _ same
    cases same
  case through =>
    intro m u found changed same
    rw [found] at part
    simp only [neatly,found,Bool.and_eq_true] at fine
    obtain ⟨⟨space,copies⟩,_⟩ := fine
    cases same
    have turned := changeState_neat part (fun writes => by simpa [writes] using space) changed
    apply copySlice_neat turned
    intro some_
    rw [View.copied_eq found changed,Bool.or_eq_true,decide_eq_true_eq] at copies
    have out : u.out = m.out := by
      rcases changeState_out (through_plan regular found) changed with same | none_
      · exact same
      · exact absurd (by rw [none_,List.take_zero]) some_
    rw [out,addSpace_due changed]
    exact copies.resolve_left some_

-- A procedure's name is returned as it stands in the query.
structure Called (m : View) (r : Nat) (bs name : Bytes) : Prop where
  par : r = rune '('
  call : m.prevWord = str "call"
  word : name = m.word bs

theorem changeState_call {m : View} (ran : m.changeState env r bs = .error ⟨u,.callProc name⟩) :
    Called m r bs name := by
  revert ran
  apply View.changeState_cases (motive := fun turn => turn = .error ⟨u,.callProc name⟩ → Called m r bs name)
  case space =>
    intro _
    apply View.onSpace_cases (motive := fun turn => turn = .error ⟨u,.callProc name⟩ → Called m r bs name)
    case word =>
      intro _ _ _
      apply View.endWord_cases (motive := fun turn => turn = .error ⟨u,.callProc name⟩ → Called m r bs name)
      all_goals
        intros
        rename_i same
        cases same
    all_goals
      intros
      rename_i same
      cases same
  case par =>
    intro par
    apply View.onOpenPar_cases (motive := fun turn => turn = .error ⟨u,.callProc name⟩ → Called m r bs name)
    case call =>
      intro call same
      cases same
      exact ⟨par,call,rfl⟩
    all_goals
      intros
      rename_i same
      cases same
  all_goals
    intros
    rename_i same
    cases same

theorem tidy_call (name : Bytes) : tidy (str "call " ++ name) = (scan (.plain true false) name).isSome := by
  have front : scan (.plain false false) (str "call ") = some (.plain true false) := by decide +kernel
  rw [tidy,scan_append,front]
  rfl

theorem step_call {v : View} (fine : neatly env v r bs = true)
    (ran : View.step env v r bs = .error ⟨u,.callProc name⟩) :
    tidy (str "call " ++ name) = true := by
  have cases :=
    View.step_cases (motive := fun turn => turn = .error ⟨u,.callProc name⟩ →
      tidy (str "call " ++ name) = true) env v r bs ?skip ?stop ?through
  · exact cases ran
  case skip =>
    intro _ _ same
    cases same
  case stop =>
    intro w stop found changed same
    cases same
    obtain ⟨par,call,rfl⟩ := changeState_call changed
    simp only [neatly,found,Bool.and_eq_true] at fine
    rw [tidy_call]
    simpa [par,call] using fine.2
  case through =>
    intro _ _ _ _ same
    cases same

-- What a run returns, as far as its whitespace goes.
def Returned : Except Stop View → Prop
  | .ok v => Neat v.out
  | .error ⟨_,.callProc name⟩ => tidy (str "call " ++ name) = true
  | .error _ => True

theorem run_neat (regular : Regular v) (neat : Neat v.out) (fine : orderly env pieces v = true) :
    Returned (View.run env pieces v) := by
  induction pieces generalizing v with
  | nil => exact neat
  | cons piece rest ih =>
    obtain ⟨here,later⟩ := Bool.and_eq_true_iff.mp fine
    rw [View.run]
    cases step : v.step env piece.1 piece.2 with
    | ok w =>
      rw [step] at later
      exact ih (step_regular regular step) (step_neat regular neat here step) later
    | error stop =>
      obtain ⟨view,exit⟩ := stop
      cases exit with
      | callProc name => exact step_call here step
      | _ => trivial

theorem answer_tidy (query : Bytes) (returned : Returned one)
    (command : ∀ v,one ≠ .error ⟨v,.adminCommand⟩) : tidy (View.answer query one) = true := by
  cases one with
  | ok v =>
    have whole : Neat v.out := returned
    obtain ⟨spaces,split⟩ : ∃ spaces,v.out = (v.out.rdropWhile fun b => isSpace b.toNat) ++ spaces :=
      ⟨_,List.rdropWhile_append_rtakeWhile.symm⟩
    rw [split] at whole
    exact whole.front
  | error stop =>
    obtain ⟨v,exit⟩ := stop
    cases exit with
    | useQuery => exact (show tidy (str "use ?") = true by decide)
    | callProc name => exact returned
    | adminCommand => exact absurd rfl (command v)
    | outOfRange => rfl

end SqlReview.FingerprintTidy
