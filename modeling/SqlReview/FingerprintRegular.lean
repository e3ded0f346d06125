import SqlReview.FingerprintPending

-- What holds of the variables of Fingerprint at the head of every iteration.
namespace SqlReview.FingerprintRegular
open GoBytes Fingerprint FingerprintView FingerprintLiteral FingerprintPending

-- The states that a space or another separator can leave behind.
def rested : State → Bool
  | .opOrNumber | .divOrMLC | .inDash | .inNumber | .inNumberInWord | .mlcOrMySQLCode => false
  | _ => true

def isQuote (r : Nat) : Prop := r = rune '\'' ∨ r = rune '"'

structure Regular (v : View) : Prop where
  plan : v.s ≠ .inWord → v.plan = none
  quote : v.s = .inQuote → isQuote v.quoteChar
  spaced : isSpace v.pr = true → rested v.s = true
  values : v.s = .inValues → v.sqlState = .inValues
  balance : v.parOpen ≤ 0 → v.parOpenTotal = 0
  escape : Unescaped v

-- A separator: a space, an operator of comparison, an opening parenthesis or a comma.
def separates (r : Nat) : Bool :=
  isSpace r || r == rune '=' || r == rune '<' || r == rune '>' || r == rune '(' || r == rune ','

-- What step 2 does to these variables, from a state that lets the rune through.
def Turns (r : Nat) (v : View) : Except Stop View → Prop
  | .ok u => (u.s = .inQuote → isQuote r ∧ u.quoteChar = r) ∧ (separates r = true → rested u.s = true) ∧
      (u.s = .inValues → u.sqlState = .inValues) ∧ (u.parOpen = v.parOpen ∨ u.parOpen = 1) ∧
        u.parOpenTotal = v.parOpenTotal
  | .error _ => True

theorem Turns.to {u : View} (s : State) (state : u.s = s) (quote : s ≠ .inQuote) (values : s ≠ .inValues)
    (rest : separates r = true → rested s = true) (open_ : u.parOpen = v.parOpen)
    (total : u.parOpenTotal = v.parOpenTotal) :
    Turns r v (.ok u) := by
  refine ⟨fun bad => ?_,fun own => ?_,fun bad => ?_,Or.inl open_,total⟩
  · exact absurd (state.symm.trans bad) quote
  · rw [state]
    exact rest own
  · exact absurd (state.symm.trans bad) values

theorem endWord_turns (env : Env) (v : View) (r : Nat) (bs : Bytes) : Turns r v (v.endWord env bs) := by
  apply View.endWord_cases (motive := Turns r v)
  · intros
    trivial
  · intro word _ _
    rw [View.nullValue_eq]
    exact .to .inSpace rfl nofun nofun (fun _ => rfl) rfl rfl
  all_goals
    intros
    exact .to .inSpace rfl nofun nofun (fun _ => rfl) rfl rfl

theorem onSpace_turns (env : Env) (v : View) (r : Nat) (bs : Bytes) : Turns r v (v.onSpace env bs) := by
  apply View.onSpace_cases (motive := Turns r v)
  · intro state _
    exact .to .unknown state nofun nofun (fun _ => rfl) rfl rfl
  · intro state _
    exact .to .unknown state nofun nofun (fun _ => rfl) rfl rfl
  · intro _
    exact .to .inOLC rfl nofun nofun (fun _ => rfl) rfl rfl
  · intro state _
    exact .to .moreValuesOrUnknown state nofun nofun (fun _ => rfl) rfl rfl
  · intro state _
    exact .to .moreValuesOrUnknown state nofun nofun (fun _ => rfl) rfl rfl
  · intros
    exact endWord_turns env v r bs

theorem onOpenPar_turns (env : Env) (v : View) (r : Nat) (bs : Bytes) : Turns r v (v.onOpenPar env bs) := by
  apply View.onOpenPar_cases (motive := Turns r v)
  · intros
    trivial
  · intros
    exact ⟨nofun,fun _ => rfl,fun _ => rfl,Or.inr rfl,rfl⟩
  · intros
    exact ⟨nofun,fun _ => rfl,fun _ => rfl,Or.inr rfl,rfl⟩
  · intro _
    exact .to .inWord rfl nofun nofun (fun _ => rfl) rfl rfl
  · intro state
    exact .to .inWord state nofun nofun (fun _ => rfl) rfl rfl

theorem numeral_separates (numeral : inNumeral r = true) : ¬ separates r = true := by
  intro own
  simp only [separates,isSpace,Bool.or_eq_true,beq_iff_eq] at own
  rcases own with ((((((((own | own) | own) | own) | own) | own) | own) | own) | own) <;>
    rw [own] at numeral <;> revert numeral <;> decide

theorem digit_separates (digit : isDigit r = true) : ¬ separates r = true :=
  numeral_separates (by simp [inNumeral,digit])

theorem changeState_turns (env : Env) (v : View) (r : Nat) (bs : Bytes) (outside : skips v.s = false) :
    Turns r v (v.changeState env r bs) := by
  have quote : v.s ≠ .inQuote := by
    intro state
    rw [state] at outside
    cases outside
  have values : v.s ≠ .inValues := by
    intro state
    rw [state] at outside
    cases outside
  have plain {c : Char} (own : r = rune c) (no : separates (rune c) = false) : ¬ separates r = true := by
    rw [own,no]
    exact nofun
  apply View.changeState_cases (motive := Turns r v)
  case digit =>
    intro digit
    have no := digit_separates digit
    apply View.onDigit_cases (motive := fun u => Turns r v (.ok u))
    · intro _
      exact .to .inNumber rfl nofun nofun (fun own => absurd own no) rfl rfl
    · intro _
      exact .to .inNumber rfl nofun nofun (fun own => absurd own no) rfl rfl
    · intros
      exact .to .inNumberInWord rfl nofun nofun (fun own => absurd own no) rfl rfl
    · intro state
      exact .to .inWord state nofun nofun (fun _ => rfl) rfl rfl
  case space => exact fun _ => onSpace_turns env v r bs
  case quote =>
    intro own
    have no : ¬ separates r = true := by rcases own with own | own <;> exact plain own rfl
    apply View.onQuote_cases (motive := fun u => Turns r v (.ok u))
    · intro _
      exact ⟨fun _ => ⟨own,rfl⟩,fun bad => absurd bad no,nofun,Or.inl rfl,rfl⟩
    · intro _
      exact ⟨fun _ => ⟨own,rfl⟩,fun bad => absurd bad no,nofun,Or.inl rfl,rfl⟩
    · intro _
      exact .to v.s rfl quote values (fun bad => absurd bad no) rfl rfl
  case tick =>
    intro own
    exact iteInduction (motive := fun u => Turns r v (.ok u))
      (fun _ => .to .inBackticks rfl nofun nofun (fun _ => rfl) rfl rfl)
      fun _ => .to v.s rfl quote values (fun bad => absurd bad (plain own rfl)) rfl rfl
  case operator => exact fun _ => .to .inOp rfl nofun nofun (fun _ => rfl) rfl rfl
  case div => exact fun own => .to .divOrMLC rfl nofun nofun (fun bad => absurd bad (plain own rfl)) rfl rfl
  case star =>
    exact fun own _ => .to .mlcOrMySQLCode rfl nofun nofun (fun bad => absurd bad (plain own rfl)) rfl rfl
  case plus =>
    exact fun own => .to .opOrNumber rfl nofun nofun (fun bad => absurd bad (plain own rfl)) rfl rfl
  case dash =>
    intro own
    by_cases twice : v.pr = rune '-'
    · rw [if_pos twice]
      exact .to .inDash rfl nofun nofun (fun bad => absurd bad (plain own rfl)) rfl rfl
    · rw [if_neg twice]
      exact .to .opOrNumber rfl nofun nofun (fun bad => absurd bad (plain own rfl)) rfl rfl
  case point =>
    exact fun own _ => .to .inNumber rfl nofun nofun (fun bad => absurd bad (plain own rfl)) rfl rfl
  case dot => exact fun own _ => .to v.s rfl quote values (fun bad => absurd bad (plain own rfl)) rfl rfl
  case par => exact fun _ => onOpenPar_turns env v r bs
  case comma => exact fun _ state => .to .moreValuesOrUnknown state nofun nofun (fun _ => rfl) rfl rfl
  case admin =>
    intros
    trivial
  case hash => exact fun own => .to .inOLC rfl nofun nofun (fun _ => rfl) rfl rfl
  case other =>
    intro _
    exact iteInduction (motive := fun u => Turns r v (.ok u))
      (fun _ => .to .inWord rfl nofun nofun (fun _ => rfl) rfl rfl)
      fun _ => .to .inWord rfl nofun nofun (fun _ => rfl) rfl rfl

theorem copySlice_state (env : Env) (v : View) (bs : Bytes) :
    ((v.copySlice env bs).s = v.s ∧ (v.copySlice env bs).sqlState = v.sqlState ∨
      (v.copySlice env bs).s = .inValues ∧ (v.copySlice env bs).sqlState = .inValues) ∧
    (v.copySlice env bs).quoteChar = v.quoteChar ∧ (v.copySlice env bs).parOpen = v.parOpen ∧
    (v.copySlice env bs).parOpenTotal = v.parOpenTotal := by
  apply View.copySlice_cases
    (motive := fun u => ((u.s = v.s ∧ u.sqlState = v.sqlState) ∨ (u.s = .inValues ∧ u.sqlState = .inValues)) ∧
    u.quoteChar = v.quoteChar ∧ u.parOpen = v.parOpen ∧ u.parOpenTotal = v.parOpenTotal)
  · intro _
    exact ⟨Or.inl ⟨rfl,rfl⟩,rfl,rfl,rfl⟩
  · intro w _ _
    apply View.afterCopy_cases
      (motive := fun u => ((u.s = v.s ∧ u.sqlState = v.sqlState) ∨
      (u.s = .inValues ∧ u.sqlState = .inValues)) ∧
      u.quoteChar = v.quoteChar ∧ u.parOpen = v.parOpen ∧ u.parOpenTotal = v.parOpenTotal)
    · intro _
      exact ⟨Or.inr ⟨rfl,rfl⟩,rfl,rfl,rfl⟩
    · intro _
      exact ⟨Or.inl ⟨rfl,rfl⟩,rfl,rfl,rfl⟩
    · intro _
      exact ⟨Or.inl ⟨rfl,rfl⟩,rfl,rfl,rfl⟩

-- What one iteration makes of a regular view, apart from `escape`.
structure After (r : Nat) (w : View) : Prop where
  plan : w.s ≠ .inWord → w.plan = none
  quote : w.s = .inQuote → isQuote w.quoteChar
  spaced : isSpace w.pr = true → rested w.s = true
  values : w.s = .inValues → w.sqlState = .inValues
  balance : w.parOpen ≤ 0 → w.parOpenTotal = 0
  separated : separates r = true → rested w.s = true

theorem finish_after (env : Env) (r : Nat) (bs : Bytes) (balance : v.parOpen ≤ 0 → v.parOpenTotal = 0)
    (turned : Turns r v (.ok u)) : After r (u.finish env r bs) := by
  obtain ⟨quote,rest,values,open_,total⟩ := turned
  obtain ⟨state,char,copied,copiedTotal⟩ := copySlice_state env u bs
  have own : separates r = true → rested (u.copySlice env bs).s = true := by
    intro sep
    rcases state with ⟨same,_⟩ | ⟨same,_⟩
    · rw [same]
      exact rest sep
    · rw [same]
      rfl
  refine ⟨fun _ => rfl,?_,?_,?_,?_,own⟩
  · intro inQuote
    change (u.copySlice env bs).s = _ at inQuote
    change isQuote (u.copySlice env bs).quoteChar
    rcases state with ⟨same,_⟩ | ⟨same,_⟩
    · obtain ⟨isQuote,sameChar⟩ := quote (same ▸ inQuote)
      rw [char,sameChar]
      exact isQuote
    · rw [same] at inQuote
      cases inQuote
  · intro space
    apply own
    change isSpace r = true at space
    simp [separates,space]
  · intro inValues
    change (u.copySlice env bs).s = _ at inValues
    change (u.copySlice env bs).sqlState = _
    rcases state with ⟨same,sql⟩ | ⟨_,sql⟩
    · rw [sql]
      exact values (same ▸ inValues)
    · exact sql
  · intro closed
    change (u.copySlice env bs).parOpen ≤ 0 at closed
    change (u.copySlice env bs).parOpenTotal = 0
    rw [copied] at closed
    rw [copiedTotal,total]
    rcases open_ with same | one
    · exact balance (same ▸ closed)
    · rw [one] at closed
      cases closed

-- Step 1 is done with the rune, or lets it through in a state that does not skip.
def Parts (r : Nat) (v : View) : Skipped View → Prop
  | .skip w => After r w
  | .through w => skips w.s = false ∧ w.parOpen = v.parOpen ∧ w.parOpenTotal = v.parOpenTotal

theorem After.to {w : View} (s : State) (state : w.s = s) (calm : w.plan = none)
    (quote : s ≠ .inQuote) (values : s ≠ .inValues)
    (rest : rested s = true) (balance : w.parOpen ≤ 0 → w.parOpenTotal = 0) : After r w where
  plan _ := calm
  quote bad := absurd (state.symm.trans bad) quote
  spaced _ := by rw [state]; exact rest
  values bad := absurd (state.symm.trans bad) values
  balance := balance
  separated _ := by rw [state]; exact rest

section
variable {v : View} (regular : Regular v) (r : Nat) (bs : Bytes)
include regular

theorem After.stay (calm : v.plan = none) (plain : separates r = true → rested v.s = true) : After r v where
  plan _ := calm
  quote := regular.quote
  spaced := regular.spaced
  values := regular.values
  balance := regular.balance
  separated := plain

theorem skipQuote_after (state : v.s = .inQuote) : After r (v.skipQuote r bs) := by
  have calm : v.plan = none := regular.plan (by rw [state]; exact nofun)
  have char := regular.quote state
  apply View.skipQuote_cases (motive := After r)
  · intro b
    refine ⟨fun _ => calm,fun _ => char,fun _ => ?_,fun bad => ?_,regular.balance,fun _ => ?_⟩
    · exact congrArg rested state
    · exact absurd (state.symm.trans bad) nofun
    · exact congrArg rested state
  · intro _ _ sql
    exact ⟨fun _ => calm,nofun,fun _ => rfl,fun _ => sql,regular.balance,fun _ => rfl⟩
  · intros
    exact .to .unknown rfl calm nofun nofun rfl regular.balance

omit regular in
theorem balanceValues_after {w : View} (state : w.s = .inValues) (sql : w.sqlState = .inValues)
    (calm : w.plan = none) :
    After r (w.balanceValues r bs) := by
  apply View.balanceValues_cases (motive := After r)
  · intro inside
    refine ⟨fun _ => calm,fun bad => ?_,fun _ => congrArg rested state,fun _ => sql,fun shut => ?_,
      fun _ => congrArg rested state⟩
    · exact absurd (state.symm.trans bad) nofun
    · omega
  · intro _ none_
    exact .to .inWord rfl calm nofun nofun rfl fun _ => none_
  · intros
    rw [View.endValues_eq]
    exact .to .moreValuesOrUnknown rfl calm nofun nofun rfl fun _ => rfl

theorem skipValues_after (state : v.s = .inValues) : After r (v.skipValues r bs) := by
  have calm : v.plan = none := regular.plan (by rw [state]; exact nofun)
  have sql := regular.values state
  apply View.skipValues_cases (motive := After r)
  · intro _
    exact balanceValues_after r bs state sql calm
  · intro _
    exact balanceValues_after r bs state sql calm
  · intro own
    exact ⟨fun _ => calm,fun _ => own,fun _ => rfl,nofun,regular.balance,fun _ => rfl⟩
  · intro _
    exact .stay regular r calm fun _ => congrArg rested state
  · exact balanceValues_after r bs state sql calm

theorem skipPart_parts : Parts r v (v.skipPart r bs) := by
  have calm {s : State} (state : v.s = s) (other : s ≠ .inWord) : v.plan = none := by
    apply regular.plan
    rw [state]
    exact other
  apply View.skipPart_cases (motive := Parts r v)
  case quote => exact fun state => skipQuote_after regular r bs state
  case backticks =>
    intro state
    apply View.skipBackticks_cases (motive := After r)
    · intro b
      exact .to .inBackticks state (calm state nofun) nofun nofun rfl regular.balance
    · refine ⟨fun bad => absurd rfl bad,nofun,fun _ => rfl,nofun,regular.balance,fun _ => rfl⟩
  case numberInWord =>
    intro state digit
    refine .stay regular r (calm state nofun) fun own => ?_
    exact absurd own (digit_separates digit)
  case endNumberInWord =>
    intro _
    refine ⟨?_,rfl,rfl⟩
    dsimp only
    split <;> rfl
  case number =>
    intro state numeral
    refine .stay regular r (calm state nofun) fun own => ?_
    exact absurd own (numeral_separates numeral)
  case notNumber => exact fun _ _ => ⟨rfl,rfl,rfl⟩
  case version => exact fun _ _ _ => ⟨rfl,rfl,rfl⟩
  case endNumber => exact fun _ _ => ⟨rfl,rfl,rfl⟩
  case values => exact fun state => skipValues_after regular r bs state
  case comment =>
    intro state
    exact .to .inMLC state (calm state nofun) nofun nofun rfl regular.balance
  case endComment =>
    intro state _
    exact .to .unknown rfl (calm state nofun) nofun nofun rfl regular.balance
  case beginComment =>
    intro state
    exact .to .inMLC rfl (calm state nofun) nofun nofun rfl regular.balance
  case code => exact fun _ _ => ⟨rfl,rfl,rfl⟩
  case line =>
    intro state
    exact .to .inOLC state (calm state nofun) nofun nofun rfl regular.balance
  case endLine =>
    intro state
    exact .to .unknown rfl (calm state nofun) nofun nofun rfl regular.balance
  case spaces =>
    intro state own space
    exact ⟨fun _ => rfl,regular.quote,fun _ => regular.spaced space,regular.values,regular.balance,
      fun _ => regular.spaced space⟩
  case through => exact fun state _ => ⟨state,rfl,rfl⟩

end

theorem Regular.read (regular : Regular v) (bs : Bytes) : Regular (v.read bs) :=
  ⟨regular.plan,regular.quote,regular.spaced,regular.values,regular.balance,regular.escape⟩

theorem After.advance (after : After r w) (bs : Bytes) : After r (w.advance bs) :=
  ⟨after.plan,after.quote,after.spaced,after.values,after.balance,after.separated⟩

theorem step_after (regular : Regular v) (step : View.step env v r bs = .ok w) : After r w := by
  have part := skipPart_parts (regular.read bs) r bs
  have cases :=
    View.step_cases (motive := fun turn => turn = .ok w → After r w) env v r bs ?skip ?stop ?through
  · exact cases step
  case skip =>
    intro u found same
    rw [found] at part
    cases same
    exact part.advance bs
  case stop =>
    intro _ _ _ _ same
    cases same
  case through =>
    intro u t found changed same
    rw [found] at part
    obtain ⟨state,open_,total⟩ := part
    have turned := changeState_turns env u r bs state
    rw [changed] at turned
    cases same
    refine finish_after env r bs (fun shut => ?_) turned
    rw [total]
    exact regular.balance (open_ ▸ shut)

theorem step_regular (regular : Regular v) (step : View.step env v r bs = .ok w) : Regular w := by
  have after := step_after regular step
  exact ⟨after.plan,after.quote,after.spaced,after.values,after.balance,step_unescaped step regular.escape⟩

theorem skipValues_calm {v : View} (r : Nat) (bs : Bytes) (calm : v.plan = none) :
    (v.skipValues r bs).plan = none := by
  have balance (u : View) (none_ : u.plan = none) : (u.balanceValues r bs).plan = none := by
    apply View.balanceValues_cases (motive := fun u => u.plan = none)
    · exact fun _ => none_
    · exact fun _ _ => none_
    · intro _ _
      rw [View.endValues_eq]
      exact none_
  apply View.skipValues_cases (motive := fun u => u.plan = none)
  · exact fun _ => balance _ calm
  · exact fun _ => balance _ calm
  · exact fun _ => calm
  · exact fun _ => calm
  · exact balance _ calm

-- Only the end of a name in backticks leaves something due for the next iteration.
theorem step_calm (regular : Regular v) (step : View.step env v r bs = .ok w)
    (other : r ≠ rune '`') : w.plan = none := by
  have calm {s : State} (state : v.s = s) (notWord : s ≠ .inWord) : v.plan = none := by
    apply regular.plan
    rw [state]
    exact notWord
  have part : ∀ u,(v.read bs).skipPart r bs = .skip u → u.plan = none := by
    apply View.skipPart_cases (motive := fun part => ∀ u,part = .skip u → u.plan = none)
    case quote =>
      intro state u same
      cases same
      apply View.skipQuote_cases (motive := fun u => u.plan = none)
      · exact fun _ => calm state nofun
      · exact fun _ _ _ => calm state nofun
      · exact fun _ _ _ => calm state nofun
    case backticks =>
      intro state u same
      cases same
      rw [View.skipBackticks,if_pos other]
      exact iteInduction (motive := fun u : View => u.plan = none) (fun _ => calm state nofun) fun _ =>
        iteInduction (motive := fun u : View => u.plan = none) (fun _ => calm state nofun) fun _ =>
          calm state nofun
    case values =>
      intro state u same
      cases same
      exact skipValues_calm (v := v.read bs) r bs (calm state nofun)
    case spaces =>
      intro _ _ _ u same
      cases same
      rfl
    all_goals
      intro state
      intros
      first
      | (rename_i same; cases same; exact calm state nofun)
      | (rename_i same; cases same)
  have cases := View.step_cases (motive := fun turn => turn = .ok w → w.plan = none) env v r bs ?_ ?_ ?_
  · exact cases step
  · intro u found same
    cases same
    exact part u found
  · intro _ _ _ _ same
    cases same
  · intro _ _ _ _ same
    cases same
    rfl

theorem start_regular : Regular .start :=
  ⟨fun _ => rfl,nofun,fun _ => rfl,nofun,fun _ => rfl,fun _ _ => rfl⟩

theorem run_regular (regular : Regular v) (run : View.run env pieces v = .ok w) : Regular w := by
  induction pieces generalizing v with
  | nil =>
    cases run
    exact regular
  | cons piece rest ih =>
    rw [View.run] at run
    cases step : v.step env piece.1 piece.2 with
    | error stop =>
      rw [step] at run
      cases run
    | ok u =>
      rw [step] at run
      exact ih (step_regular regular step) run

-- After a front p of a query the view is that of the machine at p.length, in a buffer that is long enough.
theorem run_head (run : View.run env (runes p) .start = .ok v) : ∃ rest o,Head (p ++ rest) p.length v o := by
  have ascii : (byte ' ').toNat < 0x80 := by decide
  have pieces := runes_pieces [] (p ++ byte ' ' :: List.replicate v.out.length (byte ' '))
  rw [runes_append_ascii p _ ascii,List.nil_append,List.length_nil] at pieces
  obtain ⟨qj,left,_⟩ := pieces.split
  have upTo := left.ends
  rw [runes_join,Nat.zero_add] at upTo
  subst upTo
  have follows := loop_follows env left (start_head _)
  rw [run] at follows
  rcases follows with ⟨o,_,head⟩ | ⟨_,long⟩
  · exact ⟨_,o,head⟩
  · change _ < v.out.length at long
    simp only [List.length_append,List.length_cons,List.length_replicate] at long
    omega

theorem run_pend (run : View.run env (runes p) .start = .ok v) : v.pend <:+ p := by
  obtain ⟨rest,o,head⟩ := run_head run
  rw [head.pend,slice,List.drop_append_of_le_length head.low,List.take_left' (by rw [List.length_drop])]
  exact List.drop_suffix _ _

theorem run_far_eq (run : View.run env (runes p) .start = .ok v) : v.far = min 4 p.length := by
  obtain ⟨rest,o,head⟩ := run_head run
  exact head.far

theorem last_any {f : UInt8 → Bool} (own : p.getLast?.any f = true) : ∃ q c,p = q ++ [c] ∧ f c = true := by
  rcases List.eq_nil_or_concat p with none_ | ⟨q,c,same⟩
  · rw [none_] at own
    cases own
  · rw [List.concat_eq_append] at same
    subst same
    exact ⟨q,c,rfl,by simpa using own⟩

-- The last character of p as the last step of its run.
theorem run_last {c : UInt8} (ascii : c.toNat < 0x80) (run : View.run env (runes (p ++ [c])) .start = .ok v) :
    ∃ u,View.run env (runes p) .start = .ok u ∧ View.step env u c.toNat [c] = .ok v := by
  rw [runes_append_ascii p [] ascii,runes_nil,run_append] at run
  cases front : View.run env (runes p) .start with
  | error stop =>
    rw [front] at run
    cases run
  | ok u =>
    rw [front] at run
    change View.run env [(c.toNat,[c])] u = .ok v at run
    rw [View.run] at run
    refine ⟨u,rfl,?_⟩
    cases step : u.step env c.toNat [c] with
    | error stop =>
      rw [step] at run
      cases run
    | ok w =>
      rw [step] at run
      exact run

theorem run_gap {c : UInt8} (ascii : c.toNat < 0x80)
    (run : View.run env (runes (p ++ [c])) .start = .ok v) : 1 ≤ v.gap ∧ v.gap ≤ 2 := by
  obtain ⟨u,_,step⟩ := run_last ascii run
  exact step_gap step (List.cons_ne_nil c [])

theorem run_rested {c : UInt8} (ascii : c.toNat < 0x80) (sep : separates c.toNat = true)
    (run : View.run env (runes (p ++ [c])) .start = .ok v) : rested v.s = true := by
  obtain ⟨u,front,step⟩ := run_last ascii run
  exact (step_after (run_regular start_regular front) step).separated sep

theorem run_step (step : View.step env v r bs = .ok w) (rest : List (Nat × Bytes)) :
    View.run env ((r,bs) :: rest) v = View.run env rest w := by
  rw [View.run,step]
  rfl

-- One iteration from a state that skips nothing, where step 1 has nothing to do.
theorem calm_step (calm : skips v.s = false) (fresh : (isSpace r && isSpace v.pr) = false)
    (changed : View.changeState env (v.read bs) r bs = .ok u) :
    View.step env v r bs = .ok (u.finish env r bs) := by
  have part := view_skipPart_other (v.read bs) r bs calm
  rw [show isSpace (v.read bs).pr = isSpace v.pr from rfl,fresh,if_neg Bool.false_ne_true] at part
  rw [step_enters part,changed]
  rfl

-- Outside of names, values and comments a # begins a comment.
theorem hash_step (env : Env) (calm : skips u.s = false) (idle : u.plan = none) :
    ∃ w,View.step env u (rune '#') [byte '#'] = .ok w ∧ w.s = .inOLC ∧ w.plan = none ∧ w.out = u.out := by
  have changed : View.changeState env (u.read [byte '#']) (rune '#') [byte '#'] =
      .ok {u.read [byte '#'] with addSpace := false,s := .inOLC} :=
    rfl
  have kept := copySlice_calm env {u.read [byte '#'] with addSpace := false,s := .inOLC} [byte '#'] idle
  refine ⟨_,calm_step calm rfl changed,?_,rfl,?_⟩
  · rw [View.finish,kept]
    rfl
  · rw [View.finish,kept]
    rfl

theorem toLower_append (lower : Nat → Nat) (s t : Bytes) {c : UInt8} (ascii : c.toNat < 0x80) :
    toLower lower (s ++ c :: t) = toLower lower s ++ lowerByte c :: toLower lower t := by
  rw [toLower,runes_append_ascii s t ascii,List.flatMap_append,List.flatMap_cons,
    encodeRune_lower_ascii lower ascii]
  rfl

-- A character that ToLower keeps and that stands in none of the words.
def foreign (words : List Bytes) (c : UInt8) : Bool :=
  c.toNat < 0x80 && lowerByte c == c && words.all fun word => !word.contains c

theorem foreign_lower (own : foreign words c = true) (mem : c ∈ text) (lower : Nat → Nat) :
    c ∈ toLower lower text := by
  simp only [foreign,Bool.and_eq_true,decide_eq_true_eq,beq_iff_eq] at own
  obtain ⟨front,rest,rfl⟩ := List.append_of_mem mem
  rw [toLower_append lower front rest own.1.1,own.1.2]
  simp

theorem foreign_ne (own : foreign words c = true) (mem : c ∈ text) (word : w ∈ words) : text ≠ w := by
  intro same
  subst same
  have absent := List.all_eq_true.mp (Bool.and_eq_true_iff.mp own).2 text word
  simp [mem] at absent

theorem foreign_wordIn (own : foreign words c = true) (mem : c ∈ text) (lower : Nat → Nat) :
    wordIn lower text words = false := by
  apply Bool.eq_false_iff.mpr
  intro found
  have word := List.contains_iff_mem.mp found
  exact foreign_ne own (foreign_lower own mem lower) word rfl

theorem foreign_unlisted (own : foreign listWords c = true) (mem : c ∈ text) (env : Env) :
    Unlisted env text := by
  intro more
  exact foreign_wordIn own (List.mem_append_left more mem) env.lower

end SqlReview.FingerprintRegular
