import SqlReview.FingerprintRefinement

namespace SqlReview.FingerprintLiteral
open GoBytes Fingerprint FingerprintView

-- The runes between two quotes c: none is c or a backslash, except in backslash pairs.
def literalBody (c : Nat) : List Nat → Bool
  | [] => true
  | [r] => r ≠ rune '\\' && r ≠ c
  | r :: next :: rest => if r = rune '\\' then literalBody c rest else r ≠ c && literalBody c (next :: rest)

def isLiteral (c : UInt8) (text : Bytes) : Bool := literalBody c.toNat ((runes text).map Prod.fst)

-- After p the machine is outside a quoted value, and c takes it into one.
def opensQuote (env : Env) (query p : Bytes) (c : UInt8) : Bool :=
  let q := query ++ [byte ' ']
  match loop env q 0 (runes p) (start q) with
  | .error _ => false
  | .ok m => m.s ≠ .inQuote &&
    match step env q m p.length c.toNat with
    | .error _ => false
    | .ok m => m.s = .inQuote

theorem afterCopy_far (env : Env) (v : View) (k : Nat) :
    View.afterCopy env {v with far := k} = {v.afterCopy env with far := k} := by
  unfold View.afterCopy
  dsimp only
  split_ifs <;> rfl

theorem finish_far (env : Env) (v : View) (r : Nat) (bs : Bytes) (wide : bs ≠ []) (k : Nat) (far : 3 ≤ k) :
    View.finish env {v with far := k} r bs = View.finish env {v with far := 4} r bs := by
  have bytes := List.length_pos_iff.mpr wide
  have top : min 4 (k+bs.length) = min 4 (4+bs.length) := by omega
  have copy : ∀ k, View.copySlice env {v with far := k} bs = {v.copySlice env bs with far := k} := by
    intro k
    unfold View.copySlice
    by_cases some : 0 < v.due bs
    · rw [if_pos (by exact some),if_pos some]
      exact afterCopy_far env (v.copyWord (v.due bs) (toLower env.lower (v.pend.take (v.due bs)))) k
    · rw [if_neg (by exact some),if_neg some]
  unfold View.finish
  rw [copy k,copy 4]
  simp only [View.advance,top]

-- Two outcomes that differ in `far` alone.
inductive Near (k : Nat) : Except Stop View → Except Stop View → Prop where
  | ok (u : View) : Near k (.ok {u with far := k}) (.ok {u with far := 4})
  | error (u : View) (exit : Exit) : Near k (.error ⟨{u with far := k},exit⟩)
    (.error ⟨{u with far := 4},exit⟩)

theorem Near.ite {c : Prop} [Decidable c] {a b d e : Except Stop View} (yes : c → Near k a d)
    (no : ¬ c → Near k b e) :
    Near k (if c then a else b) (if c then d else e) :=
  rel_ite (R := Near k) Iff.rfl yes no

theorem Near.pure_ite {c : Prop} [Decidable c] {a b d e : View} (yes : c → Near k (.ok a) (.ok d))
    (no : ¬ c → Near k (.ok b) (.ok e)) : Near k (.ok (if c then a else b)) (.ok (if c then d else e)) :=
  rel_ite (R := fun v w => Near k (.ok v) (.ok w)) Iff.rfl yes no

-- In the state unknown `far` is only compared with 3.
theorem changeState_far (env : Env) (v : View) (r : Nat) (bs : Bytes) (k : Nat) (far : 3 ≤ k)
    (state : v.s = .unknown) :
    Near k (View.changeState env {v with far := k} r bs) (View.changeState env {v with far := 4} r bs) := by
  have late : decide (3 ≤ k) = true := decide_eq_true far
  refine .ite (fun _ => ?digit) fun _ => .ite (fun _ => ?space) fun _ => .ite (fun _ => ?quote) fun _ =>
    .ite (fun _ => ?tick) fun _ => .ite (fun _ => ?operator) fun _ => .ite (fun _ => ?div) fun _ =>
    .ite (fun _ => ?star) fun _ => .ite (fun _ => ?plus) fun _ => .ite (fun _ => ?dash) fun _ =>
    .ite (fun _ => ?dot) fun _ => .ite (fun _ => ?par) fun _ => .ite (fun _ => ?comma) fun _ =>
    .ite (fun _ => ?admin) fun _ => .ite (fun _ => ?hash) fun _ => ?other
  case digit =>
    simp only [View.onDigit,state,View.mark,late]
    exact .ok {v with plan := some 0,marked := true,s := .inNumber}
  case space =>
    simp only [View.onSpace,state]
    exact .pure_ite (fun _ => .ok {(v.write [byte ' ']).fromNext bs with s := .unknown}) fun _ =>
      .ok {v with s := .unknown}
  case quote =>
    simp only [View.onQuote,View.mark,late]
    refine .pure_ite (fun _ => .pure_ite (fun _ => ?_) fun _ => ?_) fun _ => .ok v
    · exact .ok {v with s := .inQuote,quoteChar := r,plan := none,marked := false}
    · exact .ok {v with plan := some 0,marked := true,s := .inQuote,quoteChar := r}
  case tick => exact .pure_ite (fun _ => .ok {v with s := .inBackticks}) fun _ => .ok v
  case operator => exact .ok (v.onOperator bs)
  case div => exact .ok {v with s := .divOrMLC}
  case star => exact .ok {v with s := .mlcOrMySQLCode}
  case plus => exact .ok {v with s := .opOrNumber}
  case dash => exact .ok {v with s := if v.pr = rune '-' then .inDash else .opOrNumber}
  case dot =>
    simp only [View.mark,late]
    exact .pure_ite (fun _ => .ok {v with plan := some 0,marked := true,s := .inNumber}) fun _ => .ok v
  case par =>
    refine .ite (fun _ => .error v _) fun _ => .ite (fun _ => ?_) fun _ => .ite (fun _ => ?_) fun _ => .ok v
    · simp only [View.mark,late]
      by_cases first : v.valueNo = 0
      · simp only [if_pos first]
        exact .ok {v with
          plan := some 0,marked := true,s := .inValues,sqlState := .inValues,parOpen := 1,gap := 0}
      · simp only [if_neg first]
        exact .ok {v with s := .inValues,sqlState := .inValues,parOpen := 1,gap := 0}
    · exact .ok {v.fromHere bs with valueNo := 0,s := .inWord}
  case comma => exact .ok v
  case admin => exact .error v _
  case hash => exact .ok {v with addSpace := false,s := .inOLC}
  case other =>
    refine .pure_ite (fun _ => ?_) fun _ => .ok {v with s := .inWord}
    exact .ok {v.fromHere bs with
      valueNo := 0,s := .inWord,sqlState := if v.sqlState = .inValues then .unknown else v.sqlState}

theorem balanceValues_far (v : View) (r : Nat) (bs : Bytes) (k : Nat) :
    View.balanceValues {v with far := k} r bs = {v.balanceValues r bs with far := k} := by
  unfold View.balanceValues View.endValues View.writeList
  dsimp only
  split_ifs <;> rfl

theorem skipValues_far (v : View) (r : Nat) (bs : Bytes) (k : Nat) :
    View.skipValues {v with far := k} r bs = {v.skipValues r bs with far := k} := by
  unfold View.skipValues
  dsimp only
  split_ifs
  · exact balanceValues_far {v with parOpen := v.parOpen-1,parOpenTotal := v.parOpenTotal+1} r bs k
  · exact balanceValues_far {v with parOpen := v.parOpen+1,gap := 0} r bs k
  · exact balanceValues_far {v with parOpen := v.parOpen+1} r bs k
  · rfl
  · rfl
  · exact balanceValues_far v r bs k

-- After one more rune `far` is at its cap in both.
theorem step_far (env : Env) (v : View) (r : Nat) (bs : Bytes) (wide : bs ≠ []) (k : Nat) (far : 3 ≤ k)
    (state : v.s = .unknown ∨ v.s = .inValues) :
    View.step env {v with far := k} r bs = View.step env {v with far := 4} r bs ∨
    ∃ one two exit, View.step env {v with far := k} r bs = .error ⟨one,exit⟩ ∧
      View.step env {v with far := 4} r bs = .error ⟨two,exit⟩ := by
  have bytes := List.length_pos_iff.mpr wide
  have top : min 4 (k+bs.length) = min 4 (4+bs.length) := by omega
  rcases state with state | state
  · have calm : skips v.s = false := by rw [state]; rfl
    have part (k : Nat) := view_skipPart_other (View.read {v with far := k} bs) r bs calm
    by_cases both : (isSpace r && isSpace v.pr) = true
    · left
      have skip (k : Nat) : View.step env {v with far := k} r bs = _ :=
        step_skips ((part k).trans (if_pos (by exact both)))
      rw [skip k,skip 4]
      simp only [View.advance,View.fromNext,View.read,top]
    · have near := changeState_far env (v.read bs) r bs k far state
      have through (k : Nat) : View.step env {v with far := k} r bs =
          (View.changeState env {v.read bs with far := k} r bs >>= fun u => .ok (u.finish env r bs)) :=
        step_enters ((part k).trans (if_neg (by exact both)))
      rw [through k,through 4]
      generalize View.changeState env {v.read bs with far := k} r bs = one at near
      generalize View.changeState env {v.read bs with far := 4} r bs = two at near
      cases near with
      | ok u =>
        left
        exact congrArg Except.ok (finish_far env u r bs wide k far)
      | error u exit => exact .inr ⟨_,_,exit,rfl,rfl⟩
  · left
    have part (k : Nat) : (View.read {v with far := k} bs).skipPart r bs =
        .skip {(v.read bs).skipValues r bs with far := k} := by
      apply (skipPart_inValues (View.read {v with far := k} bs) r bs state).trans
      exact congrArg Skipped.skip (skipValues_far (v.read bs) r bs k)
    rw [step_skips (part k),step_skips (part 4)]
    simp only [View.advance,top]

theorem run_append (env : Env) (one two : List (Nat × Bytes)) (v : View) :
    View.run env (one ++ two) v = View.run env one v >>= View.run env two := by
  induction one generalizing v with
  | nil => rfl
  | cons piece one ih =>
    rw [List.cons_append,View.run,View.run]
    cases v.step env piece.1 piece.2 with
    | error stop => rfl
    | ok w => exact ih w

-- A backslash is remembered inside quotes and backticks only.
def Unescaped (v : View) : Prop := v.s ≠ .inQuote → v.s ≠ .inBackticks → v.escape = false

-- What step 2 does to the quote variables.
def Quoting (r : Nat) (v : View) : Except Stop View → Prop
  | .ok u => u.escape = v.escape ∧ (u.s = .inQuote → v.s = .inQuote ∨ u.quoteChar = r)
  | .error _ => True

theorem endWord_quoting (env : Env) (v : View) (r : Nat) (bs : Bytes) : Quoting r v (v.endWord env bs) := by
  refine View.endWord_cases (motive := Quoting r v) env v bs (fun _ _ => trivial)
    (fun word _ _ => ?null) (fun _ => ⟨rfl,nofun⟩)
    (fun _ _ => ⟨rfl,nofun⟩) (fun _ _ _ => ⟨rfl,nofun⟩) (fun _ => ⟨rfl,nofun⟩) ⟨rfl,nofun⟩
  case null =>
    rw [View.nullValue_eq]
    exact ⟨rfl,nofun⟩

theorem changeState_quoting (env : Env) (v : View) (r : Nat) (bs : Bytes) :
    Quoting r v (v.changeState env r bs) := by
  refine View.changeState_cases (motive := Quoting r v) env v r bs (fun _ => ?digit)
    (fun _ => ?space) (fun _ => ?quote)
    (fun _ => ?tick) (fun _ => ⟨rfl,nofun⟩) (fun _ => ⟨rfl,nofun⟩) (fun _ _ => ⟨rfl,nofun⟩)
      (fun _ => ⟨rfl,nofun⟩)
    (fun _ => ⟨rfl,fun bad => ?dash⟩) (fun _ _ => ⟨rfl,nofun⟩) (fun _ _ => ⟨rfl,.inl⟩) (fun _ => ?par)
    (fun _ _ => ⟨rfl,.inl⟩) (fun _ _ => trivial) (fun _ => ⟨rfl,nofun⟩) fun _ => ?other
  case digit =>
    exact View.onDigit_cases (motive := fun u => Quoting r v (.ok u)) env v (fun _ => ⟨rfl,nofun⟩)
      (fun _ => ⟨rfl,nofun⟩)
      (fun _ _ => ⟨rfl,nofun⟩) fun _ => ⟨rfl,.inl⟩
  case space =>
    exact View.onSpace_cases (motive := Quoting r v) env v bs (fun _ _ => ⟨rfl,.inl⟩) (fun _ _ => ⟨rfl,.inl⟩)
      (fun _ => ⟨rfl,nofun⟩) (fun _ _ => ⟨rfl,.inl⟩) (fun _ _ => ⟨rfl,.inl⟩) fun _ _ _ =>
        endWord_quoting env v r bs
  case quote =>
    exact View.onQuote_cases (motive := fun u => Quoting r v (.ok u)) v r (fun _ => ⟨rfl,fun _ => .inr rfl⟩)
      (fun _ => ⟨rfl,fun _ => .inr rfl⟩) fun _ => ⟨rfl,.inl⟩
  case tick =>
    exact iteInduction (motive := fun u => Quoting r v (.ok u)) (fun _ => ⟨rfl,nofun⟩) fun _ => ⟨rfl,.inl⟩
  case dash => dsimp only at bad; split at bad <;> cases bad
  case par =>
    exact View.onOpenPar_cases (motive := Quoting r v) env v bs (fun _ => trivial) (fun _ _ => ⟨rfl,nofun⟩)
      (fun _ _ => ⟨rfl,nofun⟩) (fun _ => ⟨rfl,nofun⟩) fun _ => ⟨rfl,.inl⟩
  case other =>
    exact iteInduction (motive := fun u => Quoting r v (.ok u)) (fun _ => ⟨rfl,nofun⟩) fun _ => ⟨rfl,nofun⟩

theorem copySlice_quoting (env : Env) (v : View) (bs : Bytes) : (v.copySlice env bs).escape = v.escape ∧
    (v.copySlice env bs).quoteChar = v.quoteChar ∧ ((v.copySlice env bs).s = .inQuote → v.s = .inQuote) := by
  refine View.copySlice_cases (motive := fun u => u.escape = v.escape ∧ u.quoteChar = v.quoteChar ∧
    (u.s = .inQuote → v.s = .inQuote))
    env v bs (fun _ => ⟨rfl,rfl,id⟩) fun w _ _ => ?_
  exact View.afterCopy_cases (motive := fun u => u.escape = v.escape ∧ u.quoteChar = v.quoteChar ∧
    (u.s = .inQuote → v.s = .inQuote))
    env _ (fun _ => ⟨rfl,rfl,nofun⟩) (fun _ => ⟨rfl,rfl,id⟩) fun _ => ⟨rfl,rfl,id⟩

theorem balanceValues_quoting (v : View) (r : Nat) (bs : Bytes) (state : v.s = .inValues) :
    (v.balanceValues r bs).escape = v.escape ∧ (v.balanceValues r bs).s ≠ .inQuote := by
  refine View.balanceValues_cases (motive := fun u => u.escape = v.escape ∧ u.s ≠ .inQuote) v r bs
    (fun _ => ⟨rfl,by rw [state]; decide⟩) (fun _ _ => ⟨rfl,nofun⟩) fun _ _ => ?_
  rw [View.endValues_eq]
  exact ⟨rfl,nofun⟩

-- Outside quotes and backticks step 1 leaves `escape` alone and enters a quote with its character.
theorem skipPart_quoting (v : View) (r : Nat) (bs : Bytes) (outside : v.s ≠ .inQuote)
    (notTick : v.s ≠ .inBackticks) :
    (next (v.skipPart r bs)).escape = v.escape ∧ ((next (v.skipPart r bs)).s = .inQuote →
      (next (v.skipPart r bs)).quoteChar = r ∧ v.skipPart r bs = .skip (next (v.skipPart r bs))) := by
  refine View.skipPart_cases (motive := fun part => (next part).escape = v.escape ∧
      ((next part).s = .inQuote → (next part).quoteChar = r ∧ part = .skip (next part))) v r bs
      (fun bad => absurd bad outside) (fun bad => absurd bad notTick)
    (fun state _ => ?_) (fun _ => ?_) (fun state _ => ?_) (fun _ _ => ?_) (fun _ _ _ => ?_)
      (fun _ _ => ?_) (fun state => ?values)
    (fun state => ?_) (fun _ _ => ?_) (fun _ => ?_) (fun _ _ => ?_) (fun state => ?_) (fun _ => ?_)
      (fun calm _ _ => ?_)
    fun calm _ => ?_
  case values =>
    refine View.skipValues_cases (motive := fun u => u.escape = v.escape ∧
      (u.s = .inQuote → u.quoteChar = r ∧ _)) v r bs
      (fun _ => ?_) (fun _ => ?_) (fun _ => ⟨rfl,fun _ => ⟨rfl,rfl⟩⟩)
      (fun _ => ⟨rfl,fun bad => absurd bad outside⟩) ?_
    · have balance :=
  balanceValues_quoting {v with parOpen := v.parOpen-1,parOpenTotal := v.parOpenTotal+1} r bs state
      exact ⟨balance.1,fun bad => absurd bad balance.2⟩
    · have balance := balanceValues_quoting
        {v with parOpen := v.parOpen+1,gap := if v.parOpen+1 = 1 then 0 else v.gap} r bs state
      exact ⟨balance.1,fun bad => absurd bad balance.2⟩
    · have balance := balanceValues_quoting v r bs state
      exact ⟨balance.1,fun bad => absurd bad balance.2⟩
  all_goals refine ⟨rfl,fun bad => ?_⟩
  all_goals first
    | exact absurd bad outside
    | cases bad
    | (dsimp only [next] at bad; split at bad <;> cases bad)

theorem step_quoting (step : View.step env v r bs = .ok w) (outside : v.s ≠ .inQuote)
    (notTick : v.s ≠ .inBackticks) :
    w.escape = v.escape ∧ (w.s = .inQuote → w.quoteChar = r) := by
  have skips := skipPart_quoting (v.read bs) r bs outside notTick
  have cases :=
    View.step_cases (motive := fun turn => turn = .ok w → w.escape = v.escape ∧
      (w.s = .inQuote → w.quoteChar = r))
    env v r bs (fun u part same => ?skip) (fun _ _ _ _ same => ?stop) fun u t part changed same => ?through
  · exact cases step
  case skip =>
    rw [part] at skips
    cases same
    exact ⟨skips.1,fun quote => (skips.2 quote).1⟩
  case stop => cases same
  case through =>
    rw [part] at skips
    have turn := changeState_quoting env u r bs
    rw [changed] at turn
    have copy := copySlice_quoting env t bs
    cases same
    refine ⟨(copy.1.trans turn.1).trans skips.1,fun quote => copy.2.1.trans ?_⟩
    rcases turn.2 (copy.2.2 quote) with before | char
    · cases (skips.2 before).2
    · exact char

theorem quote_step (env : Env) (state : v.s = .inQuote) (r : Nat) (bs : Bytes) :
    View.step env v r bs = .ok (((v.read bs).skipQuote r bs).advance bs) :=
  step_skips (skipPart_inQuote (v.read bs) r bs state)

theorem backtick_step (env : Env) (state : v.s = .inBackticks) (r : Nat) (bs : Bytes) :
    View.step env v r bs = .ok (((v.read bs).skipBackticks r).advance bs) :=
  step_skips (skipPart_inBackticks (v.read bs) r bs state)

theorem values_step (env : Env) (state : v.s = .inValues) (r : Nat) (bs : Bytes) :
    View.step env v r bs = .ok (((v.read bs).skipValues r bs).advance bs) :=
  step_skips (skipPart_inValues (v.read bs) r bs state)

theorem line_step (env : Env) (state : v.s = .inOLC) (inside : r ≠ 0x0A) (bs : Bytes) :
    View.step env v r bs = .ok ((v.read bs).advance bs) := by
  apply step_skips
  rw [skipPart_inOLC (v.read bs) r bs state,if_neg inside]

theorem line_ends (env : Env) (state : v.s = .inOLC) (bs : Bytes) :
    View.step env v 0x0A bs = .ok (View.advance {v.read bs with s := .unknown} bs) := by
  apply step_skips
  rw [skipPart_inOLC (v.read bs) 0x0A bs state,if_pos rfl]

theorem block_step (env : Env) (state : v.s = .inMLC) (inside : ¬ (v.pr = rune '*' ∧ r = rune '/'))
    (bs : Bytes) :
    View.step env v r bs = .ok (View.advance {v.read bs with pr := r} bs) := by
  apply step_skips
  rw [skipPart_inMLC (v.read bs) r bs state,View.skipComment,if_neg (by exact inside)]

theorem block_ends (env : Env) (state : v.s = .inMLC) (star : v.pr = rune '*') (bs : Bytes) :
    View.step env v (rune '/') bs = .ok (View.advance {v.read bs with s := .unknown} bs) := by
  apply step_skips
  rw [skipPart_inMLC (v.read bs) (rune '/') bs state,View.skipComment,if_pos ⟨star,rfl⟩]

theorem step_unescaped (step : View.step env v r bs = .ok w) (plain : Unescaped v) : Unescaped w := by
  by_cases quote : v.s = .inQuote
  · rw [quote_step env quote] at step
    cases step
    refine View.skipQuote_cases (motive := fun u => Unescaped (u.advance bs)) (v.read bs) r bs
      (fun _ outside => ?_)
      (fun _ _ _ _ _ => rfl) fun _ _ _ _ _ => rfl
    exact absurd quote outside
  · by_cases tick : v.s = .inBackticks
    · rw [backtick_step env tick] at step
      cases step
      refine View.skipBackticks_cases (motive := fun u => Unescaped (u.advance bs)) (v.read bs) r
        (fun _ _ outside => ?_)
        fun _ _ => rfl
      exact absurd tick outside
    · exact fun _ _ => (step_quoting step quote tick).1.trans (plain quote tick)

theorem run_unescaped (run : View.run env pieces v = .ok w) (plain : Unescaped v) : Unescaped w := by
  induction pieces generalizing v with
  | nil => cases run; exact plain
  | cons piece rest ih =>
    rw [View.run] at run
    cases step : v.step env piece.1 piece.2 with
    | error stop => rw [step] at run; cases run
    | ok u => rw [step] at run; exact ih run (step_unescaped step plain)

-- Inside a quoted value only the pending text and the offsets move.
def further (w : View) (text : Bytes) (far gap : Nat) : View :=
  {w with pend := w.pend ++ text,far := far,gap := gap}

theorem plain_step (env : Env) (state : w.s = .inQuote) (plain : w.escape = false) (other : r ≠ w.quoteChar)
    (notSlash : r ≠ rune '\\') (bs : Bytes) :
    View.step env w r bs = .ok (further w bs (min 4 (w.far+bs.length)) (min 2 (w.gap+bs.length))) := by
  rw [quote_step env state]
  simp [View.skipQuote,View.read,View.advance,further,plain,other,notSlash]

theorem pair_step (env : Env) (state : w.s = .inQuote) (plain : w.escape = false)
    (notSlash : w.quoteChar ≠ rune '\\')
    (r : Nat) (bs cs : Bytes) : (View.step env w (rune '\\') bs >>= fun v => View.step env v r cs) =
      .ok (further w (bs ++ cs) (min 4 (min 4 (w.far+bs.length)+cs.length))
        (min 2 (min 2 (w.gap+bs.length)+cs.length))) := by
  have slash : View.step env w (rune '\\') bs =
  .ok {further w bs (min 4 (w.far+bs.length)) (min 2 (w.gap+bs.length)) with
      escape := true} := by
    rw [quote_step env state]
    simp [View.skipQuote,View.read,View.advance,further,plain,Ne.symm notSlash]
  rw [slash]
  change View.step env _ r cs = _
  rw [quote_step env (by exact state)]
  simp [View.skipQuote,View.read,View.advance,further,plain]

theorem plain_run (env : Env) (piece : Nat × Bytes) (rest : List (Nat × Bytes)) (w : View)
    (state : w.s = .inQuote)
    (plain : w.escape = false) (low : w.far ≤ 4 ∧ w.gap ≤ 2) (other : piece.1 ≠ w.quoteChar)
    (notSlash : piece.1 ≠ rune '\\')
    (run : ∃ far gap, View.run env rest
    (further w piece.2 (min 4 (w.far+piece.2.length)) (min 2 (w.gap+piece.2.length))) =
      .ok (further w (piece.2 ++ rest.flatMap Prod.snd) far gap) ∧
      min 4 (w.far+piece.2.length) ≤ far ∧ min 2 (w.gap+piece.2.length) ≤ gap) :
    ∃ far gap, View.run env (piece :: rest) w = .ok (further w ((piece :: rest).flatMap Prod.snd) far gap) ∧
      w.far ≤ far ∧ w.gap ≤ gap := by
  obtain ⟨far,gap,run,up,wide⟩ := run
  refine ⟨far,gap,?_,by omega,by omega⟩
  rw [View.run,plain_step env state plain other notSlash]
  exact run

theorem body_run (env : Env) (pieces : List (Nat × Bytes)) (w : View) (state : w.s = .inQuote)
    (plain : w.escape = false)
    (low : w.far ≤ 4 ∧ w.gap ≤ 2) (notSlash : w.quoteChar ≠ rune '\\')
    (body : literalBody w.quoteChar (pieces.map Prod.fst) = true) :
    ∃ far gap, View.run env pieces w = .ok (further w (pieces.flatMap Prod.snd) far gap) ∧
      w.far ≤ far ∧ w.gap ≤ gap := by
  induction size : pieces.length using Nat.strongRecOn generalizing pieces w with
  | ind n ih =>
    subst size
    -- The rest of the body from the view behind the runes of `text`.
    have rest : ∀ (tail : List (Nat × Bytes)) (text : Bytes) (far gap : Nat), tail.length <
      pieces.length → far ≤ 4 → gap ≤ 2 →
        literalBody w.quoteChar (tail.map Prod.fst) = true → ∃ far' gap',
          View.run env tail (further w text far gap) =
          .ok (further w (text ++ tail.flatMap Prod.snd) far' gap') ∧ far ≤ far' ∧ gap ≤ gap' := by
      intro tail text far gap shorter four two body
      obtain ⟨far',gap',run,up⟩ := ih tail.length shorter tail (further w text far gap) state plain ⟨four,two⟩
        notSlash body rfl
      refine ⟨far',gap',?_,up⟩
      rw [run]
      simp [further]
    match pieces with
    | [] => exact ⟨w.far,w.gap,by simp [View.run,further],Nat.le_refl _,Nat.le_refl _⟩
    | [piece] =>
      rw [List.map_cons,List.map_nil,literalBody,Bool.and_eq_true,decide_eq_true_eq,decide_eq_true_eq] at body
      exact plain_run env piece [] w state plain low body.2 body.1
        (rest [] _ _ _ (by simp) (Nat.min_le_left _ _) (Nat.min_le_left _ _) rfl)
    | piece :: after :: tail =>
      rw [List.map_cons,List.map_cons,literalBody] at body
      by_cases slash : piece.1 = rune '\\'
      · rw [if_pos slash] at body
        obtain ⟨far,gap,run,up,wide⟩ :=
          rest tail (piece.2 ++ after.2) (min 4 (min 4 (w.far+piece.2.length)+after.2.length))
          (min 2 (min 2 (w.gap+piece.2.length)+after.2.length))
            (by simp only [List.length_cons]; omega) (Nat.min_le_left _ _) (Nat.min_le_left _ _) body
        refine ⟨far,gap,?_,by omega,by omega⟩
        have twice : View.run env (piece :: after :: tail) w =
            ((View.step env w piece.1 piece.2 >>= fun v => View.step env v after.1 after.2) >>=
              View.run env tail) := by
          rw [bind_assoc]
          rfl
        rw [twice,slash,pair_step env state plain notSlash]
        change View.run env tail _ = _
        rw [run]
        simp
      · rw [if_neg slash,Bool.and_eq_true,decide_eq_true_eq] at body
        exact plain_run env piece (after :: tail) w state plain low body.1 slash
          (rest (after :: tail) _ _ _ (by simp) (Nat.min_le_left _ _) (Nat.min_le_left _ _) body.2)

-- The closing quote forgets the value.
def closed (w : View) : View :=
  if w.sqlState = .inValues then {w with pend := [],escape := false,s := .inValues}
  else {w.write [byte '?'] with pend := [],escape := false,s := .unknown}

theorem closed_state (w : View) : (closed w).s = .unknown ∨ (closed w).s = .inValues := by
  unfold closed
  split
  · exact .inr rfl
  · exact .inl rfl

theorem close_step (env : Env) (w : View) (c : UInt8) (state : w.s = .inQuote) (plain : w.escape = false)
    (quote : w.quoteChar = c.toNat) (text : Bytes) (far gap : Nat) :
    View.step env (further w text far gap) c.toNat [c] =
      .ok {closed w with far := min 4 (far+1),gap := min 2 (gap+1)} := by
  rw [quote_step env (by exact state)]
  by_cases values : w.sqlState = .inValues
  · simp [View.skipQuote,View.read,View.advance,further,closed,View.fromNext,plain,quote,values]
  · simp [View.skipQuote,View.read,View.advance,further,closed,View.fromNext,View.write,plain,quote,values]

-- From the opening quote on, a run no longer depends on the value.
theorem literal_run (env : Env) (w : View) (c : UInt8) (body s : Bytes) (state : w.s = .inQuote)
    (plain : w.escape = false)
    (quote : w.quoteChar = c.toNat) (notSlash : c.toNat ≠ rune '\\') (far : 2 ≤ w.far ∧ w.far ≤ 4)
    (gap : 1 ≤ w.gap ∧ w.gap ≤ 2)
    (literal : isLiteral c body = true) : ∃ k, 3 ≤ k ∧
      View.run env (runes body ++ (c.toNat,[c]) :: runes s) w =
        View.run env (runes s) {closed w with far := k,gap := 2} := by
  obtain ⟨far',gap',run,up,wide⟩ :=
    body_run env (runes body) w state plain ⟨far.2,gap.2⟩ (by rw [quote]; exact notSlash)
    (by rw [quote]; exact literal)
  refine ⟨min 4 (far'+1),by omega,?_⟩
  rw [run_append,run]
  change View.run env ((c.toNat,[c]) :: runes s) _ = _
  rw [View.run,close_step env w c state plain quote]
  rw [show min 2 (gap'+1) = 2 by omega]
  rfl

-- Two outcomes that differ at most in the view they stopped in.
def Alike (one two : Except Stop View) : Prop :=
  one = two ∨ ∃ v w exit, one = .error ⟨v,exit⟩ ∧ two = .error ⟨w,exit⟩

theorem run_far (env : Env) (v : View) (s : Bytes) (some : s ≠ []) (k : Nat) (far : 3 ≤ k)
    (state : v.s = .unknown ∨ v.s = .inValues) :
    Alike (View.run env (runes s) {v with far := k}) (View.run env (runes s) {v with far := 4}) := by
  obtain ⟨a,t,rfl⟩ := List.exists_cons_of_ne_nil some
  have wide := decodeRune_width a t
  rw [runes_cons,View.run,View.run]
  rcases step_far env v _ ((a :: t).take (decodeRune a t).2)
    (by rw [ne_eq,List.take_eq_nil_iff]; simp; omega) k far state with
    same | ⟨one,two,exit,left,right⟩
  · rw [same]
    exact .inl rfl
  · rw [left,right]
    exact .inr ⟨one,two,exit,rfl,rfl⟩

theorem Alike.answer (alike : Alike a b) (query : Bytes) : View.answer query a = View.answer query b := by
  rcases alike with rfl | ⟨v,w,exit,rfl,rfl⟩
  · rfl
  · cases exit <;> rfl

-- Only the administrator branch returns the query itself.
theorem answer_query (p q : Bytes) (command : ∀ v, turn ≠ .error ⟨v,.adminCommand⟩) :
    View.answer p turn = View.answer q turn := by
  cases turn with
  | ok v => rfl
  | error stop =>
    obtain ⟨v,exit⟩ := stop
    cases exit with
    | adminCommand => exact absurd rfl (command v)
    | _ => rfl

theorem step_gap (step : View.step env v r bs = .ok w) (wide : bs ≠ []) : 1 ≤ w.gap ∧ w.gap ≤ 2 := by
  have bytes := List.length_pos_iff.mpr wide
  have advanced : ∀ u : View, 1 ≤ (u.advance bs).gap ∧ (u.advance bs).gap ≤ 2 := by
    intro u
    simp only [View.advance]
    omega
  have cases := View.step_cases (motive := fun turn => turn = .ok w → 1 ≤ w.gap ∧ w.gap ≤ 2) env v r bs
    (fun u _ same => by cases same; exact advanced u) (fun _ _ _ _ same => by cases same)
    fun _ u _ _ same => by cases same; exact advanced _
  exact cases step

theorem opened_view (opens : opensQuote env (p ++ c :: t) p c = true) (ascii : c.toNat < 0x80) :
    ∃ v w, View.run env (runes p) .start = .ok v ∧ View.step env v c.toNat [c] = .ok w ∧
      v.s ≠ .inQuote ∧ w.s = .inQuote ∧ w.far = min 4 (p.length+1) := by
  have pieces := runes_pieces [] ((p ++ c :: t) ++ [byte ' '])
  rw [List.append_assoc p,List.cons_append,runes_append_ascii p _ ascii,List.nil_append,
    List.length_nil] at pieces
  obtain ⟨qj,left,right⟩ := pieces.split
  have upTo := left.ends
  rw [runes_join,Nat.zero_add] at upTo
  subst upTo
  have follows := loop_follows env left (start_head _)
  unfold opensQuote at opens
  dsimp only at opens
  rw [start_machine,List.append_assoc,List.cons_append] at opens
  cases turn : View.run env (runes p) .start with
  | error stop =>
    rw [turn] at follows
    rcases follows with ⟨same,_⟩ | ⟨same,_⟩ <;> (rw [same] at opens; cases opens)
  | ok v =>
    rw [turn] at follows
    rcases follows with ⟨o,same,head⟩ | ⟨same,_⟩
    · rw [same] at opens
      simp only [Bool.and_eq_true,decide_eq_true_eq] at opens
      cases right with
      | read reads rest =>
        have step := step_follows head reads env
        cases stepped : View.step env v c.toNat [c] with
        | error stop =>
          rw [stepped] at step
          rcases step with ⟨same,_⟩ | ⟨same,_⟩ <;> (rw [same] at opens; cases opens.2)
        | ok w =>
          rw [stepped] at step
          rcases step with ⟨o',same,after⟩ | ⟨same,_⟩
          · rw [same] at opens
            exact ⟨v,w,rfl,stepped,opens.1,of_decide_eq_true opens.2,after.far⟩
          · rw [same] at opens
            cases opens.2
    · rw [same] at opens
      cases opens

-- The result of a query with a literal is that of the machine which has just closed it.
theorem literal_result (env : Env) (v w : View) (p body s : Bytes) (c : UInt8) (ascii : c.toNat < 0x80)
    (prior : View.run env (runes p) .start = .ok v) (step : View.step env v c.toNat [c] = .ok w)
    (notSlash : c.toNat ≠ rune '\\') (outside : v.s ≠ .inQuote) (inside : w.s = .inQuote)
    (far : 2 ≤ w.far ∧ w.far ≤ 4)
    (literal : isLiteral c body = true) :
    Alike (View.result env (p ++ c :: (body ++ c :: s)))
      (View.run env (runes (s ++ [byte ' '])) {closed w with far := 4,gap := 2}) := by
  have plain : Unescaped v := run_unescaped prior fun _ _ => rfl
  have notTick : v.s ≠ .inBackticks := by
    intro tick
    rw [backtick_step env tick] at step
    cases step
    refine absurd inside ?_
    exact View.skipBackticks_cases (motive := fun u => (u.advance [c]).s ≠ .inQuote) (v.read [c]) c.toNat
      (fun _ bad => outside bad) nofun
  have quoting := step_quoting step outside notTick
  obtain ⟨k,late,run⟩ :=
    literal_run env w c body (s ++ [byte ' ']) inside (quoting.1.trans (plain outside notTick))
    (quoting.2 inside) notSlash far (step_gap step (List.cons_ne_nil c [])) literal
  have result : View.result env (p ++ c :: (body ++ c :: s)) =
      View.run env (runes (s ++ [byte ' '])) {closed w with far := k,gap := 2} := by
    rw [View.result,List.append_assoc p,List.cons_append,List.append_assoc,List.cons_append,
      runes_append_ascii p _ ascii,
      runes_append_ascii body _ ascii,run_append,prior]
    change View.run env ((c.toNat,[c]) :: _) v = _
    rw [View.run,step]
    exact run
  rw [result]
  exact run_far env {closed w with gap := 2} (s ++ [byte ' ']) (by simp) k late (closed_state w)

theorem literal_abstraction (env : Env) (p s one two : Bytes) (c : UInt8) (some : p ≠ [])
    (quote : c = byte '\'' ∨ c = byte '"') (first : isLiteral c one = true) (second : isLiteral c two = true)
    (opens : opensQuote env (p ++ c :: (one ++ c :: s)) p c = true)
    (command : run env (p ++ c :: (one ++ c :: s)) ≠ .error .adminCommand)
    (completes : Completes (run env (p ++ c :: (one ++ c :: s))))
    (completes' : Completes (run env (p ++ c :: (two ++ c :: s)))) :
    fingerprint env (p ++ c :: (one ++ c :: s)) = fingerprint env (p ++ c :: (two ++ c :: s)) := by
  have char : c.toNat < 0x80 ∧ c.toNat ≠ rune '\\' := by rcases quote with rfl | rfl <;> decide
  obtain ⟨v,w,prior,step,outside,inside,far⟩ := opened_view opens char.1
  have early : 2 ≤ w.far ∧ w.far ≤ 4 := by
    have bytes := List.length_pos_iff.mpr some
    omega
  have left := literal_result env v w p one s c char.1 prior step char.2 outside inside early first
  have right := literal_result env v w p two s c char.1 prior step char.2 outside inside early second
  have notCommand : ∀ u, View.result env (p ++ c :: (one ++ c :: s)) ≠ .error ⟨u,.adminCommand⟩ := by
    intro u result
    have follows := run_follows env (p ++ c :: (one ++ c :: s))
    rw [result] at follows
    rcases follows with ⟨same,_⟩ | ⟨same,_⟩
    · exact command same
    · rw [same] at completes
      exact completes rfl
  rw [fingerprint_answer completes,fingerprint_answer completes',
    answer_query _ (p ++ c :: (two ++ c :: s)) notCommand,
    left.answer,right.answer]

-- a = 'x' b and a = 'y\'z' b
theorem string_literals_abstracted :
    isLiteral (byte '\'') (str "x") = true ∧ isLiteral (byte '\'') (str "y\\'z") = true ∧
    fingerprint asciiEnv (str "a = " ++ byte '\'' :: (str "x" ++ byte '\'' :: str " b")) =
      fingerprint asciiEnv (str "a = " ++ byte '\'' :: (str "y\\'z" ++ byte '\'' :: str " b")) :=
  ⟨by decide +kernel,by decide +kernel,
    literal_abstraction asciiEnv (str "a = ") (str " b") (str "x") (str "y\\'z") (byte '\'')
      (by decide +kernel) (.inl rfl)
      (by decide +kernel) (by decide +kernel) (by decide +kernel) (by decide +kernel)
        (by decide +kernel) (by decide +kernel)⟩

end SqlReview.FingerprintLiteral
