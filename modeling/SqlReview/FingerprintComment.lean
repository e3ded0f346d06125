import SqlReview.FingerprintNumber

-- Fingerprint skips a comment but goes on collecting it: what becomes of it is decided by what follows.
namespace SqlReview.FingerprintComment
open GoBytes Fingerprint FingerprintView FingerprintLiteral FingerprintPending FingerprintRegular
  FingerprintNumber

inductive Kind where
  | block | dash | hash
  deriving DecidableEq

def opener : Kind → Bytes
  | .block => str "/*"
  | .dash => str "-- "
  | .hash => str "#"

def closer : Kind → Bytes
  | .block => str "*/"
  | .dash => str "\n"
  | .hash => str "\n"

-- The two characters that end a comment, one behind the other.
def ends : List Nat → Bool
  | a :: b :: rest => (a == rune '*' && b == rune '/') || ends (b :: rest)
  | _ => false

def isBody (kind : Kind) (c : Bytes) : Bool :=
  let chars := (runes c).map Prod.fst
  match kind with
  | .block => !ends chars && chars.head? ≠ some (rune '!')
  | .dash => chars.all fun r => r ≠ 0x0A
  | .hash => chars.all fun r => r ≠ 0x0A

def comment (kind : Kind) (c : Bytes) : Bytes := opener kind ++ (c ++ closer kind)

-- The view after text that is only collected.
def onward (w : View) (text : Bytes) : View :=
  {w with pend := w.pend ++ text,far := min 4 (w.far+text.length),gap := min 2 (w.gap+text.length)}

theorem onward_onward (w : View) (a b : Bytes) : onward (onward w a) b = onward w (a ++ b) := by
  have far : min 4 (min 4 (w.far+a.length)+b.length) = min 4 (w.far+(a ++ b).length) := by
    rw [List.length_append]
    omega
  have gap : min 2 (min 2 (w.gap+a.length)+b.length) = min 2 (w.gap+(a ++ b).length) := by
    rw [List.length_append]
    omega
  simp only [onward,far,gap,List.append_assoc]

theorem onward_nil (w : View) (low : w.far ≤ 4 ∧ w.gap ≤ 2) : onward w [] = w := by
  have far : min 4 (w.far+0) = w.far := by omega
  have gap : min 2 (w.gap+0) = w.gap := by omega
  rw [onward,List.length_nil,far,gap,List.append_nil]

theorem onward_low (w : View) (text : Bytes) : (onward w text).far ≤ 4 ∧ (onward w text).gap ≤ 2 :=
  ⟨Nat.min_le_left _ _,Nat.min_le_left _ _⟩

theorem line_text (env : Env) (pieces : List (Nat × Bytes)) (w : View) (state : w.s = .inOLC)
    (low : w.far ≤ 4 ∧ w.gap ≤ 2)
    (noLine : ∀ piece ∈ pieces,piece.1 ≠ 0x0A) :
    View.run env pieces w = .ok (onward w (pieces.flatMap Prod.snd)) := by
  induction pieces generalizing w with
  | nil => exact congrArg Except.ok (onward_nil w low).symm
  | cons piece rest ih =>
    obtain ⟨here,later⟩ := List.forall_mem_cons.mp noLine
    have step : View.step env w piece.1 piece.2 = .ok (onward w piece.2) := line_step env state here piece.2
    rw [run_step step,ih (onward w piece.2) state (onward_low w _) later,onward_onward,List.flatMap_cons]

theorem block_text (env : Env) (pieces : List (Nat × Bytes)) (w : View) (state : w.s = .inMLC)
    (low : w.far ≤ 4 ∧ w.gap ≤ 2)
    (open_ : ends (w.pr :: pieces.map Prod.fst) = false) :
    ∃ last,View.run env pieces w = .ok {onward w (pieces.flatMap Prod.snd) with pr := last} := by
  induction pieces generalizing w with
  | nil =>
    refine ⟨w.pr,?_⟩
    rw [List.flatMap_nil,onward_nil w low]
    rfl
  | cons piece rest ih =>
    rw [List.map_cons,ends,Bool.or_eq_false_iff] at open_
    have inside : ¬ (w.pr = rune '*' ∧ piece.1 = rune '/') := by simpa using open_.1
    have step : View.step env w piece.1 piece.2 = .ok {onward w piece.2 with pr := piece.1} :=
      block_step env state inside piece.2
    obtain ⟨last,run⟩ := ih {onward w piece.2 with pr := piece.1} state (onward_low w _) open_.2
    refine ⟨last,(run_step step rest).trans (run.trans ?_)⟩
    rw [List.flatMap_cons,← onward_onward]
    rfl

theorem begin_step (env : Env) (state : u.s = .mlcOrMySQLCode) (bang : r ≠ rune '!') (bs : Bytes) :
    View.step env u r bs = .ok {onward u bs with s := .inMLC,pr := r} :=
  step_skips ((skipPart_mlcOrMySQLCode (u.read bs) r bs state).trans (if_pos bang))

theorem star_step (env : Env) (state : u.s = .inMLC) (bs : Bytes) :
    View.step env u (rune '*') bs = .ok {onward u bs with pr := rune '*'} := by
  have other : rune '*' ≠ rune '/' := by decide
  exact block_step env state (fun both => other both.2) bs

theorem slash_step (env : Env) (state : u.s = .inMLC) (star : u.pr = rune '*') (bs : Bytes) :
    View.step env u (rune '/') bs = .ok {onward u bs with s := .unknown} := block_ends env state star bs

theorem newline_step (env : Env) (state : u.s = .inOLC) (bs : Bytes) :
    View.step env u 0x0A bs = .ok {onward u bs with s := .unknown} :=
  line_ends env state bs

-- A block comment from its first character on.
theorem block_run (env : Env) (w : View) (state : w.s = .mlcOrMySQLCode) (body : isBody .block c = true) :
    View.run env (runes (c ++ str "*/")) w =
      .ok {onward w (c ++ str "*/") with s := .unknown,pr := rune '*'} := by
  have pieces : runes (c ++ str "*/") = runes c ++ [(rune '*',[byte '*']),(rune '/',[byte '/'])] :=
    runes_append_ascii c [byte '/'] (by decide)
  have text : (runes c).flatMap Prod.snd = c := runes_join c
  simp only [isBody,Bool.and_eq_true,Bool.not_eq_true',decide_eq_true_eq] at body
  obtain ⟨open_,bang⟩ := body
  rw [pieces]
  cases chars : runes c with
  | nil =>
    rw [chars] at text
    subst text
    have star := begin_step env state (show rune '*' ≠ rune '!' by decide) [byte '*']
    have slash :=
      slash_step (u := {onward w [byte '*'] with s := .inMLC,pr := rune '*'}) env rfl rfl [byte '/']
    refine (run_step star _).trans ((run_step slash []).trans ?_)
    exact congrArg (fun u : View => Except.ok {u with s := .unknown,pr := rune '*'})
      (onward_onward w [byte '*'] [byte '/'])
  | cons piece rest =>
    rw [chars] at text open_ bang
    have first : piece.1 ≠ rune '!' := by
      intro same
      apply bang
      rw [List.map_cons,List.head?_cons,same]
    obtain ⟨last,run⟩ :=
      block_text env rest {onward w piece.2 with s := .inMLC,pr := piece.1} rfl (onward_low w _) open_
    have star :=
      star_step (u := {onward {onward w piece.2 with
        s := .inMLC,pr := piece.1} (rest.flatMap Prod.snd) with pr := last}) env rfl [byte '*']
    have slash :=
      slash_step (u := {onward {onward {onward w piece.2 with
        s := .inMLC,pr := piece.1} (rest.flatMap Prod.snd) with pr := last}
      [byte '*'] with pr := rune '*'}) env rfl rfl [byte '/']
    rw [List.cons_append,run_step (begin_step env state first piece.2),run_append,run]
    refine (run_step star _).trans ((run_step slash []).trans ?_)
    have same :
        onward (onward (onward (onward w piece.2) (rest.flatMap Prod.snd)) [byte '*']) [byte '/'] =
          onward w (c ++ str "*/") := by
      rw [onward_onward,onward_onward,onward_onward,← text,List.flatMap_cons,List.append_assoc]
      rfl
    exact congrArg (fun u : View => Except.ok {u with s := .unknown,pr := rune '*'}) same

theorem line_run (env : Env) (w : View) (state : w.s = .inOLC) (low : w.far ≤ 4 ∧ w.gap ≤ 2)
    (body : isBody .hash c = true) :
    View.run env (runes (c ++ str "\n")) w = .ok {onward w (c ++ str "\n") with s := .unknown} := by
  have noLine : ∀ piece ∈ runes c,piece.1 ≠ 0x0A := by
    intro piece mem
    have here := List.all_eq_true.mp body piece.1 (List.mem_map.mpr ⟨piece,mem,rfl⟩)
    simpa using here
  have run := line_text env (runes c) w state low noLine
  rw [runes_join] at run
  have pieces : runes (c ++ str "\n") = runes c ++ [(0x0A,str "\n")] := runes_append_ascii c [] (by decide)
  rw [pieces,run_append,run]
  refine (run_step (newline_step (u := onward w c) env state (str "\n")) []).trans ?_
  rw [onward_onward]
  rfl

theorem copySlice_stays (env : Env) (u : View) (bs : Bytes)
    (plain : wordIn env.lower (toLower env.lower (u.pend.take (u.due bs))) listWords = false) :
    (u.copySlice env bs).s = u.s := by
  apply View.copySlice_cases (motive := fun w => w.s = u.s)
  · exact fun _ => rfl
  · intro word lowered _
    rw [lowered] at plain
    apply View.afterCopy_cases (motive := fun w => w.s = u.s)
    · intro list
      rw [show wordIn env.lower (u.copyWord (u.due bs) word).prevWord listWords = false from plain] at list
      cases list
    · exact fun _ => rfl
    · exact fun _ => rfl

section
variable (env : Env) {v : View} (calm : skips v.s = false) (idle : v.plan = none)
include calm idle

theorem hash_opens : ∃ w,View.run env (runes (str "#")) v = .ok w ∧ w.s = .inOLC ∧ w.plan = none := by
  obtain ⟨w,step,line,plan,_⟩ := hash_step env calm idle
  exact ⟨w,run_step step [],line,plan⟩

theorem block_opens : ∃ w,View.run env (runes (str "/*")) v = .ok w ∧ w.s = .mlcOrMySQLCode ∧ w.plan = none := by
  have first : View.changeState env (v.read [byte '/']) (rune '/') [byte '/'] = .ok {v.read [byte '/'] with s := .divOrMLC} := rfl
  have slash := calm_step calm rfl first
  rw [View.finish,copySlice_calm env {v.read [byte '/'] with s := .divOrMLC} [byte '/'] idle] at slash
  have second : View.changeState env
      (View.read (View.advance {{v.read [byte '/'] with s := .divOrMLC} with pr := rune '/',plan := none} [byte '/']) [byte '*']) (rune '*') [byte '*'] =
      .ok {View.read (View.advance {{v.read [byte '/'] with s := .divOrMLC} with pr := rune '/',plan := none} [byte '/']) [byte '*'] with s := .mlcOrMySQLCode} := rfl
  have star := calm_step rfl rfl second
  refine ⟨_,(run_step slash _).trans (run_step star []),?_,rfl⟩
  rw [View.finish,copySlice_calm env _ _ rfl]
  rfl

theorem dash_step : ∃ w,View.step env v (rune '-') [byte '-'] = .ok w ∧ skips w.s = false ∧
    w.plan = none ∧ w.pr = rune '-' ∧
    w.pend = v.pend ++ [byte '-'] ∧ (v.pr = rune '-' → w.s = .inDash) := by
  have changed : View.changeState env (v.read [byte '-']) (rune '-') [byte '-'] =
      .ok {v.read [byte '-'] with s := if v.pr = rune '-' then .inDash else .opOrNumber} := rfl
  have step := calm_step calm rfl changed
  rw [View.finish,copySlice_calm env {v.read [byte '-'] with
    s := if v.pr = rune '-' then .inDash else .opOrNumber} [byte '-'] idle] at step
  refine ⟨_,step,?_,rfl,rfl,rfl,fun twice => if_pos twice⟩
  change skips (if v.pr = rune '-' then State.inDash else State.opOrNumber) = false
  split <;> rfl

theorem dash_opens (plain : wordIn env.lower (toLower env.lower v.pend) listWords = false) :
    ∃ w,View.run env (runes (str "-- ")) v = .ok w ∧ w.s = .inOLC ∧ w.plan = none := by
  obtain ⟨u,first,calmed,quiet,pr,pend,_⟩ := dash_step env calm idle
  obtain ⟨w,second,_,none_,pr',pend',state⟩ := dash_step env calmed quiet
  have state := state pr
  have changed : View.changeState env (w.read [byte ' ']) (rune ' ') [byte ' '] =
      .ok {w.read [byte ' '] with s := .inOLC,plan := if w.marked then some 2 else none} := by
    rw [View.changeState,if_neg (by decide),if_pos (by decide),onSpace_eq,
      if_neg (by rw [show (w.read [byte ' ']).s = .inDash from state]; decide),
      if_pos (by exact state),show (w.read [byte ' ']).plan = none from none_]
    rfl
  have third := calm_step (by rw [state]; rfl) (by rw [pr']; rfl) changed
  refine ⟨_,(run_step first _).trans ((run_step second _).trans (run_step third [])),?_,rfl⟩
  apply copySlice_stays
  have text : (w.read [byte ' ']).pend = v.pend ++ [byte '-',byte '-',byte ' '] := by
    change w.pend ++ _ = _
    rw [pend',pend]
    simp
  rw [show View.pend {w.read [byte ' '] with
    s := .inOLC,plan := if w.marked then some 2 else none} = v.pend ++ [byte '-',byte '-',byte ' '] from text]
  cases marked : w.marked with
  | false => rfl
  | true =>
    have due : View.due {w.read [byte ' '] with s := .inOLC,plan := some 2} [byte ' '] = v.pend.length := by
      rw [View.due]
      dsimp only
      rw [text]
      simp
    change wordIn env.lower
      (toLower env.lower ((v.pend ++ _).take
      (View.due {w.read [byte ' '] with s := .inOLC,plan := some 2} [byte ' ']))) listWords = false
    rw [due,List.take_left]
    exact plain

end

theorem opener_ascii (kind : Kind) : opener kind ≠ [] ∧ ∀ b ∈ opener kind,b.toNat < 0x80 := by
  cases kind <;> decide +kernel

theorem opener_run (kind : Kind) (calm : skips v.s = false) (idle : v.plan = none)
    (plain : wordIn env.lower (toLower env.lower v.pend) listWords = false) :
    ∃ w,View.run env (runes (opener kind)) v = .ok w ∧
      w.s = (if kind = .block then .mlcOrMySQLCode else .inOLC) ∧ w.plan = none := by
  cases kind with
  | block => exact block_opens env calm idle
  | dash => exact dash_opens env calm idle plain
  | hash => exact hash_opens env calm idle

theorem body_run (env : Env) (kind : Kind) (w : View)
    (state : w.s = (if kind = .block then .mlcOrMySQLCode else .inOLC))
    (low : w.far ≤ 4 ∧ w.gap ≤ 2) (body : isBody kind c = true) :
    View.run env (runes (c ++ closer kind)) w =
      .ok {onward w (c ++ closer kind) with
      s := .unknown,pr := if kind = .block then rune '*' else w.pr} := by
  cases kind with
  | block => exact block_run env w state body
  | dash => exact line_run env w state low body
  | hash => exact line_run env w state low body

-- Behind a comment the view depends on its text only in what is pending, and in `far`.
theorem comment_view (kind : Kind) (space : isSpace c.toNat = true)
    (prior : View.run env (runes (p ++ [c])) .start = .ok v)
    (calm : skips v.s = false) : ∃ u : View,u.s = .unknown ∧ ∀ body,isBody kind body = true → ∃ far,3 ≤ far ∧
      View.run env (runes (p ++ [c] ++ comment kind body)) .start =
      .ok {u with pend := u.pend ++ (body ++ closer kind),far := far} := by
  have sep : separates c.toNat = true := by simp [separates,space]
  obtain ⟨ascii,notTick⟩ := separator_ascii c sep
  obtain ⟨x,front,step⟩ := run_last ascii prior
  have idle := step_calm (run_regular start_regular front) step notTick
  obtain ⟨w,opens,state,none_⟩ := opener_run kind calm idle (run_plain sep prior)
  obtain ⟨some_,chars⟩ := opener_ascii kind
  have whole (body : Bytes) : runes (p ++ [c] ++ comment kind body) = runes (p ++ [c]) ++
      (runes (opener kind) ++ runes (body ++ closer kind)) :=
    runes_append_text _ _ some_ chars
  have low : w.far ≤ 4 ∧ 1 ≤ w.gap ∧ w.gap ≤ 2 := by
    have pieces : runes (p ++ [c] ++ opener kind) = runes (p ++ [c]) ++ runes (opener kind) := by
      simpa using runes_append_text (p ++ [c]) [] some_ chars
    have run : View.run env (runes (p ++ [c] ++ opener kind)) .start = .ok w := by
      rw [pieces,run_append,prior]
      exact opens
    refine ⟨run_far_eq run ▸ Nat.min_le_left _ _,?_⟩
    obtain ⟨text,last,same⟩ : ∃ text last,opener kind = text ++ [last] :=
      ⟨_,_,(List.dropLast_concat_getLast some_).symm⟩
    rw [same,← List.append_assoc] at run
    exact run_gap (chars last (by rw [same]; simp)) run
  refine ⟨{w with s := .unknown,pr := if kind = .block then rune '*' else w.pr,gap := 2},rfl,?_⟩
  intro body valid
  have run := body_run env kind w state ⟨low.1,low.2.2⟩ valid
  have all : View.run env (runes (p ++ [c] ++ comment kind body)) .start =
      .ok {onward w (body ++ closer kind) with
        s := .unknown,pr := if kind = .block then rune '*' else w.pr} := by
    rw [whole,run_append,prior]
    change View.run env (runes (opener kind) ++ _) v = _
    rw [run_append,opens]
    exact run
  have far := run_far_eq all
  have size : 1 ≤ (closer kind).length ∧ 1 ≤ (opener kind).length := by cases kind <;> decide
  refine ⟨min 4 (w.far+(body ++ closer kind).length),?_,?_⟩
  · change min 4 (w.far+(body ++ closer kind).length) = _ at far
    rw [far]
    simp only [comment,List.length_append,List.length_singleton]
    omega
  · have gap : min 2 (w.gap+(body ++ closer kind).length) = 2 := by
      rw [List.length_append]
      omega
    rw [all]
    simp only [onward,gap]

def endsSpaced (p : Bytes) : Bool := p.getLast?.any fun b => isSpace b.toNat

-- Behind p the machine is in no quoted value, name in backticks, list, number or comment.
def outside (env : Env) (p : Bytes) : Bool :=
  match View.run env (runes p) .start with
  | .ok v => !skips v.s
  | .error _ => true

-- What follows the comment makes the machine forget the pending text before it reads it.
def forgets (env : Env) (kind : Kind) (p s : Bytes) : Bool :=
  match View.run env (runes (p ++ comment kind [])) .start with
  | .ok w => unread env (runes (s ++ [byte ' '])) w
  | .error _ => true

theorem unread_far (env : Env) (v : View) (s : Bytes) (some_ : s ≠ []) (state : v.s = .unknown)
    (far : 3 ≤ k) :
    unread env (runes s) {v with far := k} = unread env (runes s) {v with far := 4} := by
  obtain ⟨a,t,rfl⟩ := List.exists_cons_of_ne_nil some_
  have wide := decodeRune_width a t
  rw [runes_cons,unread,unread]
  have step :=
    step_far env v (decodeRune a t).1 ((a :: t).take (decodeRune a t).2)
      (by rw [ne_eq,List.take_eq_nil_iff]; simp; omega) k far (Or.inl state)
  have same (k : Nat) : fate env {v with far := k} (decodeRune a t).1 = fate env v (decodeRune a t).1 := rfl
  rw [same k,same 4]
  cases fate env v (decodeRune a t).1 with
  | dropped => rfl
  | used => rfl
  | kept =>
    dsimp only
    rcases step with same | ⟨one,two,exit,left,right⟩
    · rw [same]
    · rw [left,right]

theorem closer_unlisted (env : Env) (kind : Kind) (text body : Bytes) :
    Unlisted env (text ++ (body ++ closer kind)) := by
  obtain ⟨c,mem,own⟩ : ∃ c ∈ closer kind,foreign listWords c = true := by
    cases kind <;> decide +kernel
  exact foreign_unlisted own (List.mem_append_right _ (List.mem_append_right _ mem)) env

-- From the end of the comment on, two texts make no difference if nothing reads them.
theorem pending_same (env : Env) (u : View) (kind : Kind) (s one two : Bytes) (some_ : s ≠ [])
    (state : u.s = .unknown) (first : 3 ≤ j)
    (second : 3 ≤ k) (free : unread env
    (runes s) {u with pend := u.pend ++ ([] ++ closer kind),far := 4} = true) :
    Same (View.run env (runes s) {u with pend := u.pend ++ (one ++ closer kind),far := j})
      (View.run env (runes s) {u with pend := u.pend ++ (two ++ closer kind),far := k}) := by
  have left := run_far env {u with pend := u.pend ++ (one ++ closer kind)} s some_ j first (Or.inl state)
  have right := run_far env {u with pend := u.pend ++ (two ++ closer kind)} s some_ k second (Or.inl state)
  have between := unread_run env (runes s) {u with pend := u.pend ++ (one ++ closer kind),far := 4}
    ((unread_pend env (runes s) {u with far := 4} (closer_unlisted env kind _ _)
      (closer_unlisted env kind _ _)).trans free)
    (closer_unlisted env kind u.pend one) (closer_unlisted env kind u.pend two)
  exact (Same.of_alike left).trans (between.trans (Same.of_alike right).symm)

theorem comment_result (env : Env) (kind : Kind) (p body s : Bytes) :
    View.result env (p ++ comment kind body ++ s) =
    (View.run env (runes (p ++ comment kind body)) .start >>= View.run env (runes (s ++ [byte ' ']))) := by
  have ascii : closer kind ≠ [] ∧ ∀ b ∈ closer kind,b.toNat < 0x80 := by cases kind <;> decide +kernel
  have whole : p ++ comment kind body ++ s ++ [byte ' '] = (p ++ opener kind ++ body) ++
      (closer kind ++ (s ++ [byte ' '])) := by
    simp [comment]
  have part : p ++ comment kind body = (p ++ opener kind ++ body) ++ (closer kind ++ []) := by simp [comment]
  rw [View.result,whole,part,runes_append_text _ _ ascii.1 ascii.2,
    runes_append_text _ _ ascii.1 ascii.2,runes_nil,List.append_nil,
    ← List.append_assoc,run_append]

theorem comments_ignored (env : Env) (kind : Kind) (p s one two : Bytes)
    (spaced : endsSpaced p = true) (open_ : outside env p = true)
    (free : forgets env kind p s = true) (first : isBody kind one = true) (second : isBody kind two = true)
    (command : run env (p ++ comment kind one ++ s) ≠ .error .adminCommand)
    (left : Completes (run env (p ++ comment kind one ++ s)))
    (right : Completes (run env (p ++ comment kind two ++ s))) :
    fingerprint env (p ++ comment kind one ++ s) = fingerprint env (p ++ comment kind two ++ s) := by
  refine Same.fingerprint ?_ command left right
  rw [comment_result,comment_result]
  obtain ⟨q,c,rfl,space⟩ := last_any spaced
  cases prior : View.run env (runes (q ++ [c])) .start with
  | error stop =>
    obtain ⟨some_,chars⟩ := opener_ascii kind
    have stopped (body : Bytes) : View.run env (runes (q ++ [c] ++ comment kind body)) .start =
        .error stop := by
      rw [comment,runes_append_text _ _ some_ chars,run_append,prior]
      rfl
    rw [stopped one,stopped two]
    exact .refl _
  | ok v =>
    rw [outside,prior] at open_
    obtain ⟨u,state,views⟩ := comment_view kind space prior (by simpa using open_)
    obtain ⟨i,near,empty⟩ := views [] (by cases kind <;> rfl)
    obtain ⟨j,far,firstRun⟩ := views one first
    obtain ⟨k,far',secondRun⟩ := views two second
    have rest : s ++ [byte ' '] ≠ [] := by simp
    rw [forgets,empty] at free
    dsimp only at free
    rw [unread_far env {u with pend := u.pend ++ ([] ++ closer kind)} _ rest state near] at free
    rw [firstRun,secondRun]
    exact pending_same env u kind (s ++ [byte ' ']) one two rest state far far' free

-- select /*a*/ b and select /*'*/ b
theorem comment_before_word_ignored : forgets asciiEnv .block (str "select ") (str " b") = true ∧
    fingerprint asciiEnv (str "select " ++ comment .block (str "a") ++ str " b") =
      fingerprint asciiEnv (str "select " ++ comment .block (str "'") ++ str " b") :=
  ⟨by decide +kernel,comments_ignored asciiEnv .block (str "select ") (str " b") (str "a") (str "'") (by decide +kernel) (by decide +kernel)
    (by decide +kernel) (by decide +kernel) (by decide +kernel) (by decide +kernel)
      (by decide +kernel) (by decide +kernel)⟩

theorem comment_shown : isBody .block (str "a") = true ∧ isBody .block (str "b") = true ∧
    endsSpaced (str "select ") = true ∧
    outside asciiEnv (str "select ") = true ∧
    fingerprint asciiEnv (str "select " ++ comment .block (str "a") ++ str " 1") =
      some (str "select /*a*/ ?") ∧
    fingerprint asciiEnv (str "select " ++ comment .block (str "b") ++ str " 1") =
      some (str "select /*b*/ ?") := by
  decide +kernel

end SqlReview.FingerprintComment
