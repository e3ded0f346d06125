import SqlReview.FingerprintRegular

-- Where copied text ends: cpToOffset is qi, or one byte before it behind a sign, or two behind two dashes.
namespace SqlReview.FingerprintSigns
open GoBytes Fingerprint FingerprintView FingerprintLiteral FingerprintPending FingerprintRegular

-- What can stand between a sign and the rune that copies the text before it.
def signLike (b : UInt8) : Bool := [byte '+',byte '-',byte '.',byte '`',byte '\'',byte '"'].contains b

-- The last k bytes are of this kind.
def Ends (k : Nat) (s : Bytes) : Prop := ∀ b ∈ s.drop (s.length-k),signLike b = true

theorem Ends.late (ends : Ends k s) (late : s.length-k ≤ n) : ∀ b ∈ s.drop n,signLike b = true := by
  intro b mem
  apply ends b
  obtain ⟨m,rfl⟩ := Nat.exists_eq_add_of_le late
  rw [← List.drop_drop] at mem
  exact List.mem_of_mem_drop mem

theorem Ends.mono (ends : Ends k s) (fewer : j ≤ k) : Ends j s := ends.late (by omega)

theorem Ends.drop (ends : Ends k s) (n : Nat) : Ends k (s.drop n) := by
  unfold Ends
  rw [List.drop_drop,List.length_drop]
  exact ends.late (by omega)

theorem ends_none (s : Bytes) : Ends 0 s := by
  unfold Ends
  rw [Nat.sub_zero,List.drop_length]
  exact nofun

theorem ends_nil (k : Nat) : Ends k [] := by
  unfold Ends
  rw [List.drop_nil]
  exact nofun

theorem Ends.snoc (ends : Ends k s) {c : UInt8} (own : signLike c = true) : Ends (k+1) (s ++ [c]) := by
  unfold Ends
  rw [List.length_append,List.length_singleton,Nat.add_sub_add_right,List.drop_append]
  intro b mem
  rcases List.mem_append.mp mem with inside | last
  · exact ends b inside
  · rw [List.mem_singleton.mp (List.mem_of_mem_drop last)]
    exact own

-- The bytes of the rune that is read.
def Piece (r : Nat) (bs : Bytes) : Prop := r < 0x80 → bs = [UInt8.ofNat r]

theorem Piece.rest (piece : Piece r bs) (ascii : r < 0x80) : bs.drop 1 = [] := by
  rw [piece ascii]
  rfl

theorem Piece.snoc {c : Char} (piece : Piece r bs) (own : r = rune c)
    (like : rune c < 0x80 ∧ signLike (byte c) = true) (ends : Ends k s) :
    Ends (k+1) (s ++ bs) := by
  rw [piece (by rw [own]; exact like.1),own]
  exact ends.snoc like.2

-- At the head of an iteration.
structure Signed (v : View) : Prop where
  sign : v.s = .opOrNumber → Ends 1 v.pend
  dash : v.s = .inDash → Ends 2 v.pend
  minus : v.pr = rune '-' → v.s = .inMLC ∨ (skips v.s = false ∧ Ends 1 v.pend)
  tick : v.plan = none ∨ (v.plan = some 0 ∧ byte '`' ∈ v.pend)

-- Before step 2: the rune stands behind `pre`.
structure Open (v : View) (r : Nat) (bs pre : Bytes) : Prop where
  pend : v.pend = pre ++ bs
  sign : v.s = .opOrNumber → Ends 1 pre
  dash : v.s = .inDash → Ends 2 pre
  minus : v.pr = rune '-' → Ends 1 pre
  plan : v.plan = none ∨ v.plan = some 0
  tick : r = rune '-' → v.plan = none ∨ pre = [] ∨ byte '`' ∈ pre

-- Before step 3.
structure Ready (v : View) (bs pre : Bytes) : Prop where
  cut : v.pend = [] ∨ v.pend = bs ∨ (v.pend = pre ++ bs ∧ ∀ back,v.plan = some back → Ends back pre)
  sign : v.s = .opOrNumber → Ends 1 v.pend
  dash : v.s = .inDash → Ends 2 v.pend

theorem Signed.quiet {v : View} (state : v.s = s) (sign : s ≠ .opOrNumber) (dash : s ≠ .inDash)
    (minus : v.pr = rune '-' → s = .inMLC)
    (plan : v.plan = none ∨ (v.plan = some 0 ∧ byte '`' ∈ v.pend)) : Signed v where
  sign bad := absurd (state.symm.trans bad) sign
  dash bad := absurd (state.symm.trans bad) dash
  minus pr := .inl (state.trans (minus pr))
  tick := plan

theorem space_ascii (space : isSpace r = true) : r < 0x80 := by
  simp only [isSpace,Bool.or_eq_true,beq_iff_eq] at space
  omega

theorem space_other (space : isSpace r = true) : r ≠ rune '-' := by
  rintro rfl
  cases space

section
variable {v : View} {r : Nat} {bs : Bytes}

-- In a state that skips, the previous rune is not a dash, outside comments.
theorem Signed.other (signed : Signed v) (skip : skips v.s = true) (comment : v.s ≠ .inMLC) :
    v.pr ≠ rune '-' := by
  intro pr
  rcases signed.minus pr with bad | ⟨bad,_⟩
  · exact comment bad
  · rw [skip] at bad
    cases bad

theorem skipQuote_signed (regular : Regular v) (signed : Signed v) (state : v.s = .inQuote) :
    Signed ((v.read bs).skipQuote r bs) := by
  have plan : v.plan = none := regular.plan (by rw [state]; exact nofun)
  have pr := signed.other (by rw [state]; rfl) (by rw [state]; exact nofun)
  apply View.skipQuote_cases (motive := Signed)
  · intro b
    exact .quiet state nofun nofun (fun bad => absurd bad pr) (.inl plan)
  · intro _ _ _
    exact .quiet rfl nofun nofun (fun bad => absurd bad pr) (.inl plan)
  · intro _ _ _
    exact .quiet rfl nofun nofun (fun bad => absurd bad pr) (.inl plan)

theorem skipBackticks_signed (regular : Regular v) (signed : Signed v) (piece : Piece r bs)
    (state : v.s = .inBackticks) :
    Signed ((v.read bs).skipBackticks r) := by
  have plan : v.plan = none := regular.plan (by rw [state]; exact nofun)
  have pr := signed.other (by rw [state]; rfl) (by rw [state]; exact nofun)
  have inside (b : Bool) : Signed {v.read bs with escape := b} :=
    .quiet state nofun nofun (fun bad => absurd bad pr) (.inl plan)
  unfold View.skipBackticks
  refine iteInduction (fun _ => iteInduction (fun _ => inside false) fun _ =>
    iteInduction (fun _ => inside true) fun _ => inside v.escape) fun tick =>
    iteInduction (fun _ => inside false) fun _ => ?_
  refine .quiet rfl nofun nofun (fun bad => absurd bad pr) (.inr ⟨rfl,?_⟩)
  have tick := not_not.mp tick
  rw [show View.pend _ = v.pend ++ bs from rfl,piece (by rw [tick]; decide),tick]
  exact List.mem_append_right _ (List.mem_singleton.mpr rfl)

theorem skipValues_signed (regular : Regular v) (signed : Signed v) (state : v.s = .inValues) :
    Signed ((v.read bs).skipValues r bs) := by
  have plan : v.plan = none := regular.plan (by rw [state]; exact nofun)
  have pr := signed.other (by rw [state]; rfl) (by rw [state]; exact nofun)
  have stays {s : State} {u : View} (same : u.pr = v.pr) (none_ : u.plan = none) (state : u.s = s)
    (sign : s ≠ .opOrNumber) (dash : s ≠ .inDash) :
      Signed u := by
    apply Signed.quiet state sign dash _ (.inl none_)
    rw [same]
    exact fun bad => absurd bad pr
  have balance (u : View) (same : u.pr = v.pr) (none_ : u.plan = none) (values : u.s = .inValues)
      (shut : u.parOpen ≤ 0 → u.parOpenTotal ≠ 0 → r = rune ')') : Signed (u.balanceValues r bs) := by
    apply View.balanceValues_cases (motive := Signed)
    · exact fun _ => stays same none_ values nofun nofun
    · exact fun _ _ => stays same none_ rfl nofun nofun
    · intro closed total
      rw [View.endValues_eq]
      refine .quiet rfl nofun nofun (fun dash => ?_) (.inl none_)
      change r = _ at dash
      rw [shut closed total] at dash
      exact absurd dash (by decide)
  apply View.skipValues_cases (motive := Signed)
  · intro par
    exact balance _ rfl plan state fun _ _ => par
  · intro _
    refine balance _ rfl plan state fun closed total => ?_
    change v.parOpen+1 ≤ 0 at closed
    exact absurd (regular.balance (by omega)) total
  · exact fun _ => stays rfl plan rfl nofun nofun
  · exact fun _ => stays rfl plan state nofun nofun
  · refine balance _ rfl plan state fun closed total => ?_
    exact absurd (regular.balance closed) total

-- What step 1 leaves: a view for the next iteration, or one for step 2.
def Parts (v : View) (r : Nat) (bs : Bytes) : Skipped View → Prop
  | .skip w => Signed w
  | .through w => ∃ pre,(pre = v.pend ∨ pre = []) ∧ Open w r bs pre

theorem skipPart_signed (regular : Regular v) (signed : Signed v) (piece : Piece r bs) :
    Parts v r bs ((v.read bs).skipPart r bs) := by
  have plan {s : State} (state : v.s = s) (notWord : s ≠ .inWord) : v.plan = none :=
    regular.plan (by rw [state]; exact notWord)
  have pr {s : State} (state : v.s = s) (skip : skips s = true) (comment : s ≠ .inMLC) : v.pr ≠ rune '-' :=
    signed.other (by rw [state]; exact skip) (by rw [state]; exact comment)
  have dashless (ends : inNumeral r = false) : r ≠ rune '-' := by
    rintro rfl
    cases ends
  have skipped {s : State} (state : v.s = s) (skip : skips s = true) (comment : s ≠ .inMLC)
    (sign : s ≠ .opOrNumber) (dash : s ≠ .inDash)
      (word : s ≠ .inWord) : Signed (v.read bs) := .quiet state sign dash
        (fun bad => absurd bad (pr state skip comment)) (.inl (plan state word))
  apply View.skipPart_cases (motive := Parts v r bs)
  case quote => exact fun state => skipQuote_signed regular signed state
  case backticks => exact fun state => skipBackticks_signed regular signed piece state
  case values => exact fun state => skipValues_signed regular signed state
  case numberInWord => exact fun state _ => skipped state rfl (by decide) (by decide) (by decide) (by decide)
  case number => exact fun state _ => skipped state rfl (by decide) (by decide) (by decide) (by decide)
  case line => exact fun state => skipped state rfl (by decide) (by decide) (by decide) (by decide)
  case comment =>
    intro state
    exact .quiet state (by decide) (by decide) (fun _ => rfl) (.inl (plan state (by decide)))
  case endComment =>
    intro state star
    refine .quiet rfl (by simp) (by simp) (fun bad => ?_) (.inl (plan state (by decide)))
    exact absurd (star.symm.trans bad) (by decide)
  case beginComment =>
    intro state
    exact .quiet rfl (by simp) (by simp) (fun _ => rfl) (.inl (plan state (by decide)))
  case endLine =>
    intro state
    exact .quiet rfl (by simp) (by simp) (fun bad => absurd bad (pr state rfl (by decide)))
      (.inl (plan state (by decide)))
  case spaces =>
    intro _ space _
    have rest : bs.drop 1 = [] := piece.rest (space_ascii space)
    refine ⟨fun _ => ?_,fun _ => ?_,fun bad => absurd bad (space_other space),.inl rfl⟩
    · rw [View.fromNext,rest]
      exact ends_nil 1
    · rw [View.fromNext,rest]
      exact ends_nil 2
  case through =>
    intro calm _
    refine ⟨v.pend,.inl rfl,rfl,signed.sign,signed.dash,fun dash => ?_,?_,fun _ => ?_⟩
    · rcases signed.minus dash with comment | ⟨_,ends⟩
      · have calm : skips v.s = false := calm
        rw [comment] at calm
        cases calm
      · exact ends
    · exact signed.tick.imp id And.left
    · exact signed.tick.imp id fun both => .inr both.2
  case notNumber =>
    intro state ends
    exact ⟨v.pend,.inl rfl,rfl,(by simp),(by simp),fun bad => absurd bad (pr state rfl (by decide)),
      .inr rfl,fun bad => absurd bad (dashless ends)⟩
  case version =>
    intro state ends _
    exact ⟨v.pend,.inl rfl,rfl,(by simp),(by simp),fun bad => absurd bad (pr state rfl (by decide)),
      .inr rfl,fun bad => absurd bad (dashless ends)⟩
  case endNumber =>
    intro _ _
    exact ⟨[],.inr rfl,rfl,(by simp),(by simp),fun _ => ends_nil 1,.inr rfl,fun _ => .inr (.inl rfl)⟩
  case endNumberInWord =>
    intro state
    exact ⟨[],.inr rfl,rfl,fun _ => ends_nil 1,fun _ => ends_nil 2,fun _ => ends_nil 1,
      .inl (plan state (by decide)),fun _ => .inr (.inl rfl)⟩
  case code =>
    intro state _
    exact ⟨v.pend,.inl rfl,rfl,(by simp),(by simp),fun bad => absurd bad (pr state rfl (by decide)),
      .inl (plan state (by decide)),fun _ => .inl (plan state (by decide))⟩

theorem Open.calm (opened : Open v r bs pre) (planned : v.plan = some back) : Ends back pre := by
  rcases opened.plan with none_ | zero
  · rw [none_] at planned
    cases planned
  · rw [zero] at planned
    cases planned
    exact ends_none pre

theorem Open.ready (opened : Open v r bs pre) {u : View} (pend : u.pend = v.pend)
    (plan : ∀ back,u.plan = some back → Ends back pre)
    (state : u.s = s) (sign : s ≠ .opOrNumber) (dash : s ≠ .inDash) : Ready u bs pre where
  cut := .inr (.inr ⟨pend.trans opened.pend,plan⟩)
  sign bad := absurd (state.symm.trans bad) sign
  dash bad := absurd (state.symm.trans bad) dash

-- The rune stays in the state it was read in.
theorem Open.stay {c : Char} (opened : Open v r bs pre) (piece : Piece r bs) (own : r = rune c)
    (like : rune c < 0x80 ∧ signLike (byte c) = true) :
    Ready v bs pre where
  cut := .inr (.inr ⟨opened.pend,fun _ => opened.calm⟩)
  sign _ := by
    rw [opened.pend]
    exact piece.snoc own like (ends_none pre)
  dash dash := by
    rw [opened.pend]
    exact piece.snoc own like ((opened.dash dash).mono (by decide))

theorem ready_here (pend : v.pend = bs) (state : v.s = s) (sign : s ≠ .opOrNumber)
    (dash : s ≠ .inDash) : Ready v bs pre where
  cut := .inr (.inl pend)
  sign bad := absurd (state.symm.trans bad) sign
  dash bad := absurd (state.symm.trans bad) dash

theorem ready_next (pend : v.pend = []) : Ready v bs pre where
  cut := .inl pend
  sign _ := by
    rw [pend]
    exact ends_nil 1
  dash _ := by
    rw [pend]
    exact ends_nil 2

def Turned (bs pre : Bytes) : Except Stop View → Prop
  | .ok u => Ready u bs pre
  | .error _ => True

theorem marked_plan {back : Nat} (planned : some 0 = some back) : Ends back pre := by
  cases planned
  exact ends_none pre

theorem endWord_turned (env : Env) (opened : Open v r bs pre) (piece : Piece r bs)
    (space : isSpace r = true) : Turned bs pre (v.endWord env bs) := by
  apply View.endWord_cases (motive := Turned bs pre)
  · intros
    trivial
  · intro word _ _
    rw [View.nullValue_eq]
    exact ready_next (piece.rest (space_ascii space))
  · intro _
    exact opened.ready rfl (fun _ => marked_plan) rfl nofun nofun
  · intro _ _
    exact ready_here rfl rfl nofun nofun
  · intro _ _ _
    exact ready_here rfl rfl nofun nofun
  · intro _
    exact opened.ready rfl (fun _ => marked_plan) rfl nofun nofun
  · exact opened.ready rfl (fun _ => marked_plan) rfl nofun nofun

theorem onSpace_turned (env : Env) (opened : Open v r bs pre) (piece : Piece r bs)
    (space : isSpace r = true) : Turned bs pre (v.onSpace env bs) := by
  apply View.onSpace_cases (motive := Turned bs pre)
  · intro _ _
    exact ready_next (piece.rest (space_ascii space))
  · intro state _
    exact opened.ready rfl (fun _ => opened.calm) state nofun nofun
  · intro state
    refine opened.ready rfl (fun back planned => ?_) rfl nofun nofun
    dsimp only at planned
    split at planned
    · cases planned
      exact opened.dash state
    · exact opened.calm planned
  · intro state _
    exact opened.ready rfl (fun _ => opened.calm) state nofun nofun
  · intro state _
    exact opened.ready rfl (fun _ => opened.calm) state nofun nofun
  · intro _ _ _
    exact endWord_turned env opened piece space

theorem onOpenPar_turned (env : Env) (opened : Open v r bs pre) : Turned bs pre (v.onOpenPar env bs) := by
  apply View.onOpenPar_cases (motive := Turned bs pre)
  · intro _
    trivial
  · intro _ _
    exact opened.ready rfl (fun _ => marked_plan) rfl nofun nofun
  · intro _ _
    exact opened.ready rfl (fun _ => opened.calm) rfl nofun nofun
  · intro _
    exact ready_here rfl rfl nofun nofun
  · intro state
    exact opened.ready rfl (fun _ => opened.calm) state nofun nofun

theorem changeState_turned (env : Env) (opened : Open v r bs pre) (piece : Piece r bs) :
    Turned bs pre (v.changeState env r bs) := by
  have cut : v.pend = [] ∨ v.pend = bs ∨ (v.pend = pre ++ bs ∧ ∀ back,v.plan = some back → Ends back pre) :=
    .inr (.inr ⟨opened.pend,fun _ => opened.calm⟩)
  apply View.changeState_cases (motive := Turned bs pre)
  case digit =>
    intro _
    apply View.onDigit_cases (motive := fun u => Turned bs pre (.ok u))
    · intro state
      refine opened.ready rfl (fun back planned => ?_) rfl nofun nofun
      cases planned
      exact opened.sign state
    · intro _
      exact opened.ready rfl (fun _ => marked_plan) rfl nofun nofun
    · intro _ _
      exact opened.ready rfl (fun _ => marked_plan) rfl nofun nofun
    · intro state
      exact opened.ready rfl (fun _ => opened.calm) state nofun nofun
  case space => exact fun space => onSpace_turned env opened piece space
  case quote =>
    intro quote
    apply View.onQuote_cases (motive := fun u => Turned bs pre (.ok u))
    · intro _
      exact opened.ready rfl nofun rfl nofun nofun
    · intro _
      exact opened.ready rfl (fun _ => marked_plan) rfl nofun nofun
    · intro _
      rcases quote with single | double
      · exact opened.stay piece single (by decide)
      · exact opened.stay piece double (by decide)
  case tick =>
    intro tick
    unfold View.onBacktick
    split
    · exact opened.ready rfl (fun _ => opened.calm) rfl nofun nofun
    · exact opened.stay piece tick (by decide)
  case operator =>
    intro _
    unfold View.onOperator
    split
    · exact ready_here rfl rfl nofun nofun
    · exact opened.ready rfl (fun _ => opened.calm) rfl nofun nofun
  case plus =>
    intro plus
    refine ⟨cut,fun _ => ?_,nofun⟩
    change Ends 1 v.pend
    rw [opened.pend]
    exact piece.snoc plus (by decide) (ends_none pre)
  case dash =>
    intro dash
    refine ⟨cut,fun _ => ?_,fun two => ?_⟩
    · change Ends 1 v.pend
      rw [opened.pend]
      exact piece.snoc dash (by decide) (ends_none pre)
    · dsimp only at two ⊢
      split at two
      · rw [opened.pend]
        exact piece.snoc dash (by decide) (opened.minus ‹_›)
      · cases two
  case point =>
    intro _ _
    exact opened.ready rfl (fun _ => marked_plan) rfl nofun nofun
  case dot => exact fun dot _ => opened.stay piece dot (by decide)
  case par => exact fun _ => onOpenPar_turned env opened
  case comma => exact fun _ state => opened.ready rfl (fun _ => opened.calm) state nofun nofun
  case admin =>
    intro _ _
    trivial
  case other =>
    intro _
    unfold View.onOther
    split
    · exact ready_here rfl rfl nofun nofun
    · exact opened.ready rfl (fun _ => opened.calm) rfl nofun nofun
  all_goals
    intros
    exact opened.ready rfl (fun _ => opened.calm) rfl nofun nofun

theorem dash_changes (env : Env) (v : View) (bs : Bytes) :
    v.changeState env (rune '-') bs =
      .ok {v with s := if v.pr = rune '-' then .inDash else .opOrNumber} :=
  rfl

-- No list begins at a dash: what it copies holds a backtick.
theorem dash_calm {u : View} (env : Env) (opened : Open v (rune '-') bs pre)
    (pend : u.pend = v.pend) (plan : u.plan = v.plan) :
    (u.copySlice env bs).s = u.s := by
  apply View.copySlice_cases (motive := fun w => w.s = u.s)
  · exact fun _ => rfl
  · intro w lowered some_
    rcases opened.tick rfl with none_ | empty | tick
    · unfold View.due at some_
      rw [plan,none_] at some_
      cases some_
    · unfold View.due at some_
      rw [plan,pend,opened.pend,empty,List.nil_append] at some_
      split at some_
      · cases some_
      · omega
    · have zero : u.plan = some 0 := by
        rcases opened.plan with none_ | zero
        · unfold View.due at some_
          rw [plan,none_] at some_
          cases some_
        · rw [plan,zero]
      have slice : u.pend.take (u.due bs) = pre := by
        unfold View.due
        rw [zero,pend,opened.pend]
        simp
      have free : wordIn env.lower w listWords = false := by
        have own : foreign listWords (byte '`') = true := by decide
        apply foreign_wordIn own
        rw [← lowered,slice]
        exact foreign_lower own tick env.lower
      apply View.afterCopy_cases (motive := fun t => t.s = u.s)
      · intro listed
        change wordIn env.lower w listWords = true at listed
        rw [free] at listed
        cases listed
      · exact fun _ => rfl
      · exact fun _ => rfl

theorem copySlice_drops (env : Env) (u : View) (bs : Bytes) :
    ∃ n,(u.copySlice env bs).pend = u.pend.drop n := by
  apply View.copySlice_cases (motive := fun w => ∃ n,w.pend = u.pend.drop n)
  · exact fun _ => ⟨0,rfl⟩
  · intro w _ _
    apply View.afterCopy_cases (motive := fun w => ∃ n,w.pend = u.pend.drop n)
    · exact fun _ => ⟨_,rfl⟩
    · exact fun _ => ⟨u.due bs+1,List.drop_drop⟩
    · exact fun _ => ⟨_,rfl⟩

theorem finish_signed {a u : View} (opened : Open a r bs pre)
    (changed : a.changeState env r bs = .ok u) (ready : Ready u bs pre) :
    Signed (u.finish env r bs) := by
  obtain ⟨n,drops⟩ := copySlice_drops env u bs
  obtain ⟨state,_⟩ := copySlice_state env u bs
  have keeps {s : State} (other : s ≠ .inValues) (own : (u.copySlice env bs).s = s) : u.s = s := by
    rcases state with ⟨same,_⟩ | ⟨values,_⟩
    · exact same.symm.trans own
    · exact absurd (own.symm.trans values) other
  have sign (own : u.s = .opOrNumber) : Ends 1 (u.copySlice env bs).pend := by
    rw [drops]
    exact (ready.sign own).drop n
  have dash (own : u.s = .inDash) : Ends 2 (u.copySlice env bs).pend := by
    rw [drops]
    exact (ready.dash own).drop n
  refine ⟨fun own => sign (keeps nofun own),fun own => dash (keeps nofun own),fun minus => .inr ?_,.inl rfl⟩
  change r = _ at minus
  subst minus
  rw [dash_changes] at changed
  cases changed
  have calm :=
    dash_calm (u := {a with s := if a.pr = rune '-' then .inDash else .opOrNumber}) env opened rfl rfl
  change skips (View.copySlice env _ bs).s = false ∧ Ends 1 (View.copySlice env _ bs).pend
  rw [calm]
  by_cases two : a.pr = rune '-'
  · exact ⟨by simp [two,skips],(dash (by simp [two])).mono (by decide)⟩
  · exact ⟨by simp [two,skips],sign (by simp [two])⟩

theorem through_cut (regular : Regular v) (signed : Signed v) (piece : Piece r bs)
    (through : (v.read bs).skipPart r bs = .through a)
    (changed : a.changeState env r bs = .ok u) : ∃ pre,(pre = v.pend ∨ pre = []) ∧ Open a r bs pre ∧
    Ready u bs pre := by
  have part := skipPart_signed regular signed piece
  rw [through] at part
  obtain ⟨pre,own,opened⟩ := part
  have turned := changeState_turned env opened piece
  rw [changed] at turned
  exact ⟨pre,own,opened,turned⟩

theorem step_signed (regular : Regular v) (signed : Signed v) (piece : Piece r bs)
    (step : View.step env v r bs = .ok w) : Signed w := by
  have part := skipPart_signed regular signed piece
  have cases :=
    View.step_cases (motive := fun turn => turn = .ok w → Signed w) env v r bs ?skip ?stop ?through
  · exact cases step
  case skip =>
    intro u found same
    rw [found] at part
    cases same
    exact ⟨part.sign,part.dash,part.minus,part.tick⟩
  case stop =>
    intro _ _ _ _ same
    cases same
  case through =>
    intro a u found changed same
    cases same
    obtain ⟨pre,_,opened,ready⟩ := through_cut regular signed piece found changed
    exact finish_signed opened changed ready

theorem start_signed : Signed .start := ⟨nofun,nofun,nofun,.inl rfl⟩

end

end SqlReview.FingerprintSigns
