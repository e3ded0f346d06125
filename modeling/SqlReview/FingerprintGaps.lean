import SqlReview.FingerprintSlack

-- Two queries that differ in their whitespace, read side by side.
namespace SqlReview.FingerprintGaps
open GoBytes Fingerprint FingerprintView FingerprintLiteral FingerprintPending FingerprintRegular
  FingerprintNumber FingerprintSlack

-- The whitespace before a text, as the one and as the other query has it.
structure Gap where
  one : Bytes
  two : Bytes
  text : Bytes

def isBlank (s : Bytes) : Bool := !s.isEmpty && s.all fun b => isSpace b.toNat

def leftQuery (head : Bytes) : List Gap → Bytes
  | [] => head
  | gap :: gaps => head ++ (gap.one ++ leftQuery gap.text gaps)

def rightQuery (head : Bytes) : List Gap → Bytes
  | [] => head
  | gap :: gaps => head ++ (gap.two ++ rightQuery gap.text gaps)

-- What both runs read next: the same rune, or each its own whitespace.
inductive Span where
  | same (piece : Nat × Bytes)
  | gap (one two : Bytes)

def Span.left : Span → List (Nat × Bytes)
  | .same piece => [piece]
  | .gap one _ => runes one

def Span.right : Span → List (Nat × Bytes)
  | .same piece => [piece]
  | .gap _ two => runes two

def spans (head : Bytes) : List Gap → List Span
  | [] => (runes head).map .same ++ [.same (rune ' ',[byte ' '])]
  | gap :: gaps => (runes head).map .same ++ .gap gap.one gap.two :: spans gap.text gaps

-- A condition on the two views before each span of the two runs.
def throughout (env : Env) (holds : View → View → Span → Bool) : List Span → View → View → Bool
  | [],_,_ => true
  | span :: rest,v,w => holds v w span &&
    match View.run env span.left v,View.run env span.right w with
    | .ok v,.ok w => throughout env holds rest v w
    | _,_ => true

-- Inside a quoted value, a name in backticks or a comment; "--" and what follows it is one.
def guarded : State → Bool
  | .inQuote | .inBackticks | .inMLC | .mlcOrMySQLCode | .inOLC | .inDash => true
  | _ => false

def between (v _ : View) : Span → Bool
  | .same _ => true
  | .gap _ _ => !guarded v.s

-- The pending texts agree, or the iteration on r does not read them; and a "-- " is met with
-- the same answer to cpToOffset > 2, or with nothing before it to copy.
def agrees (env : Env) (v w : View) (r : Nat) : Bool :=
  (v.pend == w.pend || (fate env v r != .used && !wordIn env.lower v.pend listWords &&
    !wordIn env.lower w.pend listWords)) &&
    (v.marked == w.marked || !(isSpace r && v.s == .inDash) || (v.pend == w.pend && v.pend.length ≤ 2))

def agree (env : Env) (v w : View) : Span → Bool
  | .same piece => agrees env v w piece.1
  | .gap _ _ => agrees env v w (rune ' ')

-- A view without what whitespace can change.
def core (v : View) : View := {v with pend := [],pr := 0,far := 0,gap := 0,marked := false}

structure Spaced (v w : View) : Prop where
  core : core v = core w
  pr : v.pr = w.pr ∨ (isSpace v.pr = true ∧ isSpace w.pr = true)
  gap : v.gap = w.gap ∨ (1 ≤ v.gap ∧ 1 ≤ w.gap)
  list : v.s = .inValues → v.gap = w.gap

inductive Gapped : Except Stop View → Except Stop View → Prop where
  | ok : Spaced v w → Gapped (.ok v) (.ok w)
  | error (exit : Exit) : Gapped (.error ⟨v,exit⟩) (.error ⟨w,exit⟩)

section
variable {v w u : View}

theorem Spaced.s (spaced : Spaced v w) : v.s = w.s := (congrArg View.s spaced.core :)
theorem Spaced.out (spaced : Spaced v w) : v.out = w.out := (congrArg View.out spaced.core :)

theorem Spaced.refl (v : View) : Spaced v v := ⟨rfl,.inl rfl,.inl rfl,fun _ => rfl⟩

theorem Spaced.symm (spaced : Spaced v w) : Spaced w v where
  core := spaced.core.symm
  pr := spaced.pr.imp Eq.symm And.symm
  gap := spaced.gap.imp Eq.symm And.symm
  list state := (spaced.list (spaced.s.trans state)).symm

theorem Spaced.trans (first : Spaced v w) (second : Spaced w u) : Spaced v u where
  core := first.core.trans second.core
  pr := by
    rcases first.pr with same | ⟨left,middle⟩
    · rw [same]
      exact second.pr
    · rcases second.pr with same | ⟨_,right⟩
      · exact .inr ⟨left,same ▸ middle⟩
      · exact .inr ⟨left,right⟩
  gap := by
    rcases first.gap with same | ⟨left,middle⟩
    · rw [same]
      exact second.gap
    · rcases second.gap with same | ⟨_,right⟩
      · exact .inr ⟨left,same ▸ middle⟩
      · exact .inr ⟨left,right⟩
  list state := (first.list state).trans (second.list (first.s.symm.trans state))

theorem Spaced.pending (v : View) (a b : Bytes) : Spaced {v with pend := a} {v with pend := b} :=
  ⟨rfl,.inl rfl,.inl rfl,fun _ => rfl⟩

theorem Spaced.slack (spaced : Spaced v w) : Slack {v with pend := w.pend} w where
  control := (congrArg (fun u : View => {u with
    pend := w.pend,pr := w.pr,far := w.far,gap := w.gap,marked := w.marked}) spaced.core).symm
  pr := spaced.pr
  gap := spaced.gap

theorem spaced_of_slack (slack : Slack v w) (gap : v.gap = w.gap) : Spaced v w where
  core := (congrArg FingerprintGaps.core slack.control).symm
  pr := slack.pr
  gap := .inl gap
  list _ := gap

end

theorem Gapped.symm (gapped : Gapped one two) : Gapped two one := by
  cases gapped with
  | ok spaced => exact .ok spaced.symm
  | error exit => exact .error exit

theorem Gapped.trans (first : Gapped one two) (second : Gapped two three) : Gapped one three := by
  cases first with
  | ok spaced =>
    cases second with
    | ok spaced' => exact .ok (spaced.trans spaced')
  | error exit =>
    cases second with
    | error exit => exact .error exit

theorem gapped_of_turned (turned : Turned one two) : Gapped one two := by
  cases turned with
  | ok slack gap => exact .ok (spaced_of_slack slack gap)
  | error exit => exact .error exit

theorem gapped_of_told (told : Told f a b one two) (unused : f ≠ .used) : Gapped one two := by
  cases f with
  | dropped =>
    cases told
    cases one with
    | ok v => exact .ok (.refl v)
    | error stop => exact .error stop.exit
  | kept =>
    cases told with
    | ok u calm => exact .ok (.pending u a b)
    | error u exit => exact .error exit
  | used => exact absurd rfl unused

-- With nothing before the "--" the answer to cpToOffset > 2 makes no difference.
theorem dash_short (env : Env) (regular : Regular v) (state : v.s = .inDash)
    (space : isSpace r = true) (short : v.pend.length ≤ 2) :
    View.step env v r bs = .ok (View.advance {v.read bs with s := .inOLC,pr := r,plan := none} bs) := by
  have ink : isSpace v.pr = false := by
    by_contra blank
    have rest := regular.spaced (Bool.not_eq_false _ ▸ blank)
    rw [state] at rest
    cases rest
  have idle : v.plan = none := regular.plan (by rw [state]; decide)
  have changed : View.changeState env (v.read bs) r bs =
      .ok {v.read bs with s := .inOLC,plan := if v.marked then some 2 else v.plan} := by
    have digit : isDigit r = false := by
      simp only [isSpace,Bool.or_eq_true,beq_iff_eq] at space
      rcases space with ((rfl | rfl) | rfl) | rfl <;> rfl
    have here : (v.read bs).s = .inDash := state
    rw [View.changeState,if_neg (by simp [digit]),if_pos space,onSpace_eq,
      if_neg (by rw [here]; decide),if_pos here]
    rfl
  rw [calm_step (by rw [state]; rfl) (by rw [ink,Bool.and_false]) changed,View.finish,copySlice_idle]
  unfold View.due
  dsimp only [View.read]
  rw [idle]
  split
  · rfl
  · rename_i back plan
    rw [List.length_append]
    have two : back = 2 := by
      split at plan
      · exact (Option.some.inj plan).symm
      · cases plan
    omega

-- One iteration of both runs on the same rune.
theorem step_spaced {v w : View} (spaced : Spaced v w) (env : Env) (left : Regular v)
    (right : Regular w) (some_ : bs ≠ [])
    (agreed : agrees env v w r = true) : Gapped (View.step env v r bs) (View.step env w r bs) := by
  obtain ⟨texts,marks⟩ := Bool.and_eq_true_iff.mp agreed
  by_cases early : v.marked ≠ w.marked ∧ isSpace r = true ∧ v.s = .inDash
  · obtain ⟨differ,space,state⟩ := early
    have short : v.pend = w.pend ∧ v.pend.length ≤ 2 := by simpa [differ,space,state] using marks
    rw [dash_short env left state space short.2,
      dash_short env right (spaced.s.symm.trans state) space (short.1 ▸ short.2)]
    have gap : min 2 (v.gap+bs.length) = min 2 (w.gap+bs.length) ∨
        (1 ≤ min 2 (v.gap+bs.length) ∧ 1 ≤ min 2 (w.gap+bs.length)) := by
      have := spaced.gap
      omega
    exact .ok ⟨congrArg (fun u : View => {u with s := .inOLC,plan := none}) spaced.core,.inl rfl,gap,nofun⟩
  · have marked : isSpace r = true → v.s = .inDash → v.marked = w.marked := by
      intro space state
      by_contra differ
      exact early ⟨differ,space,state⟩
    have moved := gapped_of_turned (step_slack spaced.slack env some_ marked spaced.list (r := r))
    by_cases same : v.pend = w.pend
    · rwa [← same] at moved
    · have kept : (fate env v r ≠ .used ∧ wordIn env.lower v.pend listWords = false) ∧
          wordIn env.lower w.pend listWords = false := by
        simpa [same] using texts
      exact (gapped_of_told (step_told env v r bs v.pend w.pend kept.1.2 kept.2) kept.1.1).trans moved

-- Two outcomes that differ in which whitespace character the pending text ends in.
inductive Swapped (b c : UInt8) : Except Stop View → Except Stop View → Prop where
  | ok (u : View) (x : Bytes) : Swapped b c (.ok {u with pend := x ++ [b]}) (.ok {u with pend := x ++ [c]})
  | same (u : View) : Swapped b c (.ok u) (.ok u)
  | error (exit : Exit) : Swapped b c (.error ⟨v,exit⟩) (.error ⟨w,exit⟩)

theorem Swapped.ite {p : Prop} [Decidable p] {one two one' two' : Except Stop View}
    (yes : p → Swapped b c one two)
    (no : ¬ p → Swapped b c one' two') : Swapped b c (if p then one else one') (if p then two else two') :=
  rel_ite (R := Swapped b c) Iff.rfl yes no

section
variable (env : Env) (u : View) (x : Bytes) (b c : UInt8)

theorem word_last : View.word {u with pend := x ++ [b]} [b] = x := by simp [View.word]

theorem matchWord_swapped (word : Bytes) :
    Swapped b c (View.matchWord env {u with pend := x ++ [b]} word [b])
      (View.matchWord env {u with pend := x ++ [c]} word [c]) := by
  unfold View.matchWord
  refine .ite (fun _ => .error _) fun _ => .ite (fun _ => ?null) fun _ =>
    .ite (fun _ => .ok {u with sqlState := .orderBy} x) fun _ =>
    .ite (fun _ => .ite (fun _ => .ok (View.backComma u) []) fun _ => .ok u []) fun _ =>
    .ite (fun _ => .ok {u with sqlState := .onDupeKeyUpdate} x) fun _ => .ok u x
  case null =>
    rw [View.nullValue_eq,View.nullValue_eq]
    exact .same _

theorem endWord_swapped :
    Swapped b c (View.endWord env {u with pend := x ++ [b]} [b])
      (View.endWord env {u with pend := x ++ [c]} [c]) := by
  unfold View.endWord
  rw [word_last,word_last]
  have matched := matchWord_swapped env u x b c (toLower env.lower x)
  generalize View.matchWord env {u with pend := x ++ [b]} _ _ = one at matched ⊢
  generalize View.matchWord env {u with pend := x ++ [c]} _ _ = two at matched ⊢
  cases matched with
  | ok u x => exact .ok {u.mark with s := .inSpace,addSpace := true} x
  | same u => exact .same _
  | error exit => exact .error exit

theorem onSpace_swapped :
    Swapped b c (View.onSpace env {u with pend := x ++ [b]} [b])
      (View.onSpace env {u with pend := x ++ [c]} [c]) := by
  rw [onSpace_eq,onSpace_eq]
  refine .ite (fun _ => ?lost) fun _ =>
    .ite (fun _ => .ok {u with s := .inOLC,plan := if u.marked then some 2 else u.plan} x) fun _ =>
    .ite (fun _ => ?list) fun _ => endWord_swapped env u x b c
  case lost =>
    by_cases text : u.endsInText = true
    · rw [if_pos (by exact text),if_pos (by exact text)]
      exact .same _
    · rw [if_neg (by exact text),if_neg (by exact text)]
      exact .ok u x
  case list =>
    by_cases first : u.valueNo = 1
    · rw [if_pos first,if_pos first]
      exact .ok (u.write [byte ' ']) x
    · rw [if_neg first,if_neg first]
      exact .ok u x

theorem afterCopy_swapped (u : View) (x : Bytes) :
    Swapped b c (.ok (View.afterCopy env {u with pend := x ++ [b]}))
      (.ok (View.afterCopy env {u with pend := x ++ [c]})) := by
  unfold View.afterCopy
  by_cases list : wordIn env.lower u.prevWord listWords = true ∧ u.sqlState ≠ .onDupeKeyUpdate
  · rw [if_pos list,if_pos list]
    exact .ok {u with addSpace := false,s := .inValues,sqlState := .inValues} x
  · rw [if_neg list,if_neg list]
    by_cases space : u.addSpace = true
    · rw [if_pos (by exact space),if_pos (by exact space)]
      cases x with
      | nil => exact .same _
      | cons a x => exact .ok {u.write [byte ' '] with addSpace := false} x
    · rw [if_neg (by exact space),if_neg (by exact space)]
      exact .ok u x

theorem due_swapped (u : View) (x : Bytes) :
    ∃ n,n ≤ x.length ∧ ∀ d : UInt8,View.due {u with pend := x ++ [d]} [d] = n := by
  cases u.plan with
  | none => exact ⟨0,Nat.zero_le _,fun _ => rfl⟩
  | some back => exact ⟨x.length-back,Nat.sub_le _ _,fun _ => due_split rfl rfl⟩

theorem copySlice_swapped :
    Swapped b c (.ok (View.copySlice env {u with pend := x ++ [b]} [b]))
      (.ok (View.copySlice env {u with pend := x ++ [c]} [c])) := by
  obtain ⟨n,short,due⟩ := due_swapped u x
  unfold View.copySlice
  dsimp only
  rw [due,due]
  by_cases some_ : 0 < n
  · rw [if_pos some_,if_pos some_,List.take_append_of_le_length short,List.take_append_of_le_length short]
    have copied (d : UInt8) (w : Bytes) : View.copyWord {u with pend := x ++ [d]} n w =
        {u with prevWord := w,out := u.out ++ fit n w,pend := x.drop n ++ [d]} := by
      rw [View.copyWord]
      dsimp only
      rw [List.drop_append_of_le_length short]
    rw [copied,copied]
    exact afterCopy_swapped env b c {u with prevWord := _,out := _} (x.drop n)
  · rw [if_neg some_,if_neg some_]
    exact .ok u x

end

section
variable {r : Nat} (space : isSpace r = true)
include space

theorem space_cases : r = 0x20 ∨ r = 0x09 ∨ r = 0x0D ∨ r = 0x0A := by
  simp only [isSpace,Bool.or_eq_true,beq_iff_eq] at space
  omega

theorem space_alone : isDigit r = false ∧ inNumeral r = false ∧ notNumeral r = false ∧
    r ≠ rune ')' ∧ r ≠ rune '(' ∧
    ¬ (r = rune '\'' ∨ r = rune '"') := by
  rcases space_cases space with rfl | rfl | rfl | rfl <;> decide

theorem changeState_space (env : Env) (v : View) (bs : Bytes) :
    v.changeState env r bs = v.onSpace env bs := by
  rw [View.changeState,if_neg (by rw [(space_alone space).1]; decide),if_pos space]

theorem skipValues_space (v : View) (bs : Bytes) : v.skipValues r bs = v := by
  obtain ⟨_,_,_,shut,opens,quote⟩ := space_alone space
  rw [View.skipValues,if_neg shut,if_neg opens,if_neg quote,if_pos space]

end

-- What an iteration on whitespace does outside the guarded states; it hardly looks at the character.
theorem space_step (env : Env) (v : View) (open_ : guarded v.s = false) :
    (v.s = .inValues ∧ ∀ r b,isSpace r = true → View.step env v r [b] = .ok ((v.read [b]).advance [b])) ∨
    (skips v.s = false ∧ ∀ r b,isSpace r = true →
      View.step env v r [b] = .ok (View.advance {v with pend := [],pr := r,plan := none} [b])) ∨
    ∃ (u : View) (x : Bytes),u.s ≠ .inDash ∧ skips u.s = false ∧ u.gap = v.gap ∧ ∀ r b,isSpace r = true →
      View.step env v r [b] = (View.onSpace env {u with pend := x ++ [b]} [b] >>= fun y =>
      .ok (y.finish env r [b])) := by
  have enters (u : View) (x : Bytes) (part : ∀ r b,isSpace r = true →
      (v.read [b]).skipPart r [b] = .through {u with pend := x ++ [b]}) :
      ∀ r b,isSpace r = true →
        View.step env v r [b] = (View.onSpace env {u with pend := x ++ [b]} [b] >>= fun y =>
          .ok (y.finish env r [b])) := by
    intro r b space
    rw [step_enters (part r b space),changeState_space space]
  by_cases calm : skips v.s = false
  · by_cases blank : isSpace v.pr = true
    · refine .inr (.inl ⟨calm,?_⟩)
      intro r b space
      apply step_skips
      rw [view_skipPart_other (v.read [b]) r [b] calm,if_pos (by rw [space]; exact blank)]
      rfl
    · refine .inr (.inr ⟨v,v.pend,?_,calm,rfl,enters v v.pend ?_⟩)
      · intro dash
        rw [dash] at open_
        cases open_
      · intro r b space
        rw [view_skipPart_other (v.read [b]) r [b] calm,if_neg (by rw [space]; exact blank)]
        rfl
  · cases state : v.s with
    | inValues =>
      refine .inl ⟨rfl,?_⟩
      intro r b space
      apply step_skips
      rw [skipPart_inValues (v.read [b]) r [b] state,skipValues_space space]
    | inNumberInWord =>
      refine .inr (.inr ⟨{v.write [byte '?'] with s := .unknown},[],(by simp),rfl,rfl,enters _ [] ?_⟩)
      intro r b space
      rw [skipPart_inNumberInWord (v.read [b]) r [b] state,View.endNumberInWord,
        if_neg (by rw [(space_alone space).1]; decide),if_pos space]
      rfl
    | inNumber =>
      have part (r : Nat) (b : UInt8) := skipPart_inNumber (v.read [b]) r [b] state
      by_cases code : v.sqlState = .inMySQLCode
      · refine .inr (.inr ⟨{v.mark with s := .inWord,sqlState := .unknown},v.pend,(by simp),rfl,rfl,
          enters _ v.pend ?_⟩)
        intro r b space
        obtain ⟨_,number,word,_⟩ := space_alone space
        rw [part,View.endNumber,if_neg (by rw [number]; decide),if_neg (by rw [word]; decide),
          if_pos (by exact code)]
        rfl
      · refine .inr (.inr ⟨{v.mark.write [byte '?'] with s := .unknown},[],(by simp),rfl,rfl,enters _ [] ?_⟩)
        intro r b space
        obtain ⟨_,number,word,_⟩ := space_alone space
        rw [part,View.endNumber,if_neg (by rw [number]; decide),if_neg (by rw [word]; decide),
          if_neg (by exact code)]
        rfl
    | inQuote | inBackticks | inMLC | mlcOrMySQLCode | inOLC =>
      rw [state] at open_
      cases open_
    | _ =>
      rw [state] at calm
      exact absurd rfl calm

theorem Swapped.finish (env : Env) (swapped : Swapped b c one two) (first : isSpace r = true)
    (second : isSpace r' = true) :
    Gapped (one >>= fun y => .ok (y.finish env r [b])) (two >>= fun y => .ok (y.finish env r' [c])) := by
  have spaced (u : View) (x y : Bytes) : Spaced (View.advance {u with pend := x,pr := r,plan := none} [b])
      (View.advance {u with pend := y,pr := r',plan := none} [c]) := ⟨rfl,.inr ⟨first,second⟩,
        .inl rfl,fun _ => rfl⟩
  cases swapped with
  | ok u x =>
    have copied := copySlice_swapped env u x b c
    change Gapped (.ok (View.advance {View.copySlice env {u with
      pend := x ++ [b]} [b] with pr := r,plan := none} [b]))
      (.ok (View.advance {View.copySlice env {u with pend := x ++ [c]} [c] with pr := r',plan := none} [c]))
    generalize View.copySlice env {u with pend := x ++ [b]} [b] = left at copied ⊢
    generalize View.copySlice env {u with pend := x ++ [c]} [c] = right at copied ⊢
    cases copied with
    | ok u x => exact .ok (spaced u _ _)
    | same => exact .ok (spaced _ _ _)
  | same u => exact .ok (spaced (u.copySlice env [b]) _ _)
  | error exit => exact .error exit

theorem space_swapped (env : Env) (v : View) (open_ : guarded v.s = false)
    (first : isSpace r = true) (second : isSpace r' = true) (b c : UInt8) :
    Gapped (View.step env v r [b]) (View.step env v r' [c]) := by
  rcases space_step env v open_ with ⟨_,steps⟩ | ⟨_,steps⟩ | ⟨u,x,_,_,_,steps⟩
  · rw [steps r b first,steps r' c second]
    exact .ok ⟨rfl,.inl rfl,.inl rfl,fun _ => rfl⟩
  · rw [steps r b first,steps r' c second]
    exact .ok ⟨rfl,.inr ⟨first,second⟩,.inl rfl,fun _ => rfl⟩
  · rw [steps r b first,steps r' c second]
    exact (onSpace_swapped env u x b c).finish env first second

-- A view that further whitespace leaves as it is.
structure Blank (v : View) : Prop where
  rest : v.s = .inValues ∨ (skips v.s = false ∧ isSpace v.pr = true ∧ v.plan = none)
  near : 1 ≤ v.gap
  list : v.s = .inValues → v.gap = 2

theorem onSpace_rests {u y : View} (other : u.s ≠ .inDash) (calm : skips u.s = false)
    (ran : u.onSpace env bs = .ok y) :
    skips y.s = false ∧ y.gap = u.gap := by
  have cases :=
    View.onSpace_cases (motive := fun turn => turn = .ok y → skips y.s = false ∧ y.gap = u.gap) env u bs
    ?text ?lost ?dash ?first ?more ?word
  · exact cases ran
  case text =>
    intro _ _ same
    cases same
    exact ⟨calm,rfl⟩
  case lost =>
    intro _ _ same
    cases same
    exact ⟨calm,rfl⟩
  case dash => exact fun dash => absurd dash other
  case first =>
    intro _ _ same
    cases same
    exact ⟨calm,rfl⟩
  case more =>
    intro _ _ same
    cases same
    exact ⟨calm,rfl⟩
  case word =>
    intro _ _ _
    apply View.endWord_cases (motive := fun turn => turn = .ok y → skips y.s = false ∧ y.gap = u.gap)
    · intro _ _ same
      cases same
    · intro word _ _ same
      rw [View.nullValue_eq] at same
      cases same
      exact ⟨rfl,rfl⟩
    all_goals
      intros
      rename_i same
      cases same
      exact ⟨rfl,rfl⟩

theorem copySlice_gap (env : Env) (u : View) (bs : Bytes) : (u.copySlice env bs).gap = u.gap := by
  apply View.copySlice_cases (motive := fun w => w.gap = u.gap)
  · exact fun _ => rfl
  · intro word _ _
    apply View.afterCopy_cases (motive := fun w => w.gap = u.gap)
    · exact fun _ => rfl
    · exact fun _ => rfl
    · exact fun _ => rfl

theorem start_space (env : Env) (space : isSpace r = true) (b : UInt8) : View.step env .start r [b] =
    .ok (View.advance {View.start with pend := [b],pr := r} [b]) := by
  have changed : View.changeState env (View.start.read [b]) r [b] = .ok (View.start.read [b]) := by
    rw [changeState_space space]
    rfl
  rw [calm_step rfl (by rw [show isSpace View.start.pr = false from rfl,Bool.and_false]) changed,
    View.finish,copySlice_calm env _ _ rfl]
  rfl

def Begun (v : View) : Prop := v = .start ∨ 1 ≤ v.gap

theorem space_blank {v y : View} (open_ : guarded v.s = false) (begun : Begun v) (space : isSpace r = true)
    (ran : View.step env v r [b] = .ok y) : Blank y := by
  rcases begun with rfl | near
  · rw [start_space env space] at ran
    cases ran
    exact ⟨.inr ⟨rfl,space,rfl⟩,Nat.le_refl 1,nofun⟩
  · have two : min 2 (v.gap+1) = 2 := by omega
    have more : 1 ≤ min 2 (v.gap+1) := by omega
    rcases space_step env v open_ with ⟨state,steps⟩ | ⟨calm,steps⟩ | ⟨u,x,other,calm,gap,steps⟩
    · rw [steps r b space] at ran
      cases ran
      exact ⟨.inl state,more,fun _ => two⟩
    · rw [steps r b space] at ran
      cases ran
      exact ⟨.inr ⟨calm,space,rfl⟩,more,fun _ => two⟩
    · rw [steps r b space] at ran
      cases turned : View.onSpace env {u with pend := x ++ [b]} [b] with
      | error stop =>
        rw [turned] at ran
        cases ran
      | ok z =>
        rw [turned] at ran
        have same : z.finish env r [b] = y := Except.ok.inj ran
        obtain ⟨rest,kept⟩ := onSpace_rests (u := {u with pend := x ++ [b]}) other calm turned
        have far : y.gap = 2 := by
          rw [← same]
          change min 2 ((z.copySlice env [b]).gap+1) = 2
          rw [copySlice_gap,kept,gap,two]
        refine ⟨?_,by rw [far]; decide,fun _ => far⟩
        rw [← same]
        rcases (copySlice_state env z [b]).1 with ⟨stays,_⟩ | ⟨list,_⟩
        · refine .inr ⟨?_,space,rfl⟩
          change skips (z.copySlice env [b]).s = false
          rw [stays]
          exact rest
        · exact .inl list

theorem blank_idle (env : Env) (blank : Blank v) (space : isSpace r = true) (b : UInt8) :
    ∃ w,View.step env v r [b] = .ok w ∧ Spaced v w ∧ Blank w := by
  have near := blank.near
  have two : min 2 (v.gap+1) = 2 := by omega
  have more : 1 ≤ min 2 (v.gap+1) := by omega
  by_cases list : v.s = .inValues
  · have part : (v.read [b]).skipPart r [b] = .skip (v.read [b]) := by
      rw [skipPart_inValues (v.read [b]) r [b] list]
      exact congrArg Skipped.skip (skipValues_space space _ _)
    exact ⟨_,step_skips part,
      ⟨rfl,.inl rfl,.inr ⟨near,more⟩,fun _ => (blank.list list).trans two.symm⟩,⟨.inl list,more,fun _ => two⟩⟩
  · obtain ⟨calm,last,idle⟩ := blank.rest.resolve_left list
    have part : (v.read [b]).skipPart r [b] =
        .skip {(v.read [b]).fromNext [b] with pr := r,plan := none} := by
      rw [view_skipPart_other (v.read [b]) r [b] calm,if_pos (by rw [space]; exact last)]
    refine ⟨_,step_skips part,
      ⟨?_,.inr ⟨last,space⟩,.inr ⟨near,more⟩,fun state => absurd state list⟩,
      ⟨.inr ⟨calm,space,rfl⟩,more,fun _ => two⟩⟩
    change core v = {core v with plan := none}
    rw [← idle]
    rfl

theorem space_ascii {b : UInt8} (space : isSpace b.toNat = true) : b.toNat < 0x80 := by
  have := space_cases space
  omega

theorem isBlank_cons (blank : isBlank s = true) : ∃ b t,s = b :: t ∧ isSpace b.toNat = true ∧
    ∀ c ∈ t,isSpace c.toNat = true := by
  obtain ⟨some_,spaces⟩ := Bool.and_eq_true_iff.mp blank
  cases s with
  | nil => cases some_
  | cons b t =>
    have all := List.all_eq_true.mp spaces
    exact ⟨b,t,rfl,all b List.mem_cons_self,fun c mem => all c (List.mem_cons_of_mem b mem)⟩

theorem isBlank_ascii (blank : isBlank s = true) : s ≠ [] ∧ ∀ b ∈ s,b.toNat < 0x80 := by
  obtain ⟨b,t,rfl,space,spaces⟩ := isBlank_cons blank
  refine ⟨List.cons_ne_nil b t,?_⟩
  intro c mem
  rcases List.mem_cons.mp mem with rfl | later
  · exact space_ascii space
  · exact space_ascii (spaces c later)

theorem blank_run {s : Bytes} (env : Env) (blank : Blank v) (spaces : ∀ b ∈ s,isSpace b.toNat = true) :
    ∃ w,View.run env (s.map fun b => (b.toNat,[b])) v = .ok w ∧ Spaced v w := by
  induction s generalizing v with
  | nil => exact ⟨v,rfl,.refl v⟩
  | cons b s ih =>
    obtain ⟨here,later⟩ := List.forall_mem_cons.mp spaces
    obtain ⟨u,stepped,first,next⟩ := blank_idle env blank here b
    obtain ⟨w,ran,second⟩ := ih next later
    refine ⟨w,?_,first.trans second⟩
    rw [List.map_cons,run_step stepped]
    exact ran

-- A run of whitespace does what its first character does.
theorem gap_run {t : Bytes} (env : Env) {v : View} (open_ : guarded v.s = false) (begun : Begun v)
    {b : UInt8} (space : isSpace b.toNat = true)
    (spaces : ∀ c ∈ t,isSpace c.toNat = true) :
    Gapped (View.step env v b.toNat [b]) (View.run env (runes (b :: t)) v) := by
  have ascii : ∀ c ∈ b :: t,c.toNat < 0x80 :=
    List.forall_mem_cons.mpr ⟨space_ascii space,fun c mem => space_ascii (spaces c mem)⟩
  rw [runes_text _ ascii,List.map_cons,View.run]
  cases stepped : View.step env v b.toNat [b] with
  | error stop => exact .error stop.exit
  | ok u =>
    obtain ⟨w,ran,spaced⟩ := blank_run env (space_blank open_ begun space stepped) spaces
    change Gapped (.ok u) (View.run env (t.map fun b => (b.toNat,[b])) u)
    rw [ran]
    exact .ok spaced

-- What is known of the two views before each span.
structure Pair (v w : View) : Prop where
  spaced : Spaced v w
  left : Regular v
  right : Regular w
  begunLeft : Begun v
  begunRight : Begun w

theorem gap_spaced {v w : View} (pair : Pair v w) (open_ : guarded v.s = false)
    (agreed : agrees env v w (rune ' ') = true)
    (first : isBlank one = true) (second : isBlank two = true) :
    Gapped (View.run env (runes one) v) (View.run env (runes two) w) := by
  obtain ⟨b,s,rfl,left,lefts⟩ := isBlank_cons first
  obtain ⟨c,t,rfl,right,rights⟩ := isBlank_cons second
  have open' : guarded w.s = false := pair.spaced.s ▸ open_
  have plain : isSpace (rune ' ') = true := by decide
  have common := step_spaced pair.spaced env pair.left pair.right (List.cons_ne_nil (byte ' ') []) agreed
  have enter :=
    (gap_run env open_ pair.begunLeft left lefts).symm.trans
      (space_swapped env v open_ left plain b (byte ' '))
  have leave :=
    (space_swapped env w open' plain right (byte ' ') c).trans
      (gap_run env open' pair.begunRight right rights)
  exact enter.trans (common.trans leave)

def Span.proper : Span → Bool
  | .same piece => !piece.2.isEmpty
  | .gap one two => isBlank one && isBlank two

theorem span_spaced {v w : View} (pair : Pair v w) (proper : span.proper = true)
    (open_ : between v w span = true)
    (agreed : agree env v w span = true) : Gapped (View.run env span.left v) (View.run env span.right w) := by
  cases span with
  | same piece =>
    have some_ : piece.2 ≠ [] := by simpa [Span.proper] using proper
    have step := step_spaced pair.spaced env pair.left pair.right some_ agreed
    change Gapped (View.step env v piece.1 piece.2 >>= View.run env [])
      (View.step env w piece.1 piece.2 >>= View.run env [])
    generalize View.step env v piece.1 piece.2 = left at step ⊢
    generalize View.step env w piece.1 piece.2 = right at step ⊢
    cases step with
    | ok spaced => exact .ok spaced
    | error exit => exact .error exit
  | gap one two =>
    obtain ⟨first,second⟩ := Bool.and_eq_true_iff.mp proper
    exact gap_spaced pair (by simpa [between] using open_) agreed first second

theorem run_begun (begun : Begun v) (wide : ∀ piece ∈ pieces,piece.2 ≠ [])
    (ran : View.run env pieces v = .ok w) : Begun w := by
  induction pieces generalizing v with
  | nil =>
    cases ran
    exact begun
  | cons piece rest ih =>
    obtain ⟨here,later⟩ := List.forall_mem_cons.mp wide
    rw [View.run] at ran
    cases step : v.step env piece.1 piece.2 with
    | error stop =>
      rw [step] at ran
      cases ran
    | ok u =>
      rw [step] at ran
      exact ih (.inr (step_gap step here).1) later ran

theorem runes_wide (s : Bytes) : ∀ piece ∈ runes s,piece.2 ≠ [] :=
  fun piece mem => List.length_pos_iff.mp (runes_piece s piece mem).1

theorem span_wide {span : Span} (proper : span.proper = true) : (∀ piece ∈ span.left,piece.2 ≠ []) ∧
    ∀ piece ∈ span.right,piece.2 ≠ [] := by
  cases span with
  | same piece =>
    have some_ : piece.2 ≠ [] := by simpa [Span.proper] using proper
    exact ⟨List.forall_mem_singleton.mpr some_,List.forall_mem_singleton.mpr some_⟩
  | gap one two => exact ⟨runes_wide one,runes_wide two⟩

theorem spans_run {list : List Span} {v w : View} (pair : Pair v w)
    (proper : ∀ span ∈ list,span.proper = true) (open_ : throughout env between list v w = true)
    (agreed : throughout env (agree env) list v w = true) :
    Same (View.run env (list.flatMap Span.left) v) (View.run env (list.flatMap Span.right) w) := by
  induction list generalizing v w with
  | nil => exact .ok pair.spaced.out
  | cons span list ih =>
    obtain ⟨here,later⟩ := List.forall_mem_cons.mp proper
    obtain ⟨wideLeft,wideRight⟩ := span_wide here
    obtain ⟨openHere,open_⟩ := Bool.and_eq_true_iff.mp open_
    obtain ⟨agreedHere,agreed⟩ := Bool.and_eq_true_iff.mp agreed
    have moved := span_spaced pair here openHere agreedHere
    rw [List.flatMap_cons,List.flatMap_cons,run_append,run_append]
    generalize left : View.run env span.left v = one at moved open_ agreed ⊢
    generalize right : View.run env span.right w = two at moved open_ agreed ⊢
    cases moved with
    | ok spaced =>
      have next : Pair _ _ :=
        ⟨spaced,run_regular pair.left left,run_regular pair.right right,
          run_begun pair.begunLeft wideLeft left,
        run_begun pair.begunRight wideRight right⟩
      exact ih next later open_ agreed
    | error exit => exact .error

theorem spans_proper (head : Bytes) (gaps : List Gap)
    (blank : ∀ gap ∈ gaps,isBlank gap.one = true ∧ isBlank gap.two = true) :
    ∀ span ∈ spans head gaps,span.proper = true := by
  have texts (text : Bytes) : ∀ span ∈ (runes text).map Span.same,span.proper = true := by
    intro span mem
    obtain ⟨piece,inside,rfl⟩ := List.mem_map.mp mem
    simpa [Span.proper] using runes_wide text piece inside
  induction gaps generalizing head with
  | nil =>
    intro span mem
    rcases List.mem_append.mp mem with inside | last
    · exact texts head span inside
    · rw [List.mem_singleton.mp last]
      rfl
  | cons gap gaps ih =>
    obtain ⟨here,later⟩ := List.forall_mem_cons.mp blank
    intro span mem
    rcases List.mem_append.mp mem with inside | mem
    · exact texts head span inside
    · rcases List.mem_cons.mp mem with rfl | mem
      · exact Bool.and_eq_true_iff.mpr here
      · exact ih gap.text later span mem

theorem flatMap_same (pieces : List (Nat × Bytes)) : (pieces.map Span.same).flatMap Span.left =
    pieces ∧ (pieces.map Span.same).flatMap Span.right = pieces := by
  induction pieces with
  | nil => exact ⟨rfl,rfl⟩
  | cons piece rest ih =>
    rw [List.map_cons,List.flatMap_cons,List.flatMap_cons,ih.1,ih.2]
    exact ⟨rfl,rfl⟩

theorem left_runes (head : Bytes) (gaps : List Gap) (blank : ∀ gap ∈ gaps,isBlank gap.one = true) :
    runes (leftQuery head gaps ++ [byte ' ']) = (spans head gaps).flatMap Span.left := by
  induction gaps generalizing head with
  | nil =>
    rw [spans,leftQuery,List.flatMap_append,(flatMap_same _).1]
    exact runes_append_ascii head [] (by decide)
  | cons gap gaps ih =>
    obtain ⟨here,later⟩ := List.forall_mem_cons.mp blank
    obtain ⟨some_,ascii⟩ := isBlank_ascii here
    rw [spans,leftQuery,List.flatMap_append,(flatMap_same _).1,List.flatMap_cons,
      ← ih gap.text later,List.append_assoc,List.append_assoc]
    exact runes_append_text head _ some_ ascii

theorem right_runes (head : Bytes) (gaps : List Gap) (blank : ∀ gap ∈ gaps,isBlank gap.two = true) :
    runes (rightQuery head gaps ++ [byte ' ']) = (spans head gaps).flatMap Span.right := by
  induction gaps generalizing head with
  | nil =>
    rw [spans,rightQuery,List.flatMap_append,(flatMap_same _).2]
    exact runes_append_ascii head [] (by decide)
  | cons gap gaps ih =>
    obtain ⟨here,later⟩ := List.forall_mem_cons.mp blank
    obtain ⟨some_,ascii⟩ := isBlank_ascii here
    rw [spans,rightQuery,List.flatMap_append,(flatMap_same _).2,List.flatMap_cons,
      ← ih gap.text later,List.append_assoc,List.append_assoc]
    exact runes_append_text head _ some_ ascii

theorem gaps_result (env : Env) (head : Bytes) (gaps : List Gap)
    (blank : ∀ gap ∈ gaps,isBlank gap.one = true ∧ isBlank gap.two = true)
    (open_ : throughout env between (spans head gaps) .start .start = true)
    (agreed : throughout env (agree env) (spans head gaps) .start .start = true) :
    Same (View.result env (leftQuery head gaps)) (View.result env (rightQuery head gaps)) := by
  rw [View.result,View.result,left_runes head gaps fun gap mem => (blank gap mem).1,
    right_runes head gaps fun gap mem => (blank gap mem).2]
  exact spans_run ⟨.refl _,start_regular,start_regular,.inl rfl,.inl rfl⟩
    (spans_proper head gaps blank) open_ agreed

end SqlReview.FingerprintGaps
