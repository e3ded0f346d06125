import SqlReview.FingerprintSigns
import SqlReview.GoUtf8

-- What Fingerprint collects and writes for a query that is valid UTF-8.
namespace SqlReview.FingerprintUtf8
open GoBytes GoUtf8 Fingerprint FingerprintView FingerprintLiteral FingerprintPending
  FingerprintRegular FingerprintSigns

theorem signLike_ascii : ∀ b : UInt8,signLike b = true → b.toNat < 0x80 := every_byte (by decide +kernel)

theorem ends_valid (ends : Ends k s) : Valid (s.drop (s.length-k)) :=
  valid_ascii fun b mem => signLike_ascii b (ends b mem)

theorem ends_front (ends : Ends k s) (valid : Valid s) : Valid (s.take (s.length-k)) := by
  apply valid_cancel (t := s.drop (s.length-k))
  · rwa [List.take_append_drop]
  · exact fun b mem => signLike_ascii b (ends b mem)

theorem ascii_valid (ascii : ∀ b ∈ text,b.toNat < 0x80) (valid : Valid s) : Valid (s ++ text) :=
  valid_append valid (valid_ascii ascii)

theorem question_ascii : ∀ b ∈ [byte '?'],b.toNat < 0x80 := List.forall_mem_singleton.mpr (by decide)

theorem blank_ascii : ∀ b ∈ [byte ' '],b.toNat < 0x80 := List.forall_mem_singleton.mpr (by decide)

structure Sound (v : View) : Prop where
  pend : Valid v.pend
  out : Valid v.out

section
variable {env : Env} {v : View} {r : Nat} {bs : Bytes}

theorem takesBack_nil (env : Env) (r : Nat) (s : State) : takesBack env r s [] = false := by
  simp [takesBack,commaBack]

theorem takesBack_order (back : takesBack env r s word = true) : s = .orderBy := by
  simp only [takesBack,commaBack,Bool.and_eq_true,decide_eq_true_eq] at back
  exact back.2.1.1

theorem Sound.read (sound : Sound v) (whole : Valid bs) : Sound (v.read bs) :=
  ⟨valid_append sound.pend whole,sound.out⟩

theorem fromNext_sound (sound : Sound v) (piece : Piece r bs) (ascii : r < 0x80) : Sound (v.fromNext bs) := by
  refine ⟨?_,sound.out⟩
  rw [View.fromNext,piece.rest ascii]
  exact valid_nil

theorem skipQuote_sound (regular : Regular v) (sound : Sound v) (whole : Valid bs)
    (piece : Piece r bs) (state : v.s = .inQuote) :
    Sound ((v.read bs).skipQuote r bs) := by
  have read := sound.read whole
  have next (own : r = v.quoteChar) : Sound ((v.read bs).fromNext bs) := by
    apply fromNext_sound read piece
    rw [own]
    rcases regular.quote state with single | double
    · rw [single]
      decide
    · rw [double]
      decide
  apply View.skipQuote_cases (motive := Sound)
  · exact fun _ => ⟨read.pend,read.out⟩
  · exact fun own _ _ => ⟨(next own).pend,(next own).out⟩
  · exact fun own _ _ => ⟨(next own).pend,ascii_valid question_ascii (next own).out⟩

theorem skipValues_sound (regular : Regular v) (sound : Sound v) (whole : Valid bs)
    (piece : Piece r bs) : Sound ((v.read bs).skipValues r bs) := by
  have read := sound.read whole
  have balance (u : View) (pend : u.pend = (v.read bs).pend) (out : u.out = v.out)
    (shut : u.parOpen ≤ 0 → u.parOpenTotal ≠ 0 → r = rune ')') :
      Sound (u.balanceValues r bs) := by
    have inside : Sound u := ⟨by rw [pend]; exact read.pend,by rw [out]; exact read.out⟩
    apply View.balanceValues_cases (motive := Sound)
    · exact fun _ => inside
    · exact fun _ _ => ⟨inside.pend,inside.out⟩
    · intro closed total
      have next := fromNext_sound inside piece (by rw [shut closed total]; decide)
      rw [View.endValues_eq]
      refine ⟨next.pend,ascii_valid ?_ inside.out⟩
      unfold View.listText
      split
      · split
        · decide +kernel
        · decide +kernel
      · exact nofun
  apply View.skipValues_cases (motive := Sound)
  · exact fun par => balance _ rfl rfl fun _ _ => par
  · intro _
    refine balance _ rfl rfl fun closed total => ?_
    change v.parOpen+1 ≤ 0 at closed
    exact absurd (regular.balance (by omega)) total
  · exact fun _ => ⟨read.pend,read.out⟩
  · exact fun _ => read
  · refine balance _ rfl rfl fun closed total => ?_
    exact absurd (regular.balance closed) total

-- What step 1 leaves to the next iteration and to step 2.
def Parts (env : Env) (v : View) (r : Nat) (bs : Bytes) : Skipped View → Prop
  | .skip w => Sound w
  | .through w =>
    Valid w.out ∧ w.addSpace = v.addSpace ∧
      (takesBack env r w.sqlState (w.word bs) = true → Valid w.out.dropLast)

theorem skipPart_sound (regular : Regular v) (sound : Sound v) (whole : Valid bs) (piece : Piece r bs)
    (back : takesBack env r v.sqlState v.pend = true → Valid v.out.dropLast) :
    Parts env v r bs ((v.read bs).skipPart r bs) := by
  have read := sound.read whole
  have word : (v.read bs).word bs = v.pend := by simp [View.word,View.read]
  have back : takesBack env r v.sqlState ((v.read bs).word bs) = true → Valid v.out.dropLast := by rwa [word]
  apply View.skipPart_cases (motive := Parts env v r bs)
  case quote => exact fun state => skipQuote_sound regular sound whole piece state
  case backticks =>
    intro _
    apply View.skipBackticks_cases (motive := Sound)
    · exact fun _ => ⟨read.pend,read.out⟩
    · exact ⟨read.pend,read.out⟩
  case values => exact fun _ => skipValues_sound regular sound whole piece
  case numberInWord => exact fun _ _ => read
  case number => exact fun _ _ => read
  case comment => exact fun _ => ⟨read.pend,read.out⟩
  case endComment => exact fun _ _ => ⟨read.pend,read.out⟩
  case beginComment => exact fun _ => ⟨read.pend,read.out⟩
  case line => exact fun _ => read
  case endLine => exact fun _ => ⟨read.pend,read.out⟩
  case spaces =>
    intro _ space _
    have next := fromNext_sound read piece (space_ascii space)
    exact ⟨next.pend,next.out⟩
  case through => exact fun _ _ => ⟨sound.out,rfl,back⟩
  case notNumber => exact fun _ _ => ⟨sound.out,rfl,back⟩
  case version => exact fun _ _ _ => ⟨sound.out,rfl,fun bad => absurd (takesBack_order bad) (by simp)⟩
  case code => exact fun _ _ => ⟨sound.out,rfl,fun bad => absurd (takesBack_order bad) (by simp)⟩
  case endNumber =>
    intro _ _
    refine ⟨ascii_valid question_ascii sound.out,rfl,fun bad => ?_⟩
    rw [View.word,show View.pend _ = bs from rfl,Nat.sub_self,List.take_zero,takesBack_nil] at bad
    cases bad
  case endNumberInWord =>
    intro _
    refine ⟨ascii_valid question_ascii sound.out,rfl,fun bad => ?_⟩
    rw [View.word,show View.pend _ = bs from rfl,Nat.sub_self,List.take_zero,takesBack_nil] at bad
    cases bad

-- Step 2 writes whole characters; a procedure name that it returns is whole.
def Turned : Except Stop View → Prop
  | .ok u => Valid u.out
  | .error stop => ∀ name,stop.exit = .callProc name → Valid name

theorem endWord_turned (out : Valid v.out) (space : isSpace r = true)
    (back : takesBack env r v.sqlState (v.word bs) = true → Valid v.out.dropLast) :
    Turned (v.endWord env bs) := by
  apply View.endWord_cases (motive := Turned)
  · intro _ _ name bad
    cases bad
  · intro word _ _
    rw [View.nullValue_eq]
    apply ascii_valid _ out
    split <;> decide +kernel
  · exact fun _ => out
  · exact fun _ _ => out
  · intro order asc comma
    apply ascii_valid (by decide +kernel)
    apply back
    simp only [takesBack,commaBack,space,order,asc,comma,decide_true,Bool.and_self]
  · exact fun _ => out
  · exact out

theorem changeState_out (out : Valid v.out) (word : Valid (v.word bs))
    (back : takesBack env r v.sqlState (v.word bs) = true → Valid v.out.dropLast) :
    Turned (v.changeState env r bs) := by
  apply View.changeState_cases (motive := Turned)
  case digit =>
    intro _
    apply View.onDigit_cases (motive := fun u => Valid u.out)
    · exact fun _ => out
    · exact fun _ => out
    · exact fun _ _ => out
    · exact fun _ => out
  case space =>
    intro space
    apply View.onSpace_cases (motive := Turned)
    · exact fun _ _ => ascii_valid blank_ascii out
    · exact fun _ _ => out
    · exact fun _ => out
    · exact fun _ _ => ascii_valid blank_ascii out
    · exact fun _ _ => out
    · exact fun _ _ _ => endWord_turned out space back
  case quote =>
    intro _
    apply View.onQuote_cases (motive := fun u => Valid u.out)
    · exact fun _ => out
    · exact fun _ => out
    · exact fun _ => out
  case tick =>
    intro _
    exact iteInduction (motive := fun u : View => Valid u.out) (fun _ => out) fun _ => out
  case par =>
    intro _
    apply View.onOpenPar_cases (motive := Turned)
    · intro _ name named
      cases named
      exact word
    · exact fun _ _ => out
    · exact fun _ _ => out
    · exact fun _ => out
    · exact fun _ => out
  case admin =>
    intro _ _ name bad
    cases bad
  case other =>
    intro _
    exact iteInduction (motive := fun u : View => Valid u.out) (fun _ => out) fun _ => out
  all_goals
    intros
    exact out

theorem valid_fit (valid : Valid s) (room : s.length ≤ n) : Valid (fit n s) := by
  rw [fit,List.take_of_length_le room]
  apply ascii_valid _ valid
  intro b mem
  rw [List.eq_of_mem_replicate mem]
  decide

-- The copied text and what stays pending are whole characters.
structure Copied (env : Env) (u : View) (bs : Bytes) (w : View) : Prop where
  slice : Valid (u.pend.take (u.due bs))
  sound : Sound w

theorem copySlice_idle (out : Valid v.out) (pend : Valid v.pend) (idle : v.due bs = 0) :
    Copied env v bs (v.copySlice env bs) := by
  refine ⟨?_,?_⟩
  · rw [idle]
    exact valid_nil
  · rw [View.copySlice,idle]
    exact ⟨pend,out⟩

theorem copySlice_copied {u : View} (out : Valid u.out) (ready : Ready u bs pre) (front : Valid pre)
    (whole : Valid bs) (piece : Piece r bs)
    (fits : (toLower env.lower (u.pend.take (u.due bs))).length ≤ (u.pend.take (u.due bs)).length)
    (fresh : 0x80 ≤ r → u.addSpace = true → u.pend.take (u.due bs) = []) :
    Copied env u bs (u.copySlice env bs) := by
  rcases ready.cut with none_ | here | ⟨pend,plan⟩
  · apply copySlice_idle out
    · rw [none_]
      exact valid_nil
    · unfold View.due
      rw [none_]
      split <;> simp
  · apply copySlice_idle out
    · rw [here]
      exact whole
    · unfold View.due
      rw [here]
      split
      · rfl
      · omega
  cases planned : u.plan with
  | none =>
    apply copySlice_idle out
    · rw [pend]
      exact valid_append front whole
    · unfold View.due
      rw [planned]
  | some back =>
    have due : u.due bs = pre.length-back := by
      unfold View.due
      rw [planned,pend,List.length_append]
      dsimp only
      omega
    have ends := plan back planned
    have slice : u.pend.take (u.due bs) = pre.take (pre.length-back) := by
      rw [due,pend,List.take_append_of_le_length (by omega)]
    have rest : u.pend.drop (u.due bs) = pre.drop (pre.length-back) ++ bs := by
      rw [due,pend,List.drop_append_of_le_length (by omega)]
    have text : Valid (u.pend.take (u.due bs)) := by
      rw [slice]
      exact ends_front ends front
    have tail : Valid (u.pend.drop (u.due bs)) := by
      rw [rest]
      exact valid_append (ends_valid ends) whole
    apply View.copySlice_cases (motive := Copied env u bs)
    · intro _
      exact ⟨text,by rw [pend]; exact valid_append front whole,out⟩
    · intro w lowered some_
      have wrote : Valid (u.out ++ fit (u.due bs) w) := by
        apply valid_append out
        rw [← lowered]
        apply valid_fit (valid_toLower env.lower _)
        exact fits.trans (List.length_take_le _ _)
      apply View.afterCopy_cases (motive := Copied env u bs)
      · exact fun _ => ⟨text,tail,wrote⟩
      · intro add
        refine ⟨text,?_,ascii_valid blank_ascii wrote⟩
        change Valid ((u.pend.drop (u.due bs)).drop 1)
        rw [rest]
        cases last : pre.drop (pre.length-back) with
        | cons b more =>
          apply valid_append _ whole
          exact valid_ascii fun c mem =>
            signLike_ascii c (ends c (by rw [last]; exact List.mem_cons_of_mem b mem))
        | nil =>
          by_cases ascii : r < 0x80
          · change Valid (bs.drop 1)
            rw [piece.rest ascii]
            exact valid_nil
          · have none_ := fresh (Nat.le_of_not_lt ascii) add
            rw [slice] at none_
            have length := congrArg List.length none_
            rw [List.length_take,List.length_nil] at length
            omega
      · exact fun _ => ⟨text,tail,wrote⟩

theorem wide_changes (env : Env) (v : View) (bs : Bytes) (wide : 0x80 ≤ r) :
    v.changeState env r bs = .ok (v.onOther bs) := by
  have other (c : Char) (small : rune c < 0x80) : ¬ r = rune c := by omega
  have digit : ¬ isDigit r = true := by
    simp only [isDigit,Bool.and_eq_true,decide_eq_true_eq]
    omega
  have space : ¬ isSpace r = true := fun space => absurd (space_ascii space) (Nat.not_lt.mpr wide)
  simp only [View.changeState,if_neg digit,if_neg space,other '\'' (by decide),
    other '"' (by decide),other '`' (by decide),other '=' (by decide),
    other '<' (by decide),other '>' (by decide),other '!' (by decide),other '/' (by decide),
      other '*' (by decide),other '+' (by decide),
    other '-' (by decide),other '.' (by decide),other '(' (by decide),other ',' (by decide),
      other ':' (by decide),other '#' (by decide),
    or_self,false_and,if_false]

end

-- The copied text stays as long in lower case, a space that is due is not cut from a longer
-- character, and ASC takes back one byte.
def utf8Safe (env : Env) (v : View) (p : Nat × Bytes) : Bool :=
  (toLower env.lower (v.copied env p.1 p.2)).length ≤ (v.copied env p.1 p.2).length &&
  (p.1 < 0x80 || !v.addSpace || v.copied env p.1 p.2 = []) &&
  (!takesBack env p.1 v.sqlState v.pend || (v.out.getLast?.all fun b => b.toNat < 0x80))

theorem takesBack_valid (valid : Valid s) (last : (s.getLast?.all fun b => b.toNat < 0x80) = true) :
    Valid s.dropLast := by
  rcases List.eq_nil_or_concat s with rfl | ⟨front,b,rfl⟩
  · exact valid_nil
  · rw [List.concat_eq_append] at valid last ⊢
    rw [List.getLast?_concat] at last
    rw [List.dropLast_concat]
    exact valid_init valid (by simpa using last)

-- What one iteration keeps.
def Kept : Except Stop View → Prop
  | .ok w => Sound w
  | .error stop => ∀ name,stop.exit = .callProc name → Valid name

theorem step_sound {env : Env} {v : View} (regular : Regular v) (signed : Signed v)
    (sound : Sound v) (whole : Valid bs) (piece : Piece r bs)
    (safe : utf8Safe env v (r,bs) = true) : Kept (View.step env v r bs) ∧ Valid (v.copied env r bs) := by
  simp only [utf8Safe,Bool.and_eq_true,Bool.or_eq_true,Bool.not_eq_true',decide_eq_true_eq] at safe
  obtain ⟨⟨fits,fresh⟩,back⟩ := safe
  have taken (back' : takesBack env r v.sqlState v.pend = true) : Valid v.out.dropLast := by
    rcases back with no | last
    · rw [back'] at no
      cases no
    · exact takesBack_valid sound.out last
  have part := skipPart_sound regular sound whole piece taken
  have signs := skipPart_signed regular signed piece
  have front {pre : Bytes} (own : pre = v.pend ∨ pre = []) : Valid pre := by
    rcases own with same | none_
    · rw [same]
      exact sound.pend
    · rw [none_]
      exact valid_nil
  have word {a : View} {pre : Bytes} (opened : Open a r bs pre) : a.word bs = pre := by
    simp [View.word,opened.pend]
  apply View.step_cases (motive := fun turn => Kept turn ∧ Valid (v.copied env r bs))
  · intro w found
    rw [found] at part
    refine ⟨⟨part.pend,part.out⟩,?_⟩
    rw [View.copied,found]
    exact valid_nil
  · intro a stop found changed
    rw [found] at part signs
    obtain ⟨out,_,back⟩ := part
    obtain ⟨pre,own,opened⟩ := signs
    have turned := changeState_out out (by rw [word opened]; exact front own) back
    rw [changed] at turned
    refine ⟨turned,?_⟩
    rw [View.copied,found]
    dsimp only
    rw [changed]
    exact valid_nil
  · intro a u found changed
    rw [found] at part
    obtain ⟨out,space,back⟩ := part
    obtain ⟨pre,own,opened,ready⟩ := through_cut regular signed piece found changed
    have turned := changeState_out out (by rw [word opened]; exact front own) back
    rw [changed] at turned
    rw [View.copied_eq found changed] at fits fresh ⊢
    have copied := copySlice_copied turned ready (front own) whole piece fits fun wide add => by
      rw [wide_changes env a bs wide] at changed
      have same : u.addSpace = v.addSpace := by
        cases changed
        rw [← space]
        unfold View.onOther
        split <;> rfl
      rcases fresh with (ascii | none_) | none_
      · exact absurd ascii (Nat.not_lt.mpr wide)
      · rw [← same,add] at none_
        cases none_
      · exact none_
    exact ⟨⟨copied.sound.pend,copied.sound.out⟩,copied.slice⟩

-- The condition holds at every iteration, and the texts that the iterations copy.
def along (env : Env) (safe : View → Nat × Bytes → Bool) : List (Nat × Bytes) → View → Bool
  | [],_ => true
  | piece :: rest,v => safe v piece &&
      match v.step env piece.1 piece.2 with
      | .ok w => along env safe rest w
      | .error _ => true

def slices (env : Env) : List (Nat × Bytes) → View → List Bytes
  | [],_ => []
  | piece :: rest,v => v.copied env piece.1 piece.2 ::
      match v.step env piece.1 piece.2 with
      | .ok w => slices env rest w
      | .error _ => []

theorem run_sound {env : Env} {v : View} (regular : Regular v) (signed : Signed v) (sound : Sound v)
    (whole : ∀ piece ∈ pieces,Valid piece.2 ∧ Piece piece.1 piece.2)
    (safe : along env (utf8Safe env) pieces v = true) :
    Kept (View.run env pieces v) ∧ ∀ s ∈ slices env pieces v,Valid s ∧
      (toLower env.lower s).length ≤ s.length := by
  induction pieces generalizing v with
  | nil => exact ⟨sound,nofun⟩
  | cons piece rest ih =>
    obtain ⟨first,later⟩ := List.forall_mem_cons.mp whole
    rw [along,Bool.and_eq_true] at safe
    obtain ⟨here,more⟩ := safe
    obtain ⟨kept,copied⟩ := step_sound regular signed sound first.1 first.2 here
    have fits : (toLower env.lower (v.copied env piece.1 piece.2)).length ≤
        (v.copied env piece.1 piece.2).length := by
      simp only [utf8Safe,Bool.and_eq_true,decide_eq_true_eq] at here
      exact here.1.1
    rw [View.run,slices]
    cases step : v.step env piece.1 piece.2 with
    | error stop =>
      rw [step] at kept
      exact ⟨kept,List.forall_mem_singleton.mpr ⟨copied,fits⟩⟩
    | ok w =>
      rw [step] at kept more
      obtain ⟨end_,all⟩ :=
        ih (step_regular regular step) (step_signed regular signed first.2 step) kept later more
      exact ⟨end_,List.forall_mem_cons.mpr ⟨⟨copied,fits⟩,all⟩⟩

theorem answer_valid (kept : Kept result) (query : Valid q) : Valid (View.answer q result) := by
  cases result with
  | ok v =>
    apply valid_filter (valid_rdropWhile (Sound.out kept) fun _ space => space_ascii space)
    intro b zero
    have zero : b = 0 := by simpa using zero
    rw [zero]
    decide
  | error stop =>
    obtain ⟨v,exit⟩ := stop
    cases exit with
    | useQuery => exact valid_ascii (s := str "use ?") (by decide +kernel)
    | callProc name => exact valid_append (valid_ascii (by decide +kernel)) (kept name rfl)
    | adminCommand => exact query
    | outOfRange => exact valid_nil

def utf8Kept (env : Env) (q : Bytes) : Bool := along env (utf8Safe env) (runes (q ++ [byte ' '])) .start

theorem fingerprint_valid {env : Env} {q : Bytes} (valid : validString q = true)
    (kept : utf8Kept env q = true) (completes : Completes (run env q)) :
    (∃ text,fingerprint env q = some text ∧ validString text = true) ∧
    ∀ s ∈ slices env (runes (q ++ [byte ' '])) .start,validString s = true ∧
      (toLower env.lower s).length ≤ s.length := by
  have query := valid_iff.mp valid
  have spaced : Valid (q ++ [byte ' ']) := ascii_valid blank_ascii query
  have whole : ∀ piece ∈ runes (q ++ [byte ' ']),Valid piece.2 ∧ Piece piece.1 piece.2 := by
    intro piece mem
    refine ⟨?_,(runes_piece _ piece mem).2⟩
    rw [runes_valid spaced piece mem]
    exact valid_encode piece.1
  obtain ⟨kept,copied⟩ := run_sound start_regular start_signed ⟨valid_nil,valid_nil⟩ whole kept
  constructor
  · exact ⟨_,fingerprint_answer completes,valid_iff.mpr (answer_valid kept query)⟩
  · intro s mem
    obtain ⟨whole,fits⟩ := copied s mem
    exact ⟨valid_iff.mpr whole,fits⟩

theorem accented_query_valid :
    utf8Kept asciiEnv (str "select \x60né\x60, 'ü' from tä -- ö\nwhere é=-1") = true ∧
    ∃ text,fingerprint asciiEnv (str "select \x60né\x60, 'ü' from tä -- ö\nwhere é=-1") =
      some text ∧ validString text = true := by
  have kept : utf8Kept asciiEnv (str "select \x60né\x60, 'ü' from tä -- ö\nwhere é=-1") = true := by
    decide +kernel
  exact ⟨kept,(fingerprint_valid (by decide +kernel) kept (by decide +kernel)).1⟩

-- The lower case of U+023A is one byte longer.
def latinEnv : Env := ⟨fun r => if r = 0x023A then 0x2C65 else r,false⟩

theorem characters_cut :
    (validString (str "select Ⱥ from t") = true ∧
      ((fingerprint latinEnv (str "select Ⱥ from t")).map validString = some false)) ∧
    (validString (str "select null \x60a\x60é x") = true ∧
      ((fingerprint asciiEnv (str "select null \x60a\x60é x")).map validString = some false)) ∧
    (validString (str "select a from t order by é-- x\nasc, b") = true ∧
      ((fingerprint asciiEnv (str "select a from t order by é-- x\nasc, b")).map validString =
      some false)) := by
  decide +kernel

end SqlReview.FingerprintUtf8
