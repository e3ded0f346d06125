import SqlReview.FingerprintNumber

-- Where a digit opens no number that is replaced, two numbers show in the fingerprint.
namespace SqlReview.FingerprintNumberKept
open GoBytes Fingerprint FingerprintView FingerprintLiteral FingerprintPending FingerprintRegular
  FingerprintNumber

theorem fit_append (w t : Bytes) (k : Nat) : fit (w.length+k) (w ++ t) = w ++ fit k t := by
  have rest : w.length+k-(w ++ t).length = k-t.length := by
    rw [List.length_append]
    omega
  rw [fit,fit,rest,List.take_length_add_append,List.append_assoc]

theorem dropWhile_count (m : UInt8) (drop : UInt8 → Bool) (keep : drop m = false) (text : Bytes) :
    (text.dropWhile drop).count m = text.count m := by
  induction text with
  | nil => rfl
  | cons b text ih =>
    by_cases gone : drop b = true
    · have other : b ≠ m := by
        intro same
        rw [same,keep] at gone
        cases gone
      rw [List.dropWhile_cons_of_pos gone,ih,List.count_cons_of_ne other]
    · rw [List.dropWhile_cons_of_neg gone]

-- Trimming spaces and dropping zero bytes keeps every other byte.
theorem answer_count (m : UInt8) (some_ : m ≠ 0) (ink : isSpace m.toNat = false) (v : View) (q : Bytes) :
    (View.answer q (.ok v)).count m = v.out.count m := by
  rw [View.answer,List.count_filter (by simpa using some_),List.rdropWhile,List.count_reverse,
    dropWhile_count m _ ink,List.count_reverse]

def keyWords : List Bytes :=
  [str "use",str "null",str "null,",str "by",str "asc",str "asc,",str "asc ",str "update"]

theorem matchWord_other (env : Env) (v : View) (bs : Bytes) (other : ∀ key ∈ keyWords,word ≠ key)
    (lowered : ∀ key ∈ keyWords,toLower env.lower word ≠ key) : v.matchWord env word bs = .ok v := by
  have asc : ¬ wordIn env.lower word [str "asc",str "asc,",str "asc "] = true := by
    intro found
    have ascending : [str "asc",str "asc,",str "asc "] ⊆ keyWords := by decide
    exact lowered _ (ascending (List.contains_iff_mem.mp found)) rfl
  have null : ¬ ((word = str "null" ∧ v.prevWord ≠ str "is" ∧ v.prevWord ≠ str "not") ∨
      word = str "null,") := by
    rintro (found | found)
    · exact other (str "null") (by decide) found.1
    · exact other (str "null,") (by decide) found
  rw [View.matchWord,if_neg (fun found => other (str "use") (by decide) found.1),if_neg null,
    if_neg (fun found => other (str "by") (by decide) found.2),if_neg (fun found => asc found.2),
    if_neg (fun found => other (str "update") (by decide) found.2)]

-- A space behind a word that no test looks for.
theorem word_step (env : Env) (u : View) (calm : skips u.s = false)
    (state : u.s ≠ .unknown ∧ u.s ≠ .inDash ∧ u.s ≠ .moreValuesOrUnknown)
    (pr : isSpace u.pr = false) (other : ∀ key ∈ keyWords,toLower env.lower u.pend ≠ key)
    (lowered : ∀ key ∈ keyWords,toLower env.lower (toLower env.lower u.pend) ≠ key) :
    View.step env u 0x20 [byte ' '] =
      .ok (View.finish env {(u.read [byte ' ']).mark with
      s := .inSpace,addSpace := true} 0x20 [byte ' ']) := by
  have pending : View.word (u.read [byte ' ']) [byte ' '] = u.pend := by simp [View.word,View.read]
  have ends : View.endWord env (u.read [byte ' ']) [byte ' '] =
      .ok {(u.read [byte ' ']).mark with s := .inSpace,addSpace := true} := by
    rw [View.endWord,pending,matchWord_other env _ _ other lowered]
    rfl
  apply calm_step calm (by rw [pr,Bool.and_false])
  rw [View.changeState,if_neg (by decide),if_pos (by decide),onSpace_eq,if_neg (by exact state.1),
    if_neg (by exact state.2.1),
    if_neg (by exact state.2.2),ends]

theorem space_step (env : Env) (u : View) (calm : skips u.s = false)
    (state : u.s ≠ .unknown ∧ u.s ≠ .inDash ∧ u.s ≠ .moreValuesOrUnknown)
    (pr : isSpace u.pr = false) (text : u.pend = [] ∨ ∃ c ∈ u.pend,foreign keyWords c = true ∧
    foreign listWords c = true) :
    ∃ w,View.step env u 0x20 [byte ' '] = .ok w ∧ w.s = .inSpace ∧ w.plan = none ∧
      w.out = u.out ++ (if u.pend = [] then [] else fit u.pend.length (toLower env.lower u.pend) ++
      [byte ' ']) := by
  rcases text with none_ | ⟨c,mem,own,list⟩
  · have idle :=
      copySlice_none env {(u.read [byte ' ']).mark with s := .inSpace,addSpace := true} [byte ' '] rfl
      (by simp [View.read,View.mark,none_])
    have empty : ∀ key ∈ keyWords,[] ≠ key := by decide
    refine ⟨_,word_step env u calm state pr (by rw [none_]; exact empty)
      (by rw [none_]; exact empty),?_,rfl,?_⟩
    · rw [View.finish,idle]
      rfl
    · rw [View.finish,idle,if_pos none_,List.append_nil]
      rfl
  · have lowered := foreign_lower own mem env.lower
    have some_ := List.ne_nil_of_mem mem
    have copied :=
      copySlice_plain env {(u.read [byte ' ']).mark with
        s := .inSpace,addSpace := true} u.pend [byte ' '] rfl rfl
      some_ (foreign_wordIn list (foreign_lower list mem env.lower) env.lower)
    refine ⟨_,word_step env u calm state pr (fun key word => foreign_ne own lowered word)
      (fun key word => foreign_ne own (foreign_lower own lowered env.lower) word),?_,rfl,?_⟩
    · rw [View.finish,copied]
      rfl
    · rw [View.finish,copied,if_neg some_,← List.append_assoc]
      rfl

theorem line_run (env : Env) (pieces : List (Nat × Bytes)) (state : v.s = .inOLC)
    (noLine : ∀ piece ∈ pieces,piece.1 ≠ 0x0A) :
    ∃ w,View.run env pieces v = .ok w ∧ w.out = v.out := by
  induction pieces generalizing v with
  | nil => exact ⟨v,rfl,rfl⟩
  | cons piece rest ih =>
    obtain ⟨here,later⟩ := List.forall_mem_cons.mp noLine
    have step := line_step env state here piece.2
    obtain ⟨w,run,out⟩ := ih (v := (v.read piece.2).advance piece.2) state later
    refine ⟨w,?_,out⟩
    rw [View.run,step]
    exact run

-- From a space on the rest is a one-line comment.
def closing (k : Nat) : Bytes := byte ' ' :: byte '#' :: List.replicate k (byte '#')

theorem closing_run (env : Env) (u : View) (k : Nat) (calm : skips u.s = false)
    (state : u.s ≠ .unknown ∧ u.s ≠ .inDash ∧ u.s ≠ .moreValuesOrUnknown) (pr : isSpace u.pr = false)
    (text : u.pend = [] ∨ ∃ c ∈ u.pend,foreign keyWords c = true ∧ foreign listWords c = true) :
    ∃ w,View.run env (runes (closing k ++ [byte ' '])) u = .ok w ∧
      w.out = u.out ++ (if u.pend = [] then [] else fit u.pend.length (toLower env.lower u.pend) ++
      [byte ' ']) := by
  obtain ⟨w,step,inSpace,idle,out⟩ := space_step env u calm state pr text
  obtain ⟨x,hash,inLine,_,kept⟩ := hash_step (u := w) env (by rw [inSpace]; rfl) idle
  have ascii : ∀ b ∈ List.replicate k (byte '#') ++ [byte ' '],b.toNat < 0x80 ∧ b.toNat ≠ 0x0A := by
    intro b mem
    rcases List.mem_append.mp mem with mem | mem
    · rw [List.eq_of_mem_replicate mem]
      decide
    · rw [List.mem_singleton.mp mem]
      decide
  have pieces := runes_text _ fun b mem => (ascii b mem).1
  obtain ⟨y,run,same⟩ := line_run env (runes (List.replicate k (byte '#') ++ [byte ' '])) inLine (by
    rw [pieces]
    intro piece mem
    obtain ⟨b,found,rfl⟩ := List.mem_map.mp mem
    exact (ascii b found).2)
  refine ⟨y,?_,by rw [same,kept,out]⟩
  rw [closing,List.cons_append,List.cons_append,runes_cons_ascii (by decide),
    runes_cons_ascii (by decide),View.run]
  change (View.step env u 0x20 [byte ' '] >>= _) = _
  rw [step]
  change (View.step env w (rune '#') [byte '#'] >>= _) = _
  rw [hash]
  exact run

-- Digits that are collected like any other text: in a word, a name in backticks or a comment.
structure Gathers (env : Env) (v : View) (m : Bytes) (u : View) : Prop where
  state : u.s = v.s
  calm : u.plan = none
  out : u.out = v.out
  pend : u.pend = v.pend ++ m
  space : u.addSpace = v.addSpace
  word : u.s = .inWord → numberState env u = none
  tick : u.s = .inBackticks → m ≠ [] → u.escape = false

inductive Kept : State → Prop where
  | word : Kept .inWord
  | ticks : Kept .inBackticks
  | comment : Kept .inMLC
  | line : Kept .inOLC

theorem word_keeps (word : numberState env u = none) (state : u.s = .inWord) :
    u.pr ≠ rune '(' ∧ u.pr ≠ rune ',' ∧ env.replaceNumbersInWords = false := by
  unfold numberState at word
  rw [if_pos state] at word
  split_ifs at word with number replace
  obtain ⟨par,comma⟩ := not_or.mp number
  exact ⟨par,comma,Bool.eq_false_iff.mpr replace⟩

theorem gathers_digit (kept : Kept v.s) (gathers : Gathers env v m u) {d : UInt8}
    (digit : isDigit d.toNat = true) :
    ∃ w,View.step env u d.toNat [d] = .ok w ∧ Gathers env v (m ++ [d]) w := by
  obtain ⟨state,calm,out,pend,space,word,tick⟩ := gathers
  have notChar (c : Char) (other : isDigit (rune c) = false) : d.toNat ≠ rune c := by
    intro same
    rw [same,other] at digit
    cases digit
  generalize own : v.s = s at kept
  rw [own] at state
  cases kept with
  | word =>
    obtain ⟨par,comma,replace⟩ := word_keeps (word state) state
    have changed : View.changeState env (u.read [d]) d.toNat [d] = .ok (u.read [d]) := by
      rw [View.changeState,if_pos digit]
      simp [View.onDigit,View.read,state,par,comma,replace]
    have step := calm_step (by rw [state]; rfl) (by rw [digit_space digit,Bool.false_and]) changed
    rw [View.finish,copySlice_calm env (u.read [d]) [d] calm] at step
    refine ⟨_,step,state.trans own.symm,rfl,out,?_,space,fun _ => ?_,fun bad => ?_⟩
    · change u.pend ++ [d] = _
      rw [pend,List.append_assoc]
    · unfold numberState
      rw [if_pos (by exact state),if_neg (by exact not_or.mpr ⟨notChar '(' rfl,notChar ',' rfl⟩),replace]
      rfl
    · cases state.symm.trans bad
  | ticks =>
    have step := backtick_step env state d.toNat [d]
    have plain : View.skipBackticks (u.read [d]) d.toNat = {u.read [d] with escape := false} := by
      rw [View.skipBackticks,if_pos (notChar '`' rfl),if_neg (notChar '\\' rfl)]
      cases escape : u.escape <;> simp [View.read,escape]
    rw [plain] at step
    refine ⟨_,step,state.trans own.symm,calm,out,?_,space,fun bad => ?_,fun _ _ => rfl⟩
    · change u.pend ++ [d] = _
      rw [pend,List.append_assoc]
    · cases state.symm.trans bad
  | comment =>
    have step := block_step env state (fun both => notChar '/' rfl both.2) [d]
    refine ⟨_,step,state.trans own.symm,calm,out,?_,space,fun bad => ?_,fun bad => ?_⟩
    · change u.pend ++ [d] = _
      rw [pend,List.append_assoc]
    · cases state.symm.trans bad
    · cases state.symm.trans bad
  | line =>
    have step := line_step env state (notChar '\n' rfl) [d]
    refine ⟨_,step,state.trans own.symm,calm,out,?_,space,fun bad => ?_,fun bad => ?_⟩
    · change u.pend ++ [d] = _
      rw [pend,List.append_assoc]
    · cases state.symm.trans bad
    · cases state.symm.trans bad

theorem gathers_run (kept : Kept v.s) (n : Bytes) (digits : ∀ b ∈ n,isDigit b.toNat = true)
    (gathers : Gathers env v m u) :
    ∃ w,View.run env (runes n) u = .ok w ∧ Gathers env v (m ++ n) w := by
  induction n generalizing m u with
  | nil => exact ⟨u,rfl,by rw [List.append_nil]; exact gathers⟩
  | cons d n ih =>
    obtain ⟨digit,later⟩ := List.forall_mem_cons.mp digits
    obtain ⟨w,step,next⟩ := gathers_digit kept gathers digit
    obtain ⟨x,run,last⟩ := ih later next
    rw [List.append_assoc,List.singleton_append] at last
    refine ⟨x,?_,last⟩
    rw [runes_cons_ascii (digit_ascii digit),View.run,step]
    exact run

theorem plus_step (env : Env) (calm : skips u.s = false) (idle : u.plan = none) :
    ∃ w,View.step env u (rune '+') [byte '+'] = .ok w ∧ w.s = .opOrNumber ∧ w.pr = rune '+' ∧
      w.plan = none ∧ w.out = u.out ∧
      w.pend = u.pend ++ [byte '+'] := by
  have changed : View.changeState env (u.read [byte '+']) (rune '+') [byte '+'] =
      .ok {u.read [byte '+'] with s := .opOrNumber} :=
    rfl
  have kept := copySlice_calm env {u.read [byte '+'] with s := .opOrNumber} [byte '+'] idle
  refine ⟨_,calm_step calm rfl changed,?_,rfl,rfl,?_,?_⟩ <;> rw [View.finish,kept] <;> rfl

-- Behind the end of a name in backticks the name is copied first.
theorem plus_copies (env : Env) (calm : skips u.s = false) (due : u.plan = some 0)
    (own : foreign listWords c = true) (mem : c ∈ u.pend) :
    ∃ w,View.step env u (rune '+') [byte '+'] = .ok w ∧ w.s = .opOrNumber ∧ w.pr = rune '+' ∧
      w.out = u.out ++ fit u.pend.length (toLower env.lower u.pend) ++
      (if u.addSpace then [byte ' '] else []) ∧
      w.pend = if u.addSpace then [] else [byte '+'] := by
  have changed : View.changeState env (u.read [byte '+']) (rune '+') [byte '+'] =
      .ok {u.read [byte '+'] with s := .opOrNumber} :=
    rfl
  have copied :=
    copySlice_plain env {u.read [byte '+'] with s := .opOrNumber} u.pend [byte '+'] due rfl
      (List.ne_nil_of_mem mem)
    (foreign_wordIn own (foreign_lower own mem env.lower) env.lower)
  refine ⟨_,calm_step calm rfl changed,?_,rfl,?_,?_⟩ <;> rw [View.finish,copied] <;> rfl

theorem plus_left (lower : Nat → Nat) (space : Bool) :
    (if space then [byte ' '] else []) ++ (if (if space then [] else [byte '+']) = [] then [] else
      fit (if space then [] else [byte '+']).length
      (toLower lower (if space then [] else [byte '+'])) ++ [byte ' ']) =
    if space then [byte ' '] else [byte '+',byte ' '] := by
  cases space <;> rfl

-- What ends the name or the comment that the digits stand in.
def closer : State → Bytes
  | .inBackticks => [byte '`']
  | .inMLC => [byte '*',byte '/']
  | .inOLC => [byte '\n']
  | _ => []

def behind (s : State) : Bytes := if s = .inBackticks then [byte '`'] else closer s ++ [byte '+']

def final (v : View) : Bytes := if v.s = .inBackticks ∧ v.addSpace = false then [byte '+',byte ' '] else [byte ' ']

theorem closer_run (kept : Kept v.s) (some_ : v.s = .inBackticks → n ≠ []) (gathers : Gathers env v n u) :
    ∃ w,View.run env (runes (closer v.s)) u = .ok w ∧ skips w.s = false ∧ w.out = v.out ∧ w.pend = v.pend ++ n ++ closer v.s ∧
      w.addSpace = v.addSpace ∧ w.plan = if v.s = .inBackticks then some 0 else none := by
  obtain ⟨state,calm,out,pend,space,word,tick⟩ := gathers
  generalize own : v.s = s at kept
  rw [own] at state
  cases kept with
  | word => exact ⟨u,rfl,by rw [state]; rfl,out,by rw [pend]; exact (List.append_nil _).symm,space,calm⟩
  | ticks =>
    have step := backtick_step env state (rune '`') [byte '`']
    have closes : View.skipBackticks (u.read [byte '`']) (rune '`') =
        {u.read [byte '`'] with escape := false,plan := some 0,marked := decide (2 ≤ u.far),s := .inWord} := by
      have plain : (u.read [byte '`']).escape = false := tick state (some_ own)
      rw [View.skipBackticks,if_neg (not_not.mpr rfl),plain]
      rfl
    rw [closes] at step
    refine ⟨_,run_step step [],rfl,out,?_,space,rfl⟩
    change u.pend ++ _ = _
    rw [pend]
    rfl
  | comment =>
    have star : View.step env u (rune '*') [byte '*'] =
        .ok (View.advance {u.read [byte '*'] with pr := rune '*'} [byte '*']) := by
      have other : rune '*' ≠ rune '/' := by decide
      exact block_step env state (fun both => other both.2) [byte '*']
    have slash :=
      block_ends (v := View.advance {u.read [byte '*'] with
        pr := rune '*'} [byte '*']) env state rfl [byte '/']
    refine ⟨_,(run_step star _).trans (run_step slash []),rfl,out,?_,space,calm⟩
    change u.pend ++ _ ++ _ = _
    rw [pend]
    simp [closer]
  | line =>
    have step := line_ends env state [byte '\n']
    refine ⟨_,run_step step [],rfl,out,?_,space,calm⟩
    change u.pend ++ _ = _
    rw [pend]
    rfl

theorem kept_run (kept : Kept v.s) (calm : v.plan = none) (word : v.s = .inWord → numberState env v = none)
    (some_ : v.s = .inBackticks → n ≠ []) (digits : ∀ b ∈ n,isDigit b.toNat = true) (k : Nat) :
    ∃ w,View.run env (runes n ++ runes (closer v.s ++ byte '+' :: (closing k ++ [byte ' ']))) v = .ok w ∧
      w.out = v.out ++ fit (v.pend ++ n ++ behind v.s).length
      (toLower env.lower (v.pend ++ n ++ behind v.s)) ++ final v := by
  have begins : Gathers env v [] v :=
    ⟨rfl,calm,rfl,(List.append_nil _).symm,rfl,word,fun _ bad => absurd rfl bad⟩
  obtain ⟨u,gathered,gathers⟩ := gathers_run kept n digits begins
  rw [List.nil_append] at gathers
  obtain ⟨x,closed,outside,out,pend,space,plan⟩ := closer_run kept some_ gathers
  have plus : foreign keyWords (byte '+') = true ∧ foreign listWords (byte '+') = true := by decide
  have run (y : View) (step : View.step env x (rune '+') [byte '+'] = .ok y) :
      View.run env (runes n ++ runes (closer v.s ++ byte '+' :: (closing k ++ [byte ' ']))) v =
        View.run env (runes (closing k ++ [byte ' '])) y := by
    rw [runes_append_ascii _ _ (by decide),run_append,gathered]
    change View.run env (runes (closer v.s) ++ _) u = _
    rw [run_append,closed]
    exact run_step step _
  by_cases ticks : v.s = .inBackticks
  · rw [if_pos ticks] at plan
    have tick : byte '`' ∈ x.pend := by
      rw [pend,ticks]
      simp [closer]
    obtain ⟨y,step,state,pr,copied,left⟩ := plus_copies env outside plan (by decide) tick
    obtain ⟨z,ended,wrote⟩ :=
      closing_run env y k (by rw [state]; rfl) (by rw [state]; decide) (by rw [pr]; rfl) (by
      rw [left]
      cases x.addSpace
      · exact Or.inr ⟨byte '+',by simp,plus⟩
      · exact Or.inl rfl)
    refine ⟨z,(run y step).trans ended,?_⟩
    rw [wrote,copied,left,out,pend,behind,if_pos ticks,final,ticks,space]
    rw [List.append_assoc _ (if v.addSpace then _ else _),plus_left]
    cases v.addSpace <;> rfl
  · rw [if_neg ticks] at plan
    obtain ⟨y,step,state,pr,_,same,left⟩ := plus_step env outside plan
    have some_ : y.pend ≠ [] := by
      rw [left]
      simp
    obtain ⟨z,ended,wrote⟩ :=
      closing_run env y k (by rw [state]; rfl) (by rw [state]; decide) (by rw [pr]; rfl)
      (Or.inr ⟨byte '+',by rw [left]; simp,plus⟩)
    refine ⟨z,(run y step).trans ended,?_⟩
    rw [wrote,if_neg some_,same,out,left,pend,behind,if_neg ticks,final,
      if_neg (fun both => ticks both.1),List.append_assoc _ (closer v.s),
      ← List.append_assoc v.out]

-- A number that is told apart by its first digit, long enough for a front that ToLower makes longer.
def told (d : UInt8) (k : Nat) : Bytes := d :: List.replicate k (byte '0')

theorem told_digits {d : UInt8} (digit : isDigit d.toNat = true) (k : Nat) : isDigits (told d k) = true := by
  have zero : isDigit (byte '0').toNat = true := by decide
  simp [isDigits,told,digit,zero]

theorem digit_lower : ∀ d : UInt8,isDigit d.toNat = true → lowerByte d = d := every_byte (by decide +kernel)

theorem fit_front (lower : Nat → Nat) (x z : Bytes) (wide : (toLower lower x).length ≤ z.length)
    {d : UInt8} (digit : isDigit d.toNat = true) :
    fit (x ++ d :: z).length (toLower lower (x ++ d :: z)) =
      toLower lower x ++ d :: fit (x.length+z.length-(toLower lower x).length) (toLower lower z) := by
  have size : (x ++ d :: z).length =
      (toLower lower x ++ [d]).length+(x.length+z.length-(toLower lower x).length) := by
    simp only [List.length_append,List.length_cons,List.length_nil]
    omega
  have cut :=
    fit_append (toLower lower x ++ [d]) (toLower lower z) (x.length+z.length-(toLower lower x).length)
  rw [List.append_assoc,List.append_assoc] at cut
  rw [size,toLower_append lower x _ (digit_ascii digit),digit_lower d digit]
  exact cut

theorem told_count (lower : Nat → Nat) (x rest : Bytes) (k : Nat) (wide : (toLower lower x).length ≤ k) :
    ∃ text,∀ d : UInt8,isDigit d.toNat = true →
      fit (x ++ told d k ++ rest).length (toLower lower (x ++ told d k ++ rest)) =
      toLower lower x ++ d :: text := by
  refine ⟨fit (x.length+(List.replicate k (byte '0') ++ rest).length-(toLower lower x).length)
    (toLower lower (List.replicate k (byte '0') ++ rest)),fun d digit => ?_⟩
  have whole : x ++ told d k ++ rest = x ++ d :: (List.replicate k (byte '0') ++ rest) := by simp [told]
  have long : (toLower lower x).length ≤ (List.replicate k (byte '0') ++ rest).length := by
    rw [List.length_append,List.length_replicate]
    omega
  rw [whole]
  exact fit_front lower x _ long digit

theorem count_fit (m : UInt8) (some_ : m ≠ 0) (k : Nat) (w : Bytes) : (fit k w).count m ≤ w.count m := by
  have zeros : (List.replicate (k-w.length) (0 : UInt8)).count m = 0 := by
    rw [List.count_replicate,if_neg]
    simpa using Ne.symm some_
  rw [fit,List.count_append,zeros,Nat.add_zero]
  exact (List.take_sublist k w).count_le m

-- In the code of a MySQL comment the end of a number copies it.
theorem code_step (env : Env) (state : u.s = .inNumber) (code : u.sqlState = .inMySQLCode)
    (own : foreign listWords c = true) (mem : c ∈ u.pend) :
    ∃ w,View.step env u (rune '+') [byte '+'] = .ok w ∧ w.s = .opOrNumber ∧ w.pr = rune '+' ∧
      w.out = u.out ++ fit u.pend.length (toLower env.lower u.pend) ++
      (if u.addSpace then [byte ' '] else []) ∧
      w.pend = if u.addSpace then [] else [byte '+'] := by
  have copied :=
    copySlice_plain env {(u.read [byte '+']).mark with
      s := .opOrNumber,sqlState := .unknown} u.pend [byte '+'] rfl rfl
    (List.ne_nil_of_mem mem) (foreign_wordIn own (foreign_lower own mem env.lower) env.lower)
  have step : View.step env u (rune '+') [byte '+'] =
      .ok (View.finish env {(u.read [byte '+']).mark with
        s := .opOrNumber,sqlState := .unknown} (rune '+') [byte '+']) := by
    have part : (u.read [byte '+']).skipPart (rune '+') [byte '+'] =
        .through {(u.read [byte '+']).mark with s := .inWord,sqlState := .unknown} := by
      have ends : inNumeral (rune '+') = false ∧ notNumeral (rune '+') = false := by decide
      simp [View.skipPart,View.endNumber,View.read,state,code,ends]
    exact step_enters part
  refine ⟨_,step,?_,rfl,?_,?_⟩ <;> rw [View.finish,copied] <;> rfl

theorem code_run (env : Env) (stands : Stands env v) (opens : numberState env v = some .inNumber)
    (code : v.sqlState = .inMySQLCode) :
    ∃ (front back : Bytes) (m : Nat),∀ d : UInt8,isDigit d.toNat = true → ∀ k,∃ w,
      View.run env (runes [d,d] ++ runes (byte '+' :: (closing k ++ [byte ' ']))) v = .ok w ∧
      w.out = front ++ (List.replicate (m+1) d ++ back) := by
  obtain ⟨regular,rest,plain,far,gap⟩ := stands
  obtain ⟨w,keep,state,idle,sql,wFar,wGap,_,steps⟩ := digit_step opens rest (numberState_calm opens) plain
  refine ⟨w.out,if w.addSpace then [byte ' '] else [byte '+',byte ' '],if keep then 1 else 0,?_⟩
  intro d digit k
  have text : (if keep then [d] else []) ++ [d] = List.replicate ((if keep then 1 else 0)+1) d := by
    cases keep <;> rfl
  have lowered : toLower env.lower (List.replicate ((if keep then 1 else 0)+1) d) =
      List.replicate ((if keep then 1 else 0)+1) d := by
    rw [toLower_ascii _ _ fun b mem =>
      by rw [List.eq_of_mem_replicate mem]; exact digit_ascii digit,List.map_replicate,digit_lower d digit]
  have second :=
    digits_run env {w with pr := d.toNat,pend := if keep then [d] else []} (Or.inl state)
      (show w.far = 4 by omega)
    (show w.gap = 2 by omega) [d] (by simpa using digit)
  dsimp only at second
  rw [text] at second
  obtain ⟨x,step,sign,pr,copied,left⟩ :=
    code_step (u := {w with pr := d.toNat,pend := List.replicate ((if keep then 1 else 0)+1) d}) (c := d)
    env state (sql.trans code) (digit_foreign d digit) (by simp)
  obtain ⟨y,ended,wrote⟩ :=
    closing_run env x k (by rw [sign]; rfl) (by rw [sign]; decide) (by rw [pr]; rfl) (by
    rw [left]
    cases w.addSpace
    · exact Or.inr ⟨byte '+',by simp,by decide⟩
    · exact Or.inl rfl)
  refine ⟨y,?_,?_⟩
  · rw [run_append,runes_cons_ascii (digit_ascii digit),run_step (steps d digit),second,
      runes_cons_ascii (by decide)]
    exact (run_step step _).trans ended
  · rw [wrote,copied,left,lowered,fit_self,List.append_assoc,List.append_assoc]
    dsimp only
    rw [plus_left]

-- A digit behind a list word that no parenthesis follows makes a word of itself.
theorem literal_step (env : Env) (state : v.s = .inValues) (shut : v.parOpen ≤ 0)
    (none_ : v.parOpenTotal = 0) {d : UInt8}
    (digit : isDigit d.toNat = true) :
    View.step env v d.toNat [d] = .ok (View.advance {v.read [d] with s := .inWord} [d]) := by
  have notChar (c : Char) (other : isDigit (rune c) = false) : d.toNat ≠ rune c := by
    intro same
    rw [same,other] at digit
    cases digit
  have space := digit_space digit
  have closed : ¬ 0 < v.parOpen := by omega
  simp [View.step,View.skipPart,View.read,View.skipValues,state,notChar ')' rfl,notChar '(' rfl,
    notChar '\'' rfl,notChar '"' rfl,space,
    View.balanceValues,closed,none_]

theorem equals_run (env : Env) (k : Nat) (state : u.s = .inWord ∨ u.s = .inOp) (calm : u.plan = none) :
    ∃ w,View.run env (runes (List.replicate k (byte '='))) u = .ok w ∧
      (w.s = .inWord ∨ w.s = .inOp) ∧ w.plan = none ∧ w.out = u.out ∧
      w.pend = u.pend ++ List.replicate k (byte '=') := by
  induction k generalizing u with
  | zero => exact ⟨u,rfl,state,calm,rfl,(List.append_nil _).symm⟩
  | succ k ih =>
    have word : ¬ (u.s ≠ .inWord ∧ u.s ≠ .inOp) := by
      rintro ⟨word,op⟩
      rcases state with state | state
      · exact word state
      · exact op state
    have outside : skips u.s = false := by rcases state with state | state <;> rw [state] <;> rfl
    have changed : View.changeState env (u.read [byte '=']) (rune '=') [byte '='] =
        .ok {u.read [byte '='] with s := .inOp} := by
      change Except.ok (View.onOperator (u.read [byte '=']) [byte '=']) = _
      rw [View.onOperator,if_neg (by exact word)]
    have step := calm_step outside rfl changed
    rw [View.finish,copySlice_calm env {u.read [byte '='] with s := .inOp} [byte '='] calm] at step
    obtain ⟨w,run,later,idle,out,pend⟩ :=
      ih (u := View.advance {{u.read [byte '='] with s := .inOp} with pr := rune '=',plan := none} [byte '='])
      (Or.inr rfl) rfl
    refine ⟨w,?_,later,idle,out,?_⟩
    · rw [List.replicate_succ,runes_cons_ascii (by decide)]
      exact (run_step step _).trans run
    · rw [pend,List.replicate_succ]
      change u.pend ++ [byte '='] ++ _ = _
      rw [List.append_assoc]
      rfl

theorem number_equals (env : Env) (state : u.s = .inNumber ∧ u.sqlState ≠ .inMySQLCode ∨
    u.s = .inNumberInWord) (calm : u.plan = none) :
    ∃ w,View.step env u (rune '=') [byte '='] = .ok w ∧ w.s = .inOp ∧ w.plan = none ∧
      w.out = u.out ++ [byte '?'] ∧ w.pend = [byte '='] := by
  have digit : isDigit (rune '=') = false ∧ inNumeral (rune '=') = false ∧
      notNumeral (rune '=') = false ∧ isSpace (rune '=') = false := by
    decide
  rcases state with ⟨state,code⟩ | state
  · have step : View.step env u (rune '=') [byte '='] =
        .ok (View.finish env {((u.fromHere [byte '=']).mark).write [byte '?'] with
          s := .inOp} (rune '=') [byte '=']) := by
      have part : (u.read [byte '=']).skipPart (rune '=') [byte '='] =
          .through {((u.fromHere [byte '=']).mark).write [byte '?'] with s := .unknown} := by
        simp [View.skipPart,View.endNumber,View.read,state,code,digit,View.fromHere,View.mark,View.write]
      exact step_enters part
    have idle :=
      copySlice_none env {((u.fromHere [byte '=']).mark).write [byte '?'] with s := .inOp} [byte '='] rfl rfl
    refine ⟨_,step,?_,rfl,?_,?_⟩ <;> rw [View.finish,idle] <;> rfl
  · have step : View.step env u (rune '=') [byte '='] =
        .ok (View.finish env {(u.fromHere [byte '=']).write [byte '?'] with
          s := .inOp} (rune '=') [byte '=']) := by
      have part : (u.read [byte '=']).skipPart (rune '=') [byte '='] =
          .through {(u.fromHere [byte '=']).write [byte '?'] with s := .inWord} := by
        simp [View.skipPart,View.endNumberInWord,View.read,state,digit,View.fromHere,View.write]
      exact step_enters part
    have idle := copySlice_calm env {(u.fromHere [byte '=']).write [byte '?'] with s := .inOp} [byte '='] calm
    refine ⟨_,step,?_,rfl,?_,?_⟩ <;> rw [View.finish,idle] <;> rfl

def marks (j : Nat) : Bytes := List.replicate j (byte '=') ++ [byte '+']

theorem marks_count (m : UInt8) (some_ : m ≠ 0) (equal : m ≠ byte '=') (plus : m ≠ byte '+')
    (lower : Nat → Nat) (j k : Nat) :
    (fit k (toLower lower (marks j))).count m = 0 := by
  have ascii : ∀ b ∈ marks j,b.toNat < 0x80 ∧ b ≠ m ∧ lowerByte b = b := by
    intro b mem
    rcases List.mem_append.mp mem with mem | mem
    · rw [List.eq_of_mem_replicate mem]
      exact ⟨by decide,equal.symm,by decide⟩
    · rw [List.mem_singleton.mp mem]
      exact ⟨by decide,plus.symm,by decide⟩
  have kept : (marks j).map lowerByte = marks j := by
    rw [List.map_congr_left fun b mem => (ascii b mem).2.2,List.map_id']
  have bound := count_fit m some_ k (toLower lower (marks j))
  have none_ : (marks j).count m = 0 := List.count_eq_zero.mpr fun mem => (ascii m mem).2.1 rfl
  rw [toLower_ascii lower _ fun b mem => (ascii b mem).1,kept] at bound ⊢
  omega

theorem marks_run (env : Env) (j k : Nat) (state : u.s = .inWord ∨ u.s = .inOp) (calm : u.plan = none) :
    ∃ w,View.run env (runes (marks j ++ (closing k ++ [byte ' ']))) u = .ok w ∧
      w.out = u.out ++ fit (u.pend ++ marks j).length (toLower env.lower (u.pend ++ marks j)) ++
      [byte ' '] := by
  obtain ⟨x,equals,word,idle,out,pend⟩ := equals_run env j state calm
  have outside : skips x.s = false := by rcases word with state | state <;> rw [state] <;> rfl
  obtain ⟨y,step,sign,pr,_,same,left⟩ := plus_step env outside idle
  have some_ : y.pend ≠ [] := by
    rw [left]
    simp
  obtain ⟨z,ended,wrote⟩ := closing_run env y k (by rw [sign]; rfl) (by rw [sign]; decide) (by rw [pr]; rfl)
    (Or.inr ⟨byte '+',by rw [left]; simp,by decide⟩)
  refine ⟨z,?_,?_⟩
  · rw [marks,List.append_assoc,List.singleton_append,runes_append_ascii _ _ (by decide),run_append,equals]
    exact (run_step step _).trans ended
  · rw [wrote,if_neg some_,same,out,left,pend,List.append_assoc u.pend,← List.append_assoc u.out]
    rfl

-- Two numbers behind which the runs end with texts that differ in how often they hold a character.
structure Exposed (env : Env) (v : View) (one two c left right : Bytes) (m : UInt8) : Prop where
  first : isDigits one = true
  second : isDigits two = true
  some_ : c ≠ []
  apart : startsApart c = true
  shown : m ≠ 0 ∧ isSpace m.toNat = false
  count : left.count m ≠ right.count m
  firstRun : ∀ k,∃ w,View.run env (runes one ++ runes (c ++ (closing k ++ [byte ' ']))) v = .ok w ∧
    w.out = left
  secondRun : ∀ k,∃ w,View.run env (runes two ++ runes (c ++ (closing k ++ [byte ' ']))) v = .ok w ∧
    w.out = right

theorem replicate_count (m : Nat) (front back : Bytes) :
    (front ++ (List.replicate (m+1) (byte '1') ++ back)).count (byte '1') ≠
      (front ++ (List.replicate (m+1) (byte '2') ++ back)).count (byte '1') := by
  have none_ : (List.replicate (m+1) (byte '2')).count (byte '1') = 0 := by
    rw [List.count_replicate]
    rfl
  rw [List.count_append,List.count_append,List.count_append,List.count_append,none_,List.count_replicate_self]
  omega

theorem kept_exposed (kept : Kept v.s) (calm : v.plan = none)
    (word : v.s = .inWord → numberState env v = none) :
    ∃ one two c left right,Exposed env v one two c left right (byte '1') := by
  obtain ⟨text,same⟩ :=
    told_count env.lower v.pend (behind v.s) (toLower env.lower v.pend).length (Nat.le_refl _)
  have run (d : UInt8) (digit : isDigit d.toNat = true) (k : Nat) : ∃ w,
      View.run env (runes (told d (toLower env.lower v.pend).length) ++
        runes (closer v.s ++ [byte '+'] ++ (closing k ++ [byte ' ']))) v = .ok w ∧
        w.out = v.out ++ toLower env.lower v.pend ++ (List.replicate (0+1) d ++ (text ++ final v)) := by
    have all := (Bool.and_eq_true_iff.mp (told_digits digit (toLower env.lower v.pend).length)).2
    have some_ : told d (toLower env.lower v.pend).length ≠ [] := List.cons_ne_nil _ _
    obtain ⟨w,run,out⟩ := kept_run kept calm word (fun _ => some_) (List.all_eq_true.mp all) k
    refine ⟨w,?_,?_⟩
    · rw [List.append_assoc]
      exact run
    · rw [out,same d digit]
      simp
  have one : isDigit (byte '1').toNat = true := by decide
  have two : isDigit (byte '2').toNat = true := by decide
  refine ⟨_,_,_,_,_,told_digits one _,told_digits two _,?_,?_,by decide,?_,run _ one,run _ two⟩
  · simp
  · generalize v.s = s at kept
    cases kept <;> decide
  · exact replicate_count 0 _ _

theorem code_exposed (stands : Stands env v) (opens : numberState env v = some .inNumber)
    (code : v.sqlState = .inMySQLCode) :
    ∃ one two c left right,Exposed env v one two c left right (byte '1') := by
  obtain ⟨front,back,m,run⟩ := code_run env stands opens code
  refine ⟨[byte '1',byte '1'],[byte '2',byte '2'],[byte '+'],_,_,by decide,by decide,by decide,
    by decide,by decide,replicate_count m front back,
    run (byte '1') (by decide),run (byte '2') (by decide)⟩

-- The view behind the first digit.
def opened (v : View) (d : UInt8) : View := View.advance {v.read [d] with s := .inWord} [d]

theorem flushed_opened (env : Env) (v : View) : flushed env (opened v (byte '1')) =
    fit (v.pend.length+1) (toLower env.lower v.pend ++ [byte '1']) ++
      (if v.addSpace then [byte ' '] else []) := by
  have text : (opened v (byte '1')).pend = v.pend ++ [byte '1'] := rfl
  have some_ : v.pend ++ [byte '1'] ≠ [] := by simp
  rw [flushed,text,if_neg some_,toLower_append env.lower v.pend [] (by decide),List.length_append]
  rfl

theorem blank_count (space : Bool) (ink : m ≠ byte ' ') : (if space then [byte ' '] else []).count m = 0 := by
  cases space
  · rfl
  · exact List.count_eq_zero.mpr fun mem => ink (List.mem_singleton.mp mem)

theorem flushed_short (env : Env) (v : View) (short : (toLower env.lower v.pend).length ≤ v.pend.length) :
    (flushed env (opened v (byte '1'))).count (byte '?') = (toLower env.lower v.pend).count (byte '?') := by
  have size : v.pend.length+1 =
      (toLower env.lower v.pend ++ [byte '1']).length+(v.pend.length-(toLower env.lower v.pend).length) := by
    rw [List.length_append,List.length_singleton]
    omega
  have zeros := count_fit (byte '?') (by decide) (v.pend.length-(toLower env.lower v.pend).length) []
  have cut :=
    fit_append (toLower env.lower v.pend ++ [byte '1']) [] (v.pend.length-(toLower env.lower v.pend).length)
  rw [List.append_nil] at cut
  have digit : [byte '1'].count (byte '?') = 0 := rfl
  have none_ : List.count (byte '?') [] = 0 := rfl
  rw [flushed_opened,size,cut,List.count_append,List.count_append,List.count_append,digit,
    blank_count v.addSpace (by decide)]
  omega

theorem flushed_long (env : Env) (v : View) (long : v.pend.length < (toLower env.lower v.pend).length) :
    (flushed env (opened v (byte '1'))).count (byte '1') ≤ (toLower env.lower v.pend).count (byte '1') := by
  have none_ : v.pend.length+1-(toLower env.lower v.pend ++ [byte '1']).length = 0 := by
    rw [List.length_append]
    omega
  have part := (List.take_sublist (v.pend.length+1) (toLower env.lower v.pend)).count_le (byte '1')
  rw [flushed_opened,fit,none_,List.take_append_of_le_length long,List.replicate_zero,
    List.append_nil,List.count_append,
    blank_count v.addSpace (by decide)]
  exact part

section
variable {env : Env} {v : View} (state : v.s = .inValues) (shut : v.parOpen ≤ 0)
  (none_ : v.parOpenTotal = 0) (calm : v.plan = none)

include state shut none_ calm

theorem literal_exposed (word : ∀ d,numberState env (opened v d) = none) :
    ∃ one two c left right,Exposed env v one two c left right (byte '1') := by
  obtain ⟨text,same⟩ :=
    told_count env.lower v.pend [byte '+'] (toLower env.lower v.pend).length (Nat.le_refl _)
  have run (d : UInt8) (digit : isDigit d.toNat = true) (k : Nat) : ∃ w,
      View.run env (runes (told d (toLower env.lower v.pend).length) ++
        runes ([byte '+'] ++ (closing k ++ [byte ' ']))) v = .ok w ∧
        w.out = v.out ++ toLower env.lower v.pend ++ (List.replicate (0+1) d ++ (text ++ [byte ' '])) := by
    have zeros : ∀ b ∈ List.replicate (toLower env.lower v.pend).length (byte '0'),
        isDigit b.toNat = true := by
      intro b mem
      rw [List.eq_of_mem_replicate mem]
      decide
    obtain ⟨w,run,out⟩ := kept_run (v := opened v d) .word calm (fun _ => word d) nofun zeros k
    refine ⟨w,?_,?_⟩
    · rw [told,runes_cons_ascii (digit_ascii digit)]
      exact (run_step (literal_step env state shut none_ digit) _).trans run
    · have text : (opened v d).pend ++ List.replicate (toLower env.lower v.pend).length
        (byte '0') ++ behind .inWord =
          v.pend ++ told d (toLower env.lower v.pend).length ++ [byte '+'] := by
        change v.pend ++ [d] ++ _ ++ [byte '+'] = _
        simp [told]
      rw [out]
      change v.out ++ fit ((opened v d).pend ++ _ ++ behind .inWord).length
        (toLower env.lower ((opened v d).pend ++ _ ++ behind .inWord)) ++ [byte ' '] = _
      rw [text,same d digit]
      simp
  have one : isDigit (byte '1').toNat = true := by decide
  have two : isDigit (byte '2').toNat = true := by decide
  exact ⟨_,_,_,_,_,told_digits one _,told_digits two _,by decide,by decide,by decide,
    replicate_count 0 _ _,run _ one,run _ two⟩

theorem opened_run (j k : Nat) (wide : (toLower env.lower v.pend).length ≤ j) :
    ∃ w,View.run env (runes [byte '1'] ++ runes (marks j ++ (closing k ++ [byte ' ']))) v = .ok w ∧
      w.out = v.out ++ (toLower env.lower v.pend ++ byte '1' ::
        fit (v.pend.length+(marks j).length-(toLower env.lower v.pend).length)
        (toLower env.lower (marks j))) ++ [byte ' '] := by
  have one : isDigit (byte '1').toNat = true := by decide
  have long : (toLower env.lower v.pend).length ≤ (marks j).length := by
    rw [marks,List.length_append,List.length_replicate]
    omega
  have text : (opened v (byte '1')).pend ++ marks j = v.pend ++ byte '1' :: marks j := by
    change v.pend ++ [byte '1'] ++ _ = _
    rw [List.append_assoc]
    rfl
  obtain ⟨w,run,out⟩ := marks_run (u := opened v (byte '1')) env j k (Or.inl rfl) calm
  refine ⟨w,(run_step (literal_step env state shut none_ one) _).trans run,?_⟩
  rw [out,text,fit_front env.lower v.pend _ long one]
  rfl

omit calm in
theorem second_run (sql : v.sqlState = .inValues)
    (opens : numberState env (opened v (byte '1')) = some t) (j k : Nat) :
    ∃ w,View.run env (runes [byte '1',byte '1'] ++
      runes (marks (j+1) ++ (closing k ++ [byte ' ']))) v = .ok w ∧
      w.out = v.out ++ flushed env (opened v (byte '1')) ++ [byte '?'] ++
        fit (marks (j+1)).length (toLower env.lower (marks (j+1))) ++ [byte ' '] := by
  have one : isDigit (byte '1').toNat = true := by decide
  have own := digit_foreign _ one
  have mem : byte '1' ∈ (opened v (byte '1')).pend := by
    change byte '1' ∈ v.pend ++ [byte '1']
    simp
  obtain ⟨w,keep,kind,idle,same,_,_,out,steps⟩ :=
    digit_step opens rfl rfl (foreign_wordIn own (foreign_lower own mem env.lower) env.lower)
  have number : w.s = .inNumber ∧ w.sqlState ≠ .inMySQLCode ∨ w.s = .inNumberInWord := by
    rw [kind,same]
    rcases numberState_kind opens with rfl | rfl
    · refine Or.inl ⟨rfl,?_⟩
      change v.sqlState ≠ _
      rw [sql]
      exact nofun
    · exact Or.inr rfl
  obtain ⟨x,equal,op,plan,wrote,left⟩ := number_equals
    (u := {w with pr := (byte '1').toNat,pend := if keep then [byte '1'] else []}) env number idle
  obtain ⟨y,run,after⟩ := marks_run (u := x) env j k (Or.inr op) plan
  refine ⟨y,?_,?_⟩
  · refine (run_step (literal_step env state shut none_ one) _).trans
      ((run_step (steps (byte '1') one) _).trans ?_)
    rw [marks,List.replicate_succ,List.cons_append,List.cons_append,runes_cons_ascii (by decide)]
    exact (run_step equal _).trans run
  · rw [after,wrote,left]
    change w.out ++ _ ++ _ ++ _ = _
    rw [out]
    rfl

-- The second digit opens a number, so one digit is copied and two are not.
theorem second_exposed (sql : v.sqlState = .inValues)
    (opens : numberState env (opened v (byte '1')) = some t) :
    ∃ one two c left right m,Exposed env v one two c left right m := by
  obtain ⟨j,wide⟩ : ∃ j,(toLower env.lower v.pend).length ≤ j+1 :=
    ⟨(toLower env.lower v.pend).length,Nat.le_succ _⟩
  have exposed :=
    fun m shown count => Exposed.mk (m := m) (by decide) (by decide) (by simp [marks]) rfl shown count
    (fun k => opened_run state shut none_ calm (j+1) k wide)
      (fun k => second_run state shut none_ sql opens j k)
  by_cases short : (toLower env.lower v.pend).length ≤ v.pend.length
  · refine ⟨_,_,_,_,_,_,exposed (byte '?') (by decide) ?_⟩
    have copied := flushed_short env v short
    have none_ := marks_count (byte '?') (by decide) (by decide) (by decide) env.lower (j+1)
    have mark : [byte '?'].count (byte '?') = 1 ∧ [byte ' '].count (byte '?') = 0 := by decide
    simp only [List.count_append,copied,none_]
    rw [List.count_cons_of_ne (by decide),none_]
    omega
  · refine ⟨_,_,_,_,_,_,exposed (byte '1') (by decide) ?_⟩
    have copied := flushed_long env v (by omega)
    have none_ := marks_count (byte '1') (by decide) (by decide) (by decide) env.lower (j+1)
    have mark : [byte '?'].count (byte '1') = 0 ∧ [byte ' '].count (byte '1') = 0 := by decide
    simp only [List.count_append,none_]
    rw [List.count_cons_self,none_]
    omega

end

theorem unsafe_exposed (stands : Stands env v) (calm : v.plan = none) (unsafe_ : safe env v = false) :
    ∃ one two c left right m,Exposed env v one two c left right m := by
  unfold safe at unsafe_
  simp only [Bool.or_eq_false_iff,Bool.and_eq_false_iff,decide_eq_false_iff_not] at unsafe_
  obtain ⟨⟨notQuote,notList⟩,replaced⟩ := unsafe_
  have kept (state : Kept v.s) (word : v.s = .inWord →
      numberState env v = none) : ∃ one two c left right m,Exposed env v one two c left right m := by
    obtain ⟨one,two,c,left,right,exposed⟩ := kept_exposed state calm word
    exact ⟨one,two,c,left,right,_,exposed⟩
  cases opens : numberState env v with
  | some t =>
    rw [opens] at replaced
    simp only [Bool.or_eq_false_iff,decide_eq_false_iff_not,not_not] at replaced
    obtain ⟨rfl,code⟩ := replaced
    obtain ⟨one,two,c,left,right,exposed⟩ := code_exposed stands opens code
    exact ⟨one,two,c,left,right,_,exposed⟩
  | none =>
    have rest := stands.rest
    unfold numberState at opens
    by_cases word : v.s = .inWord
    · exact kept (word ▸ .word) fun _ => by unfold numberState; exact opens
    rw [if_neg word] at opens
    have skip : skips v.s = true := by
      by_contra other
      rw [if_neg other] at opens
      cases opens
    cases state : v.s with
    | inQuote => exact absurd state notQuote
    | inBackticks => exact kept (state ▸ .ticks) fun bad => absurd bad word
    | inMLC => exact kept (state ▸ .comment) fun bad => absurd bad word
    | inOLC => exact kept (state ▸ .line) fun bad => absurd bad word
    | inValues =>
      have shut : v.parOpen ≤ 0 := by
        rcases notList with bad | shut
        · exact absurd state bad
        · omega
      have none_ := stands.regular.balance shut
      cases again : numberState env (opened v (byte '1')) with
      | none =>
        obtain ⟨one,two,c,left,right,exposed⟩ := literal_exposed state shut none_ calm fun _ => again
        exact ⟨one,two,c,left,right,_,exposed⟩
      | some t => exact second_exposed state shut none_ calm (stands.regular.values state) again
    | inNumber | inNumberInWord | mlcOrMySQLCode =>
      rw [state] at rest
      cases rest
    | _ =>
      rw [state] at skip
      cases skip

-- Any two numbers behind p give the same fingerprint.
def Abstracted (env : Env) (p : Bytes) : Prop :=
  ∀ one two s,isDigits one = true → isDigits two = true → startsApart s = true →
    run env (p ++ (one ++ s)) ≠ .error .adminCommand →
    Completes (run env (p ++ (one ++ s))) → Completes (run env (p ++ (two ++ s))) →
    fingerprint env (p ++ (one ++ s)) = fingerprint env (p ++ (two ++ s))

theorem number_view (prior : View.run env (runes p) .start = .ok v) (digits : isDigits n = true) (s : Bytes) :
    View.result env (p ++ (n ++ s)) = View.run env (runes n ++ runes (s ++ [byte ' '])) v := by
  rw [View.result,List.append_assoc,List.append_assoc,runes_number _ _ digits,run_append,prior]
  rfl

theorem short_completes (result : View.result env q = .ok w) (short : w.out.length ≤ q.length+1) :
    Completes (run env q) ∧ run env q ≠ .error .adminCommand := by
  have follows := run_follows env q
  rw [result] at follows
  constructor
  · apply completes_of_fits
    rw [result]
    exact short
  · rcases follows with ⟨o,same,_⟩ | ⟨same,_⟩ <;> rw [same] <;> exact nofun

theorem exposed_differs (prior : View.run env (runes p) .start = .ok v)
    (exposed : Exposed env v one two c left right m) :
    ¬ Abstracted env p := by
  intro abstracted
  have apart : startsApart (c ++ closing (left.length+right.length)) = true := by
    have apart := exposed.apart
    cases same : c with
    | nil => exact absurd same exposed.some_
    | cons b c =>
      rw [same] at apart
      exact apart
  have room {n : Bytes} {k : Nat} (long : k ≤ left.length+right.length) : k ≤
      (p ++ (n ++ (c ++ closing (left.length+right.length)))).length+1 := by
    simp only [closing,List.length_append,List.length_cons,List.length_replicate]
    omega
  obtain ⟨w,firstRun,firstOut⟩ := exposed.firstRun (left.length+right.length)
  obtain ⟨x,secondRun,secondOut⟩ := exposed.secondRun (left.length+right.length)
  rw [← List.append_assoc] at firstRun secondRun
  have firstResult := (number_view prior exposed.first _).trans firstRun
  have secondResult := (number_view prior exposed.second _).trans secondRun
  have first := short_completes firstResult (by rw [firstOut]; exact room (Nat.le_add_right _ _))
  have second := short_completes secondResult (by rw [secondOut]; exact room (Nat.le_add_left _ _))
  have same := abstracted one two _ exposed.first exposed.second apart first.2 first.1 second.1
  rw [fingerprint_answer first.1,fingerprint_answer second.1,firstResult,secondResult] at same
  have count := congrArg (List.count m) (Option.some.inj same)
  rw [answer_count m exposed.shown.1 exposed.shown.2,answer_count m exposed.shown.1 exposed.shown.2,
    firstOut,secondOut] at count
  exact exposed.count count

def endsApart (p : Bytes) : Bool := p.getLast?.any fun b => separates b.toNat

theorem numbers_abstracted_iff (env : Env) (p : Bytes) (long : 3 ≤ p.length) (ends : endsApart p = true) :
    Abstracted env p ↔ safeAfter env p = true := by
  obtain ⟨q,c,rfl,sep⟩ := last_any ends
  constructor
  · intro abstracted
    cases prior : View.run env (runes (q ++ [c])) .start with
    | error stop => rw [safeAfter,prior]
    | ok v =>
      rw [safeAfter,prior]
      by_contra unsafe_
      have stands := run_stands sep long prior
      obtain ⟨ascii,notTick⟩ := separator_ascii c sep
      obtain ⟨u,front,step⟩ := run_last ascii prior
      have calm := step_calm (run_regular start_regular front) step notTick
      obtain ⟨one,two,rest,left,right,m,exposed⟩ := unsafe_exposed stands calm (Bool.eq_false_iff.mpr unsafe_)
      exact exposed_differs prior exposed abstracted
  · intro safely one two s first second apart command left right
    exact (number_result env sep long safely first second apart).fingerprint command left right

theorem compared_number_abstracted : 3 ≤ (str "select a from t where b = ").length ∧
    Abstracted asciiEnv (str "select a from t where b = ") :=
  ⟨by decide,(numbers_abstracted_iff asciiEnv (str "select a from t where b = ") (by decide)
    (by decide)).mpr (by decide +kernel)⟩

theorem number_shown : 3 ≤ (str "select /*! sql_no_cache */ a from t where b = ").length ∧
    endsApart (str "select /*! sql_no_cache */ a from t where b = ") = true ∧
    fingerprint asciiEnv (str "select /*! sql_no_cache */ a from t where b = 1") =
      some (str "select /*! sql_no_cache */ a from t where b = 1") ∧
    fingerprint asciiEnv (str "select /*! sql_no_cache */ a from t where b = 2") =
      some (str "select /*! sql_no_cache */ a from t where b = 2") := by
  decide +kernel

end SqlReview.FingerprintNumberKept
