import SqlReview.FingerprintRefinement
import SqlReview.PlainText

namespace SqlReview.FingerprintText
open GoBytes Fingerprint FingerprintView PlainText

def reservedWords : List Bytes :=
  [str "use",str "null",str "asc",str "in",str "value",str "values",str "call",str "administrator"]

def notLetter (b : UInt8) : Bool := !letter b

-- Neither a comment opened by -- nor one opened by /*.
def comments (a b : UInt8) : Bool := (a == byte '-' && b == byte '-') || (a == byte '/' && b == byte '*')

def uncommented : Bytes → Bool
  | a :: b :: rest => !comments a b && uncommented (b :: rest)
  | _ => true

def reserved (w : Bytes) : Bool := reservedWords.contains (w.map lowerByte)

-- Letters, whitespace and punctuation, without comments and without the words the machine knows.
def plainText (q : Bytes) : Bool :=
  q.all textByte && uncommented q && (fieldsFunc notLetter q).all fun w => !reserved w

-- The leading letters of a text are a reserved word.
def opensReserved (w : Bytes) : Bool := reservedWords.contains ((w.map lowerByte).takeWhile letter)

theorem letter_facts : ∀ b : UInt8, letter (lowerByte b) = letter b ∧ lowerByte (lowerByte b) = lowerByte b ∧
    (letter b = true → space b = false ∧ sign b = false ∧ comparison b = false ∧ b ≠ byte '(') :=
  every_byte (by decide +kernel)

theorem text_ascii : ∀ b : UInt8, textByte b = true → b.toNat < 0x80 ∧ b ≠ 0 :=
  every_byte (by decide +kernel)

theorem takeWhile_lower (w : Bytes) :
    (w.map lowerByte).takeWhile letter = (w.takeWhile letter).map lowerByte := by
  induction w with
  | nil => rfl
  | cons b w ih => cases isLetter : letter b <;> simp [letter_facts b,isLetter,ih]

theorem opens_lower (w : Bytes) : opensReserved (w.map lowerByte) = opensReserved w := by
  unfold opensReserved
  congr 2
  rw [List.map_map]
  congr 1
  funext b
  exact (letter_facts b).2.1

theorem wordIn_free (lower : Nat → Nat) (words : List Bytes) {w : Bytes} (free : opensReserved w = false)
    (ascii : ∀ b ∈ w, b.toNat < 0x80) (known : ∀ x ∈ words, opensReserved x = true) :
    wordIn lower w words = false := by
  unfold wordIn
  rw [toLower_ascii lower w ascii,← Bool.not_eq_true]
  intro found
  have bad := known _ (List.contains_iff_mem.mp found)
  rw [opens_lower,free] at bad
  cases bad

-- The letters read last, `recent`, are the pending text as long as that has only letters;
-- after that its leading letters are a whole word.
structure Aligned (recent : Bytes) (t : Tape) : Prop where
  word : t.mode ≠ .word → recent = []
  letters : t.pend.all letter = true → recent = t.pend
  other : t.pend.all letter = false → opensReserved t.pend = false

theorem opens_letters {w : Bytes} (letters : w.all letter = true) : opensReserved w = reserved w := by
  have whole : w.takeWhile letter = w := List.takeWhile_eq_self_iff.mpr (List.all_eq_true.mp letters)
  rw [opensReserved,takeWhile_lower,whole,reserved]

theorem Aligned.free (aligned : Aligned recent t) (closed : recent ≠ [] → reserved recent = false) :
    opensReserved t.pend = false := by
  cases letters : t.pend.all letter with
  | false => exact aligned.other letters
  | true =>
    rw [opens_letters letters]
    have same := aligned.letters letters
    by_cases none : recent = []
    · rw [← same,none]; rfl
    · rw [← same]; exact closed none

theorem opens_append {w : Bytes} (other : w.all letter = false) (b : UInt8) :
    opensReserved (w ++ [b]) = opensReserved w := by
  have stops : (w ++ [b]).takeWhile letter = w.takeWhile letter := by
    rw [List.takeWhile_append]
    split
    · rename_i whole
      have all :=
        List.takeWhile_eq_self_iff.mp (List.IsPrefix.eq_of_length (List.takeWhile_prefix letter) whole)
      rw [List.all_eq_true.mpr all] at other
      cases other
    · rfl
  unfold opensReserved
  rw [takeWhile_lower,takeWhile_lower,stops]

theorem opens_close {w : Bytes} (plain : letter b = false) (free : opensReserved w = false) :
    opensReserved (w ++ [b]) = false := by
  cases letters : w.all letter with
  | false => rw [opens_append letters]; exact free
  | true =>
    have whole : (w ++ [b]).takeWhile letter = w := by
      rw [List.takeWhile_append_of_pos (List.all_eq_true.mp letters)]
      simp [plain]
    rw [opensReserved,takeWhile_lower,whole]
    rw [opens_letters letters] at free
    exact free

theorem keep_aligned {t : Tape} (mode : Mode) (kept : Bool) (aligned : Aligned recent t)
    (plain : letter b = false)
    (closed : recent ≠ [] → reserved recent = false) : Aligned [] (t.keep mode kept b) := by
  have free := aligned.free closed
  cases kept with
  | false => exact ⟨fun _ => rfl,by simp [Tape.keep,plain],fun _ => opens_close plain (w := []) rfl⟩
  | true => exact ⟨fun _ => rfl,by simp [Tape.keep,plain],fun _ => opens_close plain free⟩

theorem read_aligned (aligned : Aligned recent t)
    (closed : letter b = false → recent ≠ [] → reserved recent = false) :
    Aligned (if letter b then recent ++ [b] else []) (t.read b) := by
  cases isLetter : letter b with
  | true =>
    have facts := (letter_facts b).2.2 isLetter
    have read : t.read b = t.keep .word (t.mode = .word || t.mode = .compare) b := by
      simp [Tape.read,facts.1,facts.2.1,facts.2.2.1,bne_iff_ne.mpr facts.2.2.2]
    rw [read,if_pos rfl]
    cases kept : (decide (t.mode = .word) || decide (t.mode = .compare)) with
    | true =>
      have all : (t.pend ++ [b]).all letter = t.pend.all letter := by simp [isLetter]
      refine ⟨absurd rfl,fun letters => ?_,fun other => ?_⟩
      · exact congrArg (· ++ [b]) (aligned.letters (all.symm.trans letters))
      · have other := all.symm.trans other
        exact (opens_append other b).trans (aligned.other other)
    | false =>
      have none := aligned.word fun word => by simp [word] at kept
      rw [none]
      exact ⟨absurd rfl,fun _ => rfl,by simp [Tape.keep,isLetter]⟩
  | false =>
    have single : Aligned [] ⟨.lead,t.out,[b]⟩ :=
      ⟨fun _ => rfl,by simp [isLetter],fun _ => opens_close isLetter (w := []) rfl⟩
    have empty (mode : Mode) (out : Bytes) : Aligned [] ⟨mode,out,[]⟩ :=
      ⟨fun _ => rfl,fun _ => rfl,by rintro ⟨⟩⟩
    refine read_cases t b single (empty _ _) (fun gap => ?_) (empty _ _) fun mode kept =>
      keep_aligned mode kept aligned isLetter (closed isLetter)
    have none := aligned.word (by simp [gap])
    rwa [none] at aligned

def stateOf (mode : Mode) (last : UInt8) : State :=
  match mode with
  | .fresh | .lead => .unknown
  | .gap => .inSpace
  | .word => .inWord
  | .compare => .inOp
  | .sign => if last = byte '/' then .divOrMLC else .opOrNumber

-- The machine between two bytes of a plain text: nothing is due for copying, and text
-- written and pending are those of the tape.
structure Shows (last : UInt8) (t : Tape) (v : View) : Prop where
  plan : v.plan = none
  calm : v.addSpace = false
  s : v.s = stateOf t.mode last
  out : v.out = t.out
  pend : v.pend = t.pend
  pr : v.pr = last.toNat
  prevWord : opensReserved v.prevWord = false

def Known (last : UInt8) (t : Tape) : Prop := (t = blank ∧ last = 0) ∨ t.After last

theorem stateOf_calm (mode : Mode) (last : UInt8) : skips (stateOf mode last) = false := by
  cases mode with
  | fresh | lead | gap | word | compare => rfl
  | sign =>
    unfold stateOf
    dsimp only
    split <;> rfl

theorem finish_shows (env : Env) {u : View} (plan : u.plan = none) (calm : u.addSpace = false)
    (s : u.s = stateOf t.mode b)
    (out : u.out = t.out) (pend : u.pend = t.pend) (prevWord : opensReserved u.prevWord = false) :
    Shows b t (u.finish env b.toNat [b]) := by
  have idle : u.copySlice env [b] = u := by
    unfold View.copySlice View.due
    rw [plan]
    rfl
  unfold View.finish
  rw [idle]
  exact ⟨rfl,calm,s,out,pend,rfl,prevWord⟩

-- The byte goes through to step 2 unless it repeats a space.
theorem text_step (env : Env) (shows : Shows last t v) (b : UInt8) :
    v.step env b.toNat [b] =
      if space b && space last then .ok (View.advance {v with pend := [],pr := b.toNat,plan := none} [b])
      else (v.read [b]).changeState env b.toNat [b] >>= fun u => .ok (u.finish env b.toNat [b]) := by
  have calm : skips (v.read [b]).s = false := by
    change skips v.s = false
    rw [shows.s]
    exact stateOf_calm _ _
  have pr : (v.read [b]).pr = last.toNat := shows.pr
  unfold View.step
  rw [view_skipPart_other _ _ _ calm,pr]
  cases both : space b && space last with
  | true => rw [if_pos (by exact both),if_pos rfl]; rfl
  | false => rw [if_neg (by unfold space at both; simp [both]),if_neg (by simp)]; rfl

def Turns (env : Env) (v : View) (b : UInt8) (t : Tape) : Prop :=
  ∃ u, (v.read [b]).changeState env b.toNat [b] = .ok u ∧ Shows b t (u.finish env b.toNat [b])

theorem sign_turns (env : Env) (shows : Shows last t v) (isSign : sign b = true)
    (plain : comments last b = false) :
    Turns env v b (t.keep .sign true b) := by
  have pend : (v.read [b]).pend = t.pend ++ [b] := congrArg (· ++ [b]) shows.pend
  simp only [sign,Bool.or_eq_true,beq_iff_eq] at isSign
  rcases isSign with (rfl | rfl) | rfl
  · exact ⟨{v.read [byte '+'] with s := .opOrNumber},rfl,
      finish_shows env shows.plan shows.calm rfl shows.out pend shows.prevWord⟩
  · have notDash : v.pr ≠ rune '-' := by
      rw [shows.pr]
      intro dash
      have dash : last = byte '-' := UInt8.toNat_inj.mp dash
      rw [dash] at plain
      cases plain
    refine ⟨{v.read [byte '-'] with s := if v.pr = rune '-' then .inDash else .opOrNumber},rfl,?_⟩
    exact finish_shows env shows.plan shows.calm (if_neg notDash) shows.out pend shows.prevWord
  · exact ⟨{v.read [byte '/'] with s := .divOrMLC},rfl,
      finish_shows env shows.plan shows.calm rfl shows.out pend shows.prevWord⟩

-- Text that opens a word drops what was pending unless a word or a comparison goes on.
theorem stateOf_words (mode : Mode) (last : UInt8) :
    (stateOf mode last ≠ .inWord ∧ stateOf mode last ≠ .inOp) ↔ ¬ (mode = .word ∨ mode = .compare) := by
  cases mode with
  | fresh | lead | gap | word | compare => simp [stateOf]
  | sign =>
    unfold stateOf
    dsimp only
    split <;> simp

theorem comparison_turns (env : Env) (shows : Shows last t v) (isCompare : comparison b = true) :
    Turns env v b (t.keep .compare (t.mode = .word || t.mode = .compare) b) := by
  simp only [comparison,Bool.or_eq_true,beq_iff_eq] at isCompare
  have changed : (v.read [b]).changeState env b.toNat [b] = .ok ((v.read [b]).onOperator [b]) := by
    rcases isCompare with (rfl | rfl) | rfl <;> rfl
  refine ⟨_,changed,finish_shows env shows.plan shows.calm rfl shows.out ?_ shows.prevWord⟩
  change (if v.s ≠ .inWord ∧ v.s ≠ .inOp then [b] else v.pend ++ [b]) = if _ then t.pend ++ [b] else [b]
  rw [shows.s,shows.pend]
  by_cases words : t.mode = .word ∨ t.mode = .compare
  · rw [if_neg (mt (stateOf_words _ _).mp (not_not.mpr words)),if_pos (by simpa using words)]
  · rw [if_pos ((stateOf_words _ _).mpr words),if_neg (by simpa using words)]

theorem stateOf_text (mode : Mode) (last : UInt8) : stateOf mode last ≠ .moreValuesOrUnknown ∧
    stateOf mode last ≠ .inDash ∧ (stateOf mode last = .unknown ↔ mode = .fresh ∨ mode = .lead) ∧
    (stateOf mode last = .inWord ↔ mode = .word) := by
  cases mode with
  | fresh | lead | gap | word | compare => simp [stateOf]
  | sign =>
    unfold stateOf
    dsimp only
    split <;> simp

theorem stateOf_div (div : stateOf mode last = .divOrMLC) : last = byte '/' := by
  cases mode with
  | fresh | lead | gap | word | compare => cases div
  | sign =>
    by_contra other
    simp [stateOf,other] at div

theorem other_turns (env : Env) (shows : Shows last t v) (text : letter b = true ∨ mark b = true)
    (plain : comments last b = false) :
    Turns env v b (t.keep .word (t.mode = .word || t.mode = .compare) b) := by
  have kinds : ∀ b : UInt8, letter b = true ∨ mark b = true → isDigit b.toNat = false ∧
    isSpace b.toNat = false ∧
      ['\'','"','`','=','<','>','!','/','+','-','.','(',':','#'].all (fun c => b.toNat != rune c) = true :=
    every_byte (by decide +kernel)
  obtain ⟨digit,space,others⟩ := kinds b text
  simp only [List.all_cons,Bool.and_eq_true,bne_iff_ne] at others
  have state : (v.read [b]).s = stateOf t.mode last := shows.s
  have star : ¬ (b.toNat = rune '*' ∧ (v.read [b]).s = .divOrMLC) := by
    rintro ⟨isStar,div⟩
    have isStar : b = byte '*' := UInt8.toNat_inj.mp isStar
    rw [stateOf_div (state.symm.trans div),isStar] at plain
    cases plain
  have more : ¬ (b.toNat = rune ',' ∧ (v.read [b]).s = .moreValuesOrUnknown) := by
    rintro ⟨_,more⟩
    exact (stateOf_text t.mode last).1 (state.symm.trans more)
  have changed : (v.read [b]).changeState env b.toNat [b] = .ok ((v.read [b]).onOther [b]) := by
    unfold View.changeState
    simp [digit,space,others,star,more]
  refine ⟨_,changed,?_⟩
  unfold View.onOther
  rw [state]
  by_cases words : t.mode = .word ∨ t.mode = .compare
  · rw [if_neg (mt (stateOf_words _ _).mp (not_not.mpr words))]
    refine finish_shows env shows.plan shows.calm rfl shows.out ?_ shows.prevWord
    change v.pend ++ [b] = if _ then t.pend ++ [b] else [b]
    rw [if_pos (by simpa using words),shows.pend]
  · rw [if_pos ((stateOf_words _ _).mpr words)]
    refine finish_shows env shows.plan shows.calm rfl shows.out ?_ shows.prevWord
    change [b] = if _ then t.pend ++ [b] else [b]
    rw [if_neg (by simpa using words)]

theorem read_word (v : View) (b : UInt8) : (v.read [b]).word [b] = v.pend := by simp [View.word,View.read]

theorem par_turns (env : Env) (shows : Shows last t v) (free : opensReserved t.pend = false)
    (ascii : ∀ c ∈ t.pend, c.toNat < 0x80) :
    Turns env v (byte '(') (t.keep .word (t.mode = .word) (byte '(')) := by
  have word : (v.read [byte '(']).word [byte '('] = t.pend := (read_word v _).trans shows.pend
  have state : (v.read [byte '(']).s = stateOf t.mode last := shows.s
  have prev {x : Bytes} (known : opensReserved x = true) : (v.read [byte '(']).prevWord ≠ x := by
    rintro rfl
    rw [show opensReserved (v.read [byte '(']).prevWord = false from shows.prevWord] at known
    cases known
  have notValues : (v.read [byte '(']).beginsValues env ((v.read [byte '(']).word [byte '(']) = false := by
    have notList := wordIn_free env.lower [str "value",str "values",str "in"] free ascii (by decide)
    unfold View.beginsValues
    rw [word,notList]
    simp [prev (x := str "value") (by decide),prev (x := str "values") (by decide),
      prev (x := str "in") (by decide)]
  have changed : (v.read [byte '(']).changeState env (byte '(').toNat [byte '('] =
      (v.read [byte '(']).onOpenPar env [byte '('] := rfl
  unfold Turns
  rw [changed]
  unfold View.onOpenPar
  rw [if_neg (prev (by decide)),if_neg (by simp [notValues]),state]
  by_cases inWord : t.mode = .word
  · rw [if_neg (not_not.mpr ((stateOf_text _ _).2.2.2.mpr inWord))]
    refine ⟨_,rfl,finish_shows env shows.plan shows.calm ?_ shows.out ?_ shows.prevWord⟩
    · rw [state,inWord]; rfl
    · change v.pend ++ _ = if _ then t.pend ++ _ else _
      rw [if_pos (by simpa using inWord),shows.pend]
  · rw [if_pos (mt (stateOf_text _ _).2.2.2.mp inWord)]
    refine ⟨_,rfl,finish_shows env shows.plan shows.calm rfl shows.out ?_ shows.prevWord⟩
    change _ = if _ then t.pend ++ _ else _
    rw [if_neg (by simpa using inWord)]
    rfl

theorem lower_ascii {w : Bytes} (ascii : ∀ c ∈ w, c.toNat < 0x80) :
    ∀ c ∈ w.map lowerByte, c.toNat < 0x80 := by
  intro c found
  obtain ⟨d,inside,rfl⟩ := List.mem_map.mp found
  have below := ascii d inside
  unfold lowerByte
  split
  · rw [UInt8.toNat_add,show (0x20 : UInt8).toNat = 0x20 from rfl]
    omega
  · exact below

-- The end of a word: it is copied with a space behind it.
theorem copy_shows (env : Env) {t : Tape} {u : View} (some : t.pend ≠ []) (plan : u.plan = Option.some 0)
    (add : u.addSpace = true) (s : u.s = .inSpace) (out : u.out = t.out) (pend : u.pend = t.pend ++ [b])
    (free : opensReserved t.pend = false) (ascii : ∀ c ∈ t.pend, c.toNat < 0x80) :
    Shows b ⟨.gap,t.out ++ t.pend.map lowerByte ++ [byte ' '],[]⟩ (u.finish env b.toNat [b]) := by
  have due : u.due [b] = t.pend.length := by simp [View.due,plan,pend]
  have word : toLower env.lower (u.pend.take t.pend.length) = t.pend.map lowerByte := by
    rw [pend,List.take_left,toLower_ascii env.lower _ ascii]
  have free' : opensReserved (t.pend.map lowerByte) = false := (opens_lower _).trans free
  have notList := wordIn_free env.lower listWords free' (lower_ascii ascii) (by decide)
  have copied : u.copySlice env [b] = {u with
      prevWord := t.pend.map lowerByte,out := t.out ++ t.pend.map lowerByte ++ [byte ' '],
      pend := [],addSpace := false} := by
    have width : (t.pend.map lowerByte).length = t.pend.length := List.length_map ..
    have whole : fit t.pend.length (t.pend.map lowerByte) = t.pend.map lowerByte := by
      rw [← width]; exact fit_self _
    unfold View.copySlice
    rw [due]
    dsimp only
    rw [if_pos (List.length_pos_iff.mpr some),word]
    unfold View.afterCopy View.copyWord
    dsimp only
    rw [if_neg (by simp [notList]),if_pos add,whole,pend,List.drop_left,out]
    rfl
  unfold View.finish
  rw [copied]
  exact ⟨rfl,rfl,s,rfl,rfl,rfl,free'⟩

theorem endWord_turns (env : Env) (shows : Shows last t v) (some : t.pend ≠ [])
    (free : opensReserved t.pend = false)
    (ascii : ∀ c ∈ t.pend, c.toNat < 0x80) : ∃ u, (v.read [b]).endWord env [b] = .ok u ∧
      Shows b ⟨.gap,t.out ++ t.pend.map lowerByte ++ [byte ' '],[]⟩ (u.finish env b.toNat [b]) := by
  have pend : (v.read [b]).pend = t.pend ++ [b] := congrArg (· ++ [b]) shows.pend
  have word : toLower env.lower ((v.read [b]).word [b]) = t.pend.map lowerByte := by
    rw [read_word,shows.pend,toLower_ascii env.lower _ ascii]
  have never {x : Bytes} (same : toLower env.lower ((v.read [b]).word [b]) = x)
      (known : opensReserved x = true) : False := by
    rw [word] at same
    rw [← same,opens_lower,free] at known
    cases known
  have notAsc (found : wordIn env.lower (toLower env.lower ((v.read [b]).word [b])) [str "asc",
      str "asc,",str "asc "] = true) : False := by
    rw [word,wordIn_free env.lower _ ((opens_lower _).trans free) (lower_ascii ascii) (by decide)] at found
    cases found
  refine View.endWord_cases (motive := fun turn => ∃ u, turn = .ok u ∧
    Shows b _ (u.finish env b.toNat [b])) env _ _
    (fun use _ => (never use (by decide)).elim) (fun w same isNull => ?null) (fun _ => ⟨_,rfl,?order⟩)
    (fun _ isAsc => (notAsc isAsc).elim) (fun _ isAsc _ => (notAsc isAsc).elim)
      (fun _ => ⟨_,rfl,?update⟩) ⟨_,rfl,?other⟩
  case null =>
    rcases isNull with rfl | rfl
    · exact (never same (by decide)).elim
    · exact (never same (by decide)).elim
  all_goals exact copy_shows env some rfl rfl rfl shows.out pend free ascii

theorem space_turns (env : Env) (shows : Shows last t v) (known : Known last t) (text : space b = true)
    (notLast : space last = false) (free : opensReserved t.pend = false)
    (ascii : ∀ c ∈ t.pend, c.toNat < 0x80) :
    Turns env v b (t.read b) := by
  have notDigit : isDigit b.toNat = false := by
    simp only [space,isSpace,Bool.or_eq_true,beq_iff_eq] at text
    simp only [isDigit,Bool.and_eq_false_iff,decide_eq_false_iff_not]
    omega
  have changed : (v.read [b]).changeState env b.toNat [b] = (v.read [b]).onSpace env [b] := by
    unfold View.changeState
    rw [if_neg (by simp [notDigit]),if_pos (by exact text)]
  have state : (v.read [b]).s = stateOf t.mode last := shows.s
  have texts := stateOf_text t.mode last
  unfold Turns
  rw [changed,read_space t text]
  rcases known with ⟨rfl,rfl⟩ | after
  · have empty : (v.read [b]).endsInText = false := by
      have out : (v.read [b]).out = [] := shows.out
      simp [View.endsInText,out]
    have stays : (v.read [b]).onSpace env [b] = .ok (v.read [b]) := by
      unfold View.onSpace
      rw [state]
      simp [stateOf,blank,empty]
    exact ⟨_,stays,finish_shows env shows.plan shows.calm state shows.out
      (congrArg (· ++ [b]) shows.pend) shows.prevWord⟩
  · have ends (inText : t.mode = .word ∨ t.mode = .compare ∨ t.mode = .sign) : t.pend ≠ [] ∧
        (v.read [b]).onSpace env [b] = (v.read [b]).endWord env [b] := by
      refine ⟨?_,?_⟩
      · intro empty
        have ink := after.word inText
        rw [empty] at ink
        cases ink
      · have notUnknown : (v.read [b]).s ≠ .unknown := by
          rw [state]
          intro unknown
          rcases texts.2.2.1.mp unknown with mode | mode <;> simp [mode] at inText
        refine View.onSpace_cases (motive := fun turn => turn = (v.read [b]).endWord env [b]) env _ _
          (fun bad _ => absurd bad notUnknown) (fun bad _ => absurd bad notUnknown)
          (fun bad => absurd (state.symm.trans bad) texts.2.1)
            (fun bad _ => absurd (state.symm.trans bad) texts.1)
          (fun bad _ => absurd (state.symm.trans bad) texts.1) fun _ _ _ => rfl
    cases mode : t.mode with
    | fresh => exact absurd mode after.started
    | lead => exact absurd (after.blank.mp (.inl mode)) (by simp [notLast])
    | gap => exact absurd (after.blank.mp (.inr mode)) (by simp [notLast])
    | word | compare | sign =>
      obtain ⟨some,same⟩ := ends (by simp [mode])
      rw [same]
      exact endWord_turns env shows some free ascii

theorem text_kinds (b : UInt8) (text : textByte b = true) (notSpace : space b = false) (notSign : sign b = false)
    (notCompare : comparison b = false) :
    b = byte '(' ∨ ((letter b = true ∨ mark b = true) ∧ b ≠ byte '(') := by
  by_cases opens : b = byte '('
  · exact .inl opens
  · refine .inr ⟨?_,opens⟩
    simpa [textByte,notSpace,notSign,notCompare,opens] using text

-- One byte of plain text: the machine goes on and shows what the tape has read.
theorem step_shows (env : Env) (shows : Shows last t v) (known : Known last t) (text : textByte b = true)
    (plain : comments last b = false) (free : letter b = false → opensReserved t.pend = false)
    (ascii : ∀ c ∈ t.pend, c.toNat < 0x80) : ∃ w, v.step env b.toNat [b] = .ok w ∧ Shows b (t.read b) w := by
  have turns (through : ¬ (space b && space last) = true) (turn : Turns env v b (t.read b)) :
      ∃ w, v.step env b.toNat [b] = .ok w ∧ Shows b (t.read b) w := by
    obtain ⟨u,changed,after⟩ := turn
    rw [text_step env shows,if_neg through,changed]
    exact ⟨_,rfl,after⟩
  cases isSpace : space b with
  | true =>
    have notLetter : letter b = false := by
      cases isLetter : letter b with
      | false => rfl
      | true => rw [((letter_facts b).2.2 isLetter).1] at isSpace; cases isSpace
    cases before : space last with
    | false =>
      exact turns (by simp [before]) (space_turns env shows known isSpace before (free notLetter) ascii)
    | true =>
      rw [text_step env shows,if_pos (by simp [isSpace,before]),read_space t isSpace]
      rcases known with ⟨_,rfl⟩ | after
      · cases before
      · refine ⟨_,rfl,?_⟩
        rcases after.blank.mpr before with mode | mode
        · exact ⟨rfl,shows.calm,by rw [mode]; exact shows.s.trans (by rw [mode]; rfl),
            by rw [mode]; exact shows.out,
            by rw [mode]; rfl,rfl,shows.prevWord⟩
        · rw [mode]
          exact ⟨rfl,shows.calm,by rw [mode]; exact shows.s.trans (by rw [mode]; rfl),shows.out,
            (after.gap mode).symm,
            rfl,shows.prevWord⟩
  | false =>
    refine turns (by simp [isSpace]) ?_
    unfold Tape.read
    rw [if_neg (by simp [isSpace])]
    cases isSign : sign b with
    | true =>
      rw [if_pos rfl]
      exact sign_turns env shows isSign plain
    | false =>
      rw [if_neg (by simp)]
      cases isCompare : comparison b with
      | true =>
        rw [if_pos rfl]
        exact comparison_turns env shows isCompare
      | false =>
        rw [if_neg (by simp)]
        rcases text_kinds b text isSpace isSign isCompare with rfl | ⟨other,notPar⟩
        · simpa using par_turns env shows (free (by decide)) ascii
        · rw [bne_iff_ne.mpr notPar,Bool.and_true]
          exact other_turns env shows other plain

theorem read_pend {t : Tape} (ascii : ∀ c ∈ t.pend, c.toNat < 0x80) (text : textByte b = true) :
    ∀ c ∈ (t.read b).pend, c.toNat < 0x80 := by
  have single : ∀ c ∈ [b], c.toNat < 0x80 := by simpa using (text_ascii b text).1
  refine read_cases (motive := fun next => ∀ c ∈ next.pend, c.toNat < 0x80) t b single (by simp)
    (fun _ => ascii) (by simp)
    fun mode kept => ?_
  cases kept with
  | false => exact single
  | true =>
    intro c found
    rcases List.mem_append.mp found with found | found
    · exact ascii c found
    · exact single c found

-- Induction over the text: the tape, the letters of the open word and the byte read last go along.
theorem run_shows (env : Env) (rest : Bytes) (shows : Shows last t v) (known : Known last t)
    (aligned : Aligned recent t)
    (ascii : ∀ c ∈ t.pend, c.toNat < 0x80) (text : ∀ b ∈ rest, textByte b = true)
    (plain : uncommented (last :: rest) = true)
    (free : ∀ w ∈ fieldsFrom notLetter recent rest, reserved w = false) :
    ∃ w, View.run env (rest.map fun b => (b.toNat,[b])) v = .ok w ∧ w.out = (t.run rest).out := by
  induction rest generalizing last t v recent with
  | nil => exact ⟨v,rfl,shows.out⟩
  | cons b rest ih =>
    rw [uncommented,Bool.and_eq_true,Bool.not_eq_true'] at plain
    have isText := text b (by simp)
    have closed (other : letter b = false) (some : recent ≠ []) : reserved recent = false :=
      free recent (by simp [fieldsFrom,notLetter,other,some])
    obtain ⟨w,step,next⟩ :=
      step_shows env shows known isText plain.1 (fun other => aligned.free (closed other)) ascii
    have after : Known b (t.read b) := .inr (read_after b (known.imp And.left fun after => ⟨last,after⟩))
    have words : ∀ w ∈ fieldsFrom notLetter (if letter b then recent ++ [b] else []) rest,
        reserved w = false := by
      intro w found
      refine free w ?_
      rw [fieldsFrom]
      cases isLetter : letter b with
      | true => simpa [notLetter,isLetter] using found
      | false =>
        rw [isLetter] at found
        by_cases none : recent = []
        · simpa [notLetter,isLetter,none] using found
        · simp only [notLetter,isLetter,none]
          exact List.mem_cons_of_mem _ found
    obtain ⟨u,run,out⟩ := ih next after (read_aligned aligned closed) (read_pend ascii isText)
      (fun c found => text c (by simp [found])) plain.2 words
    refine ⟨u,?_,out⟩
    change (v.step env b.toNat [b] >>= View.run env (rest.map fun b => (b.toNat,[b]))) = _
    rw [step]
    exact run

theorem fields_close {sep : UInt8 → Bool} (ends : sep b = true) (q field : Bytes) :
    fieldsFrom sep field (q ++ [b]) = fieldsFrom sep field q := by
  induction q generalizing field with
  | nil => simp [fieldsFrom,ends]
  | cons a q ih => rw [List.cons_append,fieldsFrom,fieldsFrom,ih,ih]

theorem uncommented_close (a : UInt8) (q : Bytes) (plain : uncommented (a :: q) = true) :
    uncommented (a :: (q ++ [byte ' '])) = true := by
  induction q generalizing a with
  | nil =>
    have blank : comments a (byte ' ') = false := by
      rw [comments,show (byte ' ' == byte '-') = false from rfl,show (byte ' ' == byte '*') = false from rfl]
      simp
    rw [List.nil_append,uncommented,blank]
    rfl
  | cons b q ih =>
    rw [uncommented,Bool.and_eq_true] at plain
    rw [List.cons_append,uncommented,plain.1,ih b plain.2]
    rfl

theorem plain_result (env : Env) (plain : plainText q = true) :
    ∃ w, View.result env q = .ok w ∧ w.out = (blank.run (q ++ [byte ' '])).out := by
  simp only [plainText,Bool.and_eq_true,List.all_eq_true,Bool.not_eq_true'] at plain
  obtain ⟨⟨text,pairs⟩,words⟩ := plain
  have texts : ∀ b ∈ q ++ [byte ' '], textByte b = true := by
    intro b found
    rcases List.mem_append.mp found with found | found
    · exact text b found
    · rw [List.mem_singleton.mp found]; decide
  have shows : Shows 0 blank View.start := ⟨rfl,rfl,rfl,rfl,rfl,rfl,rfl⟩
  have aligned : Aligned [] blank := ⟨fun _ => rfl,fun _ => rfl,nofun⟩
  have opened : uncommented (0 :: q) = true := by
    cases q with
    | nil => rfl
    | cons b q => rw [uncommented,pairs]; rfl
  have run := run_shows env (q ++ [byte ' ']) shows (.inl ⟨rfl,rfl⟩) aligned (by simp [blank]) texts
    (uncommented_close 0 q opened) (by rw [fields_close (by decide)]; exact words)
  rw [← runes_text _ fun b found => (text_ascii b (texts b found)).1] at run
  exact run

-- The fingerprint of a plain text is its canonical form unless a sign or a comparison
-- stands directly before what it belongs to.
theorem plain_text_kept_iff (env : Env) (q : Bytes) (plain : plainText q = true) :
    fingerprint env q = some (canonical env.lower q) ↔ keepsText q = true := by
  obtain ⟨w,result,out⟩ := plain_result env plain
  have small : (written (View.result env q)).length ≤ q.length+1 := by
    have size := run_size (q ++ [byte ' ']) blank
    rw [← out,List.length_append] at size
    simpa [result,written,blank] using size
  have texts : ∀ b ∈ q, textByte b = true := by
    simp only [plainText,Bool.and_eq_true,List.all_eq_true] at plain
    exact plain.1.1
  rw [fingerprint_answer (completes_of_fits small),result,Option.some.injEq]
  change (w.out.rdropWhile space).filter (· ≠ 0) = _ ↔ _
  rw [out]
  exact text_canonical env.lower q (fun b found => (text_ascii b (texts b found)).1) fun b found =>
    (text_ascii b (texts b found)).2

theorem spaced_text_kept : plainText (str "SELECT a + b FROM t") = true ∧
    fingerprint asciiEnv (str "SELECT a + b FROM t") = some (canonical id (str "SELECT a + b FROM t")) :=
  ⟨by decide +kernel,(plain_text_kept_iff asciiEnv (str "SELECT a + b FROM t")
    (by decide +kernel)).mpr (by decide +kernel)⟩

theorem operand_lost : plainText (str "a+b") = true ∧ plainText (str "c+b") = true ∧
    canonical id (str "a+b") = str "a+b" ∧ fingerprint asciiEnv (str "a+b") = some (str "b") ∧
    fingerprint asciiEnv (str "c+b") = some (str "b") := by decide +kernel

end SqlReview.FingerprintText
