import SqlReview.FingerprintDrift
import SqlReview.OrderClause

-- The machine behind ORDER BY.
namespace SqlReview.FingerprintOrder
open GoBytes Fingerprint FingerprintView FingerprintLiteral FingerprintPending FingerprintRegular
  FingerprintNumber PlainText OrderClause
open FingerprintTwin (word_read lockstep)
open FingerprintDrift (driftSafe drifted Drift run_drifts Drifts)

-- The characters of a list of columns.
def listed (b : UInt8) : Bool := letter b || b = byte ','

theorem listed_kinds : ∀ b : UInt8,listed b = true → isDigit b.toNat = false ∧
    isSpace b.toNat = false ∧ b.toNat < 0x80 ∧
    ['\'','"','\x60','=','<','>','!','/','*','+','-','.','(',':','#'].all
      (fun c => b.toNat != rune c) = true :=
  every_byte (by decide +kernel)

theorem listed_changes (env : Env) (v : View) {b : UInt8} (bs : Bytes) (own : listed b = true)
    (state : v.s ≠ .moreValuesOrUnknown) :
    View.changeState env v b.toNat bs = .ok (v.onOther bs) := by
  obtain ⟨digit,space,_,others⟩ := listed_kinds b own
  simp only [List.all_cons,Bool.and_eq_true,bne_iff_ne] at others
  unfold View.changeState
  simp [digit,space,others,state]

-- What stays the same while the list is read.
structure Base (u : View) : Prop where
  plan : u.plan = none
  sql : u.sqlState = .orderBy
  far : u.far = 4
  gap : u.gap = 2
  none_ : u.valueNo = 0

def textView (u : View) (c : Clause) (add marked : Bool) (pr : Nat) : View :=
  {u with
    out := c.out,prevWord := c.prev,pend := c.word,addSpace := add,pr := pr,s := .inWord,marked := marked}

def gapView (u : View) (c : Clause) (pend : Bytes) (add : Bool) (pr : Nat) : View :=
  {u with out := c.out,prevWord := c.prev,pend := pend,addSpace := add,pr := pr,s := .inSpace,marked := true}

inductive Reads (u : View) (c : Clause) : View → Prop where
  | text (add marked : Bool) (pr : Nat) : c.word ≠ [] → isSpace pr = false →
    Reads u c (textView u c add marked pr)
  | gap (pend : Bytes) (add : Bool) (pr : Nat) : c.word = [] → isSpace pr = true →
    Reads u c (gapView u c pend add pr)

structure Plain (c : Clause) : Prop where
  word : ∀ b ∈ c.word,listed b = true
  prev : c.prev ≠ []

-- The first character of a word.
theorem word_begins (env : Env) {v : View} (state : v.s = .inSpace) (plan : v.plan = none)
    (sql : v.sqlState = .orderBy) (far : v.far = 4)
    (gap : 1 ≤ v.gap ∧ v.gap ≤ 2) {b : UInt8} (own : listed b = true) :
    View.step env v b.toNat [b] =
      .ok (textView {v with gap := 2,valueNo := 0} ⟨v.out,v.prevWord,[b]⟩ v.addSpace v.marked b.toNat) := by
  have state' : (v.read [b]).s = .inSpace := state
  have changed := listed_changes env (v.read [b]) [b] own (by rw [state']; decide)
  rw [View.onOther,if_pos (by rw [state']; decide)] at changed
  have step := calm_step (by rw [state]; rfl) (by rw [(listed_kinds b own).2.1]; rfl) changed
  rw [View.finish,copySlice_calm env _ [b] (by exact plan)] at step
  have wide : min 2 (v.gap+1) = 2 := by omega
  rw [step]
  simp [textView,View.read,View.fromHere,View.advance,far,wide,plan,sql]

section
variable {u : View} (base : Base u) {c : Clause} (env : Env)
include base

theorem text_goes (add marked : Bool) (pr : Nat) {b : UInt8} (own : listed b = true) :
    View.step env (textView u c add marked pr) b.toNat [b] =
      .ok (textView u {c with word := c.word ++ [b]} add marked b.toNat) := by
  have changed := listed_changes env ((textView u c add marked pr).read [b]) [b] own nofun
  rw [View.onOther,if_neg (fun both => both.1 rfl)] at changed
  have step := calm_step rfl (by rw [(listed_kinds b own).2.1]; rfl) changed
  rw [View.finish,copySlice_calm env _ [b] (by exact base.plan)] at step
  rw [step]
  simp [textView,View.read,View.advance,base.far,base.gap,base.plan]

theorem blank_goes (pend : Bytes) (add : Bool) (pr : Nat) {b : UInt8} (blank : space b = true)
    (before : isSpace pr = true) :
    View.step env (gapView u c pend add pr) b.toNat [b] = .ok (gapView u c [] add b.toNat) := by
  have part := view_skipPart_other ((gapView u c pend add pr).read [b]) b.toNat [b] rfl
  have both : (isSpace b.toNat && isSpace ((gapView u c pend add pr).read [b]).pr) = true :=
    Bool.and_eq_true_iff.mpr ⟨blank,before⟩
  rw [if_pos both] at part
  rw [step_skips part]
  simp [gapView,View.read,View.fromNext,View.advance,base.far,base.gap,base.plan]

end

theorem lower_again : ∀ b : UInt8,lowerByte (lowerByte b) = lowerByte b ∧
    (b.toNat < 0x80 → (lowerByte b).toNat < 0x80) :=
  every_byte (by decide +kernel)

theorem word_ascii {w : Bytes} (own : ∀ b ∈ w,listed b = true) : ∀ b ∈ w,b.toNat < 0x80 :=
  fun b mem => (listed_kinds b (own b mem)).2.2.1

theorem lower_word (lower : Nat → Nat) {w : Bytes} (own : ∀ b ∈ w,listed b = true) :
    toLower lower w = w.map lowerByte ∧ toLower lower (w.map lowerByte) = w.map lowerByte := by
  have ascii : ∀ b ∈ w.map lowerByte,b.toNat < 0x80 := by
    intro b mem
    obtain ⟨c,inside,rfl⟩ := List.mem_map.mp mem
    exact (lower_again c).2 (word_ascii own c inside)
  refine ⟨toLower_ascii lower w (word_ascii own),?_⟩
  rw [toLower_ascii lower _ ascii,List.map_map]
  apply List.map_congr_left
  intro b _
  exact (lower_again b).1

theorem wordIn_asc (lower : Nat → Nat) {w : Bytes} (own : ∀ b ∈ w,listed b = true) :
    wordIn lower (w.map lowerByte) [str "asc",str "asc,",str "asc "] = isAsc (w.map lowerByte) := by
  have inner : w.map lowerByte ≠ str "asc " := by
    intro same
    have mem : byte ' ' ∈ w.map lowerByte := by
      rw [same]
      decide
    obtain ⟨c,inside,blank⟩ := List.mem_map.mp mem
    have kinds : ∀ c : UInt8,listed c = true → lowerByte c ≠ byte ' ' := every_byte (by decide +kernel)
    exact kinds c (own c inside) blank
  rw [wordIn,(lower_word lower own).2]
  simp [isAsc,inner]

-- What the machine does with a word of the list when it ends.
theorem list_match (env : Env) {v : View} (bs : Bytes) {w : Bytes} (own : ∀ b ∈ w,listed b = true)
    (sql : v.sqlState = .orderBy) (prev : v.prevWord ≠ [])
    (update : ¬ (v.prevWord = str "key" ∧ w.map lowerByte = str "update")) :
    v.matchWord env (w.map lowerByte) bs =
      .ok (if isNull v.prevWord (w.map lowerByte) then v.nullValue (w.map lowerByte) bs
      else if isAsc (w.map lowerByte) then
        {v with out := if comma (w.map lowerByte) then v.out.dropLast ++ [byte ',',
        byte ' '] else v.out,pend := bs}
      else v) := by
  unfold View.matchWord
  rw [if_neg fun both => prev both.2]
  have null : ((w.map lowerByte = str "null" ∧ v.prevWord ≠ str "is" ∧ v.prevWord ≠ str "not") ∨
  w.map lowerByte = str "null,") ↔
      isNull v.prevWord (w.map lowerByte) = true := by
    simp [isNull,and_assoc]
  by_cases isNull_ : isNull v.prevWord (w.map lowerByte) = true
  · rw [if_pos (null.mpr isNull_),if_pos isNull_]
  · rw [if_neg fun found => isNull_ (null.mp found),if_neg isNull_]
    have order : ({v with sqlState := .orderBy} : View) = v := by rw [← sql]
    by_cases begins : v.prevWord = str "order" ∧ w.map lowerByte = str "by"
    · have other : isAsc (w.map lowerByte) = false := by
        rw [begins.2]
        decide
      rw [if_pos begins,other,order]
      rfl
    · rw [if_neg begins,wordIn_asc env.lower own]
      by_cases asc : isAsc (w.map lowerByte) = true
      · rw [if_pos ⟨sql,asc⟩,if_pos asc]
        by_cases ends : (w.map lowerByte).getLast? = some (byte ',')
        · have last : comma (w.map lowerByte) = true := decide_eq_true ends
          rw [if_pos ends,last]
          rfl
        · have last : comma (w.map lowerByte) = false := decide_eq_false ends
          rw [if_neg ends,last]
          rfl
      · rw [if_neg fun both => asc both.2,if_neg asc,if_neg update]

-- The view before a word with its space is copied, whatever the word before was.
def dueView (u : View) (c : Clause) (b : UInt8) : View :=
  {u with
    out := c.out,prevWord := [],pend := c.word ++ [b],plan := some 0,marked := true,s := .inSpace,
    addSpace := true}

theorem finish_word (env : Env) {v w : View} (some_ : 0 < v.due bs)
    (same : w = {v with prevWord := w.prevWord,pr := w.pr}) :
    v.finish env r bs = w.finish env r bs := by
  rw [same]
  have due : View.due {v with prevWord := w.prevWord,pr := w.pr} bs = v.due bs := rfl
  unfold View.finish View.copySlice
  rw [due]
  dsimp only
  rw [if_pos some_,if_pos some_]
  unfold View.copyWord View.afterCopy
  dsimp only
  split
  · rfl
  · split <;> rfl

section
variable {u : View} (base : Base u) {c : Clause} (env : Env) (plain : Plain c) (add marked : Bool)
  (pr : Nat) {b : UInt8} (blank : space b = true)
  (before : isSpace pr = false) (update : ¬ (c.prev = str "key" ∧ c.word.map lowerByte = str "update"))
include base plain blank before update

-- Whitespace ends the word.
theorem word_ends : View.step env (textView u c add marked pr) b.toNat [b] = .ok (View.finish env
    (let v := (textView u c add marked pr).read [b]
    {(if isNull c.prev (c.word.map lowerByte) then v.nullValue (c.word.map lowerByte) [b]
      else if isAsc (c.word.map lowerByte) then
        {v with out := if comma (c.word.map lowerByte) then c.out.dropLast ++ [byte ',',
        byte ' '] else c.out,pend := [b]}
      else v).mark with s := .inSpace,addSpace := true}) b.toNat [b]) := by
  have digit : ∀ b : UInt8,space b = true → isDigit b.toNat = false := every_byte (by decide +kernel)
  have matched :=
    list_match env (v := (textView u c add marked pr).read [b]) [b] plain.word base.sql plain.prev update
  apply calm_step rfl (by rw [show isSpace (textView u c add marked pr).pr = false from before,
    Bool.and_false])
  unfold View.changeState
  rw [if_neg (by rw [digit b blank]; exact nofun),if_pos (by exact blank)]
  change View.endWord env ((textView u c add marked pr).read [b]) [b] = _
  unfold View.endWord
  rw [word_read,show (textView u c add marked pr).pend = c.word from rfl,
    (lower_word env.lower plain.word).1,matched]
  rfl

theorem null_ends (null : isNull c.prev (c.word.map lowerByte) = true) :
    View.step env (textView u c add marked pr) b.toNat [b] = .ok (gapView u c.close [] true b.toNat) := by
  rw [word_ends base env plain add marked pr blank before update]
  dsimp only
  rw [if_pos null,View.nullValue_eq,View.finish,copySlice_idle]
  · unfold Clause.close
    dsimp only
    rw [if_pos null]
    simp [gapView,textView,View.read,View.mark,View.advance,base.far,base.gap,base.plan,comma]
  · rfl

theorem asc_ends (null : isNull c.prev (c.word.map lowerByte) = false)
    (asc : isAsc (c.word.map lowerByte) = true) :
    View.step env (textView u c add marked pr) b.toNat [b] = .ok (gapView u c.close [b] true b.toNat) := by
  rw [word_ends base env plain add marked pr blank before update,null,asc]
  dsimp only
  rw [if_neg Bool.false_ne_true,if_pos rfl,View.finish,copySlice_none env _ [b] rfl rfl]
  unfold Clause.close
  dsimp only
  rw [null,asc,if_neg Bool.false_ne_true,if_pos rfl]
  simp [gapView,textView,View.read,View.mark,View.advance,base.far,base.gap,base.plan]

theorem copy_ends (some_ : c.word ≠ []) (null : isNull c.prev (c.word.map lowerByte) = false)
    (asc : isAsc (c.word.map lowerByte) = false) :
    View.step env (textView u c add marked pr) b.toNat [b] =
      .ok (View.finish env (dueView u c b) b.toNat [b]) := by
  rw [word_ends base env plain add marked pr blank before update,null,asc]
  dsimp only
  rw [if_neg Bool.false_ne_true,if_neg Bool.false_ne_true]
  apply congrArg Except.ok
  apply finish_word
  · have due :=
      due_split (u := {((textView u c add marked pr).read [b]).mark with
        s := .inSpace,addSpace := true}) (x := c.word) rfl rfl
    rw [due]
    exact List.length_pos_iff.mpr some_
  · simp [dueView,textView,View.read,View.mark,base.far]

end

-- The word is copied with a space.
theorem copy_shows {u : View} (base : Base u) (env : Env) (plain : Plain c) (some_ : c.word ≠ [])
    (b : UInt8) (unlisted : listWords.contains (c.word.map lowerByte) = false) :
    View.finish env (dueView u c b) b.toNat [b] =
      gapView u ⟨c.out ++ c.word.map lowerByte ++ [byte ' '],c.word.map lowerByte,[]⟩ [] false b.toNat := by
  obtain ⟨lower,again⟩ := lower_word env.lower plain.word
  have due : View.due (dueView u c b) [b] = c.word.length :=
    due_split (u := dueView u c b) (x := c.word) rfl rfl
  have slice : (dueView u c b).pend.take c.word.length = c.word := List.take_left
  have rest : (dueView u c b).pend.drop c.word.length = [b] := List.drop_left
  have size : (c.word.map lowerByte).length = c.word.length := List.length_map _
  have whole : fit c.word.length (c.word.map lowerByte) = c.word.map lowerByte := by
    rw [← size]
    exact fit_self _
  unfold View.finish View.copySlice
  rw [due]
  dsimp only
  rw [if_pos (List.length_pos_iff.mpr some_),slice,lower]
  unfold View.copyWord
  rw [rest,whole,View.afterCopy,
    if_neg (by rw [wordIn,again,unlisted]; exact fun both => Bool.false_ne_true both.1),if_pos (by rfl)]
  simp [gapView,dueView,View.write,View.advance,base.far,base.gap,base.plan]

theorem blank_ascii : ∀ b : UInt8,space b = true → b.toNat < 0x80 := every_byte (by decide +kernel)

theorem listed_space : ∀ b : UInt8,listed b = true → space b = false := every_byte (by decide +kernel)

theorem close_plain (plain : Plain c) (some_ : c.word ≠ []) : Plain c.close := by
  refine ⟨?_,?_⟩
  · rw [close_word]
    exact nofun
  · unfold Clause.close
    dsimp only
    split
    · exact plain.prev
    · split
      · exact plain.prev
      · simpa using some_

section
variable {u : View} (base : Base u) (env : Env)
include base

-- One character of the list: the machine does what the clause does.
theorem step_reads {v : View} (plain : Plain c) (reads : Reads u c v) (own : listed b = true ∨ space b = true)
    (safe : (!space b || c.word = [] || closable c.prev (c.word.map lowerByte)) = true) :
    ∃ w,View.step env v b.toNat [b] = .ok w ∧ Reads u (c.read b) w ∧ Plain (c.read b) := by
  by_cases blank : space b = true
  · unfold Clause.read
    rw [if_pos blank]
    cases reads with
    | gap pend add pr closed before =>
      rw [if_pos closed]
      exact ⟨_,blank_goes base env pend add pr blank before,.gap _ _ _ closed blank,plain⟩
    | text add marked pr some_ before =>
      rw [blank,Bool.not_true,Bool.false_or,decide_eq_false some_,Bool.false_or] at safe
      rw [if_neg some_]
      have closed := close_plain plain some_
      simp only [closable,Bool.and_eq_true,Bool.not_eq_true'] at safe
      obtain ⟨unlisted,update⟩ := safe
      have update : ¬ (c.prev = str "key" ∧ c.word.map lowerByte = str "update") := by simpa using update
      cases null : isNull c.prev (c.word.map lowerByte) with
      | true =>
        exact ⟨_,null_ends base env plain add marked pr blank before update null,
          .gap _ _ _ (close_word c) blank,closed⟩
      | false =>
        cases asc : isAsc (c.word.map lowerByte) with
        | true =>
          exact ⟨_,asc_ends base env plain add marked pr blank before update null asc,
            .gap _ _ _ (close_word c) blank,closed⟩
        | false =>
          have shown : c.close = ⟨c.out ++ c.word.map lowerByte ++ [byte ' '],c.word.map lowerByte,[]⟩ := by
            unfold Clause.close
            dsimp only
            rw [null,asc,if_neg Bool.false_ne_true,if_neg Bool.false_ne_true]
          refine ⟨_,copy_ends base env plain add marked pr blank before update some_ null asc,?_,closed⟩
          rw [copy_shows base env plain some_ b unlisted,← shown]
          exact .gap _ _ _ (close_word c) blank
  · have own := own.resolve_right blank
    have ink := (listed_kinds b own).2.1
    unfold Clause.read
    rw [if_neg blank]
    have more : Plain {c with word := c.word ++ [b]} :=
      ⟨List.forall_mem_append.mpr ⟨plain.word,List.forall_mem_singleton.mpr own⟩,plain.prev⟩
    cases reads with
    | text add marked pr some_ before =>
      exact ⟨_,text_goes base env add marked pr own,.text _ _ _ (by simp) ink,more⟩
    | gap pend add pr closed before =>
      have step :=
        word_begins env (v := gapView u c pend add pr) rfl base.plan base.sql base.far
          (by rw [show (gapView u c pend add pr).gap = 2 from base.gap]; decide) own
      have same : textView {gapView u c pend add pr with gap := 2,valueNo := 0} ⟨c.out,c.prev,
          [b]⟩ add true b.toNat =
          textView u {c with word := c.word ++ [b]} add true b.toNat := by
        simp [textView,gapView,base.gap,base.none_,closed]
      exact ⟨_,step,same ▸ .text _ _ _ (by simp) ink,more⟩

theorem run_reads {v : View} (plain : Plain c) (reads : Reads u c v)
    (own : ∀ b ∈ t,listed b = true ∨ space b = true) (safe : clauseSafe c t = true) :
    ∃ w,View.run env (runes t) v = .ok w ∧ Reads u (c.run t) w ∧ Plain (c.run t) := by
  induction t generalizing c v with
  | nil => exact ⟨v,rfl,reads,plain⟩
  | cons b t ih =>
    obtain ⟨first,later⟩ := List.forall_mem_cons.mp own
    rw [clauseSafe,Bool.and_eq_true] at safe
    have ascii : b.toNat < 0x80 := by
      rcases first with text | blank
      · exact (listed_kinds b text).2.2.1
      · exact blank_ascii b blank
    obtain ⟨w,step,next,more⟩ := step_reads base env plain reads first safe.1
    obtain ⟨x,run,last⟩ := ih more next later safe.2
    rw [runes_cons_ascii ascii,run_step step]
    exact ⟨x,run,last⟩

end

-- The list of columns begins.
def clauseOpen (u : View) : Bool := u.s = .inSpace && u.sqlState = .orderBy && u.prevWord = str "by"

structure Opened (u : View) : Prop where
  state : u.s = .inSpace
  sql : u.sqlState = .orderBy
  prev : u.prevWord = str "by"
  plan : u.plan = none
  far : u.far = 4
  gap : 1 ≤ u.gap ∧ u.gap ≤ 2

theorem opened_run {u : View} (size : 4 ≤ p.length) (ends : p.getLast? = some (byte ' '))
    (run : View.run env (runes p) .start = .ok u) (clause : clauseOpen u = true) :
    Opened u := by
  simp only [clauseOpen,Bool.and_eq_true,decide_eq_true_eq] at clause
  obtain ⟨⟨state,sql⟩,prev⟩ := clause
  have regular := run_regular start_regular run
  have far := run_far_eq run
  obtain ⟨q,rfl⟩ := List.getLast?_eq_some_iff.mp ends
  exact ⟨state,sql,prev,regular.plan (by rw [state]; exact nofun),by omega,run_gap (by decide) run⟩

-- The list from its beginning.
theorem list_run (env : Env) {u : View} (opened : Opened u) (b : UInt8) (t : Bytes)
    (own : ∀ c ∈ b :: t,listed c = true ∨ space c = true) (letter_ : letter b = true)
    (safe : clauseSafe ⟨u.out,str "by",[]⟩ (b :: t) = true) :
    ∃ w,View.run env (runes (b :: t)) u = .ok w ∧
      Reads {u with gap := 2,valueNo := 0} (Clause.run ⟨u.out,str "by",[]⟩ (b :: t)) w ∧
      Plain (Clause.run ⟨u.out,str "by",[]⟩ (b :: t)) := by
  have base : Base {u with gap := 2,valueNo := 0} := ⟨opened.plan,opened.sql,opened.far,rfl,rfl⟩
  have listed_ : listed b = true := by rw [listed,letter_]; rfl
  have ink := (listed_kinds b listed_).2.1
  have first := word_begins env opened.state opened.plan opened.sql opened.far opened.gap listed_
  have reads : Clause.read ⟨u.out,str "by",[]⟩ b = ⟨u.out,str "by",[b]⟩ := by
    rw [Clause.read,if_neg (by rw [listed_space b listed_]; exact Bool.false_ne_true)]
    rfl
  rw [clauseSafe,Bool.and_eq_true,reads] at safe
  have plain : Plain ⟨u.out,str "by",[b]⟩ := ⟨List.forall_mem_singleton.mpr listed_,List.cons_ne_nil _ _⟩
  have prev : (⟨u.out,u.prevWord,[b]⟩ : Clause) = ⟨u.out,str "by",[b]⟩ := by rw [opened.prev]
  rw [prev] at first
  rw [OrderClause.run_cons,reads,runes_cons_ascii (listed_kinds b listed_).2.2.1,run_step first]
  exact run_reads base env plain (.text _ _ _ (List.cons_ne_nil _ _) ink)
    (List.forall_mem_cons.mp own).2 safe.2

theorem reads_out {v : View} (reads : Reads u c v) : v.out = c.out := by
  cases reads with
  | text => rfl
  | gap => rfl

-- Behind the whitespace that closes a column the runs differ in the previous word and in whether a
-- space is due.
theorem gap_drifts {u x y : View} (base : Base u) (env : Env) {a b : Clause} (level : Level a b)
    (closed : a.word = []) (left : Reads u a x) (right : Reads u b y)
    (own : listed d = true ∨ space d = true) : ∃ x' y',View.step env x d.toNat [d] = .ok x' ∧
    View.step env y d.toNat [d] = .ok y' ∧ Drift x' y' := by
  have gap : (gapView u a [] true 0).gap = 2 := base.gap
  cases left with
  | text _ _ _ some_ => exact absurd closed some_
  | gap pend add pr _ before =>
    cases right with
    | text _ _ _ some_ => exact absurd (level.word ▸ closed) some_
    | gap pend' add' pr' _ before' =>
      by_cases blank : space d = true
      · refine ⟨_,_,blank_goes base env pend add pr blank before,
          blank_goes base env pend' add' pr' blank before',⟨?_⟩⟩
        unfold gapView drifted
        rw [level.out]
      · have own := own.resolve_right blank
        have wide : 1 ≤ (gapView u a [] true 0).gap ∧ (gapView u a [] true 0).gap ≤ 2 := by rw [gap]; decide
        refine ⟨_,_,word_begins env (v := gapView u a pend add pr) rfl base.plan base.sql base.far wide own,
          word_begins env (v := gapView u b pend' add' pr') rfl base.plan base.sql base.far wide own,⟨?_⟩⟩
        unfold textView gapView drifted
        rw [level.out]

-- The column with the last deleted ASC, and the columns before and behind it.
def lastDeleted : List Item → Option (List Item × Item × List Item)
  | [] => none
  | item :: rest =>
    match lastDeleted rest with
    | some (front,last,back) => some (item :: front,last,back)
    | none => if item.deleted then some ([],item,rest) else none

-- What follows the column: a comma and the other columns, and what is behind the list.
def following (last : Item) (back : List Item) (s : Bytes) : Bytes :=
  match back with
  | [] => s ++ [byte ' ']
  | next :: more => byte ',' :: (last.after ++ (listText Item.text (next :: more) ++ (s ++ [byte ' '])))

-- The comma and the whitespace that closes the column.
def closeAt : List Item → Nat
  | [] => 1
  | _ :: _ => 2

-- The words up to the last deleted ASC stay in the list and are read alike, and behind it the runs
-- come together before the previous word or the space that is due makes a difference.
def ascSafe (env : Env) (q : Bytes) (items : List Item) (s : Bytes) : Bool :=
  match View.run env (runes q) .start,lastDeleted items with
  | .ok u,some (front,last,back) =>
    let closing := (following last back s).take (closeAt back)
    let rest := runes ((following last back s).drop (closeAt back))
    clauseOpen u && commasSpaced items && listSafe ⟨u.out,str "by",[]⟩ ⟨u.out,str "by",[]⟩ closing
      (front ++ [last]) &&
    match View.run env (runes (listText Item.text (front ++ [last]) ++ closing)) u,
      View.run env (runes (listText Item.kept (front ++ [last]) ++ closing)) u with
    | .ok v,.ok w => lockstep env (fun v w piece _ => driftSafe env v w piece) rest rest v w
    | _,_ => true
  | _,_ => true

theorem kept_same (kept : ∀ item ∈ items,Item.deleted item = false) :
    listText Item.kept items = listText Item.text items := by
  have own (item : Item) (kept : item.deleted = false) : item.kept = item.text := by
    rw [Item.kept,kept]
    rfl
  induction items with
  | nil => rfl
  | cons item rest ih =>
    obtain ⟨here,later⟩ := List.forall_mem_cons.mp kept
    cases rest with
    | nil => exact own item here
    | cons next rest =>
      change item.kept ++ _ = item.text ++ _
      rw [own item here,ih later]

theorem lastDeleted_none (none_ : lastDeleted items = none) : ∀ item ∈ items,item.deleted = false := by
  induction items with
  | nil => exact nofun
  | cons item rest ih =>
    unfold lastDeleted at none_
    cases found : lastDeleted rest with
    | some parts =>
      rw [found] at none_
      cases none_
    | none =>
      rw [found] at none_
      refine List.forall_mem_cons.mpr ⟨?_,ih found⟩
      cases deleted : item.deleted with
      | false => rfl
      | true =>
        rw [deleted] at none_
        cases none_

theorem lastDeleted_some (found : lastDeleted items = some (front,last,back)) :
    items = front ++ last :: back ∧ last.deleted = true ∧ ∀ item ∈ back,item.deleted = false := by
  induction items generalizing front with
  | nil => cases found
  | cons item rest ih =>
    unfold lastDeleted at found
    cases later : lastDeleted rest with
    | some parts =>
      rw [later] at found
      cases found
      obtain ⟨same,deleted,kept⟩ := ih later
      rw [same]
      exact ⟨rfl,deleted,kept⟩
    | none =>
      rw [later] at found
      dsimp only at found
      split at found
      · cases found
        exact ⟨rfl,‹_›,lastDeleted_none later⟩
      · cases found

section
variable {front back : List Item} {last : Item}

theorem list_cut (text : Item → Bytes) (next : Item) : listText text (front ++ last :: next :: back) =
    listText text (front ++ [last]) ++ byte ',' :: (last.after ++ listText text (next :: back)) := by
  induction front with
  | nil => rfl
  | cons item front ih =>
    cases front with
    | nil => simp [OrderClause.listText]
    | cons second front =>
      change text item ++ byte ',' ::
        (item.after ++ listText text (second :: front ++ last :: next :: back)) =
        text item ++ byte ',' :: (item.after ++ listText text (second :: front ++ [last])) ++ _
      rw [ih]
      simp

theorem query_cut {kept : Item → Bytes} (same : listText kept back = listText Item.text back) (s : Bytes) :
    listText kept (front ++ last :: back) ++ s ++ [byte ' '] = listText kept (front ++ [last]) ++
      following last back s := by
  cases back with
  | nil => simp [following]
  | cons next back =>
    rw [list_cut,same]
    simp [following]

theorem commas_cut (spaced : commasSpaced (front ++ last :: back) = true) (deleted : last.deleted = true) :
    commasSpaced (front ++ [last]) = true ∧ (back ≠ [] → last.after ≠ []) := by
  induction front with
  | nil =>
    refine ⟨rfl,fun some_ => ?_⟩
    cases back with
    | nil => exact absurd rfl some_
    | cons next back =>
      have wide := (Bool.and_eq_true_iff.mp (spaced : ((!last.deleted || last.after ≠ []) && _) = true)).1
      simpa [deleted] using wide
  | cons item front ih =>
    cases front with
    | nil =>
      have both :=
        Bool.and_eq_true_iff.mp
          (spaced : ((!item.deleted || item.after ≠ []) && commasSpaced (last :: back)) = true)
      obtain ⟨_,wide⟩ := ih both.2
      exact ⟨Bool.and_eq_true_iff.mpr ⟨both.1,rfl⟩,wide⟩
    | cons second front =>
      have both :=
        Bool.and_eq_true_iff.mp
          (spaced : ((!item.deleted || item.after ≠ []) &&
          commasSpaced (second :: front ++ last :: back)) = true)
      obtain ⟨calm,wide⟩ := ih both.2
      exact ⟨Bool.and_eq_true_iff.mpr ⟨both.1,calm⟩,wide⟩

end

-- Behind the list there is nothing, or a space and a word.
def wordBehind (s : Bytes) : Bool :=
  match s with
  | [] => true
  | b :: rest => b = byte ' ' && rest.head?.any letter

theorem letter_listed (own : letter b = true) : listed b = true := by
  rw [listed,own]
  rfl

-- A column is closed by whitespace or by a comma and whitespace; a word, whitespace or nothing follows.
structure Closes (closing rest : Bytes) : Prop where
  form : Closing closing
  text : ∀ b ∈ closing,listed b = true ∨ space b = true
  blank : ∃ t c,closing = t ++ [c] ∧ space c = true
  rest : rest = [] ∨ ∃ d more,rest = d :: more ∧ (listed d = true ∨ space d = true)

theorem following_closes {last : Item} {back : List Item} (here : last.wellFormed = true)
    (valid : ∀ item ∈ back,item.wellFormed = true) (wide : back ≠ [] → last.after ≠ [])
    (word : wordBehind s = true) :
    Closes ((following last back s).take (closeAt back)) ((following last back s).drop (closeAt back)) := by
  cases back with
  | nil =>
    have space_ : Closing [byte ' '] := .blank _ rfl
    cases s with
    | nil => exact ⟨space_,List.forall_mem_singleton.mpr (.inr rfl),⟨[],byte ' ',rfl,rfl⟩,.inl rfl⟩
    | cons b rest =>
      simp only [wordBehind,Bool.and_eq_true,decide_eq_true_eq] at word
      obtain ⟨rfl,first⟩ := word
      cases rest with
      | nil => cases first
      | cons d rest =>
        exact ⟨space_,List.forall_mem_singleton.mpr (.inr rfl),⟨[],byte ' ',rfl,rfl⟩,
          .inr ⟨d,_,rfl,.inl (letter_listed first)⟩⟩
  | cons next back =>
    obtain ⟨b,t,shape,own⟩ := list_head valid nofun text_starts
    have blank := (name_valid here).2.2
    have wide := wide nofun
    unfold following
    dsimp only
    rw [shape]
    cases behind : last.after with
    | nil => exact absurd behind wide
    | cons c after =>
      rw [behind] at blank
      obtain ⟨first,later⟩ := List.forall_mem_cons.mp blank
      have closing : Closing [byte ',',c] := .comma [c] nofun (List.forall_mem_singleton.mpr first)
      refine ⟨closing,List.forall_mem_cons.mpr
        ⟨.inl rfl,List.forall_mem_singleton.mpr (.inr first)⟩,⟨[byte ','],c,rfl,first⟩,.inr ?_⟩
      cases after with
      | nil => exact ⟨b,_,rfl,.inl (letter_listed own)⟩
      | cons d after => exact ⟨d,_,rfl,.inr (List.forall_mem_cons.mp later).1⟩

theorem own_ascii (own : listed b = true ∨ space b = true) : b.toNat < 0x80 := by
  rcases own with text | blank
  · exact (listed_kinds b text).2.2.1
  · exact blank_ascii b blank

section
variable {u : View} (opened : Opened u) {items : List Item} (valid : ∀ item ∈ items,
  item.wellFormed = true) (some_ : items ≠ []) {closing rest : Bytes}
  (closes : Closes closing rest)
include opened valid some_ closes

theorem items_run (env : Env) {kept : Item → Bytes}
    (each : ∀ item,Item.wellFormed item = true → ∀ b ∈ kept item,letter b = true ∨ space b = true)
    (starts : ∀ item : Item,∃ rest,kept item = item.name ++ rest)
    (safe : clauseSafe ⟨u.out,str "by",[]⟩ (listText kept items ++ closing) = true) :
    ∃ w,View.run env (runes (listText kept items ++ closing)) u = .ok w ∧
      Reads {u with gap := 2,valueNo := 0} (Clause.run ⟨u.out,str "by",[]⟩
      (listText kept items ++ closing)) w ∧
      ∀ t,runes (listText kept items ++ closing ++ t) =
        runes (listText kept items ++ closing) ++ runes t := by
  have text := List.forall_mem_append.mpr ⟨list_text valid each,closes.text⟩
  have ascii : ∀ b ∈ listText kept items ++ closing,b.toNat < 0x80 := fun b mem => own_ascii (text b mem)
  refine (?_ : ∃ w,_ ∧ _).imp fun w both => ⟨both.1,both.2,fun t => runes_text_append ascii t⟩
  obtain ⟨b,t,same,letter_⟩ := list_head valid some_ starts
  rw [same] at text safe ⊢
  obtain ⟨w,run,reads,_⟩ := list_run env opened b (t ++ closing) text letter_ safe
  exact ⟨w,run,reads⟩

theorem items_same (env : Env) (spaced : commasSpaced items = true)
    (safe : listSafe ⟨u.out,str "by",[]⟩ ⟨u.out,str "by",[]⟩ closing items = true)
    (tail : ∀ x y,View.run env (runes (listText Item.text items ++ closing)) u = .ok x →
    View.run env (runes (listText Item.kept items ++ closing)) u = .ok y →
      lockstep env (fun v w piece _ => driftSafe env v w piece) (runes rest) (runes rest) x y = true) :
    Same (View.run env (runes (listText Item.text items ++ closing ++ rest)) u)
    (View.run env (runes (listText Item.kept items ++ closing ++ rest)) u) := by
  obtain ⟨level,left,right⟩ := list_level valid some_ spaced closes.form (.refl _) safe
  obtain ⟨x,run,reads,cut⟩ := items_run opened valid some_ closes env text_letters text_starts left
  obtain ⟨y,run',reads',cut'⟩ := items_run opened valid some_ closes env kept_letters kept_starts right
  have base : Base {u with gap := 2,valueNo := 0} := ⟨opened.plan,opened.sql,opened.far,rfl,rfl⟩
  have closed : (Clause.run ⟨u.out,str "by",[]⟩ (listText Item.text items ++ closing)).word = [] := by
    obtain ⟨t,c,same,blank⟩ := closes.blank
    rw [same,← List.append_assoc]
    exact run_closed _ _ blank
  have tail := tail x y run run'
  rw [cut,cut',FingerprintLiteral.run_append,FingerprintLiteral.run_append,run,run']
  change Same (View.run env (runes rest) x) (View.run env (runes rest) y)
  rcases closes.rest with rfl | ⟨d,more,rfl,own⟩
  · exact .ok (reads_out reads ▸ reads_out reads' ▸ level.out)
  · obtain ⟨x',y',step,step',drift⟩ := gap_drifts base env level closed reads reads' own
    rw [runes_cons_ascii (own_ascii own)] at tail ⊢
    rw [lockstep,step,step',Bool.and_eq_true] at tail
    rw [run_step step,run_step step']
    exact (run_drifts env drift tail.2).same

end

-- The runs meet behind the opening of the clause.
theorem list_result (env : Env) (q text : Bytes) (own : letter b = true) :
    View.result env (q ++ b :: text) = View.run env (runes q) .start >>=
      View.run env (runes (b :: text ++ [byte ' '])) := by
  have ascii : b.toNat < 0x80 := own_ascii (.inl (letter_listed own))
  have whole : q ++ b :: text ++ [byte ' '] = q ++ b :: (text ++ [byte ' ']) := by simp
  rw [View.result,whole,runes_append_ascii q _ ascii,FingerprintLiteral.run_append,List.cons_append,
    runes_cons_ascii ascii]

theorem opening_ends (p : Bytes) (order : opening.map lowerByte = str "order by ") :
    (p ++ opening).getLast? = some (byte ' ') := by
  have kind : ∀ c : UInt8,lowerByte c = byte ' ' → c = byte ' ' := every_byte (by decide +kernel)
  rcases List.eq_nil_or_concat opening with rfl | ⟨front,c,rfl⟩
  · exact absurd order (by decide)
  · rw [List.concat_eq_append] at order ⊢
    have last := congrArg List.getLast? order
    rw [List.map_append,List.map_singleton,List.getLast?_concat] at last
    rw [← List.append_assoc,List.getLast?_concat,kind c (Option.some.inj last)]

theorem list_same {env : Env} {q s : Bytes} {items : List Item}
    (valid : ∀ item ∈ items,item.wellFormed = true) (word : wordBehind s = true)
    (size : 4 ≤ q.length) (ends : q.getLast? = some (byte ' ')) (safe : ascSafe env q items s = true) :
    Same (View.result env (q ++ listText Item.text items ++ s))
      (View.result env (q ++ listText Item.kept items ++ s)) := by
  cases found : lastDeleted items with
  | none =>
    rw [kept_same (lastDeleted_none found)]
    exact .refl _
  | some parts =>
    obtain ⟨front,last,back⟩ := parts
    obtain ⟨rfl,deleted,kept⟩ := lastDeleted_some found
    have some_ : front ++ last :: back ≠ [] := by simp
    obtain ⟨b,t,shape,own⟩ := list_head valid some_ text_starts
    obtain ⟨b',t',shape',own'⟩ := list_head valid some_ kept_starts
    have left := list_result env q (t ++ s) own
    have right := list_result env q (t' ++ s) own'
    rw [← List.cons_append,← shape,← List.append_assoc,List.append_assoc _ s] at left
    rw [← List.cons_append,← shape',← List.append_assoc,List.append_assoc _ s] at right
    rw [left,right]
    unfold ascSafe at safe
    rw [found] at safe
    cases run : View.run env (runes q) .start with
    | error stop => exact .error
    | ok u =>
      rw [run] at safe
      simp only [Bool.and_eq_true] at safe
      obtain ⟨⟨⟨clause,spaced⟩,words⟩,tail⟩ := safe
      obtain ⟨calm,wide⟩ := commas_cut spaced deleted
      have parts := List.forall_mem_append.mp valid
      have behind := List.forall_mem_cons.mp parts.2
      have lead : ∀ item ∈ front ++ [last],item.wellFormed = true :=
        List.forall_mem_append.mpr ⟨parts.1,List.forall_mem_singleton.mpr behind.1⟩
      have closes := following_closes behind.1 behind.2 wide word
      have same :=
        items_same (opened_run size ends run clause) lead
          (by simp) closes env calm words fun x y left right => by
        rw [left,right] at tail
        exact tail
      change Same (View.run env _ u) (View.run env _ u)
      rw [List.append_assoc,List.append_assoc,List.take_append_drop] at same
      rw [← List.append_assoc,← List.append_assoc,query_cut rfl,query_cut (kept_same kept)]
      exact same

def sorted : List Item :=
  [⟨str "a",some (str " ",str "ASC"),str " ",true⟩,⟨str "b_c",some (str "  ",str "desc"),[],false⟩,
    ⟨str "d",none,str "\t",false⟩,⟨str "e",some (str "\n",str "asc"),[],true⟩]

end SqlReview.FingerprintOrder
