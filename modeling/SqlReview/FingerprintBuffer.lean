import SqlReview.FingerprintRefinement

namespace SqlReview.FingerprintBuffer
open GoBytes Fingerprint FingerprintView

-- What may stand between two lists of a group.
def between (b : UInt8) : Bool := isSpace b.toNat || b == byte ',' || b == byte '.'

-- The spaces with which the pending text starts. After a list each of them is in the
-- fingerprint already, so copying them would write them twice.
def lead (pend : Bytes) : Nat := (pend.takeWhile between).countP fun b => isSpace b.toNat

def startsValue (r : Nat) : Bool :=
  isDigit r || r == rune '\'' || r == rune '"' || r == rune '`' || r == rune '+' || r == rune '-'

-- The runes that make the machine copy what is pending, now or after the next rune.
def resumes (s : State) (r : Nat) : Bool :=
  match s with
  | .unknown | .moreValuesOrUnknown => startsValue r
  | .divOrMLC => startsValue r || isSpace r
  | .mlcOrMySQLCode => r == rune '!'
  | _ => false

-- The two ways in which an iteration writes more than it consumes are ruled out: a list shorter
-- than the text that replaces it, and a second copy of the space behind a list.
def contained (q : Bytes) (m : Machine) (qi r : Nat) : Bool :=
  !(m.s == .inValues && m.valueNo == 0 && r == rune ')' && m.parOpen ≤ 1 &&
    qi+1-m.cpFromOffset < (listText m qi).length) &&
  !(m.valueNo == 1 && 0 < lead (slice q m.cpFromOffset qi) && resumes m.s r)

def loopContained (env : Env) (q : Bytes) : Nat → List (Nat × Bytes) → Machine → Bool
  | _,[],_ => true
  | qi,piece :: rest,m => contained q m qi piece.1 &&
    match step env q m qi piece.1 with
    | .ok m => loopContained env q (qi+piece.2.length) rest m
    | .error _ => true

def runContained (env : Env) (query : Bytes) : Bool :=
  let q := query ++ [byte ' ']
  loopContained env q 0 (runes q) (start q)

theorem lead_cons (b : UInt8) (p : Bytes) :
    lead (b :: p) = if between b then lead p + (isSpace b.toNat).toNat else 0 := by
  unfold lead
  by_cases text : between b = true
  · rw [List.takeWhile_cons_of_pos text,if_pos text,List.countP_cons]
    cases isSpace b.toNat <;> rfl
  · rw [List.takeWhile_cons_of_neg text,if_neg text]
    rfl

theorem lead_le (p : Bytes) : lead p ≤ p.length :=
  Nat.le_trans (List.countP_le_length) (List.takeWhile_sublist _).length_le

theorem lead_append (p t : Bytes) : lead p ≤ lead (p ++ t) := by
  induction p with
  | nil => exact Nat.zero_le _
  | cons b p ih =>
    rw [List.cons_append,lead_cons,lead_cons]
    split <;> omega

theorem lead_space {p : Bytes} (text : p.all between = true) (space : isSpace b.toNat = true) :
    lead (p ++ [b]) = lead p+1 := by
  induction p with
  | nil => simp [lead_cons,between,space]
  | cons c p ih =>
    rw [List.all_cons,Bool.and_eq_true] at text
    rw [List.cons_append,lead_cons,lead_cons,if_pos text.1,if_pos text.1,ih text.2]
    omega

structure Contained (v : View) (r : Nat) : Prop where
  list : v.s = .inValues → v.valueNo = 0 → r = rune ')' → v.parOpen ≤ 1 → v.listText.length ≤ v.pend.length+1
  space : v.valueNo = 1 → 0 < lead v.pend → resumes v.s r = false

theorem contained_view (head : Head q qi v o) (within : qi ≤ q.length)
    (ok : contained q (v.machine q.length o) qi r = true) : Contained v r := by
  have low := head.low
  have length : v.pend.length = qi-o.cpFrom := by rw [head.pend,slice_length q within]
  have text : listText (v.machine q.length o) qi = v.listText := by
    have gap := head.gap
    have par := head.par
    have same : (1 < (qi : Int) - o.firstPar) = (v.gap = 2) := by rw [eq_iff_iff,gap]; omega
    simp only [listText,View.listText,View.machine,same]
  simp only [contained,Bool.and_eq_true,Bool.not_eq_true'] at ok
  refine ⟨fun state first shut par => ?_,fun first some => ?_⟩
  · have list := ok.1
    rw [text] at list
    simp [View.machine,state,first,shut,par] at list
    omega
  · have space := ok.2
    rw [head.pend] at some
    simpa [View.machine,first,some] using space

-- The states in which the space behind a list may still be pending.
def held (v : View) : Bool :=
  match v.s with
  | .unknown | .moreValuesOrUnknown | .divOrMLC | .mlcOrMySQLCode | .inMLC | .inOLC | .inQuote => true
  | .inValues => 0 < v.parOpen
  | _ => false

-- How many bytes of p are in the fingerprint already.
def slack (v : View) (p : Bytes) : Nat := if v.valueNo = 1 ∧ held v = true then lead p else 0

-- The states in which a space ends a word.
def wordly : State → Bool
  | .unknown | .inDash | .moreValuesOrUnknown => false
  | s => !skips s

-- At the head of the iteration at n the fingerprint, with the space that is due, is not longer
-- than the text consumed, q[0:cpFromOffset].
structure Fits (n : Nat) (v : View) : Prop where
  size : v.out.length+v.addSpace.toNat+v.pend.length ≤ n+slack v v.pend
  number : v.s = .inNumber → v.out.length+v.addSpace.toNat+1 ≤ n
  word : v.pend = [] → wordly v.s = true → isSpace v.pr = true ∨ v.out.length+1 ≤ n
  total : v.parOpenTotal = 0 ∨ 0 < v.parOpen
  more : v.s = .moreValuesOrUnknown → v.pend.all between = true ∧ v.pr ≠ rune '\\'
  plan : v.plan = none ∨ (v.plan = some 0 ∧ v.s = .inWord)
  digits : v.s ≠ .inNumberInWord

theorem slack_le (v : View) (p : Bytes) : slack v p ≤ p.length := by
  unfold slack
  split
  · exact lead_le p
  · exact Nat.zero_le _

theorem Fits.settled (fits : Fits n v) (state : v.s ≠ .inWord) : v.plan = none := by
  rcases fits.plan with settled | ⟨_,word⟩
  · exact settled
  · exact absurd word state

theorem Fits.room (fits : Fits n v) : v.out.length+v.addSpace.toNat ≤ n := by
  have size := fits.size
  have slack := slack_le v v.pend
  omega

-- The same after step 1, with p pending before the bytes of the rune.
structure Open (n r : Nat) (bs p : Bytes) (w : View) : Prop where
  pend : w.pend = p ++ bs
  size : w.out.length+w.addSpace.toNat+p.length ≤ n+slack w p
  still : w.valueNo = 1 → 0 < lead p → resumes w.s r = false
  word : p = [] → wordly w.s = true → isSpace r = false ∨ w.out.length+1 ≤ n
  total : w.parOpenTotal = 0 ∨ 0 < w.parOpen
  more : w.s = .moreValuesOrUnknown → p.all between = true ∧ w.pr ≠ rune '\\'
  plan : w.plan = none ∨ (w.plan = some 0 ∧ (w.s = .inWord ∨ p = []))
  order : w.sqlState = .orderBy → w.out ≠ []
  calm : skips w.s = false

-- And before the copy step.
structure Ready (n r : Nat) (bs : Bytes) (u : View) : Prop where
  copy : 0 < u.due bs → u.out.length+u.pend.length ≤ n+bs.length ∧ u.s ≠ .moreValuesOrUnknown
  space : 0 < u.due bs → (u.s = .inSpace ∧ isSpace r = true) ∨
    u.out.length+u.addSpace.toNat+u.pend.length ≤ n+bs.length
  idle : u.due bs = 0 → Fits (n+bs.length) {u with pr := r,plan := none}
  total : u.parOpenTotal = 0 ∨ 0 < u.parOpen
  digits : u.s ≠ .inNumberInWord

theorem due_le (v : View) (bs : Bytes) (some : 0 < v.due bs) : v.due bs+bs.length ≤ v.pend.length := by
  unfold View.due at some ⊢
  split at some <;> omega

-- After a copy nothing of the pending text is in the fingerprint.
theorem copyWord_fits (ready : Ready n r bs u) (some : 0 < u.due bs) (wide : bs ≠ []) (env : Env)
    (w : Bytes) :
    Fits (n+bs.length) {(u.copyWord (u.due bs) w).afterCopy env with pr := r,plan := none} := by
  obtain ⟨size,state⟩ := ready.copy some
  have strict := ready.space some
  have due := due_le u bs some
  have bytes := List.length_pos_iff.mpr wide
  refine View.afterCopy_cases (motive := fun v => Fits (n+bs.length) {v with pr := r,plan := none}) env _
    (fun _ => ?list) (fun space => ?space) fun _ => ?keep
  case list =>
    refine ⟨?_,nofun,fun _ => nofun,ready.total,nofun,.inl rfl,nofun⟩
    simp only [View.copyWord,List.length_append,fit_length,List.length_drop,Bool.toNat_false]
    omega
  case space =>
    have one : u.addSpace.toNat = 1 := by rw [show u.addSpace = true from space]; rfl
    refine ⟨?_,fun number => ?_,fun _ _ => ?_,ready.total,fun bad => absurd bad state,.inl rfl,ready.digits⟩
    · simp only [View.copyWord,View.write,List.length_append,fit_length,List.length_drop,
        List.length_singleton,
        Bool.toNat_false]
      omega
    · rcases strict with inSpace | strict
      · exact absurd (inSpace.1.symm.trans number) (by decide)
      · simp only [View.copyWord,View.write,List.length_append,fit_length,List.length_singleton,
          Bool.toNat_false]
        omega
    · rcases strict with inSpace | strict
      · exact .inl inSpace.2
      · refine .inr ?_
        simp only [View.copyWord,View.write,List.length_append,fit_length,List.length_singleton]
        omega
  case keep keep =>
    have zero : u.addSpace.toNat = 0 := by rw [show u.addSpace = false from keep]; rfl
    refine ⟨?_,fun _ => ?_,fun empty _ => ?_,ready.total,fun bad => absurd bad state,.inl rfl,ready.digits⟩
    · simp only [View.copyWord,List.length_append,fit_length,List.length_drop]
      omega
    · simp only [View.copyWord,List.length_append,fit_length]
      omega
    · have none := congrArg List.length empty
      simp only [View.copyWord,List.length_drop,List.length_nil] at none
      omega

theorem Ready.finish (ready : Ready n r bs u) (wide : bs ≠ []) (env : Env) :
    Fits (n+bs.length) (u.finish env r bs) := by
  have fits : Fits (n+bs.length) {u.copySlice env bs with pr := r,plan := none} :=
    View.copySlice_cases (motive := fun v => Fits (n+bs.length) {v with pr := r,plan := none}) env u bs
      ready.idle fun w _ some => copyWord_fits ready some wide env w
  exact {fits with}

theorem Open.room (opened : Open n r bs p w) : w.out.length+w.addSpace.toNat ≤ n := by
  have size := opened.size
  have slack := slack_le w p
  omega

theorem Open.due (opened : Open n r bs p w) :
    w.due bs = 0 ∨ (w.due bs = p.length ∧ (w.s = .inWord ∨ p = [])) := by
  have length := congrArg List.length opened.pend
  rw [List.length_append] at length
  rcases opened.plan with none | ⟨zero,state⟩
  · exact .inl (by rw [View.due,none])
  · refine .inr ⟨?_,state⟩
    rw [View.due,zero]
    dsimp only
    omega

-- What is pending may be copied: no byte of it is in the fingerprint.
theorem Open.loose (opened : Open n r bs p w) (free : held w = false ∨ w.valueNo ≠ 1 ∨ lead p = 0) :
    w.out.length+w.addSpace.toNat+p.length ≤ n := by
  have size := opened.size
  have none : slack w p = 0 := by
    unfold slack
    split
    · rename_i both
      rcases free with free | free | free
      · rw [both.2] at free; cases free
      · exact absurd both.1 free
      · exact free
    · rfl
  omega

theorem Open.free (opened : Open n r bs p w) (resume : resumes w.s r = true) :
    held w = false ∨ w.valueNo ≠ 1 ∨ lead p = 0 := by
  by_cases first : w.valueNo = 1
  · by_cases some : 0 < lead p
    · rw [opened.still first some] at resume
      cases resume
    · exact .inr (.inr (by omega))
  · exact .inr (.inl first)

theorem slack_append (v : View) (p t : Bytes) : slack v p ≤ slack v (p ++ t) := by
  unfold slack
  split
  · exact lead_append p t
  · exact Nat.zero_le _

theorem slack_mono {v w : View} (p : Bytes) (value : v.valueNo = w.valueNo) (holds : held v = true) :
    slack w p ≤ slack v p := by
  unfold slack
  rw [value]
  split
  · rename_i both
    rw [if_pos ⟨both.1,holds⟩]
  · exact Nat.zero_le _

-- The rune is only added to the pending text.
theorem fits_keep (wide : bs ≠ []) (u : View) (pend : u.pend = p ++ bs)
    (size : u.out.length+u.addSpace.toNat+p.length ≤ n+slack u p)
    (number : u.s = .inNumber → u.out.length+u.addSpace.toNat ≤ n)
    (total : u.parOpenTotal = 0 ∨ 0 < u.parOpen)
    (more : u.s = .moreValuesOrUnknown → u.pend.all between = true ∧ u.pr ≠ rune '\\')
    (plan : u.plan = none ∨ (u.plan = some 0 ∧ u.s = .inWord)) (digits : u.s ≠ .inNumberInWord) :
    Fits (n+bs.length) u := by
  have length := congrArg List.length pend
  have bytes := List.length_pos_iff.mpr wide
  rw [List.length_append] at length
  refine ⟨?_,fun state => ?_,fun empty => ?_,total,more,plan,digits⟩
  · have grows := slack_append u p bs
    rw [← pend] at grows
    omega
  · have room := number state
    omega
  · rw [empty,List.length_nil] at length
    omega

theorem ready_keep (wide : bs ≠ []) (u : View) (pend : u.pend = p ++ bs)
    (size : u.out.length+u.addSpace.toNat+p.length ≤ n+slack u p)
    (copy : 0 < u.due bs → u.out.length+u.addSpace.toNat+p.length ≤ n ∧ u.s ≠ .moreValuesOrUnknown)
    (total : u.parOpenTotal = 0 ∨ 0 < u.parOpen) (state : u.s ≠ .inNumber ∧ u.s ≠ .inNumberInWord)
    (more : u.s = .moreValuesOrUnknown → u.pend.all between = true ∧ r ≠ rune '\\') : Ready n r bs u := by
  have length := congrArg List.length pend
  rw [List.length_append] at length
  refine ⟨fun some => ?_,fun some => .inr ?_,fun _ => ?_,total,state.2⟩
  · obtain ⟨loose,notMore⟩ := copy some
    exact ⟨by omega,notMore⟩
  · have loose := (copy some).1
    omega
  · exact fits_keep wide {u with pr := r,plan := none} pend size (fun bad => absurd bad state.1) total more
      ((.inl rfl)) state.2

-- cpToOffset = qi - back, with what is pending free to be copied
theorem ready_mark (wide : bs ≠ []) (u : View) (loose : u.out.length+u.addSpace.toNat+p.length ≤ n)
    (pend : u.pend = p ++ bs) (total : u.parOpenTotal = 0 ∨ 0 < u.parOpen)
    (state : u.s ≠ .moreValuesOrUnknown ∧ u.s ≠ .inNumberInWord) : Ready n r bs u := by
  have length := congrArg List.length pend
  rw [List.length_append] at length
  refine ⟨fun _ => ⟨by omega,state.1⟩,fun _ => .inr (by omega),fun _ => ?_,total,state.2⟩
  exact fits_keep wide {u with pr := r,plan := none} pend (Nat.le_add_right_of_le loose)
    (fun _ => by dsimp only; omega)
    total (fun bad => absurd bad state.1) ((.inl rfl)) state.2

-- What was pending is dropped or replaced: nothing is left to copy.
theorem ready_drop (u : View) (short : u.pend.length ≤ bs.length)
    (size : u.out.length+u.addSpace.toNat+u.pend.length ≤ n+bs.length)
    (total : u.parOpenTotal = 0 ∨ 0 < u.parOpen)
    (word : u.pend = [] → wordly u.s = true → isSpace r = true)
    (state : u.s ≠ .inNumber ∧ u.s ≠ .moreValuesOrUnknown ∧ u.s ≠ .inNumberInWord) : Ready n r bs u := by
  have idle : u.due bs = 0 := by
    unfold View.due
    split <;> omega
  refine ⟨fun some => by omega,fun some => by omega,fun _ => ?_,total,state.2.2⟩
  exact ⟨Nat.le_add_right_of_le size,fun bad => absurd bad state.1,fun empty ends =>
    .inl (word empty ends),total,
    fun bad => absurd bad state.2.1,(.inl rfl),state.2.2⟩

theorem Open.copy (opened : Open n r bs p w) (some : 0 < w.due bs) :
    w.out.length+w.addSpace.toNat+p.length ≤ n ∧ w.s ≠ .moreValuesOrUnknown := by
  rcases opened.due with zero | ⟨all,word | empty⟩
  · omega
  · exact ⟨opened.loose (.inl (by rw [held,word])),by rw [word]; decide⟩
  · rw [all,empty] at some
    cases some

theorem Open.stay (opened : Open n r bs p w) (wide : bs ≠ [])
    (more : w.s = .moreValuesOrUnknown → bs.all between = true ∧ r ≠ rune '\\') : Ready n r bs w := by
  have calm := opened.calm
  refine ready_keep wide w opened.pend opened.size opened.copy opened.total
    ⟨fun bad => ?_,fun bad => ?_⟩ fun state => ?_
  · rw [bad] at calm; cases calm
  · rw [bad] at calm; cases calm
  · refine ⟨?_,(more state).2⟩
    rw [opened.pend,List.all_append,(opened.more state).1,(more state).1]
    rfl

-- cpFromOffset = qi
theorem Open.here (opened : Open n r bs p w) (wide : bs ≠ []) (s t : State) (k : Nat)
    (state : s ≠ .inNumber ∧ s ≠ .moreValuesOrUnknown ∧ s ≠ .inNumberInWord) :
    Ready n r bs {w with pend := bs,s := s,sqlState := t,valueNo := k} :=
  ready_drop _ (Nat.le_refl _) (Nat.add_le_add_right opened.room _) opened.total
    (fun empty => absurd empty wide) state

theorem Open.starts (opened : Open n r bs p w) (value : startsValue r = true) :
    w.out.length+w.addSpace.toNat+p.length ≤ n := by
  have calm := opened.calm
  refine opened.loose ?_
  cases state : w.s
  case unknown | moreValuesOrUnknown => exact opened.free (by rw [state]; exact value)
  case divOrMLC => exact opened.free (by rw [state]; simp [resumes,value])
  all_goals first
    | (rw [state] at calm; cases calm; done)
    | exact .inl (by rw [held,state])

theorem onDigit_ready (opened : Open n r bs p w) (wide : bs ≠ []) (env : Env)
    (off : env.replaceNumbersInWords = false)
    (digit : isDigit r = true) : Ready n r bs (w.onDigit env) := by
  have loose := opened.starts (by simp [startsValue,digit])
  refine View.onDigit_cases (motive := Ready n r bs) env w (fun _ => ?_) (fun _ => ?_)
    (fun _ on => ?_) fun word => ?_
  · exact ready_mark wide _ loose opened.pend opened.total ⟨nofun,nofun⟩
  · exact ready_mark wide _ loose opened.pend opened.total ⟨nofun,nofun⟩
  · rw [off] at on; cases on
  · exact ready_mark wide _ loose opened.pend opened.total (by rw [word]; decide)

theorem onQuote_ready (opened : Open n r bs p w) (wide : bs ≠ []) (quote : r = rune '\'' ∨ r = rune '"') :
    Ready n r bs (w.onQuote r) := by
  have loose := opened.starts (by rcases quote with rfl | rfl <;> decide)
  refine View.onQuote_cases (motive := Ready n r bs) w r (fun _ => ?_) (fun _ => ?_) fun shut => ?_
  · exact ready_mark wide _ loose opened.pend opened.total ⟨nofun,nofun⟩
  · exact ready_mark wide _ loose opened.pend opened.total ⟨nofun,nofun⟩
  · refine ready_mark wide _ loose opened.pend opened.total ⟨fun more => ?_,fun bad => ?_⟩
    · rcases shut with slash | quote
      · exact (opened.more more).2 slash
      · rw [more] at quote; cases quote
    · have calm := opened.calm
      rw [bad] at calm
      cases calm

theorem onBacktick_ready (opened : Open n (rune '`') bs p w) (wide : bs ≠ []) :
    Ready n (rune '`') bs w.onBacktick := by
  have loose := opened.starts (by decide)
  refine iteInduction (motive := Ready n (rune '`') bs) (fun _ => ?_) fun shut => ?_
  · exact ready_mark wide _ loose opened.pend opened.total ⟨nofun,nofun⟩
  · have calm := opened.calm
    refine ready_mark wide _ loose opened.pend opened.total ⟨fun more => ?_,fun bad => ?_⟩
    · refine shut ⟨(opened.more more).2,?_⟩
      rw [more]
      decide
    · rw [bad] at calm
      cases calm

theorem Open.inWord (opened : Open n r bs p w) (stale : ¬ (w.s ≠ .inWord ∧ w.s ≠ .inOp)) :
    w.out.length+w.addSpace.toNat+p.length ≤ n := by
  refine opened.loose (.inl ?_)
  by_cases word : w.s = .inWord
  · rw [held,word]
  · rw [held,show w.s = .inOp by simpa [word] using stale]

theorem onOperator_ready (opened : Open n r bs p w) (wide : bs ≠ []) : Ready n r bs (w.onOperator bs) := by
  unfold View.onOperator
  by_cases fresh : w.s ≠ .inWord ∧ w.s ≠ .inOp
  · rw [if_pos fresh]
    exact opened.here wide .inOp w.sqlState w.valueNo (by decide)
  · rw [if_neg fresh]
    exact ready_mark wide _ (opened.inWord fresh) opened.pend opened.total ⟨nofun,nofun⟩

theorem onOther_ready (opened : Open n r bs p w) (wide : bs ≠ []) : Ready n r bs (w.onOther bs) := by
  refine iteInduction (motive := Ready n r bs) (fun _ => ?_) fun stale => ?_
  · exact opened.here wide .inWord _ 0 (by decide)
  · exact ready_mark wide _ (opened.inWord stale) opened.pend opened.total ⟨nofun,nofun⟩

def Turned (n r : Nat) (bs : Bytes) : Except Stop View → Prop
  | .ok u => Ready n r bs u
  | .error stop => stop.view.out.length ≤ n

theorem onOpenPar_ready (opened : Open n r bs p w) (wide : bs ≠ []) (env : Env) :
    Turned n r bs (w.onOpenPar env bs) := by
  have room := opened.room
  refine View.onOpenPar_cases (motive := Turned n r bs) env w bs (fun _ => ?call) (fun _ zero => ?first)
    (fun _ _ => ?next) (fun _ => ?random) fun word => ?keep
  case call => exact Nat.le_of_add_right_le room
  case first =>
    have loose := opened.loose (.inr (.inl (by rw [zero]; decide)))
    exact ready_mark wide _ loose opened.pend (.inr Int.one_pos) ⟨nofun,nofun⟩
  case next =>
    refine ready_keep wide _ opened.pend ?_ (fun some => ⟨(opened.copy some).1,nofun⟩) (.inr Int.one_pos)
      ⟨nofun,nofun⟩ nofun
    refine Nat.le_trans opened.size (Nat.add_le_add_left ?_ n)
    exact slack_mono p rfl rfl
  case random => exact opened.here wide .inWord w.sqlState 0 (by decide)
  case keep => exact opened.stay wide fun bad => absurd (word.symm.trans bad) (by decide)

theorem between_ascii {b : UInt8} (text : between b = true) : b.toNat < 0x80 ∧ lowerByte b = b := by
  simp only [between,isSpace,Bool.or_eq_true,beq_iff_eq] at text
  have small : b.toNat < 0x30 := by
    rcases text with ((((space | tab) | cr) | lf) | rfl) | rfl
    · omega
    · omega
    · omega
    · omega
    · decide
    · decide
  exact ⟨by omega,by rw [lowerByte,if_neg (by omega)]⟩

-- Lower-casing keeps what stands between lists, so a word that lower-cases to letters has no lead.
theorem lead_word (lower : Nat → Nat) (p : Bytes)
    (letter : ∀ b ∈ (toLower lower p).head?, between b = false) :
    lead p = 0 := by
  cases p with
  | nil => rfl
  | cons b t =>
    by_cases text : between b = true
    · obtain ⟨ascii,same⟩ := between_ascii text
      rw [toLower_cons_ascii lower ascii,same] at letter
      rw [letter b rfl] at text
      cases text
    · rw [lead_cons,if_neg text]

theorem lead_word_twice (lower : Nat → Nat) (p : Bytes)
    (letter : ∀ b ∈ (toLower lower (toLower lower p)).head?, between b = false) : lead p = 0 := by
  refine lead_word lower p fun b first => ?_
  by_contra text
  rw [Bool.not_eq_false] at text
  obtain ⟨ascii,same⟩ := between_ascii text
  obtain ⟨t,eq⟩ := List.head?_eq_some_iff.mp first
  rw [eq,toLower_cons_ascii lower ascii,same] at letter
  rw [letter b rfl] at text
  cases text

-- The words that the copy step or the end of a word takes back.
theorem taken_words : ∀ word ∈ [str "null",str "null,",str "asc",str "asc,",str "asc "],
    (∀ b ∈ word, b.toNat < 0x80) ∧ (∀ b ∈ word.head?, between b = false) ∧ 3 ≤ word.length := by decide +kernel

theorem null_word (lower : Nat → Nat) (p word : Bytes) (lowered : toLower lower p = word)
    (isNull : word = str "null" ∨ word = str "null,") : lead p = 0 ∧ word.length ≤ p.length := by
  subst lowered
  obtain ⟨ascii,letter,_⟩ := taken_words (toLower lower p) (by rcases isNull with isNull | isNull <;> simp [isNull])
  exact ⟨lead_word lower p letter,toLower_length lower p ascii⟩

theorem asc_words {lower : Nat → Nat} {word : Bytes}
    (isAsc : wordIn lower word [str "asc",str "asc,",str "asc "] = true) :
    (∀ b ∈ (toLower lower word).head?, between b = false) ∧ 3 ≤ (toLower lower word).length := by
  have found := List.contains_iff_mem.mp isAsc
  exact (taken_words _ (List.mem_cons_of_mem _ (List.mem_cons_of_mem _ found))).2

theorem asc_word (env : Env) (p : Bytes)
    (isAsc : wordIn env.lower (toLower env.lower p) [str "asc",str "asc,",str "asc "] = true) :
    lead p = 0 ∧ 1 ≤ p.length := by
  obtain ⟨letter,long⟩ := asc_words isAsc
  refine ⟨lead_word_twice env.lower p letter,?_⟩
  cases p with
  | nil => rw [toLower_nil,toLower_nil] at long; cases long
  | cons b t => simp

theorem asc_comma (env : Env) (p : Bytes)
    (isAsc : wordIn env.lower (toLower env.lower p) [str "asc",str "asc,",str "asc "] = true)
    (comma : (toLower env.lower p).getLast? = some (byte ',')) : 2 ≤ p.length := by
  by_contra short
  match p with
  | [] => cases comma
  | [a] =>
    have wide := decodeRune_width a []
    have one : toLower env.lower [a] = encodeRune (lowerRune env.lower (decodeRune a []).1) := by
      rw [toLower,runes_cons,List.drop_of_length_le wide.1,runes_nil,List.flatMap_cons,
        List.flatMap_nil,List.append_nil]
    have long := (asc_words isAsc).2
    rw [one] at comma long
    have ascii : (byte ',').toNat < 0x80 := by decide
    rw [encodeRune_last _ comma ascii,toLower_ascii _ _ (by simpa using ascii),List.length_map] at long
    simp at long
  | a :: b :: t => simp at short

-- A word that ends in what is pending: the copy step copies it with its space.
theorem Open.endsWord (opened : Open n r bs p w) (wide : bs ≠ []) (space : isSpace r = true)
    (word : wordly w.s = true) (loose : w.out.length+w.addSpace.toNat+p.length ≤ n) (t : State) :
    Ready n r bs {w.mark with sqlState := t,s := .inSpace,addSpace := true} := by
  have length := congrArg List.length opened.pend
  rw [List.length_append] at length
  have bytes := List.length_pos_iff.mpr wide
  refine ⟨fun _ => ⟨?_,(by rintro ⟨⟩)⟩,fun _ => .inl ⟨rfl,space⟩,fun idle => ?_,opened.total,(by rintro ⟨⟩)⟩
  · simp only [View.mark]
    omega
  · have empty : p.length = 0 := by
      simp only [View.due,View.mark] at idle
      omega
    refine ⟨?_,(by rintro ⟨⟩),fun _ _ => .inl space,opened.total,(by rintro ⟨⟩),.inl rfl,(by rintro ⟨⟩)⟩
    rcases opened.word (List.length_eq_zero_iff.mp empty) word with bad | room
    · rw [space] at bad; cases bad
    · simp only [View.mark,Bool.toNat_true]
      omega

theorem endWord_ready (opened : Open n r bs p w) (one : bs.length = 1) (env : Env) (space : isSpace r = true)
    (word : wordly w.s = true) (loose : w.out.length+w.addSpace.toNat+p.length ≤ n) :
    Turned n r bs (w.endWord env bs) := by
  have room := opened.room
  have wide : bs ≠ [] := List.length_pos_iff.mp (by omega)
  have text : w.word bs = p := by
    rw [View.word,opened.pend,List.length_append,Nat.add_sub_cancel,List.take_left' rfl]
  refine View.endWord_cases (motive := Turned n r bs) env w bs (fun _ _ => ?use)
    (fun word same isNull => ?null) (fun _ => ?order)
    (fun _ isAsc => ?asc) (fun order isAsc comma => ?ascComma) (fun _ => ?update) ?other
  case use => exact Nat.le_of_add_right_le room
  case null =>
    rw [text] at same
    obtain ⟨_,short⟩ := null_word env.lower p word same isNull
    rw [View.nullValue_eq]
    refine ready_drop _ ?_ ?_ opened.total (fun _ _ => space) ⟨(by rintro ⟨⟩),(by rintro ⟨⟩),(by rintro ⟨⟩)⟩
    · simp [View.mark]
    · simp only [View.mark,List.length_append,List.length_cons,List.length_drop,Bool.toNat_true]
      rcases isNull with rfl | rfl
      · rw [if_neg (by decide)]
        change 4 ≤ _ at short
        simp only [List.length_cons,List.length_nil]
        omega
      · rw [if_pos (by decide)]
        change 5 ≤ _ at short
        simp only [List.length_cons,List.length_nil]
        omega
  case order => exact opened.endsWord wide space word loose .orderBy
  case asc =>
    rw [text] at isAsc
    obtain ⟨_,short⟩ := asc_word env p isAsc
    refine ready_drop _ (Nat.le_refl _) ?_ opened.total (fun _ _ => space) ⟨(by rintro ⟨⟩),
      (by rintro ⟨⟩),(by rintro ⟨⟩)⟩
    simp only [View.mark,View.fromHere,Bool.toNat_true]
    omega
  case ascComma =>
    rw [text] at isAsc comma
    have short := asc_comma env p isAsc comma
    have some := List.length_pos_iff.mpr (opened.order order)
    refine ready_drop _ (Nat.le_refl _) ?_ opened.total (fun _ _ => space) ⟨(by rintro ⟨⟩),
      (by rintro ⟨⟩),(by rintro ⟨⟩)⟩
    simp only [View.mark,View.fromHere,View.backComma,Bool.toNat_true,List.length_append,List.length_dropLast,
      List.length_cons,List.length_nil]
    omega
  case update => exact opened.endsWord wide space word loose .onDupeKeyUpdate
  case other => exact opened.endsWord wide space word loose w.sqlState

theorem onSpace_ready (opened : Open n r bs p w) (ascii : bs = [UInt8.ofNat r]) (env : Env)
    (space : isSpace r = true) :
    Turned n r bs (w.onSpace env bs) := by
  have room := opened.room
  have wide : bs ≠ [] := by rw [ascii]; exact List.cons_ne_nil _ _
  have one : bs.length = 1 := by rw [ascii]; rfl
  have byte : isSpace (UInt8.ofNat r).toNat = true ∧ r ≠ rune '\\' := by
    simp only [isSpace,Bool.or_eq_true,beq_iff_eq] at space
    rcases space with ((rfl | rfl) | rfl) | rfl <;> decide
  have gap : bs.all between = true := by rw [ascii,List.all_cons,List.all_nil,between,byte.1]; rfl
  refine View.onSpace_cases (motive := Turned n r bs) env w bs (fun state _ => ?text) (fun state _ => ?lost)
    (fun state => ?dash) (fun state first => ?first)
      (fun _ _ => ?more) fun notUnknown notDash notMore => ?word
  case text =>
    refine ready_drop _ ?_ ?_ opened.total (fun _ _ => space) ?_
    · simp [View.fromNext]
    · simp only [View.write,View.fromNext,List.length_append,List.length_singleton,List.length_drop]
      omega
    · rw [show ((w.write [GoBytes.byte ' ']).fromNext bs).s = .unknown from state]
      decide
  case lost => exact opened.stay wide fun bad => absurd (state.symm.trans bad) (by decide)
  case dash =>
    have loose := opened.loose (.inl (by rw [held,state]))
    exact ready_mark wide _ loose opened.pend opened.total ⟨(by rintro ⟨⟩),(by rintro ⟨⟩)⟩
  case first =>
    have more := opened.more state
    have size := opened.size
    have idle : w.due bs = 0 := by
      rcases opened.due with zero | ⟨all,word | empty⟩
      · exact zero
      · exact absurd (word.symm.trans state) (by decide)
      · rw [all,empty]; rfl
    have holds : held w = true := by rw [held,state]
    have lead := lead_space more.1 byte.1
    rw [← ascii,← opened.pend] at lead
    rw [slack,if_pos ⟨first,holds⟩] at size
    have length := congrArg List.length opened.pend
    rw [List.length_append] at length
    refine ⟨fun some => absurd idle (Nat.ne_of_gt some),fun some => absurd idle (Nat.ne_of_gt some),
      fun _ => ?_,
      opened.total,by rw [show (w.write _).s = _ from state]; decide⟩
    refine ⟨?_,fun bad => absurd (state.symm.trans bad) (by decide),fun empty => ?_,opened.total,
      fun _ => ⟨?_,byte.2⟩,
      (.inl rfl),fun bad => absurd (state.symm.trans bad) (by decide)⟩
    · rw [slack,if_pos ⟨first,holds⟩]
      simp only [View.write,List.length_append,List.length_singleton]
      omega
    · rw [show w.pend = [] from empty,List.length_nil] at length
      omega
    · change w.pend.all between = true
      rw [opened.pend,List.all_append,more.1,gap]
      rfl
  case more => exact opened.stay wide fun _ => ⟨gap,byte.2⟩
  case word =>
    have calm := opened.calm
    have ends : wordly w.s = true := by
      unfold wordly
      split
      · exact absurd ‹_› notUnknown
      · exact absurd ‹_› notDash
      · exact absurd ‹_› notMore
      · rw [calm]; rfl
    refine endWord_ready opened one env space ends (opened.loose ?_)
    cases state : w.s
    case divOrMLC => exact opened.free (by rw [state]; simp [resumes,space])
    case unknown => exact absurd state notUnknown
    case moreValuesOrUnknown => exact absurd state notMore
    all_goals first
      | (rw [state] at calm; cases calm; done)
      | exact .inl (by rw [held,state])

theorem changeState_ready (opened : Open n r bs p w) (wide : bs ≠ [])
    (ascii : r < 0x80 → bs = [UInt8.ofNat r]) (env : Env)
    (off : env.replaceNumbersInWords = false) : Turned n r bs (w.changeState env r bs) := by
  have room := opened.room
  have calm := opened.calm
  refine View.changeState_cases (motive := Turned n r bs) env w r bs
    (fun digit => onDigit_ready opened wide env off digit) (fun space => ?space)
      (fun quote => onQuote_ready opened wide quote)
    (fun tick => ?tick) (fun _ => onOperator_ready opened wide) (fun _ => ?div) (fun _ _ => ?star)
      (fun plus => ?plus)
    (fun dash => ?dash) (fun _ state => ?point) (fun dot _ => ?dot) (fun _ => onOpenPar_ready opened wide env)
    (fun comma _ => ?comma) (fun _ _ => Nat.le_of_add_right_le room) (fun _ => ?hash)
    fun _ => onOther_ready opened wide
  case space =>
    refine onSpace_ready opened (ascii ?_) env space
    simp only [isSpace,Bool.or_eq_true,beq_iff_eq] at space
    omega
  case tick => subst tick; exact onBacktick_ready opened wide
  case div =>
    refine ready_keep wide _ opened.pend (Nat.le_trans opened.size (Nat.add_le_add_left ?_ n))
      (fun some => ⟨(opened.copy some).1,nofun⟩) opened.total ⟨nofun,nofun⟩ nofun
    exact slack_mono p rfl rfl
  case star =>
    refine ready_keep wide _ opened.pend (Nat.le_trans opened.size (Nat.add_le_add_left ?_ n))
      (fun some => ⟨(opened.copy some).1,nofun⟩) opened.total ⟨nofun,nofun⟩ nofun
    exact slack_mono p rfl rfl
  case plus =>
    exact ready_mark wide _ (opened.starts (by rw [plus]; decide)) opened.pend opened.total ⟨nofun,nofun⟩
  case dash =>
    refine ready_mark wide _ (opened.starts (by rw [dash]; decide)) opened.pend opened.total ?_
    dsimp only
    split <;> decide
  case point =>
    rcases state with number | op
    · rw [number] at calm; cases calm
    · exact ready_mark wide _ (opened.loose (.inl (by rw [held,op]))) opened.pend opened.total ⟨nofun,nofun⟩
  case dot => subst dot; exact opened.stay wide fun _ => by rw [ascii (by decide)]; decide
  case comma => subst comma; exact opened.stay wide fun _ => by rw [ascii (by decide)]; decide
  case hash =>
    have size := opened.size
    have mono : slack w p ≤ slack {w with addSpace := false,s := .inOLC} p := slack_mono p rfl rfl
    refine ready_keep wide _ opened.pend ?_ (fun some => ⟨?_,nofun⟩) opened.total ⟨nofun,nofun⟩ nofun
    · simp only [Bool.toNat_false]
      omega
    · have copy := (opened.copy some).1
      simp only [Bool.toNat_false]
      omega

def Skips (n r : Nat) (bs : Bytes) : Skipped View → Prop
  | .skip w => Fits (n+bs.length) w
  | .through w => ∃ p, Open n r bs p w

theorem skipQuote_fits (fits : Fits n v) (wide : bs ≠ []) (state : v.s = .inQuote) :
    Fits (n+bs.length) ((v.read bs).skipQuote r bs) := by
  have room := fits.room
  have bytes := List.length_pos_iff.mpr wide
  refine View.skipQuote_cases (motive := Fits (n+bs.length)) (v.read bs) r bs (fun _ => ?inside)
    (fun _ _ _ => ?values)
    fun _ _ _ => ?ends
  case inside =>
    refine fits_keep wide _ rfl fits.size (fun bad => absurd (state.symm.trans bad) (by decide)) fits.total
      (fun bad => absurd (state.symm.trans bad) (by decide)) fits.plan fits.digits
  case values =>
    refine ⟨Nat.le_add_right_of_le ?_,(by rintro ⟨⟩),fun _ => (by rintro ⟨⟩),fits.total,
      (by rintro ⟨⟩),.inl (fits.settled ?_),(by rintro ⟨⟩)⟩
    · simp only [View.read,View.fromNext,List.length_drop]
      omega
    · rw [state]; decide
  case ends =>
    refine ⟨Nat.le_add_right_of_le ?_,(by rintro ⟨⟩),fun _ => (by rintro ⟨⟩),fits.total,
      (by rintro ⟨⟩),.inl (fits.settled ?_),(by rintro ⟨⟩)⟩
    · simp only [View.read,View.fromNext,View.write,List.length_append,List.length_singleton,List.length_drop]
      omega
    · rw [state]; decide

theorem skipBackticks_fits (fits : Fits n v) (wide : bs ≠ []) (state : v.s = .inBackticks) :
    Fits (n+bs.length) ((v.read bs).skipBackticks r) := by
  have size := fits.size
  rw [slack,if_neg (by rw [held,state]; simp)] at size
  refine View.skipBackticks_cases (motive := Fits (n+bs.length)) (v.read bs) r (fun _ => ?inside) ?ends
  case inside =>
    refine fits_keep wide _ rfl fits.size (fun bad => absurd (state.symm.trans bad) (by decide)) fits.total
      (fun bad => absurd (state.symm.trans bad) (by decide)) fits.plan fits.digits
  case ends =>
    exact fits_keep wide _ rfl (Nat.le_add_right_of_le size) nofun fits.total nofun (.inr ⟨rfl,rfl⟩) nofun

theorem endValues_fits (w : View) (ascii : bs = [UInt8.ofNat (rune ')')]) (plan : w.plan = none)
    (size : w.out.length+w.addSpace.toNat ≤ n)
    (list : w.valueNo = 0 → w.out.length+w.listText.length+w.addSpace.toNat ≤ n+1) :
    Fits (n+bs.length) (w.endValues (rune ')') bs) := by
  have empty : bs.drop 1 = [] := by rw [ascii]; rfl
  have one : bs.length = 1 := by rw [ascii]; rfl
  rw [View.endValues_eq]
  refine ⟨Nat.le_add_right_of_le ?_,nofun,fun _ => nofun,.inl rfl,fun _ => ⟨?_,nofun⟩,.inl plan,nofun⟩
  · dsimp only
    rw [empty,one]
    by_cases first : w.valueNo = 0
    · have text := list first
      rw [if_pos first,List.length_append,List.length_nil]
      omega
    · rw [if_neg first,List.append_nil,List.length_nil]
      omega
  · dsimp only
    rw [empty]
    rfl

theorem skipValues_fits (fits : Fits n v) (wide : bs ≠ []) (ascii : r < 0x80 → bs = [UInt8.ofNat r])
    (contained : Contained v r) (state : v.s = .inValues) :
    Fits (n+bs.length) ((v.read bs).skipValues r bs) := by
  have room := fits.room
  have size := fits.size
  have plan := fits.settled (by rw [state]; decide)
  -- A view that stays in the list, or leaves it without having met a closing parenthesis.
  have inside : ∀ (parOpen : Int) (total gap : Nat), 0 < parOpen → Fits (n+bs.length)
      {v.read bs with parOpen := parOpen,parOpenTotal := total,gap := gap} := by
    intro parOpen total gap positive
    refine fits_keep wide _ rfl (Nat.le_trans size (Nat.add_le_add_left ?_ n)) (fun bad => ?_) (.inr positive)
      (fun bad => ?_) (.inl plan) fits.digits
    · exact slack_mono v.pend rfl (by simp [held,state,View.read,positive])
    · exact absurd (state.symm.trans bad) (by decide)
    · exact absurd (state.symm.trans bad) (by decide)
  have literal : ∀ (parOpen : Int) (gap : Nat), v.parOpen ≤ 0 → v.parOpenTotal = 0 → Fits (n+bs.length)
      {v.read bs with parOpen := parOpen,gap := gap,s := .inWord} := by
    intro parOpen gap shut none
    rw [slack,if_neg (by rw [held,state]; simp [shut])] at size
    exact fits_keep wide _ rfl (Nat.le_add_right_of_le size) (by rintro ⟨⟩) (.inl none)
      (by rintro ⟨⟩) (.inl plan) (by rintro ⟨⟩)
  refine View.skipValues_cases (motive := Fits (n+bs.length)) (v.read bs) r bs (fun isShut => ?shut)
    (fun _ => ?opens)
    (fun _ => ?quote) (fun _ => ?space) ?other
  case shut =>
    subst isShut
    refine View.balanceValues_cases (motive := Fits (n+bs.length)) _ (rune ')') bs (fun positive => ?_)
      (fun _ none => absurd none (Nat.succ_ne_zero _)) fun closed _ => ?_
    · exact inside _ _ _ positive
    · refine endValues_fits _ (ascii (by decide)) plan room fun first => ?_
      have list := contained.list state first rfl (by change v.parOpen-1 ≤ 0 at closed; omega)
      rw [slack,if_neg (by rw [show v.valueNo = 0 from first]; simp)] at size
      change v.out.length+v.listText.length+v.addSpace.toNat ≤ n+1
      omega
  case opens =>
    refine View.balanceValues_cases (motive := Fits (n+bs.length)) _ r bs (fun positive => ?_)
      (fun closed none => ?_)
      fun closed some => ?_
    · exact inside _ _ _ positive
    · exact literal _ _ (by change v.parOpen+1 ≤ 0 at closed; omega) none
    · rcases fits.total with none | positive
      · exact absurd none some
      · change v.parOpen+1 ≤ 0 at closed
        omega
  case quote =>
    refine fits_keep wide _ rfl (Nat.le_trans size (Nat.add_le_add_left ?_ n))
      (by rintro ⟨⟩) fits.total (by rintro ⟨⟩) (.inl plan) (by rintro ⟨⟩)
    exact slack_mono v.pend rfl rfl
  case space =>
    refine fits_keep wide _ rfl size (fun bad => ?_) fits.total (fun bad => ?_) fits.plan fits.digits
    · exact absurd (state.symm.trans bad) (by decide)
    · exact absurd (state.symm.trans bad) (by decide)
  case other =>
    refine View.balanceValues_cases (motive := Fits (n+bs.length)) _ r bs (fun positive => ?_)
      (fun closed none => ?_)
      fun closed some => ?_
    · exact inside v.parOpen v.parOpenTotal v.gap positive
    · exact literal v.parOpen v.gap closed none
    · rcases fits.total with none | positive
      · exact absurd none some
      · exact absurd positive (by change v.parOpen ≤ 0 at closed; omega)

theorem skipPart_fits (fits : Fits n v) (wide : bs ≠ []) (ascii : r < 0x80 → bs = [UInt8.ofNat r])
    (contained : Contained v r) (order : v.sqlState = .orderBy → v.out ≠ []) :
    Skips n r bs ((v.read bs).skipPart r bs) := by
  have room := fits.room
  have size := fits.size
  have bytes := List.length_pos_iff.mpr wide
  -- The rune is skipped and the state moves within a comment.
  have moves : ∀ (pr : Nat) (s : State), v.s ≠ .inWord → s ≠ .inNumber ∧ s ≠ .moreValuesOrUnknown ∧
    s ≠ .inNumberInWord →
      held {v with s := s} = true → Fits (n+bs.length) {v.read bs with pr := pr,s := s} := by
    intro pr s notWord state holds
    refine fits_keep wide _ rfl (Nat.le_trans size (Nat.add_le_add_left ?_ n))
      (fun bad => absurd bad state.1) fits.total
      (fun bad => absurd bad state.2.1) (.inl (fits.settled notWord)) state.2.2
    exact slack_mono v.pend rfl holds
  refine View.skipPart_cases (motive := Skips n r bs) (v.read bs) r bs
    (fun state => skipQuote_fits fits wide state)
    (fun state => skipBackticks_fits fits wide state) (fun state _ => absurd state fits.digits)
    (fun state => absurd state fits.digits) (fun state _ => ?number) (fun state _ => ?notNumber)
      (fun state _ _ => ?version)
    (fun state _ => ?endNumber) (fun state => skipValues_fits fits wide ascii contained state)
      (fun state => ?comment)
    (fun state _ => ?endComment) (fun state => ?beginComment) (fun state bang => ?code) (fun state => ?line)
    (fun state => ?endLine) (fun calm space before => ?spaces) fun calm notBoth => ?through
  case number =>
    have number := fits.number state
    refine fits_keep wide _ rfl size (fun _ => ?_) fits.total (fun bad => ?_) fits.plan fits.digits
    · simp only [View.read]
      omega
    · exact absurd (state.symm.trans bad) (by decide)
  case notNumber =>
    have number := fits.number state
    rw [slack,if_neg (by rw [held,show v.s = _ from state]; simp)] at size
    exact ⟨v.pend,rfl,Nat.le_add_right_of_le size,fun _ _ => rfl,fun _ _ =>
      .inr (by simp only [View.read,View.mark]; omega),
      fits.total,(by rintro ⟨⟩),.inr ⟨rfl,.inl rfl⟩,order,rfl⟩
  case version =>
    have number := fits.number state
    rw [slack,if_neg (by rw [held,show v.s = _ from state]; simp)] at size
    exact ⟨v.pend,rfl,Nat.le_add_right_of_le size,fun _ _ => rfl,fun _ _ =>
      .inr (by simp only [View.read,View.mark]; omega),
      fits.total,(by rintro ⟨⟩),.inr ⟨rfl,.inl rfl⟩,(by rintro ⟨⟩),rfl⟩
  case endNumber =>
    have number := fits.number state
    refine ⟨[],rfl,Nat.le_add_right_of_le ?_,fun _ bad => absurd bad (Nat.lt_irrefl 0),
      fun _ => (by rintro ⟨⟩),fits.total,(by rintro ⟨⟩),
      .inr ⟨rfl,.inr rfl⟩,fun _ => ?_,rfl⟩
    · simp only [View.read,View.fromHere,View.mark,View.write,List.length_append,
        List.length_singleton,List.length_nil]
      omega
    · simp [View.write]
  case comment =>
    have state : v.s = .inMLC := state
    exact moves r v.s (by rw [state]; decide) (by rw [state]; decide) (by rw [held,state])
  case endComment =>
    have state : v.s = .inMLC := state
    exact moves v.pr .unknown (by rw [state]; decide) (by decide) rfl
  case beginComment =>
    have state : v.s = .mlcOrMySQLCode := state
    exact moves r .inMLC (by rw [state]; decide) (by decide) rfl
  case code =>
    have state : v.s = .mlcOrMySQLCode := state
    have none : slack v v.pend = 0 := by
      unfold slack
      split
      · rename_i both
        by_contra some
        have still := contained.space both.1 (by omega)
        rw [state,bang] at still
        cases still
      · rfl
    exact ⟨v.pend,rfl,by simp only [View.read]; omega,fun _ _ => rfl,fun _ _ =>
      .inl (by rw [bang]; decide),fits.total,(by rintro ⟨⟩),
      .inl (fits.settled (by rw [state]; decide)),(by rintro ⟨⟩),rfl⟩
  case line =>
    have state : v.s = .inOLC := state
    exact moves v.pr v.s (by rw [state]; decide) (by rw [state]; decide) (by rw [held,state])
  case endLine =>
    have state : v.s = .inOLC := state
    exact moves v.pr .unknown (by rw [state]; decide) (by decide) rfl
  case spaces =>
    have small : r < 0x80 ∧ r ≠ rune '\\' := by
      simp only [isSpace,Bool.or_eq_true,beq_iff_eq] at space
      rcases space with ((rfl | rfl) | rfl) | rfl <;> decide
    have empty : bs.drop 1 = [] := by rw [ascii small.1]; rfl
    refine ⟨Nat.le_add_right_of_le ?_,fun number => ?_,fun _ _ => .inl space,fits.total,
      fun _ => ⟨?_,small.2⟩,.inl rfl,
      fits.digits⟩
    · simp only [View.read,View.fromNext,empty,List.length_nil]
      omega
    · rw [show (v.read bs).s = _ from number] at calm
      cases calm
    · simp only [View.fromNext,empty]
      rfl
  case through =>
    refine ⟨v.pend,rfl,size,contained.space,fun empty ends => ?_,fits.total,fits.more,?_,order,calm⟩
    · rcases fits.word empty ends with space | word
      · exact .inl (by by_contra both; exact notBoth ⟨by simpa using both,space⟩)
      · exact .inr word
    · rcases fits.plan with settled | ⟨zero,word⟩
      · exact .inl settled
      · exact .inr ⟨zero,.inl word⟩

def Bounded (n : Nat) : Except Stop View → Prop
  | .ok v => Fits n v
  | .error stop => stop.view.out.length ≤ n

theorem step_bounded (fits : Fits n v) (wide : bs ≠ []) (ascii : r < 0x80 → bs = [UInt8.ofNat r])
    (contained : Contained v r)
    (order : v.sqlState = .orderBy → v.out ≠ []) (env : Env) (off : env.replaceNumbersInWords = false) :
    Bounded (n+bs.length) (v.step env r bs) := by
  have skips := skipPart_fits fits wide ascii contained order
  refine View.step_cases (motive := Bounded (n+bs.length)) env v r bs (fun w part => ?skip)
    (fun w stop part changed => ?stop)
    fun w u part changed => ?through
  case skip =>
    rw [part] at skips
    exact {(skips : Fits _ w) with}
  case stop =>
    rw [part] at skips
    obtain ⟨p,opened⟩ := skips
    have turned := changeState_ready opened wide ascii env off
    rw [changed] at turned
    exact Nat.le_add_right_of_le turned
  case through =>
    rw [part] at skips
    obtain ⟨p,opened⟩ := skips
    have turned := changeState_ready opened wide ascii env off
    rw [changed] at turned
    exact Ready.finish turned wide env

-- Along a run of contained steps the view never writes past what it has consumed.
theorem loop_bounded (env : Env) (off : env.replaceNumbersInWords = false) (pieces : Pieces q qi list qj)
    (head : Head q qi v o) (fits : Fits qi v) (within : qi ≤ q.length)
    (contained : loopContained env q qi list (v.machine q.length o) = true) :
    (written (View.run env list v)).length ≤ q.length := by
  induction pieces generalizing v o with
  | done => exact Nat.le_trans (Nat.le_trans (Nat.le_add_right _ _) fits.room) within
  | @read qi r bs pieces qj reads rest ih =>
    have room := reads.room
    rw [loopContained,Bool.and_eq_true] at contained
    have bounded := step_bounded fits (List.length_pos_iff.mp reads.wide) reads.ascii
      (contained_view head within contained.1) head.order env off
    have follows := step_follows head reads env
    unfold View.run
    cases turn : v.step env r bs with
    | error stop =>
      rw [turn] at bounded
      exact Nat.le_trans bounded room
    | ok w =>
      rw [turn] at bounded follows
      rcases follows with ⟨o',same,next⟩ | ⟨_,long⟩
      · have steps := contained.2
        rw [same] at steps
        exact ih next bounded room steps
      · have short := Nat.le_trans (Nat.le_add_right _ _) (Fits.room bounded)
        omega

theorem start_fits : Fits 0 View.start where
  size := Nat.le_refl _
  number := nofun
  word := fun _ => nofun
  total := .inl rfl
  more := nofun
  plan := .inl rfl
  digits := nofun

theorem written_le (env : Env) (off : env.replaceNumbersInWords = false)
    (contained : runContained env query = true) :
    (written (View.result env query)).length ≤ query.length+1 := by
  have steps : loopContained env (query ++ [byte ' ']) 0 (runes (query ++ [byte ' ']))
      (View.start.machine (query ++ [byte ' ']).length ⟨0,0,0⟩) = true := by
    rw [← start_machine]
    exact contained
  have bound :=
    loop_bounded env off (runes_pieces [] (query ++ [byte ' '])) (start_head _) start_fits
      (Nat.zero_le _) steps
  simpa [View.result] using bound

-- No index or slice is out of range and fi ends inside the buffer.
theorem contained_run_completes (env : Env) (query : Bytes) (off : env.replaceNumbersInWords = false)
    (contained : runContained env query = true) :
    Completes (run env query) ∧ fingerprint env query = some (View.answer query (View.result env query)) := by
  have completes := completes_of_fits (written_le env off contained)
  exact ⟨completes,fingerprint_answer completes⟩

theorem in_list_run_completes : runContained asciiEnv (str "a IN (1, 2)") = true ∧
    Completes (run asciiEnv (str "a IN (1, 2)")) :=
  ⟨by decide +kernel,(contained_run_completes asciiEnv (str "a IN (1, 2)") rfl (by decide +kernel)).1⟩

-- The list ")" is one byte long, and "(?+)" does not fit behind "value".
theorem value_parenthesis_panics : run asciiEnv (str "value )") = .error .outOfRange ∧
    fingerprint asciiEnv (str "value )") = none := by decide +kernel

end SqlReview.FingerprintBuffer
