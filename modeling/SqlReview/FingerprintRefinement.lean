import SqlReview.FingerprintView

namespace SqlReview.FingerprintView
open GoBytes Fingerprint

structure Offsets where
  cpFrom : Nat
  cpTo : Int
  firstPar : Nat

-- The concrete machine that a view with its offsets stands for.
def View.machine (v : View) (len : Nat) (o : Offsets) : Machine where
  prevWord := v.prevWord
  f := buffer len v.out
  fi := v.out.length
  pr := v.pr
  s := v.s
  sqlState := v.sqlState
  quoteChar := v.quoteChar
  cpFromOffset := o.cpFrom
  cpToOffset := o.cpTo
  addSpace := v.addSpace
  escape := v.escape
  parOpen := v.parOpen
  parOpenTotal := v.parOpenTotal
  valueNo := v.valueNo
  firstPar := o.firstPar

theorem emit_machine (v : View) (len : Nat) (o : Offsets) (b : UInt8) :
    (v.machine len o).emit b =
      if v.out.length < len then .ok ((v.write [b]).machine len o) else .error .outOfRange := by
  simp only [Machine.emit,Machine.poke,View.machine,buffer_length,buffer_set]
  split
  · simp [View.write,bind,Except.bind,pure,Except.pure]
  · rfl

theorem emitSpace_machine (v : View) (len : Nat) (o : Offsets) :
    (v.machine len o).emitSpace = (v.write [byte ' ']).machine len o := by
  simp only [Machine.emitSpace,View.machine,buffer_length,buffer_set,View.write,List.length_append,
    List.length_singleton]
  congr 1
  split
  · rfl
  · rename_i full
    rw [← buffer_set,List.set_eq_of_length_le (by rw [buffer_length]; omega)]

theorem copyInto_machine (v : View) (len : Nat) (o : Offsets) (l : Nat) (w : Bytes) :
    (v.machine len o).copyInto l w =
      if v.out.length+l ≤ len then .ok ((v.write (fit l w)).machine len o) else .error .outOfRange := by
  simp only [Machine.copyInto,View.machine,buffer_length]
  split
  · rename_i fits
    simp only [View.write,buffer_copy w fits,List.length_append,fit_length]
  · rfl

theorem endsInText_machine (v : View) (len : Nat) (o : Offsets) :
    Fingerprint.endsInText (v.machine len o) =
      if v.out.length ≤ len then .ok v.endsInText else .error .outOfRange := by
  simp only [Fingerprint.endsInText,View.machine,View.endsInText,buffer_get]
  by_cases empty : v.out = []
  · simp [empty]
  · have pos := List.length_pos_iff.mpr empty
    rw [if_neg (by omega),List.getLast?_eq_getElem?]
    by_cases fits : v.out.length ≤ len
    · have last := List.getElem?_eq_getElem (l := v.out) (show v.out.length-1 < v.out.length by omega)
      rw [if_pos (by omega),if_pos (by omega),if_pos fits,last]
    · rw [if_neg (by omega),if_neg fits]

theorem backComma_machine (v : View) (len : Nat) (o : Offsets) (text : v.out ≠ []) :
    Fingerprint.backComma (v.machine len o) =
      if v.out.length < len then .ok (v.backComma.machine len o) else .error .outOfRange := by
  obtain ⟨init,last,eq⟩ : ∃ init last, v.out = init ++ [last] :=
    ⟨_,_,(List.dropLast_append_getLast text).symm⟩
  have one : (buffer len (init ++ [last])).set init.length (byte ',') = buffer len (init ++ [byte ',']) := by
    rw [← buffer_set,List.set_set,buffer_set]
  have two : (buffer len (init ++ [byte ','])).set (init.length+1) (byte ' ') =
      buffer len (init ++ [byte ',',byte ' ']) := by
    have step := buffer_set len (init ++ [byte ',']) (byte ' ')
    simpa using step
  simp only [Fingerprint.backComma,Machine.poke,View.machine,View.backComma,eq,buffer_length,
    List.length_append,
    List.length_singleton,Nat.add_sub_cancel,one,bind,Except.bind,pure,Except.pure,List.dropLast_concat]
  by_cases fits : init.length+1 < len
  · rw [if_neg (by omega),if_pos (by omega),if_pos fits]
    simp [fits,two]
  · rw [if_neg (by omega),if_neg fits]
    by_cases edge : init.length < len
    · simp [edge,fits]
    · simp [edge]

-- The rune r at qi is made of the bytes bs of q.
structure Reads (q : Bytes) (qi r : Nat) (bs : Bytes) : Prop where
  wide : 0 < bs.length
  ascii : r < 0x80 → bs = [UInt8.ofNat r]
  room : qi+bs.length ≤ q.length
  piece : slice q qi (qi+bs.length) = bs

-- What ties a view to its offsets at the head of an iteration. Apart from a backtick
-- name that just closed, cpToOffset is a leftover that cpFromOffset has passed.
structure Head (q : Bytes) (qi : Nat) (v : View) (o : Offsets) : Prop where
  low : o.cpFrom ≤ qi
  pend : v.pend = slice q o.cpFrom qi
  plan : (v.plan = none ∧ o.cpTo ≤ o.cpFrom ∧ (o.cpTo < qi ∨ o.cpTo ≤ 0)) ∨
    (v.plan = some 0 ∧ o.cpTo = qi ∧ v.s = .inWord ∧ v.pr = rune '`')
  marked : v.marked = decide (2 < o.cpTo)
  far : v.far = min 4 qi
  gap : v.gap = min 2 (qi-o.firstPar)
  par : o.firstPar ≤ qi
  dash : v.s = .inDash → o.cpTo+1 < qi ∨ o.cpTo ≤ 2
  tick : v.s = .inBackticks → v.pr = rune '`'
  word : v.prevWord ≠ [] → 1 ≤ qi ∧ v.out ≠ []
  order : v.sqlState = .orderBy → v.out ≠ []
  values : v.s = .inValues ∨ v.sqlState = .inValues → 2 ≤ qi

-- The same inside an iteration, once the bytes of the rune are part of `pend`.
structure Mid (q : Bytes) (qi : Nat) (bs : Bytes) (v : View) (o : Offsets) : Prop where
  low : o.cpFrom ≤ qi+1
  pend : v.pend = slice q o.cpFrom (qi+bs.length)
  stale : v.plan = none → o.cpTo ≤ o.cpFrom
  due : ∀ back, v.plan = some back → o.cpTo = qi-back
  top : o.cpTo ≤ qi
  marked : v.marked = decide (2 < o.cpTo)
  far : v.far = min 4 qi
  gap : v.gap = min 2 (qi-o.firstPar)
  par : o.firstPar ≤ qi
  word : v.prevWord ≠ [] → 1 ≤ qi ∧ v.out ≠ []
  order : v.sqlState = .orderBy → v.out ≠ []
  values : v.s = .inValues ∨ v.sqlState = .inValues → 1 ≤ qi

theorem Head.mid (head : Head q qi v o) (reads : Reads q qi r bs) : Mid q qi bs (v.read bs) o where
  low := by have := head.low; omega
  pend := by
    rw [View.read,head.pend]
    conv_lhs => rw [← reads.piece]
    exact slice_append q head.low (by omega)
  stale := by
    intro none
    rcases head.plan with ⟨_,stale,_⟩ | ⟨some,_⟩
    · exact stale
    · exact absurd (some.symm.trans none) (by simp)
  due := by
    intro back some
    rcases head.plan with ⟨none,_⟩ | ⟨zero,here,_⟩
    · exact absurd (none.symm.trans some) (by simp)
    · have same : back = 0 := by simpa using (some.symm.trans zero)
      simp [here,same]
  top := by
    have := head.low
    rcases head.plan with ⟨_,_,early⟩ | ⟨_,here,_⟩ <;> omega
  marked := head.marked
  far := head.far
  gap := head.gap
  par := head.par
  word := head.word
  order := head.order
  values := fun inside => by have := head.values inside; omega

theorem Mid.head (mid : Mid q qi bs v o) (reads : Reads q qi r bs) (settled : v.plan = none)
    (dash : v.s = .inDash → o.cpTo < qi ∨ o.cpTo ≤ 2)
    (tick : v.s = .inBackticks → v.pr = rune '`') : Head q (qi+bs.length) (v.advance bs) o where
  low := by have := mid.low; have := reads.wide; omega
  pend := mid.pend
  plan := .inl ⟨settled,mid.stale settled,by have := mid.top; have := reads.wide; omega⟩
  marked := mid.marked
  far := by simp only [View.advance,mid.far]; omega
  gap := by have := mid.par; simp only [View.advance,mid.gap]; omega
  par := by have := mid.par; omega
  dash := by
    intro state
    have := reads.wide
    rcases dash state with early | small
    · left; omega
    · exact .inr small
  tick := tick
  word := by intro some; have := mid.word some; exact ⟨by omega,this.2⟩
  order := mid.order
  values := by intro inside; have := mid.values inside; have := reads.wide; omega

-- cpFromOffset = qi
theorem Mid.fromHere (mid : Mid q qi bs v o) (reads : Reads q qi r bs) (low : o.cpFrom ≤ qi) :
    Mid q qi bs (v.fromHere bs) {o with cpFrom := qi} :=
  {mid with
    low := by dsimp only; omega
    pend := reads.piece.symm
    stale := fun none => by have := mid.stale none; dsimp only; omega}

-- cpFromOffset = qi + 1
theorem Mid.fromNext (mid : Mid q qi bs v o) (reads : Reads q qi r bs) :
    Mid q qi bs (v.fromNext bs) {o with cpFrom := qi+1} :=
  {mid with
    low := Nat.le_refl _
    pend := by
      have cut := slice_drop q (qi+bs.length) (Nat.le_succ qi)
      rw [reads.piece,Nat.succ_sub (Nat.le_refl qi),Nat.sub_self] at cut
      exact cut
    stale := fun _ => by have := mid.top; dsimp only; omega}

-- cpToOffset = qi
theorem Mid.mark (mid : Mid q qi bs v o) : Mid q qi bs v.mark {o with cpTo := qi} :=
  {mid with
    stale := fun none => by simp [View.mark] at none
    due := by
      intro back some
      have zero : back = 0 := by simpa [View.mark] using some.symm
      simp [zero]
    top := Int.le_refl _
    marked := by
      have far := mid.far
      simp only [View.mark,decide_eq_decide]
      omega}

-- A computation of the source tracks a view: it ends in the machine of that view, or it
-- panics and the view has written more than the buffer holds.
def Tracks (q : Bytes) (post : View → Offsets → Prop) (go : Go Machine) (v : View) : Prop :=
  (∃ o, go = .ok (v.machine q.length o) ∧ post v o) ∨ (go = .error .outOfRange ∧ q.length < v.out.length)

theorem Tracks.ok {post : View → Offsets → Prop} {m : Machine} (o : Offsets) (same : m = v.machine q.length o)
    (fact : post v o) : Tracks q post (.ok m) v := .inl ⟨o,congrArg _ same,fact⟩

theorem Tracks.ite {post : View → Offsets → Prop} {c : Prop} [Decidable c] {one two : Go Machine} {v w : View}
    (yes : c → Tracks q post one v) (no : ¬ c → Tracks q post two w) :
    Tracks q post (if c then one else two) (if c then v else w) :=
  rel_ite (R := Tracks q post) Iff.rfl yes no

theorem Tracks.pure_ite {post : View → Offsets → Prop} {c : Prop} [Decidable c] {one two : Machine}
    {v w : View}
    (yes : c → Tracks q post (.ok one) v) (no : ¬ c → Tracks q post (.ok two) w) :
    Tracks q post (.ok (if c then one else two)) (if c then v else w) :=
  rel_ite (R := fun m v => Tracks q post (.ok m) v) Iff.rfl yes no

-- A write followed by assignments that touch neither the buffer nor fi.
theorem Tracks.emit {post : View → Offsets → Prop} {k : Machine → Machine} {v w : View} (o o' : Offsets)
    (same : k ((v.write [b]).machine q.length o) = w.machine q.length o')
    (size : w.out.length = v.out.length+1) (fact : post w o') :
    Tracks q post (do let m ← (v.machine q.length o).emit b; return k m) w := by
  rw [emit_machine]
  by_cases fits : v.out.length < q.length
  · rw [if_pos fits]
    exact .inl ⟨o',congrArg Except.ok same,fact⟩
  · rw [if_neg fits]
    exact .inr ⟨rfl,by omega⟩

theorem Tracks.bind {pre post : View → Offsets → Prop} {k : Machine → Go Machine} {v w : View}
    (first : Tracks q pre go v) (next : ∀ o, pre v o → Tracks q post (k (v.machine q.length o)) w)
    (size : v.out.length ≤ w.out.length) : Tracks q post (go >>= k) w := by
  rcases first with ⟨o,rfl,fact⟩ | ⟨rfl,long⟩
  · exact next o fact
  · exact .inr ⟨rfl,Nat.lt_of_lt_of_le long size⟩

abbrev Next (q : Bytes) (qi : Nat) (bs : Bytes) (v : View) (o : Offsets) : Prop :=
  Head q (qi+bs.length) (v.advance bs) o

theorem Mid.write (mid : Mid q qi bs v o) (text : Bytes) : Mid q qi bs (v.write text) o :=
  {mid with
    word := fun some => ⟨(mid.word some).1,by simp [View.write,(mid.word some).2]⟩
    order := fun order => by simp [View.write,mid.order order]}

theorem skipQuote_tracks (mid : Mid q qi bs v o) (reads : Reads q qi r bs) (settled : v.plan = none)
    (state : v.s = .inQuote) :
    Tracks q (Next q qi bs) (Fingerprint.skipQuote (v.machine q.length o) qi r) (v.skipQuote r bs) := by
  have keep : ∀ b, Next q qi bs {v with escape := b} o := fun b =>
    Mid.head {mid with} reads settled (fun dash => absurd (state.symm.trans dash) (by decide))
      fun tick => absurd (state.symm.trans tick) (by decide)
  have moved := mid.fromNext reads
  refine Tracks.ite (fun other => ?_) fun _ => ?_
  · refine Tracks.ite (fun _ => .ok o rfl (keep false)) fun _ => ?_
    exact Tracks.ite (fun _ => .ok o rfl (keep true)) fun _ => .ok o rfl (keep v.escape)
  · refine Tracks.ite (fun _ => .ok o rfl (keep false)) fun _ => ?_
    refine Tracks.ite (fun values => ?_) fun _ => ?_
    · refine .ok {o with cpFrom := qi+1} rfl
        (Mid.head {moved with values := ?_} reads settled (by rintro ⟨⟩) (by rintro ⟨⟩))
      exact fun _ => mid.values (.inr values)
    · refine Tracks.emit (v := {v.fromNext bs with escape := false}) (k := fun m => {m with s := .unknown})
        {o with cpFrom := qi+1} {o with cpFrom := qi+1} rfl (by simp [View.write,View.fromNext]) ?_
      refine Mid.head {moved.write [byte '?'] with values := ?_} reads settled (by rintro ⟨⟩) (by rintro ⟨⟩)
      exact fun inside => mid.values (inside.imp_left (by rintro ⟨⟩))

theorem skipBackticks_head (mid : Mid q qi bs v o) (reads : Reads q qi r bs) (settled : v.plan = none)
    (state : v.s = .inBackticks) (tick : v.pr = rune '`') :
    ∃ o', Fingerprint.skipBackticks (v.machine q.length o) qi r = (v.skipBackticks r).machine q.length o' ∧
      Next q qi bs (v.skipBackticks r) o' := by
  have keep : ∀ b, Next q qi bs {v with escape := b} o := fun b =>
    Mid.head {mid with} reads settled (fun dash => absurd (state.symm.trans dash) (by decide)) fun _ => tick
  unfold Fingerprint.skipBackticks View.skipBackticks
  by_cases other : r ≠ rune '`'
  · rw [if_pos other,if_pos other]
    by_cases escaped : v.escape = true
    · rw [if_pos (by exact escaped),if_pos escaped]
      exact ⟨o,rfl,keep false⟩
    · rw [if_neg (by exact escaped),if_neg escaped]
      split
      · exact ⟨o,rfl,keep true⟩
      · exact ⟨o,rfl,keep v.escape⟩
  · rw [if_neg other,if_neg other]
    by_cases escaped : v.escape = true
    · rw [if_pos (by exact escaped),if_pos escaped]
      exact ⟨o,rfl,keep false⟩
    · rw [if_neg (by exact escaped),if_neg escaped]
      refine ⟨{o with cpTo := qi+1},rfl,?_⟩
      have one := congrArg List.length (reads.ascii (by rw [not_not.mp other]; decide))
      have head := keep v.escape
      refine {head with
        plan := .inr ⟨rfl,by dsimp only; rw [one,List.length_singleton]; rfl,rfl,tick⟩,marked := ?_,
        dash := nofun,tick := nofun,values := ?_}
      · have far := mid.far
        simp only [View.advance,decide_eq_decide]
        omega
      · exact fun inside => head.values (inside.imp_left nofun)

-- What step 2 starts from: nothing was skipped, and at a second dash and after it
-- cpToOffset is not this iteration's.
structure Enter (q : Bytes) (qi r : Nat) (bs : Bytes) (v : View) (o : Offsets) : Prop where
  mid : Mid q qi bs v o
  low : o.cpFrom ≤ qi
  calm : skips v.s = false
  second : r = rune '-' → v.pr = rune '-' → o.cpTo < qi ∨ o.cpTo ≤ 2
  dash : v.s = .inDash → o.cpTo+1 < qi ∨ o.cpTo ≤ 2

def SkipTracks (q : Bytes) (qi r : Nat) (bs : Bytes) (go : Go (Skipped Machine)) : Skipped View → Prop
  | .skip v => (∃ o, go = .ok (.skip (v.machine q.length o)) ∧ Next q qi bs v o) ∨
      (go = .error .outOfRange ∧ q.length < v.out.length)
  | .through v => (∃ o, go = .ok (.through (v.machine q.length o)) ∧ Enter q qi r bs v o) ∨
      (go = .error .outOfRange ∧ q.length < v.out.length)

theorem SkipTracks.skip (tracks : Tracks q (Next q qi bs) go v) :
    SkipTracks q qi r bs (do return .skip (← go)) (.skip v) := by
  rcases tracks with ⟨o,rfl,next⟩ | ⟨rfl,long⟩
  · exact .inl ⟨o,rfl,next⟩
  · exact .inr ⟨rfl,long⟩

theorem SkipTracks.ite {c : Prop} [Decidable c] {one two : Go (Skipped Machine)} {v w : Skipped View}
    (yes : c → SkipTracks q qi r bs one v) (no : ¬ c → SkipTracks q qi r bs two w) :
    SkipTracks q qi r bs (if c then one else two) (if c then v else w) :=
  rel_ite (R := SkipTracks q qi r bs) Iff.rfl yes no

theorem SkipTracks.emit {k : Machine → Machine} {v w : View} (o o' : Offsets)
    (same : k ((v.write [b]).machine q.length o) = w.machine q.length o')
    (size : w.out.length = v.out.length+1) (fact : Enter q qi r bs w o') :
    SkipTracks q qi r bs (do let m ← (v.machine q.length o).emit b; return .through (k m)) (.through w) := by
  rw [emit_machine]
  by_cases fits : v.out.length < q.length
  · rw [if_pos fits]
    exact .inl ⟨o',congrArg (Except.ok ∘ Skipped.through) same,fact⟩
  · rw [if_neg fits]
    exact .inr ⟨rfl,by omega⟩

theorem endNumberInWord_tracks (head : Head q qi v o) (reads : Reads q qi r bs) (settled : v.plan = none)
    (state : v.s = .inNumberInWord) :
    SkipTracks q qi r bs (Fingerprint.endNumberInWord ((v.read bs).machine q.length o) qi r)
      ((v.read bs).endNumberInWord r bs) := by
  have mid := head.mid reads
  refine SkipTracks.ite (fun _ => ?_) fun _ => ?_
  · exact .inl ⟨o,rfl,Mid.head mid reads settled (fun dash => absurd (state.symm.trans dash) (by decide))
      fun tick => absurd (state.symm.trans tick) (by decide)⟩
  · refine SkipTracks.emit
      (k := fun m => {m with cpFromOffset := qi,s := if isSpace r then .unknown else .inWord})
      o {o with cpFrom := qi} rfl (by simp [View.write,View.fromHere]) ⟨?_,Nat.le_refl _,?_,?_,?_⟩
    · refine {(mid.fromHere reads head.low).write [byte '?'] with values := ?_}
      rintro (bad | inside)
      · dsimp only at bad; split at bad <;> cases bad
      · exact mid.values (.inr inside)
    · dsimp only; split <;> rfl
    · intro _ _
      rcases head.plan with ⟨_,_,early | small⟩ | ⟨some,_⟩
      · exact .inl early
      · exact .inr (by dsimp only; omega)
      · exact absurd (settled.symm.trans some) (by simp)
    · intro bad; dsimp only at bad; split at bad <;> cases bad

theorem endNumber_tracks (head : Head q qi v o) (reads : Reads q qi r bs) (settled : v.plan = none)
    (state : v.s = .inNumber) :
    SkipTracks q qi r bs (Fingerprint.endNumber ((v.read bs).machine q.length o) qi r)
      ((v.read bs).endNumber r bs) := by
  have mid := head.mid reads
  refine SkipTracks.ite (fun _ => ?_) fun notNumeral => ?_
  · exact .inl ⟨o,rfl,Mid.head mid reads settled (fun dash => absurd (state.symm.trans dash) (by decide))
      fun tick => absurd (state.symm.trans tick) (by decide)⟩
  · have notDash : r = rune '-' → False := by
      rintro rfl
      exact notNumeral (by decide)
    refine SkipTracks.ite (fun _ => ?_) fun _ => ?_
    · refine .inl ⟨{o with cpTo := qi},rfl,⟨?_,head.low,rfl,fun dash => (notDash dash).elim,(by rintro ⟨⟩)⟩⟩
      exact {mid.mark with values := fun inside => mid.values (inside.imp_left (by rintro ⟨⟩))}
    · refine SkipTracks.ite (fun _ => ?_) fun _ => ?_
      · refine .inl ⟨{o with cpTo := qi},rfl,⟨?_,head.low,rfl,fun dash => (notDash dash).elim,(by rintro ⟨⟩)⟩⟩
        exact {mid.mark with order := (by rintro ⟨⟩),values := by rintro (bad | bad) <;> cases bad}
      · refine SkipTracks.emit (k := fun m => {m with cpFromOffset := qi,cpToOffset := qi,s := .unknown})
          o {o with cpFrom := qi,cpTo := qi} rfl (by simp [View.write,View.fromHere,View.mark])
          ⟨?_,Nat.le_refl _,rfl,fun dash => (notDash dash).elim,(by rintro ⟨⟩)⟩
        exact {((mid.fromHere reads head.low).mark).write [byte '?'] with
          values := fun inside => mid.values (inside.imp_left (by rintro ⟨⟩))}

theorem listText_machine (mid : Mid q qi bs v o) :
    Fingerprint.listText (v.machine q.length o) qi = v.listText := by
  have gap := mid.gap
  have par := mid.par
  have same : (1 < (qi : Int) - o.firstPar) = (v.gap = 2) := by rw [eq_iff_iff,gap]; omega
  simp only [Fingerprint.listText,View.listText,View.machine,same]

theorem copyInto_tracks (mid : Mid q qi bs v o) (l : Nat) (w : Bytes) :
    Tracks q (Mid q qi bs) ((v.machine q.length o).copyInto l w) (v.write (fit l w)) := by
  rw [copyInto_machine]
  by_cases fits : v.out.length+l ≤ q.length
  · rw [if_pos fits]
    exact .ok o rfl (mid.write (fit l w))
  · rw [if_neg fits]
    refine .inr ⟨rfl,?_⟩
    simp only [View.write,List.length_append,fit_length]
    omega

theorem writeList_tracks (mid : Mid q qi bs v o) (late : 2 ≤ qi) :
    Tracks q (Mid q qi bs) (Fingerprint.writeList (v.machine q.length o) qi) v.writeList := by
  refine Tracks.ite (fun _ => ?_) fun _ => .ok o rfl mid
  have write := copyInto_tracks mid v.listText.length v.listText
  rw [fit_self] at write
  rw [listText_machine mid]
  refine Tracks.bind write (fun o' mid' => .ok {o' with firstPar := 0} rfl ?_) (Nat.le_refl _)
  refine {mid' with gap := ?_,par := Nat.zero_le _}
  simp only [Nat.sub_zero]
  omega

theorem endValues_tracks (mid : Mid q qi bs v o) (reads : Reads q qi r bs) (settled : v.plan = none)
    (late : 2 ≤ qi) :
    Tracks q (Next q qi bs) (Fingerprint.endValues (v.machine q.length o) qi r) (v.endValues r bs) := by
  have positive : 1 ≤ qi := by omega
  refine Tracks.bind (writeList_tracks (v := {v with valueNo := v.valueNo+1}) {mid with} late) ?_
    (Nat.le_refl _)
  intro o' mid'
  have moved := mid'.fromNext reads
  refine .ok {o' with cpFrom := qi+1} rfl
    (Mid.head {moved with values := fun _ => positive} reads ?_ nofun nofun)
  change (View.writeList {v with valueNo := v.valueNo+1}).plan = none
  unfold View.writeList
  split <;> exact settled

theorem balanceValues_tracks (mid : Mid q qi bs v o) (reads : Reads q qi r bs) (settled : v.plan = none)
    (state : v.s = .inValues) (late : 2 ≤ qi) :
    Tracks q (Next q qi bs) (Fingerprint.balanceValues (v.machine q.length o) qi r)
      (v.balanceValues r bs) := by
  refine Tracks.ite (fun _ => ?_) fun _ => Tracks.ite (fun _ => ?_) fun _ =>
    endValues_tracks mid reads settled late
  · exact .ok o rfl (Mid.head mid reads settled (fun dash => absurd (state.symm.trans dash) (by decide))
      fun tick => absurd (state.symm.trans tick) (by decide))
  · exact .ok o rfl (Mid.head {mid with values := fun inside => mid.values (inside.imp_left nofun)}
      reads settled nofun nofun)

theorem skipValues_tracks (mid : Mid q qi bs v o) (reads : Reads q qi r bs) (settled : v.plan = none)
    (state : v.s = .inValues) (late : 2 ≤ qi) :
    Tracks q (Next q qi bs) (Fingerprint.skipValues (v.machine q.length o) qi r) (v.skipValues r bs) := by
  have positive : 1 ≤ qi := by omega
  refine Tracks.ite (fun _ => ?_) fun _ => Tracks.ite (fun _ => ?_) fun _ => Tracks.ite (fun _ => ?_) fun _ =>
    Tracks.ite (fun _ => ?_) fun _ => ?_
  · exact balanceValues_tracks
      (v := {v with
        parOpen := v.parOpen-1,parOpenTotal := v.parOpenTotal+1}) {mid with} reads settled state late
  · refine balanceValues_tracks (o := {o with firstPar := if v.parOpen+1 = 1 then qi else o.firstPar})
      (v := {v with parOpen := v.parOpen+1,gap := if v.parOpen+1 = 1 then 0 else v.gap})
      {mid with gap := ?_,par := ?_} reads settled state late
    · dsimp only
      split
      · simp
      · exact mid.gap
    · dsimp only
      split
      · exact Nat.le_refl _
      · exact mid.par
  · exact .ok o rfl (Mid.head {mid with values := fun _ => positive} reads settled nofun nofun)
  · exact .ok o rfl (Mid.head mid reads settled (fun dash => absurd (state.symm.trans dash) (by decide))
      fun tick => absurd (state.symm.trans tick) (by decide))
  · exact balanceValues_tracks mid reads settled state late

theorem skipComment_head (mid : Mid q qi bs v o) (reads : Reads q qi r bs) (settled : v.plan = none)
    (state : v.s = .inMLC) :
    Fingerprint.skipComment (v.machine q.length o) r = (v.skipComment r).machine q.length o ∧
      Next q qi bs (v.skipComment r) o := by
  unfold Fingerprint.skipComment View.skipComment
  by_cases closed : v.pr = rune '*' ∧ r = rune '/'
  · rw [if_pos (by exact closed),if_pos closed]
    exact ⟨rfl,Mid.head {mid with values := fun inside => mid.values (inside.imp_left nofun)}
      reads settled nofun nofun⟩
  · rw [if_neg (by exact closed),if_neg closed]
    exact ⟨rfl,Mid.head {mid with} reads settled (fun dash => absurd (state.symm.trans dash) (by decide))
      fun tick => absurd (state.symm.trans tick) (by decide)⟩

theorem Head.settled (head : Head q qi v o) (state : v.s ≠ .inWord) : v.plan = none := by
  rcases head.plan with ⟨none,_⟩ | ⟨_,_,word,_⟩
  · exact none
  · exact absurd word state

theorem Head.enter (head : Head q qi v o) (reads : Reads q qi r bs) (calm : skips v.s = false) :
    Enter q qi r bs (v.read bs) o where
  mid := head.mid reads
  low := head.low
  calm := calm
  dash := head.dash
  second := by
    intro _ before
    rcases head.plan with ⟨_,_,early | small⟩ | ⟨_,_,_,tick⟩
    · exact .inl early
    · exact .inr (by omega)
    · exact absurd (before.symm.trans tick) (by decide)

-- Two spaces in a row: the second is dropped, with whatever was due for copying.
theorem skipSpace_head (head : Head q qi v o) (reads : Reads q qi r bs) (space : isSpace v.pr = true) :
    Next q qi bs {(v.read bs).fromNext bs with pr := r,plan := none} {o with cpFrom := qi+1} := by
  have mid := head.mid reads
  have notTick : v.s ≠ .inBackticks :=
    fun tick => by rw [head.tick tick] at space; exact absurd space (by decide)
  refine Mid.head {mid.fromNext reads with
    stale := fun _ => ?_,due := nofun} reads rfl ?_ fun tick => absurd tick notTick
  · have top := mid.top
    dsimp only
    omega
  · intro dash
    rcases head.dash dash with early | small
    · exact .inl (by dsimp only; omega)
    · exact .inr small

theorem skipPart_other (m : Machine) (qi r : Nat) (other : skips m.s = false) :
    Fingerprint.skipPart m qi r =
      if isSpace r && isSpace m.pr then .ok (.skip {m with cpFromOffset := qi+1,pr := r})
      else .ok (.through m) := by
  unfold Fingerprint.skipPart
  split <;> rename_i state <;> first | rfl | (rw [state] at other; cases other)

theorem view_skipPart_other (v : View) (r : Nat) (bs : Bytes) (other : skips v.s = false) :
    v.skipPart r bs = if isSpace r && isSpace v.pr then .skip {v.fromNext bs with pr := r,plan := none}
      else .through v := by
  unfold View.skipPart
  split <;> rename_i state <;> first | rfl | (rw [state] at other; cases other)

theorem skipOther_tracks (head : Head q qi v o) (reads : Reads q qi r bs) (other : skips v.s = false) :
    SkipTracks q qi r bs (Fingerprint.skipPart ((v.read bs).machine q.length o) qi r)
      ((v.read bs).skipPart r bs) := by
  rw [skipPart_other _ _ _ (by exact other),view_skipPart_other _ _ _ (by exact other)]
  refine SkipTracks.ite (fun both => ?_) fun _ => .inl ⟨o,rfl,head.enter reads other⟩
  have space : isSpace v.pr = true := (Bool.and_eq_true_iff.mp both).2
  exact .inl ⟨{o with cpFrom := qi+1},rfl,skipSpace_head head reads space⟩

theorem skipPart_tracks (head : Head q qi v o) (reads : Reads q qi r bs) :
    SkipTracks q qi r bs (Fingerprint.skipPart ((v.read bs).machine q.length o) qi r)
      ((v.read bs).skipPart r bs) := by
  have mid := head.mid reads
  have settled := fun state => head.settled (v := v) state
  by_cases other : skips v.s = false
  · exact skipOther_tracks head reads other
  unfold Fingerprint.skipPart View.skipPart
  cases state : v.s <;> first
    | (rw [state] at other; exact absurd rfl other)
    | rw [show ((v.read bs).machine q.length o).s = _ from state,show (v.read bs).s = _ from state]
  case inQuote => exact .skip (skipQuote_tracks mid reads (settled (by rw [state]; decide)) state)
  case inBackticks =>
    obtain ⟨o',same,next⟩ :=
      skipBackticks_head mid reads (settled (by rw [state]; decide)) state (head.tick state)
    exact .inl ⟨o',congrArg (Except.ok ∘ Skipped.skip) same,next⟩
  case inNumberInWord => exact endNumberInWord_tracks head reads (settled (by rw [state]; decide)) state
  case inNumber => exact endNumber_tracks head reads (settled (by rw [state]; decide)) state
  case inValues =>
    exact .skip (skipValues_tracks mid reads (settled (by rw [state]; decide)) state
      (head.values (.inl state)))
  case inMLC =>
    obtain ⟨same,next⟩ := skipComment_head mid reads (settled (by rw [state]; decide)) state
    exact .inl ⟨o,congrArg (Except.ok ∘ Skipped.skip) same,next⟩
  case mlcOrMySQLCode =>
    refine SkipTracks.ite (fun _ => ?_) fun bang => ?_
    · exact .inl ⟨o,rfl,Mid.head {mid with values := fun inside => mid.values (inside.imp_left nofun)} reads
        (settled (by rw [state]; decide)) nofun nofun⟩
    · refine .inl ⟨o,rfl,⟨{mid with order := nofun,values := by rintro (bad | bad) <;> cases bad},
        head.low,rfl,?_,nofun⟩⟩
      intro dash
      exact absurd ((not_not.mp bang).symm.trans dash) (by decide)
  case inOLC =>
    by_cases newline : r = 0x0A
    · rw [if_pos newline,if_pos newline]
      exact .inl ⟨o,rfl,Mid.head {mid with values := fun inside => mid.values (inside.imp_left nofun)} reads
        (settled (by rw [state]; decide)) nofun nofun⟩
    · rw [if_neg newline,if_neg newline]
      exact .inl ⟨o,rfl,Mid.head mid reads (settled (by rw [state]; decide))
        (fun dash => absurd (state.symm.trans dash) (by decide)) fun tick =>
          absurd (state.symm.trans tick) (by decide)⟩

def StateTracks (q : Bytes) (post : View → Offsets → Prop) (go : Go Machine) : Except Stop View → Prop
  | .ok v => Tracks q post go v
  | .error stop => go = .error stop.exit ∧ stop.exit ≠ .outOfRange

theorem StateTracks.ite {post : View → Offsets → Prop} {c : Prop} [Decidable c] {one two : Go Machine}
    {v w : Except Stop View} (yes : c → StateTracks q post one v) (no : ¬ c → StateTracks q post two w) :
    StateTracks q post (if c then one else two) (if c then v else w) :=
  rel_ite (R := StateTracks q post) Iff.rfl yes no

theorem StateTracks.bind {pre post : View → Offsets → Prop} {k : Machine → Go Machine} {n : View → View}
    (first : StateTracks q pre go turn)
    (step : ∀ v o, pre v o → Tracks q post (k (v.machine q.length o)) (n v))
    (size : ∀ v, v.out.length ≤ (n v).out.length) :
    StateTracks q post (go >>= k) (turn >>= fun v => .ok (n v)) := by
  cases turn with
  | ok v => exact Tracks.bind first (fun o fact => step v o fact) (size v)
  | error stop =>
    refine ⟨?_,first.2⟩
    rw [first.1]
    rfl

theorem Enter.cut (enter : Enter q qi r bs v o) (reads : Reads q qi r bs) :
    Fingerprint.cut q o.cpFrom qi = .ok (v.word bs) := by
  have room := reads.room
  have low := enter.low
  have length : (slice q o.cpFrom (qi+bs.length)).length-bs.length = qi-o.cpFrom := by
    rw [slice_length q room]; omega
  rw [Fingerprint.cut,if_pos ⟨low,by omega⟩,View.word,enter.mid.pend,length,slice_take q (by omega)]

theorem nullValue_tracks (mid : Mid q qi bs v o) (reads : Reads q qi r bs) (word : Bytes) :
    Tracks q (Mid q qi bs) (Fingerprint.nullValue (v.machine q.length o) qi word) (v.nullValue word bs) := by
  have one := mid.write [byte '?']
  have emitted : ∀ (w : View) (b : UInt8), Mid q qi bs w o →
      Tracks q (fun w o' => o' = o ∧ Mid q qi bs w o) ((w.machine q.length o).emit b) (w.write [b]) := by
    intro w b midW
    rw [emit_machine]
    by_cases fits : w.out.length < q.length
    · rw [if_pos fits]
      exact .ok o rfl ⟨rfl,midW.write [b]⟩
    · rw [if_neg fits]
      exact .inr ⟨rfl,by simp only [View.write,List.length_append,List.length_singleton]; omega⟩
  have comma : Tracks q (fun w o' => o' = o ∧ Mid q qi bs w o)
      (Fingerprint.nullComma ((v.write [byte '?']).machine q.length o) word)
        ((v.write [byte '?']).nullComma word) :=
    Tracks.ite (fun _ => emitted _ _ one) fun _ => .ok o rfl ⟨rfl,one⟩
  have grow : (v.write [byte '?']).out.length ≤ ((v.write [byte '?']).nullComma word).out.length := by
    unfold View.nullComma
    split
    · simp only [View.write,List.length_append]; omega
    · exact Nat.le_refl _
  have size : ((v.write [byte '?']).nullComma word).out.length ≤ (v.nullValue word bs).out.length := by
    simp only [View.nullValue,View.fromNext,View.write,List.length_append]; omega
  refine Tracks.bind (emitted v (byte '?') mid) ?_ (Nat.le_trans grow size)
  intro _ same
  rw [same.1]
  refine Tracks.bind comma ?_ size
  intro _ same
  rw [same.1]
  refine .ok {o with cpFrom := qi+1} ?_ ((same.2.write [byte ' ']).fromNext reads)
  rw [emitSpace_machine]
  rfl

theorem matchWord_tracks (enter : Enter q qi r bs v o) (reads : Reads q qi r bs) (env : Env) (word : Bytes) :
    StateTracks q (Mid q qi bs) (Fingerprint.matchWord env (v.machine q.length o) qi word)
      (v.matchWord env word bs) := by
  have mid := enter.mid
  have here := mid.fromHere reads enter.low
  refine StateTracks.ite (fun _ => ⟨rfl,nofun⟩) fun _ =>
    StateTracks.ite (fun _ => nullValue_tracks mid reads word) fun _ =>
    StateTracks.ite (fun order => ?_) fun _ => StateTracks.ite (fun asc => ?_) fun _ =>
    StateTracks.ite (fun _ => ?_) fun _ => Tracks.ok o rfl mid
  · have some : v.prevWord ≠ [] := by rw [show v.prevWord = str "order" from order.1]; decide
    exact Tracks.ok o rfl {mid with order := fun _ => (mid.word some).2,values := fun inside => mid.values (inside.imp_right nofun)}
  · refine StateTracks.ite (fun _ => ?_) fun _ => Tracks.ok {o with cpFrom := qi} rfl here
    have back := backComma_machine (v.fromHere bs) q.length {o with cpFrom := qi} (mid.order asc.1)
    have text := List.length_pos_iff.mpr (mid.order asc.1)
    change Tracks q _ (Fingerprint.backComma ((v.fromHere bs).machine q.length {o with cpFrom := qi})) _
    rw [back]
    by_cases fits : (v.fromHere bs).out.length < q.length
    · rw [if_pos fits]
      refine .ok {o with cpFrom := qi} rfl {here with word := fun some => ⟨(mid.word some).1,?_⟩,order := fun _ => ?_}
      · simp [View.backComma]
      · simp [View.backComma]
    · rw [if_neg fits]
      refine .inr ⟨rfl,?_⟩
      simp only [View.backComma,View.fromHere,List.length_append,List.length_dropLast,
        List.length_cons,List.length_nil] at fits ⊢
      omega
  · exact Tracks.ok o rfl {mid with
      order := nofun,values := fun inside => mid.values (inside.imp_right nofun)}

-- What step 2 leaves to the copy step.
structure Leave (q : Bytes) (qi r : Nat) (bs : Bytes) (v : View) (o : Offsets) : Prop where
  mid : Mid q qi bs v o
  dash : v.s = .inDash → o.cpTo < qi ∨ o.cpTo ≤ 2
  tick : v.s = .inBackticks → r = rune '`'

theorem Leave.of (mid : Mid q qi bs v o) (state : v.s ≠ .inDash ∧ v.s ≠ .inBackticks) : Leave q qi r bs v o :=
  ⟨mid,fun dash => absurd dash state.1,fun tick => absurd tick state.2⟩

theorem endWord_tracks (enter : Enter q qi r bs v o) (reads : Reads q qi r bs) (env : Env) :
    StateTracks q (Leave q qi r bs) (Fingerprint.endWord env q (v.machine q.length o) qi)
      (v.endWord env bs) := by
  have tracked : StateTracks q (Leave q qi r bs) _ _ :=
    StateTracks.bind (k := fun m => .ok {m with s := .inSpace,cpToOffset := qi,addSpace := true})
      (n := fun v => {v.mark with s := .inSpace,addSpace := true})
      (matchWord_tracks enter reads env (toLower env.lower (v.word bs)))
      (fun w o' mid' => Tracks.ok {o' with cpTo := qi} rfl (Leave.of
        {mid'.mark with values := fun inside => mid'.values (inside.imp_left nofun)} ⟨nofun,nofun⟩))
      fun _ => Nat.le_refl _
  change StateTracks q _ (Fingerprint.cut q o.cpFrom qi >>= fun pending => _) _
  rw [enter.cut reads]
  exact tracked

theorem onSpace_tracks (enter : Enter q qi r bs v o) (reads : Reads q qi r bs) (env : Env) :
    StateTracks q (Leave q qi r bs) (Fingerprint.onSpace env q (v.machine q.length o) qi)
      (v.onSpace env bs) := by
  have mid := enter.mid
  unfold Fingerprint.onSpace View.onSpace
  cases state : v.s
  case unknown =>
    rw [show (v.machine q.length o).s = _ from state]
    change Tracks q _ (Fingerprint.endsInText (v.machine q.length o) >>= _) _
    have plain : v.s ≠ .inDash ∧ v.s ≠ .inBackticks := by rw [state]; decide
    rw [endsInText_machine]
    by_cases fits : v.out.length ≤ q.length
    · rw [if_pos fits]
      refine Tracks.ite (fun _ => ?_) fun _ => .ok o rfl (Leave.of mid plain)
      refine .ok {o with cpFrom := qi+1} ?_ (Leave.of ((mid.write [byte ' ']).fromNext reads) plain)
      rw [emitSpace_machine]
      rfl
    · rw [if_neg fits]
      refine .inr ⟨rfl,?_⟩
      split
      · simp only [View.fromNext,View.write,List.length_append]; omega
      · omega
  case inDash =>
    rw [show (v.machine q.length o).s = _ from state]
    have marked := mid.marked
    have top := mid.top
    by_cases big : 2 < o.cpTo
    · have yes : v.marked = true := by rw [marked]; simp [big]
      refine Tracks.ok {o with cpTo := qi-2} (by simp [View.machine,big])
        (Leave.of ?_ ⟨(by rintro ⟨⟩),(by rintro ⟨⟩)⟩)
      have early := enter.dash state
      refine {mid with
        stale := fun none => by simp [yes] at none
        due := ?_
        top := by dsimp only; omega
        marked := by simp only [yes]; symm; rw [decide_eq_true_eq]; omega
        values := fun inside => mid.values (inside.imp_left (by rintro ⟨⟩))}
      intro back some
      have two : back = 2 := by simpa [yes] using some.symm
      simp [two]
    · have no : v.marked = false := by rw [marked]; simp [big]
      refine Tracks.ok o (by simp [View.machine,big]) (Leave.of ?_ ⟨(by rintro ⟨⟩),(by rintro ⟨⟩)⟩)
      exact {mid with
        stale := fun none => mid.stale (by simpa [no] using none)
        due := fun back some => mid.due back (by simpa [no] using some)
        values := fun inside => mid.values (inside.imp_left (by rintro ⟨⟩))}
  case moreValuesOrUnknown =>
    rw [show (v.machine q.length o).s = _ from state]
    have plain : v.s ≠ .inDash ∧ v.s ≠ .inBackticks := by rw [state]; decide
    by_cases first : v.valueNo = 1
    · rw [if_pos first]
      refine Tracks.ok o ?_ (Leave.of (mid.write [byte ' ']) plain)
      rw [if_pos (by exact first),emitSpace_machine]
    · rw [if_neg first]
      exact Tracks.ok o (if_neg (by exact first)) (Leave.of mid plain)
  all_goals
    rw [show (v.machine q.length o).s = _ from state]
    exact endWord_tracks enter reads env

theorem Enter.leave (enter : Enter q qi r bs v o) : Leave q qi r bs v o where
  mid := enter.mid
  dash := fun dash => by have := enter.dash dash; omega
  tick := fun tick => by have := enter.calm; rw [tick] at this; cases this

theorem onDigit_tracks (enter : Enter q qi r bs v o) (env : Env) :
    Tracks q (Leave q qi r bs) (.ok (Fingerprint.onDigit env (v.machine q.length o) qi)) (v.onDigit env) := by
  have mid := enter.mid
  have number : ∀ s, s ≠ .inDash ∧ s ≠ .inBackticks ∧ s ≠ .inValues →
      Leave q qi r bs {v.mark with s := s} {o with cpTo := qi} := fun s plain =>
    Leave.of {mid.mark with values := fun inside => mid.values (inside.imp_left fun bad =>
      absurd bad plain.2.2)}
      ⟨plain.1,plain.2.1⟩
  unfold Fingerprint.onDigit View.onDigit
  cases state : v.s <;> rw [show (v.machine q.length o).s = _ from state]
  case opOrNumber =>
    have far := mid.far
    refine .ok {o with cpTo := qi-1} rfl (Leave.of ?_ ⟨nofun,nofun⟩)
    refine {mid with
      stale := nofun
      due := ?_
      top := by dsimp only; omega
      marked := by simp only [decide_eq_decide]; omega
      values := fun inside => mid.values (inside.imp_left nofun)}
    intro back some
    have one : back = 1 := by simpa using some.symm
    simp [one]
  case inWord =>
    refine Tracks.pure_ite (fun _ => .ok {o with cpTo := qi} rfl (number .inNumber (by decide))) fun _ => ?_
    refine Tracks.pure_ite (fun _ => .ok {o with cpTo := qi} rfl (number .inNumber (by decide))) fun _ => ?_
    refine Tracks.pure_ite (fun _ => ?_) fun _ => .ok o rfl enter.leave
    exact .ok {o with cpTo := qi} rfl (number .inNumberInWord (by decide))
  all_goals exact .ok {o with cpTo := qi} rfl (number .inNumber (by decide))

theorem onQuote_tracks (enter : Enter q qi r bs v o) :
    Tracks q (Leave q qi r bs) (.ok (Fingerprint.onQuote (v.machine q.length o) qi r)) (v.onQuote r) := by
  have mid := enter.mid
  refine Tracks.pure_ite (fun _ => ?_) fun _ => .ok o rfl enter.leave
  by_cases hex : v.pr = rune 'x' ∨ v.pr = rune 'b'
  · rw [if_pos hex]
    refine .ok {o with cpTo := -2} (by rw [if_pos (by exact hex)]; rfl) (Leave.of ?_ ⟨nofun,nofun⟩)
    exact {mid with
      stale := fun _ => by dsimp only; omega
      due := nofun
      top := by dsimp only; omega
      marked := by simp
      values := fun inside => mid.values (inside.imp_left nofun)}
  · rw [if_neg hex]
    exact .ok {o with cpTo := qi} (by rw [if_neg (by exact hex)]; rfl) (Leave.of
      {mid.mark with values := fun inside => mid.values (inside.imp_left nofun)} ⟨nofun,nofun⟩)

theorem onBacktick_tracks (enter : Enter q qi (rune '`') bs v o) :
    Tracks q (Leave q qi (rune '`') bs)
      (.ok (Fingerprint.onBacktick (v.machine q.length o))) v.onBacktick := by
  have mid := enter.mid
  refine Tracks.pure_ite (fun _ => .ok o rfl ⟨?_,nofun,fun _ => rfl⟩) fun _ => .ok o rfl enter.leave
  exact {mid with values := fun inside => mid.values (inside.imp_left nofun)}

theorem onOperator_tracks (enter : Enter q qi r bs v o) (reads : Reads q qi r bs) :
    Tracks q (Leave q qi r bs) (.ok (Fingerprint.onOperator (v.machine q.length o) qi))
      (v.onOperator bs) := by
  have mid := enter.mid
  unfold Fingerprint.onOperator View.onOperator
  by_cases fresh : v.s ≠ .inWord ∧ v.s ≠ .inOp
  · refine .ok {o with cpFrom := qi} (by rw [if_pos (by exact fresh)]; rfl) (Leave.of ?_ ⟨nofun,nofun⟩)
    rw [if_pos fresh]
    exact {mid.fromHere reads enter.low with values := fun inside => mid.values (inside.imp_left nofun)}
  · refine .ok o (by rw [if_neg (by exact fresh)]; rfl) (Leave.of ?_ ⟨nofun,nofun⟩)
    rw [if_neg fresh]
    exact {mid with values := fun inside => mid.values (inside.imp_left nofun)}

theorem onOpenPar_tracks (enter : Enter q qi r bs v o) (reads : Reads q qi r bs) (env : Env) :
    StateTracks q (Leave q qi r bs) (Fingerprint.onOpenPar env q (v.machine q.length o) qi)
      (v.onOpenPar env bs) := by
  have mid := enter.mid
  change StateTracks q _ (Fingerprint.cut q o.cpFrom qi >>= fun pending => _) _
  rw [enter.cut reads]
  refine StateTracks.ite (fun _ => ⟨rfl,nofun⟩) fun _ => StateTracks.ite (fun begins => ?_) fun _ =>
    StateTracks.ite (fun _ => ?_) fun _ => Tracks.ok o rfl enter.leave
  · have late : 1 ≤ qi := by
      by_contra early
      have zero : qi = 0 := by omega
      have noPrev : v.prevWord = [] := by
        by_contra some
        exact early (mid.word some).1
      have noWord : v.word bs = [] := by
        have length := slice_length q (i := o.cpFrom) reads.room
        rw [View.word,mid.pend,length,show qi+bs.length-o.cpFrom-bs.length = 0 by omega,List.take_zero]
      have words : str "value" ≠ [] ∧ str "values" ≠ [] ∧ str "in" ≠ [] := by decide
      simp [Fingerprint.beginsValues,View.machine,noPrev,noWord,wordIn,toLower_nil,words] at begins
    by_cases first : v.valueNo = 0
    · rw [if_pos first]
      refine Tracks.ok {o with cpTo := qi,firstPar := qi} (by rw [if_pos (by exact first)]; rfl)
        (Leave.of ?_ ⟨nofun,nofun⟩)
      exact {mid.mark with gap := by simp,par := Nat.le_refl _,order := nofun,values := fun _ => late}
    · rw [if_neg first]
      refine Tracks.ok {o with firstPar := qi} (by rw [if_neg (by exact first)]; rfl)
        (Leave.of ?_ ⟨nofun,nofun⟩)
      exact {mid with gap := by simp,par := Nat.le_refl _,order := nofun,values := fun _ => late}
  · refine Tracks.ok {o with cpFrom := qi} rfl (Leave.of ?_ ⟨nofun,nofun⟩)
    exact {mid.fromHere reads enter.low with values := fun inside => mid.values (inside.imp_left nofun)}

theorem onOther_tracks (enter : Enter q qi r bs v o) (reads : Reads q qi r bs) :
    Tracks q (Leave q qi r bs) (.ok (Fingerprint.onOther (v.machine q.length o) qi)) (v.onOther bs) := by
  have mid := enter.mid
  refine Tracks.pure_ite (fun _ => .ok {o with cpFrom := qi} rfl (Leave.of ?_ ⟨nofun,nofun⟩)) fun _ =>
    .ok o rfl (Leave.of {mid with values := fun inside => mid.values (inside.imp_left nofun)} ⟨nofun,nofun⟩)
  refine {mid.fromHere reads enter.low with order := ?_,values := ?_}
  · intro order
    dsimp only at order
    split at order
    · cases order
    · exact mid.order order
  · rintro (bad | inside)
    · cases bad
    · dsimp only at inside
      split at inside
      · cases inside
      · exact mid.values (.inr inside)

theorem changeState_tracks (enter : Enter q qi r bs v o) (reads : Reads q qi r bs) (env : Env) :
    StateTracks q (Leave q qi r bs) (Fingerprint.changeState env q (v.machine q.length o) qi r)
      (v.changeState env r bs) := by
  have mid := enter.mid
  have turn : ∀ s, s ≠ .inDash ∧ s ≠ .inBackticks ∧ s ≠ .inValues →
      Leave q qi r bs {v with s := s} o :=
    fun s plain =>
    Leave.of {mid with values := fun inside => mid.values (inside.imp_left fun bad => absurd bad plain.2.2)}
      ⟨plain.1,plain.2.1⟩
  refine StateTracks.ite (fun _ => onDigit_tracks enter env) fun _ =>
    StateTracks.ite (fun _ => onSpace_tracks enter reads env) fun _ =>
    StateTracks.ite (fun _ => onQuote_tracks enter) fun _ =>
    StateTracks.ite (fun tick => ?tick) fun _ =>
    StateTracks.ite (fun _ => onOperator_tracks enter reads) fun _ =>
    StateTracks.ite (fun _ => Tracks.ok o rfl (turn .divOrMLC (by decide))) fun _ =>
    StateTracks.ite (fun _ => Tracks.ok o rfl (turn .mlcOrMySQLCode (by decide))) fun _ =>
    StateTracks.ite (fun _ => Tracks.ok o rfl (turn .opOrNumber (by decide))) fun _ =>
    StateTracks.ite (fun dash => ?dash) fun _ =>
    StateTracks.ite (fun _ => ?dot) fun _ =>
    StateTracks.ite (fun _ => onOpenPar_tracks enter reads env) fun _ =>
    StateTracks.ite (fun _ => Tracks.ok o rfl enter.leave) fun _ =>
    StateTracks.ite (fun _ => ⟨rfl,nofun⟩) fun _ =>
    StateTracks.ite (fun _ => ?hash) fun _ => onOther_tracks enter reads
  case tick => subst tick; exact onBacktick_tracks enter
  case dash =>
    by_cases second : v.pr = rune '-'
    · refine Tracks.ok o (by rw [if_pos second,if_pos (by exact second)]; rfl) ?_
      rw [if_pos second]
      exact ⟨{mid with values := fun inside => mid.values (inside.imp_left nofun)},
        fun _ => enter.second dash second,nofun⟩
    · refine Tracks.ok o (by rw [if_neg second,if_neg (by exact second)]; rfl) ?_
      rw [if_neg second]
      exact turn .opOrNumber (by decide)
  case dot =>
    refine Tracks.pure_ite
      (fun _ => .ok {o with cpTo := qi} rfl (Leave.of ?_ ⟨nofun,nofun⟩)) fun _ => .ok o rfl enter.leave
    exact {mid.mark with values := fun inside => mid.values (inside.imp_left nofun)}
  case hash =>
    exact Tracks.ok o rfl
      (Leave.of {mid with values := fun inside => mid.values (inside.imp_left nofun)} ⟨nofun,nofun⟩)

theorem Mid.due_eq (mid : Mid q qi bs v o) (reads : Reads q qi r bs) :
    v.due bs = (o.cpTo-o.cpFrom).toNat := by
  have length : v.pend.length = qi+bs.length-o.cpFrom := by rw [mid.pend,slice_length q reads.room]
  unfold View.due
  cases plan : v.plan with
  | none =>
    have stale := mid.stale plan
    dsimp only
    omega
  | some back =>
    have due := mid.due back plan
    dsimp only
    omega

-- cpFromOffset = cpToOffset
theorem Mid.copyWord (mid : Mid q qi bs v o) (reads : Reads q qi r bs) (w : Bytes)
    (some : (o.cpFrom : Int) < o.cpTo) :
    Mid q qi bs {v.copyWord (v.due bs) w with plan := none} {o with cpFrom := o.cpTo.toNat} := by
  have due := mid.due_eq reads
  have top := mid.top
  have wide : v.out ++ fit (v.due bs) w ≠ [] := by
    intro empty
    have size := congrArg List.length empty
    rw [List.length_append,fit_length,List.length_nil] at size
    omega
  refine {mid with
    low := by dsimp only; omega
    pend := ?_
    stale := fun _ => by dsimp only; omega
    due := nofun
    word := fun _ => ⟨by omega,wide⟩
    order := fun _ => wide}
  have cut := slice_drop q (qi+bs.length) (show o.cpFrom ≤ o.cpTo.toNat by omega)
  dsimp only [View.copyWord]
  rw [mid.pend,due,← cut]
  congr 1
  omega

theorem afterCopy_tracks {v : View} (env : Env) (leave : Leave q qi r bs {v with plan := none} o)
    (low : o.cpFrom ≤ qi) (late : 1 ≤ qi) :
    Tracks q (fun w o' => Leave q qi r bs {w with plan := none} o')
      (.ok (Fingerprint.afterCopy env (v.machine q.length o))) (v.afterCopy env) := by
  have mid := leave.mid
  refine Tracks.pure_ite (fun _ => ?_) fun _ => Tracks.pure_ite (fun _ => ?_) fun _ => .ok o rfl leave
  · exact .ok o rfl (Leave.of {mid with order := nofun,values := fun _ => late} ⟨nofun,nofun⟩)
  · refine .ok {o with cpFrom := o.cpFrom+1} (by rw [emitSpace_machine]; rfl) ⟨?_,leave.dash,leave.tick⟩
    refine {mid.write [byte ' '] with low := by dsimp only; omega,pend := ?_,stale := fun none => ?_}
    · have cut := slice_drop q (qi+bs.length) (Nat.le_succ o.cpFrom)
      rw [Nat.succ_sub (Nat.le_refl _),Nat.sub_self,← mid.pend] at cut
      exact cut
    · have stale := mid.stale none
      dsimp only
      omega

theorem afterCopy_length (env : Env) (v : View) : v.out.length ≤ (v.afterCopy env).out.length := by
  refine View.afterCopy_cases (motive := fun w => v.out.length ≤ w.out.length) env v ?_ ?_ ?_
  · exact fun _ => Nat.le_refl _
  · intro _
    simp [View.write]
  · exact fun _ => Nat.le_refl _

theorem copySlice_tracks (leave : Leave q qi r bs v o) (reads : Reads q qi r bs) (env : Env) :
    Tracks q (fun w o' => Leave q qi r bs {w with plan := none} o')
      (Fingerprint.copySlice env q (v.machine q.length o)) (v.copySlice env bs) := by
  have mid := leave.mid
  have due := mid.due_eq reads
  have top := mid.top
  have room := reads.room
  unfold Fingerprint.copySlice View.copySlice
  by_cases some : (o.cpFrom : Int) < o.cpTo
  · rw [if_pos (by exact some),if_pos (show 0 < v.due bs by omega)]
    have text : Fingerprint.cut q o.cpFrom o.cpTo.toNat = .ok (v.pend.take (v.due bs)) := by
      rw [Fingerprint.cut,if_pos ⟨by omega,by omega⟩,mid.pend,due,
        show (o.cpTo-o.cpFrom).toNat = o.cpTo.toNat-o.cpFrom by omega,slice_take q (by omega)]
    change Tracks q _ (Fingerprint.cut q o.cpFrom o.cpTo.toNat >>= _) _
    rw [text]
    change Tracks q _ ((View.machine {v with
      prevWord := toLower env.lower (v.pend.take (v.due bs))} q.length o).copyInto
      (o.cpTo.toNat-o.cpFrom) (toLower env.lower (v.pend.take (v.due bs))) >>= _) _
    rw [copyInto_machine,show o.cpTo.toNat-o.cpFrom = v.due bs by omega]
    by_cases fits : v.out.length+v.due bs ≤ q.length
    · rw [if_pos (by exact fits)]
      have word := mid.copyWord reads (toLower env.lower (v.pend.take (v.due bs))) some
      exact afterCopy_tracks env ⟨word,leave.dash,leave.tick⟩
        (show o.cpTo.toNat ≤ qi by omega) (by omega)
    · rw [if_neg (by exact fits)]
      refine .inr ⟨rfl,Nat.lt_of_lt_of_le ?_ (afterCopy_length env _)⟩
      simp only [View.copyWord,List.length_append,fit_length]
      omega
  · rw [if_neg (by exact some),if_neg (show ¬ 0 < v.due bs by omega)]
    refine .ok o rfl ⟨?_,leave.dash,leave.tick⟩
    exact {mid with stale := fun _ => by omega,due := nofun}

def next : Skipped View → View
  | .skip v => v
  | .through v => v

def written : Except Stop View → Bytes
  | .ok v => v.out
  | .error stop => stop.view.out

theorem balanceValues_grows (v : View) (r : Nat) (bs : Bytes) :
    v.out.length ≤ (v.balanceValues r bs).out.length := by
  refine View.balanceValues_cases (motive := fun w => v.out.length ≤ w.out.length) v r bs ?_ ?_ ?_
  · exact fun _ => Nat.le_refl _
  · exact fun _ _ => Nat.le_refl _
  · intro _ _
    simp only [View.endValues,View.writeList,View.fromNext,View.write]
    split <;> simp

theorem skipPart_grows (v : View) (r : Nat) (bs : Bytes) :
    v.out.length ≤ (next (v.skipPart r bs)).out.length := by
  refine View.skipPart_cases (motive := fun w => v.out.length ≤
    (next w).out.length) v r bs ?quote ?backticks ?_ ?_ ?_ ?_
    ?_ ?_ ?values ?_ ?_ ?_ ?_ ?_ ?_ ?_ ?_
  case quote =>
    intro _
    refine View.skipQuote_cases (motive := fun w => v.out.length ≤ w.out.length) v r bs ?_ ?_ ?_ <;>
      simp [View.fromNext,View.write]
  case backticks =>
    intro _
    refine View.skipBackticks_cases (motive := fun w => v.out.length ≤ w.out.length) v r ?_ ?_ <;> simp
  case values =>
    intro _
    refine View.skipValues_cases (motive := fun w => v.out.length ≤ w.out.length) v r bs ?_ ?_ ?_ ?_ ?_
    · exact fun _ => balanceValues_grows {v with parOpen := v.parOpen-1,parOpenTotal := v.parOpenTotal+1} r bs
    · exact fun _ => balanceValues_grows {v with
        parOpen := v.parOpen+1,gap := if v.parOpen+1 = 1 then 0 else v.gap} r bs
    · exact fun _ => Nat.le_refl _
    · exact fun _ => Nat.le_refl _
    · exact balanceValues_grows v r bs
  all_goals simp [next,View.mark,View.write,View.fromHere,View.fromNext]

theorem endWord_grows (env : Env) (v : View) (bs : Bytes) :
    v.out.length ≤ (written (v.endWord env bs)).length := by
  refine View.endWord_cases (motive := fun turn => v.out.length ≤ (written turn).length) env v bs
    ?_ ?null ?_ ?_ ?_ ?_ ?_
  case null =>
    intro word _ _
    simp only [written,View.nullValue,View.nullComma,View.mark,View.write,View.fromNext]
    split <;> simp
  all_goals simp only [written,View.mark,View.fromHere,View.backComma,List.length_append,List.length_dropLast,
    List.length_cons,List.length_nil]
  all_goals intros; omega

theorem changeState_grows (env : Env) (v : View) (r : Nat) (bs : Bytes) :
    v.out.length ≤ (written (v.changeState env r bs)).length := by
  refine View.changeState_cases (motive := fun turn => v.out.length ≤ (written turn).length) env v r bs
    ?digit ?space ?quote ?tick ?operator ?_ ?_ ?_ ?_ ?_ ?_ ?par ?_ ?_ ?_ ?other
  case digit =>
    intro _
    refine View.onDigit_cases (motive := fun w => v.out.length ≤ w.out.length) env v ?_ ?_ ?_ ?_ <;>
      simp [View.mark]
  case space =>
    intro _
    refine View.onSpace_cases (motive := fun turn => v.out.length ≤
      (written turn).length) env v bs ?_ ?_ ?_ ?_ ?_ ?word
    case word => exact fun _ _ _ => endWord_grows env v bs
    all_goals simp [written,View.write,View.fromNext]
  case quote =>
    intro _
    refine View.onQuote_cases (motive := fun w => v.out.length ≤ w.out.length) v r ?_ ?_ ?_ <;>
      simp [View.mark]
  case tick =>
    intro _
    simp only [written,View.onBacktick]
    split <;> simp
  case operator => exact fun _ => Nat.le_refl _
  case par =>
    intro _
    refine View.onOpenPar_cases (motive := fun turn => v.out.length ≤
      (written turn).length) env v bs ?_ ?_ ?_ ?_ ?_ <;>
      simp [written,View.mark,View.fromHere]
  case other =>
    intro _
    simp only [written,View.onOther,View.fromHere]
    split <;> simp
  all_goals simp [written,View.mark]

theorem copySlice_grows (env : Env) (v : View) (bs : Bytes) :
    v.out.length ≤ (v.copySlice env bs).out.length := by
  refine View.copySlice_cases (motive := fun w => v.out.length ≤ w.out.length) env v bs ?_ ?_
  · exact fun _ => Nat.le_refl _
  · intro w _ _
    refine Nat.le_trans ?_ (afterCopy_length env _)
    simp [View.copyWord]

theorem step_grows (env : Env) (v : View) (r : Nat) (bs : Bytes) :
    v.out.length ≤ (written (v.step env r bs)).length := by
  have skips := skipPart_grows (v.read bs) r bs
  refine View.step_cases (motive := fun turn => v.out.length ≤
    (written turn).length) env v r bs ?skip ?stop ?through
  case skip =>
    intro w part
    rw [part] at skips
    exact skips
  case stop =>
    intro w stop part changed
    have turn := changeState_grows env w r bs
    rw [part] at skips
    rw [changed] at turn
    exact Nat.le_trans skips turn
  case through =>
    intro w u part changed
    have turn := changeState_grows env w r bs
    rw [part] at skips
    rw [changed] at turn
    exact Nat.le_trans (Nat.le_trans skips turn) (copySlice_grows env u bs)

theorem run_grows (env : Env) (pieces : List (Nat × Bytes)) (v : View) :
    v.out.length ≤ (written (View.run env pieces v)).length := by
  induction pieces generalizing v with
  | nil => exact Nat.le_refl _
  | cons piece rest ih =>
    have step := step_grows env v piece.1 piece.2
    refine Nat.le_trans step ?_
    unfold View.run
    cases v.step env piece.1 piece.2 with
    | error stop => exact Nat.le_refl _
    | ok w => exact ih w

-- A whole iteration, or a run of them, of the source next to the view's.
def Follows (q : Bytes) (post : View → Offsets → Prop) (go : Go Machine) : Except Stop View → Prop
  | .ok v => Tracks q post go v
  | .error stop =>
    (go = .error stop.exit ∧ stop.exit ≠ .outOfRange) ∨
      (go = .error .outOfRange ∧ q.length < stop.view.out.length)

theorem Follows.panic {post : View → Offsets → Prop} (long : q.length < (written turn).length) :
    Follows q post (.error .outOfRange) turn := by
  cases turn with
  | ok v => exact .inr ⟨rfl,long⟩
  | error stop => exact .inr ⟨rfl,long⟩

theorem step_follows (head : Head q qi v o) (reads : Reads q qi r bs) (env : Env) :
    Follows q (Head q (qi+bs.length)) (Fingerprint.step env q (v.machine q.length o) qi r)
      (v.step env r bs) := by
  have skips := skipPart_tracks head reads
  change Follows q _ (Fingerprint.skipPart ((v.read bs).machine q.length o) qi r >>= _) _
  refine View.step_cases
    (motive := fun turn => Follows q (Head q (qi+bs.length)) _ turn) env v r bs ?skip ?stop ?through
  case skip =>
    intro w part
    rw [part] at skips
    rcases skips with ⟨o',same,next⟩ | ⟨same,long⟩
    · rw [same]
      exact .inl ⟨o',rfl,next⟩
    · rw [same]
      exact .inr ⟨rfl,long⟩
  case stop =>
    intro w stop part changed
    have grows := changeState_grows env w r bs
    rw [part] at skips
    rw [changed] at grows
    rcases skips with ⟨o',same,enter⟩ | ⟨same,long⟩
    · have turn := changeState_tracks enter reads env
      rw [changed] at turn
      rw [same]
      change Follows q _ (Fingerprint.changeState env q (w.machine q.length o') qi r >>= _) _
      rw [turn.1]
      exact .inl ⟨rfl,turn.2⟩
    · rw [same]
      exact .inr ⟨rfl,Nat.lt_of_lt_of_le long grows⟩
  case through =>
    intro w u part changed
    have grows := changeState_grows env w r bs
    rw [part] at skips
    rw [changed] at grows
    rcases skips with ⟨o',same,enter⟩ | ⟨same,long⟩
    · have turn := changeState_tracks enter reads env
      rw [changed] at turn
      rw [same]
      change Tracks q _ (Fingerprint.changeState env q (w.machine q.length o') qi r >>= _) _
      refine Tracks.bind turn (fun o₂ leave => ?_) (copySlice_grows env u bs)
      refine Tracks.bind (copySlice_tracks leave reads env) (fun o₃ left => ?_) (Nat.le_refl _)
      exact .ok o₃ rfl (Mid.head {left.mid with} reads rfl left.dash left.tick)
    · rw [same]
      exact .inr ⟨rfl,Nat.lt_of_lt_of_le long (Nat.le_trans grows (copySlice_grows env u bs))⟩

-- The pieces of q[qi:qj] are read one after the other.
inductive Pieces (q : Bytes) : Nat → List (Nat × Bytes) → Nat → Prop where
  | done : Pieces q qi [] qi
  | read (reads : Reads q qi r bs) (rest : Pieces q (qi+bs.length) pieces qj) : Pieces q qi
    ((r,bs) :: pieces) qj

theorem Pieces.split (pieces : Pieces q qi (one ++ two) qk) :
    ∃ qj, Pieces q qi one qj ∧ Pieces q qj two qk := by
  induction one generalizing qi with
  | nil => exact ⟨qi,.done,pieces⟩
  | cons piece one ih =>
    cases pieces with
    | read reads rest =>
      obtain ⟨qj,left,right⟩ := ih rest
      exact ⟨qj,.read reads left,right⟩

theorem Pieces.ends (pieces : Pieces q qi list qj) : qj = qi+(list.flatMap Prod.snd).length := by
  induction pieces with
  | done => rfl
  | @read qi r bs pieces qj reads rest ih =>
    rw [ih,List.flatMap_cons,List.length_append,Nat.add_assoc]

theorem runes_pieces (front s : Bytes) : Pieces (front ++ s) front.length (runes s) (front ++ s).length := by
  induction s using rune_induction generalizing front with
  | nil => simpa using Pieces.done (q := front)
  | cons a t ih =>
    have wide := decodeRune_width a t
    have length : ((a :: t).take (decodeRune a t).2).length = (decodeRune a t).2 := by
      rw [List.length_take]; omega
    have rest := ih (front ++ (a :: t).take (decodeRune a t).2)
    rw [List.append_assoc,List.take_append_drop,List.length_append] at rest
    rw [runes_cons]
    refine .read ⟨by omega,fun ascii => ?_,?_,?_⟩ rest
    · rw [decodeRune_ascii ascii]
      simp
    · rw [length,List.length_append]; omega
    · rw [slice,Nat.add_sub_cancel_left,List.drop_left,length]

theorem loop_follows (env : Env) (pieces : Pieces q qi list qj) (head : Head q qi v o) :
    Follows q (Head q qj) (Fingerprint.loop env q qi list (v.machine q.length o)) (View.run env list v) := by
  induction pieces generalizing v o with
  | done => exact .inl ⟨o,rfl,head⟩
  | @read qi r bs pieces qj reads rest ih =>
    have step := step_follows head reads env
    unfold Fingerprint.loop View.run
    cases turn : v.step env r bs with
    | error stop =>
      rw [turn] at step
      rcases step with ⟨same,early⟩ | ⟨same,long⟩
      · rw [same]
        exact .inl ⟨rfl,early⟩
      · rw [same]
        exact .inr ⟨rfl,long⟩
    | ok w =>
      rw [turn] at step
      rcases step with ⟨o',same,next⟩ | ⟨same,long⟩
      · rw [same]
        exact ih next
      · rw [same]
        exact Follows.panic (Nat.lt_of_lt_of_le long (run_grows env pieces w))

def View.result (env : Env) (query : Bytes) : Except Stop View :=
  View.run env (runes (query ++ [byte ' '])) View.start

theorem start_head (q : Bytes) : Head q 0 View.start ⟨0,0,0⟩ where
  low := Nat.le_refl _
  pend := by simp [View.start,slice]
  plan := .inl ⟨rfl,by simp,.inr (by simp)⟩
  marked := rfl
  far := rfl
  gap := rfl
  par := Nat.le_refl _
  dash := nofun
  tick := nofun
  word := fun some => absurd rfl some
  order := nofun
  values := by rintro (bad | bad) <;> cases bad

theorem start_machine (q : Bytes) : Fingerprint.start q = View.start.machine q.length ⟨0,0,0⟩ := by
  simp [Fingerprint.start,View.start,View.machine,buffer_nil]

theorem run_follows (env : Env) (query : Bytes) :
    Follows (query ++ [byte ' ']) (Head (query ++ [byte ' ']) (query ++ [byte ' ']).length)
      (Fingerprint.run env query)
      (View.result env query) := by
  have loop := loop_follows env (runes_pieces [] (query ++ [byte ' '])) (start_head _)
  change Follows _ _ (Fingerprint.loop env (query ++ [byte ' ']) 0 _
    (Fingerprint.start (query ++ [byte ' ']))) _
  rw [start_machine]
  exact loop

-- The return statements: an early return, or the fingerprint without its trailing
-- spaces and zero bytes.
def View.answer (query : Bytes) : Except Stop View → Bytes
  | .ok v => (v.out.rdropWhile fun b => isSpace b.toNat).filter (· ≠ 0)
  | .error ⟨_,.useQuery⟩ => str "use ?"
  | .error ⟨_,.callProc name⟩ => str "call " ++ name
  | .error ⟨_,.adminCommand⟩ => query
  | .error ⟨_,.outOfRange⟩ => []

theorem take_trimSpaces (f : Bytes) (n : Nat) (fits : n ≤ f.length) :
    f.take (trimSpaces f n) = (f.take n).rdropWhile fun b => isSpace b.toNat := by
  induction n with
  | zero => simp [trimSpaces]
  | succ n ih =>
    have bound : n < f.length := by omega
    have last : f.take (n+1) = f.take n ++ [f[n]] := List.take_succ_eq_append_getElem bound
    rw [trimSpaces,List.getElem?_eq_getElem bound,last]
    dsimp only
    by_cases space : isSpace f[n].toNat = true
    · rw [if_pos space,ih (by omega),List.rdropWhile_concat,if_pos (by exact space)]
    · rw [if_neg space,List.rdropWhile_concat,if_neg (by exact space),last]

theorem trimSpaces_le (f : Bytes) (n : Nat) : trimSpaces f n ≤ n := by
  induction n with
  | zero => exact Nat.le_refl _
  | succ n ih =>
    unfold trimSpaces
    split
    · split
      · omega
      · exact Nat.le_refl _
    · exact Nat.le_refl _

theorem finish_machine (v : View) (o : Offsets) (query : Bytes) (fits : v.out.length ≤ len) :
    Fingerprint.finish (v.machine len o) = View.answer query (.ok v) := by
  have le := trimSpaces_le (buffer len v.out) v.out.length
  have take := take_trimSpaces (buffer len v.out) v.out.length (by rw [buffer_length]; exact fits)
  rw [buffer_take fits] at take
  change (if trimSpaces (buffer len v.out) v.out.length ≤ (buffer len v.out).length then _ else _) = _
  rw [if_pos (by rw [buffer_length]; omega)]
  exact congrArg (List.filter _) take

-- A run that neither panics nor ends with fi past the buffer.
def Completes : Go Machine → Prop
  | .ok m => m.fi ≤ m.f.length
  | .error exit => exit ≠ .outOfRange

instance : (go : Go Machine) → Decidable (Completes go)
  | .ok m => inferInstanceAs (Decidable (m.fi ≤ m.f.length))
  | .error exit => inferInstanceAs (Decidable (exit ≠ .outOfRange))

theorem completes_of_fits (fits : (written (View.result env query)).length ≤ query.length+1) :
    Completes (Fingerprint.run env query) := by
  have follows := run_follows env query
  cases result : View.result env query with
  | ok v =>
    rw [result] at follows fits
    rcases follows with ⟨o,same,_⟩ | ⟨_,long⟩
    · rw [same]
      simpa [Completes,View.machine,written] using fits
    · simp only [List.length_append,List.length_singleton] at long
      exact absurd fits (Nat.not_le.mpr long)
  | error stop =>
    rw [result] at follows fits
    rcases follows with ⟨same,early⟩ | ⟨_,long⟩
    · rw [same]
      exact early
    · simp only [List.length_append,List.length_singleton] at long
      exact absurd fits (Nat.not_le.mpr long)

theorem fingerprint_answer (completes : Completes (Fingerprint.run env query)) :
    fingerprint env query = some (View.answer query (View.result env query)) := by
  have follows := run_follows env query
  unfold fingerprint
  cases result : View.result env query with
  | ok v =>
    rw [result] at follows
    rcases follows with ⟨o,same,_⟩ | ⟨same,_⟩
    · rw [same] at completes ⊢
      exact congrArg some (finish_machine v o query (by simpa [Completes,View.machine] using completes))
    · rw [same] at completes
      exact absurd rfl completes
  | error stop =>
    rw [result] at follows
    rcases follows with ⟨same,early⟩ | ⟨same,_⟩
    · rw [same]
      obtain ⟨view,exit⟩ := stop
      cases exit with
      | outOfRange => exact absurd rfl early
      | _ => rfl
    · rw [same] at completes
      exact absurd rfl completes

end SqlReview.FingerprintView
