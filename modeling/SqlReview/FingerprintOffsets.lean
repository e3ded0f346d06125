import SqlReview.FingerprintRefinement

namespace SqlReview.FingerprintOffsets
open GoBytes Fingerprint FingerprintView

-- The bytes of '?', "(?+)", "()", ',' and ' ', which the function writes of its own.
def inserted : Bytes := str "?(+), "

-- f[0:fi] keeps all but its last `back` bytes and becomes g[0:gi]; what is new in it is inserted.
structure Adds (back : Nat) (f : Bytes) (fi : Nat) (g : Bytes) (gi : Nat) : Prop where
  size : g.length = f.length
  grows : fi ≤ gi
  kept : ∀ i,i < fi-back → g[i]? = f[i]?
  own : ∀ i b,fi-back ≤ i → i < gi → g[i]? = some b → b ∈ inserted

-- Step 2 reads a word at whitespace, outside of the states that end none, and takes a byte back.
def wordBack (env : Env) (q : Bytes) (m : Machine) (qi r : Nat) : Bool :=
  m.s != .unknown && m.s != .inDash && m.s != .moreValuesOrUnknown &&
    takesBack env r m.sqlState (slice q m.cpFromOffset qi)

-- What a part of the iteration at qi does to the offsets and the buffer.
structure Moves (qi ahead above back : Nat) (m n : Machine) : Prop where
  low : n.cpFromOffset = m.cpFromOffset ∨ (qi ≤ n.cpFromOffset ∧ n.cpFromOffset ≤ qi+ahead)
  top : n.cpToOffset = m.cpToOffset ∨ n.cpToOffset ≤ qi+above
  adds : Adds back m.f m.fi n.f n.fi

-- A write of the function's own bytes, which leaves the offsets alone.
structure Puts (back : Nat) (m n : Machine) : Prop where
  low : n.cpFromOffset = m.cpFromOffset
  top : n.cpToOffset = m.cpToOffset
  adds : Adds back m.f m.fi n.f n.fi

theorem bind_ok {x : Go α} {f : α → Go β} (ran : (x >>= f) = .ok b) : ∃ a,x = .ok a ∧ f a = .ok b := by
  cases x with
  | error exit => cases ran
  | ok a => exact ⟨a,rfl,ran⟩

theorem Adds.refl (f : Bytes) (fi : Nat) : Adds 0 f fi f fi where
  size := rfl
  grows := Nat.le_refl _
  kept i _ := rfl
  own i b low high := by omega

theorem Adds.trans (first : Adds back f fi g gi) (second : Adds 0 g gi h hi) : Adds back f fi h hi where
  size := second.size.trans first.size
  grows := Nat.le_trans first.grows second.grows
  kept i early := by
    have := first.grows
    rw [second.kept i (by omega),first.kept i early]
  own i b low high found := by
    by_cases old : i < gi
    · apply first.own i b low old
      rw [← second.kept i (by omega)]
      exact found
    · exact second.own i b (by omega) high found

theorem Adds.set (own : b ∈ inserted) (f : Bytes) (fi : Nat) : Adds 0 f fi (f.set fi b) (fi+1) where
  size := List.length_set
  grows := Nat.le_succ _
  kept i early := List.getElem?_set_ne (by omega)
  own i c low high found := by
    have here : i = fi := by omega
    rw [here] at found
    by_cases room : fi < f.length
    · rw [List.getElem?_set_self room] at found
      cases found
      exact own
    · rw [List.getElem?_eq_none (by rw [List.length_set]; omega)] at found
      cases found

theorem poke_ok {m n : Machine} (ran : m.poke i b = .ok n) :
    i < m.f.length ∧ n = {m with f := m.f.set i b} := by
  unfold Machine.poke at ran
  split at ran
  · rename_i room
    cases ran
    exact ⟨room,rfl⟩
  · cases ran

theorem emit_puts {m n : Machine} (own : b ∈ inserted) (ran : m.emit b = .ok n) : Puts 0 m n := by
  obtain ⟨k,poked,rest⟩ := bind_ok ran
  obtain ⟨_,rfl⟩ := poke_ok poked
  cases rest
  exact ⟨rfl,rfl,.set own m.f m.fi⟩

theorem emitSpace_puts (m : Machine) : Puts 0 m m.emitSpace := by
  have adds := Adds.set (b := byte ' ') (by decide) m.f m.fi
  refine ⟨rfl,rfl,?_⟩
  unfold Machine.emitSpace
  dsimp only
  split
  · exact adds
  · rename_i full
    rwa [List.set_eq_of_length_le (by omega)] at adds

theorem copyInto_ok {m n : Machine} (size : w.length = l) (ran : m.copyInto l w = .ok n) :
    m.fi+l ≤ m.f.length ∧ n = {m with f := m.f.take m.fi ++ w ++ m.f.drop (m.fi+w.length),fi := m.fi+l} := by
  have all : w.take l = w := List.take_of_length_le (Nat.le_of_eq size)
  unfold Machine.copyInto at ran
  rw [all] at ran
  split at ran
  · rename_i room
    cases ran
    exact ⟨room,rfl⟩
  · cases ran

theorem copyInto_puts {m n : Machine} (own : ∀ b ∈ w,b ∈ inserted) (size : w.length = l)
    (ran : m.copyInto l w = .ok n) :
    Puts 0 m n := by
  obtain ⟨room,rfl⟩ := copyInto_ok size ran
  have front : (m.f.take m.fi).length = m.fi := by rw [List.length_take]; omega
  refine ⟨rfl,rfl,?_,Nat.le_add_right _ _,?_,?_⟩
  · simp only [List.length_append,front,List.length_drop]
    omega
  · intro i early
    dsimp only
    rw [List.append_assoc,List.getElem?_append_left (by omega),List.getElem?_take_of_lt (by omega)]
  · intro i b low high found
    dsimp only at found high
    rw [List.append_assoc,List.getElem?_append_right (by omega),front,
      List.getElem?_append_left (by omega)] at found
    exact own b (List.mem_of_getElem? found)

theorem backComma_puts {m n : Machine} (ran : backComma m = .ok n) : Puts 1 m n := by
  unfold backComma at ran
  split at ran
  · cases ran
  · obtain ⟨k,first,ran⟩ := bind_ok ran
    obtain ⟨l,second,ran⟩ := bind_ok ran
    obtain ⟨room,rfl⟩ := poke_ok first
    obtain ⟨more,rfl⟩ := poke_ok second
    cases ran
    refine ⟨rfl,rfl,by simp,Nat.le_succ _,?_,?_⟩
    · intro i early
      dsimp only
      rw [List.getElem?_set_ne (by omega),List.getElem?_set_ne (by omega)]
    · intro i b low high found
      dsimp only at found high more
      by_cases last : i = m.fi
      · rw [last,List.getElem?_set_self more] at found
        cases found
        decide
      · have here : i = m.fi-1 := by omega
        rw [List.getElem?_set_ne (by omega),here,List.getElem?_set_self room] at found
        cases found
        decide

section Moves
variable {qi ahead above : Nat} {m n : Machine}

theorem Moves.still (low : n.cpFromOffset = m.cpFromOffset) (top : n.cpToOffset = m.cpToOffset)
    (f : n.f = m.f) (fi : n.fi = m.fi) :
    Moves qi ahead above 0 m n := ⟨.inl low,.inl top,by rw [f,fi]; exact .refl m.f m.fi⟩

theorem skipQuote_moves (ran : skipQuote m qi r = .ok n) :
    Moves qi 1 1 0 m n ∧ (n.s = m.s ∨ n.cpFromOffset = qi+1) := by
  unfold skipQuote at ran
  split_ifs at ran
  · cases ran
    exact ⟨.still rfl rfl rfl rfl,.inl rfl⟩
  · cases ran
    exact ⟨.still rfl rfl rfl rfl,.inl rfl⟩
  · cases ran
    exact ⟨.still rfl rfl rfl rfl,.inl rfl⟩
  · cases ran
    exact ⟨.still rfl rfl rfl rfl,.inl rfl⟩
  · cases ran
    exact ⟨⟨.inr ⟨Nat.le_succ _,Nat.le_refl _⟩,.inl rfl,.refl _ _⟩,.inr rfl⟩
  · obtain ⟨k,emitted,ran⟩ := bind_ok ran
    obtain ⟨low,top,adds⟩ := emit_puts (by decide) emitted
    cases ran
    exact ⟨⟨.inr ⟨by rw [low]; exact Nat.le_succ _,by rw [low]⟩,.inl top,adds⟩,.inr low⟩

theorem skipBackticks_moves (m : Machine) (qi r : Nat) : Moves qi 1 1 0 m (skipBackticks m qi r) := by
  unfold skipBackticks
  split_ifs
  · exact .still rfl rfl rfl rfl
  · exact .still rfl rfl rfl rfl
  · exact .still rfl rfl rfl rfl
  · exact .still rfl rfl rfl rfl
  · exact ⟨.inl rfl,.inr (Int.le_refl _),.refl _ _⟩

theorem writeList_puts (ran : writeList m qi = .ok n) : Puts 0 m n := by
  unfold writeList at ran
  split at ran
  · obtain ⟨k,copied,ran⟩ := bind_ok ran
    have own : ∀ b ∈ listText m qi,b ∈ inserted := by
      unfold listText
      split
      · exact fun b inside =>
          List.elem_iff.mp (List.all_eq_true.mp (show (str "(?+)").all inserted.elem =
          true by decide) b inside)
      · exact fun b inside =>
          List.elem_iff.mp (List.all_eq_true.mp (show (str "()").all inserted.elem = true by decide) b inside)
    obtain ⟨low,top,adds⟩ := copyInto_puts own rfl copied
    cases ran
    exact ⟨low,top,adds⟩
  · cases ran
    exact ⟨rfl,rfl,.refl _ _⟩

theorem balanceValues_moves (ran : balanceValues m qi r = .ok n) : Moves qi 1 1 0 m n := by
  unfold balanceValues at ran
  split_ifs at ran
  · cases ran
    exact .still rfl rfl rfl rfl
  · cases ran
    exact .still rfl rfl rfl rfl
  · obtain ⟨k,written,ran⟩ := bind_ok ran
    obtain ⟨_,top,adds⟩ := writeList_puts written
    cases ran
    exact ⟨.inr ⟨Nat.le_succ _,Nat.le_refl _⟩,.inl top,adds⟩

theorem skipValues_moves (ran : skipValues m qi r = .ok n) : Moves qi 1 1 0 m n := by
  unfold skipValues at ran
  split at ran
  · obtain ⟨low,top,adds⟩ := balanceValues_moves ran
    exact ⟨low,top,adds⟩
  split at ran
  · obtain ⟨low,top,adds⟩ := balanceValues_moves ran
    exact ⟨low,top,adds⟩
  split at ran
  · cases ran
    exact .still rfl rfl rfl rfl
  split at ran
  · cases ran
    exact .still rfl rfl rfl rfl
  · exact balanceValues_moves ran

-- A rune that is skipped; when it closes a literal, cpFromOffset is behind it.
theorem skipPart_skips (ran : skipPart m qi r = .ok (.skip n)) :
    Moves qi 1 1 0 m n ∧ (m.s = .inQuote → n.s = .inQuote ∨ n.cpFromOffset = qi+1) := by
  unfold skipPart at ran
  split at ran
  case h_1 state =>
    obtain ⟨k,skipped,ran⟩ := bind_ok ran
    cases ran
    obtain ⟨moves,left⟩ := skipQuote_moves skipped
    rw [state] at left
    exact ⟨moves,fun _ => left⟩
  case h_2 state =>
    cases ran
    exact ⟨skipBackticks_moves m qi r,fun quote => by rw [state] at quote; cases quote⟩
  case h_3 state =>
    refine ⟨?_,fun quote => by rw [state] at quote; cases quote⟩
    unfold endNumberInWord at ran
    split at ran
    · cases ran
      exact .still rfl rfl rfl rfl
    · obtain ⟨k,_,ran⟩ := bind_ok ran
      cases ran
  case h_4 state =>
    refine ⟨?_,fun quote => by rw [state] at quote; cases quote⟩
    unfold endNumber at ran
    split_ifs at ran
    · cases ran
      exact .still rfl rfl rfl rfl
    · cases ran
    · cases ran
    · obtain ⟨k,_,ran⟩ := bind_ok ran
      cases ran
  case h_5 state =>
    obtain ⟨k,skipped,ran⟩ := bind_ok ran
    cases ran
    exact ⟨skipValues_moves skipped,fun quote => by rw [state] at quote; cases quote⟩
  case h_6 state =>
    cases ran
    refine ⟨?_,fun quote => by rw [state] at quote; cases quote⟩
    unfold skipComment
    split
    · exact .still rfl rfl rfl rfl
    · exact .still rfl rfl rfl rfl
  case h_7 state =>
    refine ⟨?_,fun quote => by rw [state] at quote; cases quote⟩
    split at ran
    · cases ran
      exact .still rfl rfl rfl rfl
    · cases ran
  case h_8 state =>
    cases ran
    refine ⟨?_,fun quote => by rw [state] at quote; cases quote⟩
    split
    · exact .still rfl rfl rfl rfl
    · exact .still rfl rfl rfl rfl
  case h_9 other _ _ _ _ _ _ _ =>
    refine ⟨?_,fun quote => absurd quote other⟩
    split at ran
    · cases ran
      exact ⟨.inr ⟨Nat.le_succ _,Nat.le_refl _⟩,.inl rfl,.refl _ _⟩
    · cases ran

theorem skipPart_enters (ran : skipPart m qi r = .ok (.through n)) : m.s ≠ .inQuote ∧ Moves qi 0 0 0 m n := by
  unfold skipPart at ran
  split at ran
  case h_1 state =>
    obtain ⟨k,_,ran⟩ := bind_ok ran
    cases ran
  case h_2 state => cases ran
  case h_3 state =>
    refine ⟨by rw [state]; decide,?_⟩
    unfold endNumberInWord at ran
    split at ran
    · cases ran
    · obtain ⟨k,emitted,ran⟩ := bind_ok ran
      obtain ⟨_,top,adds⟩ := emit_puts (by decide) emitted
      cases ran
      exact ⟨.inr ⟨Nat.le_refl _,Nat.le_refl _⟩,.inl top,adds⟩
  case h_4 state =>
    refine ⟨by rw [state]; decide,?_⟩
    unfold endNumber at ran
    split_ifs at ran
    · cases ran
    · cases ran
      exact ⟨.inl rfl,.inr (Int.le_refl _),.refl _ _⟩
    · cases ran
      exact ⟨.inl rfl,.inr (Int.le_refl _),.refl _ _⟩
    · obtain ⟨k,emitted,ran⟩ := bind_ok ran
      obtain ⟨_,_,adds⟩ := emit_puts (by decide) emitted
      cases ran
      exact ⟨.inr ⟨Nat.le_refl _,Nat.le_refl _⟩,.inr (by simp),adds⟩
  case h_5 state =>
    obtain ⟨k,_,ran⟩ := bind_ok ran
    cases ran
  case h_6 state => cases ran
  case h_7 state =>
    refine ⟨by rw [state]; decide,?_⟩
    split at ran
    · cases ran
    · cases ran
      exact .still rfl rfl rfl rfl
  case h_8 state => cases ran
  case h_9 other _ _ _ _ _ _ _ =>
    refine ⟨other,?_⟩
    split at ran
    · cases ran
    · cases ran
      exact .still rfl rfl rfl rfl

theorem onDigit_moves (env : Env) (m : Machine) (qi : Nat) : Moves qi 1 0 0 m (onDigit env m qi) := by
  unfold onDigit
  split
  · exact ⟨.inl rfl,.inr (by dsimp only; omega),.refl _ _⟩
  · exact ⟨.inl rfl,.inr (Int.le_refl _),.refl _ _⟩
  · split_ifs
    · exact ⟨.inl rfl,.inr (Int.le_refl _),.refl _ _⟩
    · exact ⟨.inl rfl,.inr (Int.le_refl _),.refl _ _⟩
    · exact ⟨.inl rfl,.inr (Int.le_refl _),.refl _ _⟩
    · exact .still rfl rfl rfl rfl
  · exact ⟨.inl rfl,.inr (Int.le_refl _),.refl _ _⟩

theorem nullValue_moves (ran : nullValue m qi word = .ok n) : Moves qi 1 0 0 m n := by
  obtain ⟨k,first,ran⟩ := bind_ok ran
  obtain ⟨l,second,ran⟩ := bind_ok ran
  have one := emit_puts (by decide) first
  have two : Puts 0 k l := by
    unfold nullComma at second
    split at second
    · exact emit_puts (by decide) second
    · cases second
      exact ⟨rfl,rfl,.refl _ _⟩
  have three := emitSpace_puts l
  cases ran
  exact ⟨.inr ⟨Nat.le_succ _,Nat.le_refl _⟩,.inl (three.top.trans (two.top.trans one.top)),
    (one.adds.trans two.adds).trans three.adds⟩

theorem matchWord_moves {env : Env} (ran : matchWord env m qi word = .ok n) :
    Moves qi 1 0 (commaBack env m.sqlState word).toNat m n := by
  unfold matchWord at ran
  split at ran
  · cases ran
  split at ran
  · rename_i null
    have none_ : commaBack env m.sqlState word = false := by
      rcases null with ⟨same,_⟩ | same
      · simp [commaBack,same,show (str "null").getLast? = some (byte 'l') by decide,show byte 'l' ≠
          byte ',' by decide]
      · have other : wordIn env.lower (str "null,") [str "asc",str "asc,",str "asc "] = false := by
          have ascii : ∀ b ∈ str "null,",b.toNat < 0x80 := by
            intro b inside
            exact of_decide_eq_true
              (List.all_eq_true.mp (show (str "null,").all (fun b => decide (b.toNat < 0x80)) =
              true by decide) b inside)
          rw [wordIn,toLower_ascii _ _ ascii]
          decide
        simp [commaBack,same,other]
    rw [none_]
    exact nullValue_moves ran
  split at ran
  · rename_i order
    have none_ : commaBack env m.sqlState word = false := by
      simp [commaBack,order.2,show (str "by").getLast? = some (byte 'y') by decide,show byte 'y' ≠
        byte ',' by decide]
    cases ran
    rw [none_]
    exact .still rfl rfl rfl rfl
  split at ran
  · rename_i asc
    split at ran
    · rename_i comma
      have yes : commaBack env m.sqlState word = true := by simp [commaBack,asc.1,asc.2,comma]
      obtain ⟨low,top,adds⟩ := backComma_puts ran
      rw [yes]
      exact ⟨.inr ⟨by rw [low],by rw [low]; exact Nat.le_succ _⟩,.inl top,adds⟩
    · rename_i plain
      have none_ : commaBack env m.sqlState word = false := by simp [commaBack,plain]
      cases ran
      rw [none_]
      exact ⟨.inr ⟨Nat.le_refl _,Nat.le_succ _⟩,.inl rfl,.refl _ _⟩
  · rename_i other
    have none_ : commaBack env m.sqlState word = false := by
      have apart : ¬ (m.sqlState = .orderBy ∧
          wordIn env.lower word [str "asc",str "asc,",str "asc "] = true) :=
        other
      cases words : wordIn env.lower word [str "asc",str "asc,",str "asc "] with
      | false => simp [commaBack,words]
      | true => simp [commaBack,show m.sqlState ≠ .orderBy from fun order => apart ⟨order,words⟩]
    rw [none_]
    split at ran
    · cases ran
      exact .still rfl rfl rfl rfl
    · cases ran
      exact .still rfl rfl rfl rfl

theorem cut_ok (ran : cut q i j = .ok text) : text = slice q i j := by
  unfold cut at ran
  split at ran
  · cases ran
    rfl
  · cases ran

theorem onSpace_moves {env : Env} (space : isSpace r = true) (ran : onSpace env q m qi = .ok n) :
    Moves qi 1 0 (wordBack env q m qi r).toNat m n := by
  unfold onSpace at ran
  split at ran
  · rename_i state
    have none_ : wordBack env q m qi r = false := by simp [wordBack,state]
    rw [none_]
    obtain ⟨ends,_,ran⟩ := bind_ok ran
    split at ran
    · obtain ⟨_,top,adds⟩ := emitSpace_puts m
      cases ran
      exact ⟨.inr ⟨Nat.le_succ _,Nat.le_refl _⟩,.inl top,adds⟩
    · cases ran
      exact .still rfl rfl rfl rfl
  · rename_i state
    have none_ : wordBack env q m qi r = false := by simp [wordBack,state]
    rw [none_]
    cases ran
    refine ⟨.inl rfl,?_,.refl _ _⟩
    dsimp only
    split
    · exact .inr (by omega)
    · exact .inl rfl
  · rename_i state
    have none_ : wordBack env q m qi r = false := by simp [wordBack,state]
    rw [none_]
    cases ran
    split
    · obtain ⟨low,top,adds⟩ := emitSpace_puts m
      exact ⟨.inl low,.inl top,adds⟩
    · exact .still rfl rfl rfl rfl
  · rename_i unknown dash more
    obtain ⟨pending,cuts,ran⟩ := bind_ok ran
    obtain ⟨k,matched,ran⟩ := bind_ok ran
    have same : wordBack env q m qi r = commaBack env m.sqlState (toLower env.lower pending) := by
      rw [cut_ok cuts,wordBack,takesBack,space]
      simp only [Bool.true_and,bne_iff_ne.mpr unknown,bne_iff_ne.mpr dash,bne_iff_ne.mpr more]
    obtain ⟨low,_,adds⟩ := matchWord_moves matched
    cases ran
    rw [same]
    exact ⟨low,.inr (Int.le_refl _),adds⟩

theorem onOpenPar_moves {env : Env} (ran : onOpenPar env q m qi = .ok n) : Moves qi 1 0 0 m n := by
  obtain ⟨pending,_,ran⟩ := bind_ok ran
  split at ran
  · cases ran
  split at ran
  · cases ran
    refine ⟨.inl rfl,?_,.refl _ _⟩
    dsimp only
    split
    · exact .inr (Int.le_refl _)
    · exact .inl rfl
  split at ran
  · cases ran
    exact ⟨.inr ⟨Nat.le_refl _,Nat.le_succ _⟩,.inl rfl,.refl _ _⟩
  · cases ran
    exact .still rfl rfl rfl rfl

theorem onQuote_moves (m : Machine) (qi r : Nat) : Moves qi 1 0 0 m (onQuote m qi r) := by
  unfold onQuote
  split
  · refine ⟨.inl rfl,.inr ?_,.refl _ _⟩
    dsimp only
    split <;> omega
  · exact .still rfl rfl rfl rfl

theorem onOperator_moves (m : Machine) (qi : Nat) : Moves qi 1 0 0 m (onOperator m qi) := by
  refine ⟨?_,.inl rfl,.refl _ _⟩
  unfold onOperator
  dsimp only
  split
  · exact .inr ⟨Nat.le_refl _,Nat.le_succ _⟩
  · exact .inl rfl

theorem onOther_moves (m : Machine) (qi : Nat) : Moves qi 1 0 0 m (onOther m qi) := by
  unfold onOther
  split
  · exact ⟨.inr ⟨Nat.le_refl _,Nat.le_succ _⟩,.inl rfl,.refl _ _⟩
  · exact .still rfl rfl rfl rfl

theorem changeState_moves {env : Env} (ran : changeState env q m qi r = .ok n) :
    Moves qi 1 0 (wordBack env q m qi r).toNat m n := by
  by_cases space : isSpace r = true
  · have digit : isDigit r = false := by
      simp only [isSpace,Bool.or_eq_true,beq_iff_eq] at space
      rcases space with ((rfl | rfl) | rfl) | rfl <;> rfl
    rw [changeState,if_neg (by simp [digit]),if_pos space] at ran
    exact onSpace_moves space ran
  · have none_ : wordBack env q m qi r = false := by simp [wordBack,takesBack,space]
    rw [none_]
    unfold changeState at ran
    by_cases digit : isDigit r = true
    · rw [if_pos digit] at ran
      cases ran
      exact onDigit_moves env m qi
    rw [if_neg digit,if_neg space] at ran
    by_cases quote : r = rune '\'' ∨ r = rune '"'
    · rw [if_pos quote] at ran
      cases ran
      exact onQuote_moves m qi r
    rw [if_neg quote] at ran
    by_cases tick : r = rune '\x60'
    · rw [if_pos tick] at ran
      cases ran
      unfold onBacktick
      split
      · exact .still rfl rfl rfl rfl
      · exact .still rfl rfl rfl rfl
    rw [if_neg tick] at ran
    by_cases operator : r = rune '=' ∨ r = rune '<' ∨ r = rune '>' ∨ r = rune '!'
    · rw [if_pos operator] at ran
      cases ran
      exact onOperator_moves m qi
    rw [if_neg operator] at ran
    by_cases div : r = rune '/'
    · rw [if_pos div] at ran
      cases ran
      exact .still rfl rfl rfl rfl
    rw [if_neg div] at ran
    by_cases star : r = rune '*' ∧ m.s = .divOrMLC
    · rw [if_pos star] at ran
      cases ran
      exact .still rfl rfl rfl rfl
    rw [if_neg star] at ran
    by_cases plus : r = rune '+'
    · rw [if_pos plus] at ran
      cases ran
      exact .still rfl rfl rfl rfl
    rw [if_neg plus] at ran
    by_cases dash : r = rune '-'
    · rw [if_pos dash] at ran
      cases ran
      exact .still rfl rfl rfl rfl
    rw [if_neg dash] at ran
    by_cases dot : r = rune '.'
    · rw [if_pos dot] at ran
      cases ran
      split
      · exact ⟨.inl rfl,.inr (Int.le_refl _),.refl _ _⟩
      · exact .still rfl rfl rfl rfl
    rw [if_neg dot] at ran
    by_cases par : r = rune '('
    · rw [if_pos par] at ran
      exact onOpenPar_moves ran
    rw [if_neg par] at ran
    by_cases comma : r = rune ',' ∧ m.s = .moreValuesOrUnknown
    · rw [if_pos comma] at ran
      cases ran
      exact .still rfl rfl rfl rfl
    rw [if_neg comma] at ran
    by_cases admin : r = rune ':' ∧ m.prevWord = str "administrator"
    · rw [if_pos admin] at ran
      cases ran
    rw [if_neg admin] at ran
    by_cases hash : r = rune '#'
    · rw [if_pos hash] at ran
      cases ran
      exact .still rfl rfl rfl rfl
    rw [if_neg hash] at ran
    cases ran
    exact onOther_moves m qi

theorem afterCopy_moves (env : Env) (m : Machine) : (afterCopy env m).cpToOffset = m.cpToOffset ∧
    m.cpFromOffset ≤ (afterCopy env m).cpFromOffset ∧ (afterCopy env m).cpFromOffset ≤ m.cpFromOffset+1 ∧
    Adds 0 m.f m.fi (afterCopy env m).f (afterCopy env m).fi := by
  unfold afterCopy
  split_ifs
  · exact ⟨rfl,Nat.le_refl _,Nat.le_succ _,.refl _ _⟩
  · obtain ⟨_,top,adds⟩ := emitSpace_puts m
    exact ⟨top,Nat.le_succ _,Nat.le_refl _,adds⟩
  · exact ⟨rfl,Nat.le_refl _,Nat.le_succ _,.refl _ _⟩

-- A copy is of q[cpFromOffset:cpToOffset] and moves cpFromOffset behind it.
theorem copySlice_cases {env : Env} (ran : copySlice env q m = .ok n) :
    (¬ (m.cpFromOffset : Int) < m.cpToOffset ∧ n = m) ∨
    ((m.cpFromOffset : Int) < m.cpToOffset ∧ ∃ k,
      ({m with prevWord := toLower env.lower (slice q m.cpFromOffset m.cpToOffset.toNat)}).copyInto
      (m.cpToOffset.toNat-m.cpFromOffset)
        (toLower env.lower (slice q m.cpFromOffset m.cpToOffset.toNat)) = .ok k ∧
      n = afterCopy env {k with cpFromOffset := m.cpToOffset.toNat}) := by
  unfold copySlice at ran
  split at ran
  · rename_i due
    obtain ⟨text,cuts,ran⟩ := bind_ok ran
    obtain ⟨k,copied,ran⟩ := bind_ok ran
    rw [cut_ok cuts] at copied
    cases ran
    exact .inr ⟨due,k,copied,rfl⟩
  · cases ran
    exact .inl ⟨by assumption,rfl⟩

end Moves

-- What one iteration is made of.
theorem step_cases {env : Env} {m n : Machine} (ran : step env q m qi r = .ok n) :
    skipPart m qi r = .ok (.skip n) ∨
    ∃ a k l,skipPart m qi r = .ok (.through a) ∧ changeState env q a qi r = .ok k ∧
      copySlice env q k = .ok l ∧ n = {l with pr := r} := by
  obtain ⟨skipped,first,ran⟩ := bind_ok ran
  cases skipped with
  | skip k =>
    cases ran
    exact .inl first
  | through a =>
    obtain ⟨k,second,ran⟩ := bind_ok ran
    obtain ⟨l,third,ran⟩ := bind_ok ran
    cases ran
    exact .inr ⟨a,k,l,first,second,third,rfl⟩

-- Both offsets at the head of the iteration at qi.
structure Ordered (qi : Nat) (m : Machine) : Prop where
  low : m.cpFromOffset ≤ qi
  top : m.cpToOffset ≤ qi

section Ordered
variable {qi ahead above back : Nat} {m n : Machine} (ordered : Ordered qi m)
include ordered

theorem Moves.low_le (moves : Moves qi ahead above back m n) :
    m.cpFromOffset ≤ n.cpFromOffset ∧ n.cpFromOffset ≤ qi+ahead := by
  have := ordered.low
  rcases moves.low with same | ⟨low,high⟩ <;> omega

theorem Moves.top_le (moves : Moves qi ahead above back m n) : n.cpToOffset ≤ qi+above := by
  have := ordered.top
  rcases moves.top with same | high <;> omega

theorem Moves.keeps (moves : Moves qi 0 0 back m n) : Ordered qi n :=
  ⟨(moves.low_le ordered).2,moves.top_le ordered⟩

theorem skipPart_ordered (ran : skipPart m qi r = .ok (.skip n)) :
    m.cpFromOffset ≤ n.cpFromOffset ∧ n.cpFromOffset ≤ qi+1 ∧ n.cpToOffset ≤ qi+1 := by
  have moves := (skipPart_skips ran).1
  exact ⟨(moves.low_le ordered).1,(moves.low_le ordered).2,moves.top_le ordered⟩

theorem changeState_ordered {env : Env} (ran : changeState env q m qi r = .ok n) :
    m.cpFromOffset ≤ n.cpFromOffset ∧ n.cpFromOffset ≤ qi+1 ∧ n.cpToOffset ≤ qi := by
  have moves := changeState_moves ran
  have top := moves.top_le ordered
  exact ⟨(moves.low_le ordered).1,(moves.low_le ordered).2,by omega⟩

end Ordered

theorem copySlice_ordered {env : Env} {m n : Machine} (low : m.cpFromOffset ≤ qi+1)
    (top : m.cpToOffset ≤ qi) (ran : copySlice env q m = .ok n) :
    m.cpFromOffset ≤ n.cpFromOffset ∧ n.cpFromOffset ≤ qi+1 ∧ n.cpToOffset ≤ qi ∧
      ((m.cpFromOffset : Int) < m.cpToOffset → m.cpToOffset.toNat ≤ n.cpFromOffset) := by
  rcases copySlice_cases ran with ⟨idle,rfl⟩ | ⟨due,k,copied,rfl⟩
  · exact ⟨Nat.le_refl _,low,top,fun due => absurd due idle⟩
  · have same : k.cpToOffset = m.cpToOffset := by
      unfold Machine.copyInto at copied
      split at copied
      · cases copied
        rfl
      · cases copied
    obtain ⟨still,grows,near,_⟩ := afterCopy_moves env {k with cpFromOffset := m.cpToOffset.toNat}
    dsimp only at still grows near
    omega

theorem step_ordered {env : Env} {m n : Machine} (ordered : Ordered qi m) (ran : step env q m qi r = .ok n) :
    m.cpFromOffset ≤ n.cpFromOffset ∧ Ordered (qi+1) n := by
  rcases step_cases ran with skipped | ⟨a,k,l,entered,changed,copied,rfl⟩
  · obtain ⟨grows,low,top⟩ := skipPart_ordered ordered skipped
    exact ⟨grows,low,top⟩
  · have moves := (skipPart_enters entered).2
    obtain ⟨one,_⟩ := moves.low_le ordered
    obtain ⟨two,low,top⟩ := changeState_ordered (moves.keeps ordered) changed
    obtain ⟨three,low,top,_⟩ := copySlice_ordered low top copied
    exact ⟨by dsimp only; omega,low,by dsimp only; omega⟩

theorem Ordered.later {m : Machine} (ordered : Ordered qi m) (le : qi ≤ qj) : Ordered qj m := by
  have low := ordered.low
  have top := ordered.top
  exact ⟨by omega,by omega⟩

theorem loop_ordered {env : Env} {m n : Machine} (pieces : Pieces q qi list qj) (ordered : Ordered qi m)
    (ran : loop env q qi list m = .ok n) : m.cpFromOffset ≤ n.cpFromOffset ∧ Ordered qj n := by
  induction pieces generalizing m with
  | done =>
    cases ran
    exact ⟨Nat.le_refl _,ordered⟩
  | @read qi r bs pieces qj reads rest ih =>
    obtain ⟨k,stepped,ran⟩ := bind_ok ran
    obtain ⟨grows,next⟩ := step_ordered ordered stepped
    obtain ⟨more,last⟩ := ih (next.later (Nat.add_le_add_left reads.wide qi)) ran
    exact ⟨Nat.le_trans grows more,last⟩

-- The offsets in one iteration, from its head to its copy step.
structure Disciplined (env : Env) (q : Bytes) (qi r : Nat) (m : Machine) : Prop where
  head : m.cpFromOffset ≤ qi ∧ qi ≤ q.length
  pending : ∀ n,skipPart m qi r = .ok (.through n) → m.cpFromOffset ≤ n.cpFromOffset ∧ ∃ text,
    cut q n.cpFromOffset qi = .ok text
  copy : ∀ n k,skipPart m qi r = .ok (.through n) → changeState env q n qi r = .ok k →
    n.cpFromOffset ≤ k.cpFromOffset ∧
    k.cpToOffset ≤ qi ∧
      ((k.cpFromOffset : Int) < k.cpToOffset → ∃ text,cut q k.cpFromOffset k.cpToOffset.toNat = .ok text)
  next : ∀ n,step env q m qi r = .ok n → m.cpFromOffset ≤ n.cpFromOffset

theorem disciplined {m : Machine} (env : Env) (ordered : Ordered qi m) (room : qi ≤ q.length)
    (r : Nat) : Disciplined env q qi r m where
  head := ⟨ordered.low,room⟩
  pending n entered := by
    have moves := (skipPart_enters entered).2
    obtain ⟨grows,low⟩ := moves.low_le ordered
    exact ⟨grows,_,if_pos ⟨low,room⟩⟩
  copy n k entered changed := by
    have moves := (skipPart_enters entered).2
    obtain ⟨grows,_,top⟩ := changeState_ordered (moves.keeps ordered) changed
    exact ⟨grows,top,fun due => ⟨_,if_pos ⟨by omega,by omega⟩⟩⟩
  next n stepped := (step_ordered ordered stepped).1

end SqlReview.FingerprintOffsets
