import SqlReview.PlainText

-- The words behind ORDER BY: what is written for them, and lists of columns with and without ASC.
namespace SqlReview.OrderClause
open GoBytes Fingerprint PlainText

-- What is written, the word before, and the word that is being read.
structure Clause where
  out : Bytes
  prev : Bytes
  word : Bytes
  deriving DecidableEq,Repr

def comma (w : Bytes) : Bool := w.getLast? = some (byte ',')

def isNull (prev w : Bytes) : Bool :=
  (w = str "null" && prev ≠ str "is" && prev ≠ str "not") || w = str "null,"

def isAsc (w : Bytes) : Bool := w = str "asc" || w = str "asc,"

def Clause.close (c : Clause) : Clause :=
  let w := c.word.map lowerByte
  if isNull c.prev w then ⟨c.out ++ byte '?' ::
    (if comma w then [byte ',',byte ' '] else [byte ' ']),c.prev,[]⟩
  else if isAsc w then ⟨if comma w then c.out.dropLast ++ [byte ',',byte ' '] else c.out,c.prev,[]⟩
  else ⟨c.out ++ w ++ [byte ' '],w,[]⟩

def Clause.read (c : Clause) (b : UInt8) : Clause :=
  if space b then (if c.word = [] then c else c.close) else {c with word := c.word ++ [b]}

def Clause.run (c : Clause) (t : Bytes) : Clause := t.foldl Clause.read c

-- Behind other words the machine leaves the list of columns.
def closable (prev w : Bytes) : Bool := !listWords.contains w && !(prev = str "key" && w = str "update")

def clauseSafe : Clause → Bytes → Bool
  | _,[] => true
  | c,b :: rest =>
    (!space b || c.word = [] || closable c.prev (c.word.map lowerByte)) && clauseSafe (c.read b) rest

theorem run_cons (c : Clause) (b : UInt8) (t : Bytes) : c.run (b :: t) = (c.read b).run t := rfl

theorem run_append (c : Clause) (s t : Bytes) : c.run (s ++ t) = (c.run s).run t := by
  unfold Clause.run
  exact List.foldl_append

theorem safe_append (c : Clause) (s t : Bytes) :
    clauseSafe c (s ++ t) = (clauseSafe c s && clauseSafe (c.run s) t) := by
  induction s generalizing c with
  | nil => rfl
  | cons b s ih =>
    rw [List.cons_append,clauseSafe,clauseSafe,ih,run_cons,Bool.and_assoc]

-- Text goes into the word.
theorem run_text (c : Clause) (text : ∀ b ∈ t,space b = false) :
    c.run t = {c with word := c.word ++ t} ∧ clauseSafe c t = true := by
  induction t generalizing c with
  | nil =>
    rw [List.append_nil]
    exact ⟨rfl,rfl⟩
  | cons b t ih =>
    obtain ⟨first,later⟩ := List.forall_mem_cons.mp text
    have reads : c.read b = {c with word := c.word ++ [b]} := by
      rw [Clause.read,first]
      rfl
    obtain ⟨run,safe⟩ := ih (c.read b) later
    rw [run_cons,run,clauseSafe,safe,first,reads,List.append_assoc]
    exact ⟨rfl,rfl⟩

theorem close_word (c : Clause) : c.close.word = [] := by
  unfold Clause.close
  dsimp only
  split
  · rfl
  · split <;> rfl

theorem run_idle (c : Clause) (blank : ∀ b ∈ t,space b = true) (closed : c.word = []) :
    c.run t = c ∧ clauseSafe c t = true := by
  induction t with
  | nil => exact ⟨rfl,rfl⟩
  | cons b t ih =>
    obtain ⟨first,later⟩ := List.forall_mem_cons.mp blank
    have reads : c.read b = c := by rw [Clause.read,if_pos first,if_pos closed]
    obtain ⟨run,safe⟩ := ih later
    rw [run_cons,clauseSafe,reads,safe,closed]
    exact ⟨run,by simp⟩

-- Whitespace closes the word once.
theorem run_blank (c : Clause) (some_ : t ≠ []) (blank : ∀ b ∈ t,space b = true) (word : c.word ≠ []) :
    c.run t = c.close ∧ clauseSafe c t = closable c.prev (c.word.map lowerByte) := by
  cases t with
  | nil => exact absurd rfl some_
  | cons b t =>
    obtain ⟨first,later⟩ := List.forall_mem_cons.mp blank
    have reads : c.read b = c.close := by rw [Clause.read,if_pos first,if_neg word]
    obtain ⟨run,safe⟩ := run_idle c.close later (close_word c)
    rw [run_cons,clauseSafe,reads,run,safe,first]
    exact ⟨rfl,by simp [word]⟩

theorem run_closed (c : Clause) (t : Bytes) (blank : space b = true) : (c.run (t ++ [b])).word = [] := by
  rw [run_append,run_cons,Clause.read,if_pos blank]
  split
  · assumption
  · exact close_word _

-- The same was written and is being read; the previous word may have a comma in the second run only.
structure Level (a b : Clause) : Prop where
  out : a.out = b.out
  word : a.word = b.word
  prev : a.prev = b.prev ∨ comma b.prev = true

theorem Level.refl (c : Clause) : Level c c := ⟨rfl,rfl,.inl rfl⟩

theorem comma_apart (w : Bytes) (ends : comma w = true) (word : comma x = false) : w ≠ x := by
  rintro rfl
  rw [ends] at word
  cases word

section
variable {a b : Clause} (level : Level a b)
include level

theorem level_closable (safe : closable a.prev w = true) : closable b.prev w = true := by
  rcases level.prev with same | ends
  · rwa [← same]
  · have key : b.prev ≠ str "key" := comma_apart b.prev ends (by decide)
    rw [closable,(Bool.and_eq_true_iff.mp safe).1]
    simp [key]

theorem level_close
    (null : isNull a.prev (a.word.map lowerByte) = isNull b.prev (a.word.map lowerByte)) :
    Level a.close b.close := by
  unfold Clause.close
  dsimp only
  rw [← level.word,← null,← level.out]
  split
  · exact ⟨rfl,rfl,level.prev⟩
  · split
    · exact ⟨rfl,rfl,level.prev⟩
    · exact ⟨rfl,rfl,.inl rfl⟩

end

-- The words of a text that two clauses read: none ends the list, and NULL is a value in both or in none.
def pairSafe : Clause → Clause → Bytes → Bool
  | _,_,[] => true
  | a,b,c :: rest =>
    (!space c || a.word = [] ||
      (closable a.prev (a.word.map lowerByte) &&
        isNull a.prev (a.word.map lowerByte) == isNull b.prev (a.word.map lowerByte))) &&
    pairSafe (a.read c) (b.read c) rest

theorem level_run (level : Level a b) (safe : pairSafe a b t = true) :
    Level (a.run t) (b.run t) ∧ clauseSafe a t = true ∧ clauseSafe b t = true := by
  induction t generalizing a b with
  | nil => exact ⟨level,rfl,rfl⟩
  | cons c t ih =>
    rw [pairSafe,Bool.and_eq_true] at safe
    obtain ⟨here,later⟩ := safe
    have next : Level (a.read c) (b.read c) ∧
      (!space c || a.word = [] || closable a.prev (a.word.map lowerByte)) = true ∧
        (!space c || b.word = [] || closable b.prev (b.word.map lowerByte)) = true := by
      unfold Clause.read
      rw [← level.word]
      by_cases blank : space c = true
      · rw [if_pos blank,if_pos blank]
        by_cases closed : a.word = []
        · rw [if_pos closed,if_pos closed]
          exact ⟨level,by simp [closed],by simp [closed]⟩
        · rw [blank,decide_eq_false closed,Bool.not_true,Bool.false_or,Bool.false_or,
            Bool.and_eq_true,beq_iff_eq] at here
          rw [if_neg closed,if_neg closed]
          exact ⟨level_close level here.2,by rw [here.1,Bool.or_true],
            by rw [level_closable level here.1,Bool.or_true]⟩
      · rw [if_neg blank,if_neg blank,Bool.eq_false_iff.mpr blank]
        exact ⟨⟨level.out,rfl,level.prev⟩,rfl,rfl⟩
    obtain ⟨levels,left,right⟩ := ih next.1 later
    rw [clauseSafe,clauseSafe,left,right,next.2.1,next.2.2]
    exact ⟨levels,rfl,rfl⟩

-- A column with or without ASC or DESC, and the whitespace behind its comma; `deleted` says that
-- its ASC is deleted in the other query.
structure Item where
  name : Bytes
  direction : Option (Bytes × Bytes)
  after : Bytes
  deleted : Bool
  deriving DecidableEq,Repr

def ascending (item : Item) : Bool :=
  match item.direction with
  | some (_,word) => word.map lowerByte = str "asc"
  | none => false

def Item.wellFormed (item : Item) : Bool :=
  item.name ≠ [] && item.name.all letter && item.after.all space && (!item.deleted || ascending item) &&
  match item.direction with
  | none => true
  | some (gap,word) =>
    gap ≠ [] && gap.all space && (word.map lowerByte = str "asc" || word.map lowerByte = str "desc")

def Item.text (item : Item) : Bytes :=
  item.name ++ match item.direction with
  | none => []
  | some (gap,word) => gap ++ word

def Item.kept (item : Item) : Bytes := if item.deleted then item.name else item.text

def listText (text : Item → Bytes) : List Item → Bytes
  | [] => []
  | [item] => text item
  | item :: rest => text item ++ byte ',' :: (item.after ++ listText text rest)

-- Behind a deleted ASC and its comma there is whitespace.
def commasSpaced : List Item → Bool
  | [] => true
  | [_] => true
  | item :: rest => (!item.deleted || item.after ≠ []) && commasSpaced rest

theorem letters_text : ∀ b : UInt8,letter b = true → space b = false ∧ lowerByte b ≠ byte ',' :=
  every_byte (by decide +kernel)

theorem name_text {name : Bytes} (letters : name.all letter = true) : ∀ b ∈ name,space b = false :=
  fun b mem => (letters_text b (List.all_eq_true.mp letters b mem)).1

theorem all_blank {gap : Bytes} (blank : gap.all space = true) : ∀ b ∈ gap,space b = true :=
  List.all_eq_true.mp blank

-- The word before the gap is closed, the word behind it is read.
theorem run_pair (c : Clause) (some_ : name ≠ []) (text : ∀ b ∈ name,space b = false)
    (wide : gap ≠ []) (blank : ∀ b ∈ gap,space b = true)
    (next : ∀ b ∈ t,space b = false) :
    c.run (name ++ (gap ++ t)) = {Clause.close {c with word := c.word ++ name} with word := t} ∧
      clauseSafe c (name ++ (gap ++ t)) = closable c.prev ((c.word ++ name).map lowerByte) := by
  obtain ⟨first,safe⟩ := run_text c text
  have word : c.word ++ name ≠ [] := by simp [some_]
  obtain ⟨second,safe'⟩ := run_blank {c with word := c.word ++ name} wide blank word
  obtain ⟨third,safe''⟩ := run_text (Clause.close {c with word := c.word ++ name}) next
  rw [run_append,first,run_append,second,third,safe_append,safe,first,safe_append,safe',second,
    safe'',close_word]
  exact ⟨rfl,by rw [Bool.true_and,Bool.and_true]⟩

theorem close_asc (c : Clause) (word : c.word.map lowerByte = str "asc") : c.close = {c with word := []} := by
  unfold Clause.close
  rw [word]
  rfl

theorem close_ascComma (c : Clause) (word : c.word.map lowerByte = str "asc,") :
    c.close = {c with out := c.out.dropLast ++ [byte ',',byte ' '],word := []} := by
  unfold Clause.close
  rw [word]
  rfl

theorem comma_last (w : Bytes) : comma (w ++ [byte ',']) = true := by
  unfold comma
  rw [List.getLast?_concat]
  rfl

-- Which words with a comma are looked for.
theorem comma_words (prev w : Bytes) : isAsc (w ++ [byte ',']) = decide (w = str "asc") ∧
    closable prev (w ++ [byte ',']) = true := by
  have ends := comma_last w
  have plain {x : Bytes} (other : comma x = false) : w ++ [byte ','] ≠ x := comma_apart _ ends other
  have asc : w ++ [byte ','] = str "asc" ++ [byte ','] ↔ w = str "asc" := List.append_left_inj _
  rw [show str "asc" ++ [byte ','] = str "asc," by decide] at asc
  refine ⟨?_,?_⟩
  · simp [isAsc,plain (x := str "asc") (by decide),asc]
  · simp [closable,listWords,plain (x := str "in") (by decide),plain (x := str "value") (by decide),
      plain (x := str "values") (by decide),
      plain (x := str "update") (by decide)]

theorem plain_asc {w : Bytes} (ends : comma w = false) : isAsc w = decide (w = str "asc") := by
  have asc : w ≠ str "asc," := fun same => comma_apart (str "asc,") (by decide) ends same.symm
  simp [isAsc,asc]

-- A column and "asc," write what the column with its comma writes.
theorem close_neutral {a b : Clause} (level : Level a b) (ends : comma (a.word.map lowerByte) = false)
    (null : isNull a.prev (a.word.map lowerByte) = isNull b.prev (a.word.map lowerByte ++ [byte ','])) :
    Level {a.close with out := a.close.out.dropLast ++ [byte ',',byte ' ']} (Clause.close {b with
      word := b.word ++ [byte ',']}) := by
  have lower : (b.word ++ [byte ',']).map lowerByte = a.word.map lowerByte ++ [byte ','] := by
    rw [List.map_append,level.word]
    rfl
  have last := comma_last (a.word.map lowerByte)
  unfold Clause.close
  dsimp only
  rw [lower,← null,plain_asc ends,(comma_words b.prev (a.word.map lowerByte)).1,ends,last]
  by_cases isNull_ : isNull a.prev (a.word.map lowerByte) = true
  · rw [if_pos isNull_,if_pos isNull_]
    refine ⟨?_,rfl,level.prev⟩
    simp [level.out]
  · rw [if_neg isNull_,if_neg isNull_]
    by_cases isAsc_ : a.word.map lowerByte = str "asc"
    · rw [if_pos (decide_eq_true isAsc_),if_pos (decide_eq_true isAsc_)]
      refine ⟨?_,rfl,level.prev⟩
      simp [level.out]
    · have no : ¬ decide (a.word.map lowerByte = str "asc") = true := by simpa using isAsc_
      rw [if_neg no,if_neg no]
      refine ⟨?_,rfl,.inr last⟩
      simp [level.out]

theorem letters_end {w : Bytes} (some_ : w ≠ []) (letters : ∀ b ∈ w,letter b = true)
    (before : Bytes) : comma ((before ++ w).map lowerByte) = false := by
  rcases List.eq_nil_or_concat w with none_ | ⟨front,c,same⟩
  · exact absurd none_ some_
  · rw [List.concat_eq_append] at same
    have own : lowerByte c ≠ byte ',' := (letters_text c (letters c (by simp [same]))).2
    rw [same,← List.append_assoc,List.map_append,List.map_singleton,comma,List.getLast?_concat]
    simpa using own

-- The parts of a column whose ASC is deleted.
structure Deletion (item : Item) (gap word : Bytes) : Prop where
  direction : item.direction = some (gap,word)
  keyword : word.map lowerByte = str "asc"
  wide : gap ≠ []
  blank : ∀ b ∈ gap,space b = true

theorem deletion {item : Item} (valid : item.wellFormed = true) (deleted : item.deleted = true) :
    ∃ gap word,Deletion item gap word := by
  unfold Item.wellFormed at valid
  simp only [Bool.and_eq_true,deleted] at valid
  obtain ⟨⟨_,ascends⟩,parts⟩ := valid
  unfold ascending at ascends
  cases direction : item.direction with
  | none =>
    rw [direction] at ascends
    cases ascends
  | some pair =>
    obtain ⟨gap,word⟩ := pair
    rw [direction] at ascends parts
    simp only [Bool.and_eq_true,Bool.not_true,Bool.false_or,decide_eq_true_eq] at ascends parts
    exact ⟨gap,word,direction,ascends,by simpa using parts.1.1,all_blank parts.1.2⟩

theorem lower_space : ∀ b : UInt8,space (lowerByte b) = space b := every_byte (by decide +kernel)

theorem word_text {w : Bytes} (word : w.map lowerByte = x) (text : ∀ b ∈ x,space b = false) :
    ∀ b ∈ w,space b = false := by
  intro b mem
  rw [← lower_space,text (lowerByte b)]
  rw [← word]
  exact List.mem_map_of_mem mem

section
variable {item : Item} {a b : Clause} (valid : item.wellFormed = true) (level : Level a b)
include valid

theorem name_ends (before : Bytes) : comma ((before ++ item.name).map lowerByte) = false := by
  simp only [Item.wellFormed,Bool.and_eq_true] at valid
  exact letters_end (by simpa using valid.1.1.1.1) (List.all_eq_true.mp valid.1.1.1.2) before

theorem name_valid : item.name ≠ [] ∧ (∀ b ∈ item.name,space b = false) ∧ ∀ b ∈ item.after,
    space b = true := by
  simp only [Item.wellFormed,Bool.and_eq_true] at valid
  obtain ⟨⟨⟨⟨some_,letters⟩,after⟩,_⟩,_⟩ := valid
  exact ⟨by simpa using some_,name_text letters,all_blank after⟩

-- "name asc", a comma or nothing, and whitespace.
theorem run_asc (c : Clause) (parts : Deletion item gap word) (t : Bytes)
    (text : ∀ b ∈ t,space b = false) (calm : ∀ prev,closable prev (str "asc" ++ t.map lowerByte) = true)
    (wide : after ≠ []) (blank : ∀ b ∈ after,space b = true)
    (safe : closable c.prev ((c.word ++ item.name).map lowerByte) = true) :
    c.run (item.text ++ (t ++ after)) =
      Clause.close {Clause.close {c with word := c.word ++ item.name} with word := word ++ t} ∧
      clauseSafe c (item.text ++ (t ++ after)) = true := by
  obtain ⟨some_,name,_⟩ := name_valid valid
  have whole : item.text ++ (t ++ after) = (item.name ++ (gap ++ (word ++ t))) ++ after := by
    rw [Item.text,parts.direction]
    simp
  have word_ : word ≠ [] := by
    rintro rfl
    exact absurd parts.keyword (by decide)
  have behind := List.forall_mem_append.mpr ⟨word_text parts.keyword (by decide +kernel),text⟩
  obtain ⟨first,here⟩ := run_pair c some_ name parts.wide parts.blank behind
  obtain ⟨second,there⟩ :=
    run_blank {Clause.close {c with word := c.word ++ item.name} with word := word ++ t} wide blank
      (by simp [word_])
  rw [whole,run_append,safe_append,first,second,here,there,safe,List.map_append,parts.keyword]
  exact ⟨rfl,calm _⟩

-- A name, a comma or nothing, and whitespace.
theorem run_name (c : Clause) (t : Bytes) (text : ∀ b ∈ t,space b = false) (wide : gap ≠ [])
    (blank : ∀ b ∈ gap,space b = true) :
    c.run (item.name ++ (t ++ gap)) = Clause.close {c with word := c.word ++ item.name ++ t} ∧
      clauseSafe c (item.name ++ (t ++ gap)) =
      closable c.prev ((c.word ++ item.name ++ t).map lowerByte) := by
  obtain ⟨some_,name,_⟩ := name_valid valid
  obtain ⟨first,safe⟩ := run_text c (List.forall_mem_append.mpr ⟨name,text⟩)
  obtain ⟨second,safe'⟩ := run_blank {c with word := c.word ++ (item.name ++ t)} wide blank (by simp [some_])
  rw [← List.append_assoc,run_append,first,second,safe_append,safe,first,safe',Bool.true_and,
    List.append_assoc]
  exact ⟨rfl,rfl⟩

include level

omit valid in
theorem Level.name : Level {a with word := a.word ++ item.name} {b with word := b.word ++ item.name} :=
  ⟨level.out,congrArg (· ++ item.name) level.word,level.prev⟩

end

-- A column and what closes it: a comma and whitespace, or whitespace.
def itemSafe (a b : Clause) (item : Item) (closing : Bytes) : Bool :=
  if item.deleted then
    closable a.prev ((a.word ++ item.name).map lowerByte) &&
      isNull a.prev ((a.word ++ item.name).map lowerByte) ==
        isNull b.prev ((a.word ++ item.name).map lowerByte ++ closing.takeWhile fun b => !space b)
  else pairSafe a b (item.text ++ closing)

def listSafe (a b : Clause) (closing : Bytes) : List Item → Bool
  | [] => true
  | [item] => itemSafe a b item closing
  | item :: rest => itemSafe a b item (byte ',' :: item.after) &&
      listSafe (a.run (item.text ++ byte ',' :: item.after))
        (b.run (item.kept ++ byte ',' :: item.after)) closing rest

inductive Closing : Bytes → Prop where
  | comma (after : Bytes) : after ≠ [] → (∀ b ∈ after,space b = true) → Closing (byte ',' :: after)
  | blank (b : UInt8) : space b = true → Closing [b]

theorem asc_calm (prev : Bytes) : closable prev (str "asc") = true ∧ closable prev (str "asc,") = true := by
  have plain : str "asc" ∉ listWords ∧ str "asc," ∉ listWords := by decide
  have other : str "asc" ≠ str "update" ∧ str "asc," ≠ str "update" := by decide
  simp [closable,plain,other]

section
variable {item : Item} {a b : Clause} (valid : item.wellFormed = true) (level : Level a b)
include valid level

theorem item_level (closes : item.deleted = true → Closing closing)
    (safe : itemSafe a b item closing = true) :
    Level (a.run (item.text ++ closing)) (b.run (item.kept ++ closing)) ∧
      clauseSafe a (item.text ++ closing) = true ∧ clauseSafe b (item.kept ++ closing) = true := by
  unfold itemSafe at safe
  unfold Item.kept
  cases deleted : item.deleted with
  | false =>
    rw [deleted,if_neg Bool.false_ne_true] at safe
    exact level_run level safe
  | true =>
    rw [deleted,if_pos rfl,Bool.and_eq_true,beq_iff_eq] at safe
    obtain ⟨own,null⟩ := safe
    obtain ⟨gap,word,parts⟩ := deletion valid deleted
    have levels : Level {a with word := a.word ++ item.name} {b with word := b.word ++ item.name} :=
      Level.name level
    rw [if_pos rfl]
    cases closes deleted with
    | comma after wide blank =>
      have keyword : (word ++ [byte ',']).map lowerByte = str "asc," := by
        rw [List.map_append,parts.keyword]
        decide
      obtain ⟨left,calm⟩ :=
        run_asc valid a parts [byte ','] (by decide +kernel) (fun prev => (asc_calm prev).2) wide blank own
      obtain ⟨right,calm'⟩ := run_name valid b [byte ','] (by decide +kernel) wide blank
      rw [close_ascComma _ keyword] at left
      rw [List.map_append,show [byte ','].map lowerByte = [byte ','] by decide,
        (comma_words b.prev _).2] at calm'
      have mark : (byte ',' :: after).takeWhile (fun b => !space b) = [byte ','] := by
        cases after with
        | nil => exact absurd rfl wide
        | cons c after =>
          have first := blank c List.mem_cons_self
          rw [List.takeWhile_cons,if_pos (by decide),List.takeWhile_cons,first]
          rfl
      rw [mark] at null
      have closed := close_neutral levels (name_ends valid a.word) null
      refine ⟨?_,calm,calm'⟩
      rw [show byte ',' :: after = [byte ','] ++ after from rfl,left,right]
      exact ⟨closed.out,(close_word _).symm,closed.prev⟩
    | blank c space_ =>
      have only : ∀ d ∈ [c],space d = true := List.forall_mem_singleton.mpr space_
      obtain ⟨left,calm⟩ :=
        run_asc valid a parts [] nofun (fun prev => (asc_calm prev).1) (List.cons_ne_nil c []) only own
      obtain ⟨right,calm'⟩ := run_name valid b [] nofun (List.cons_ne_nil c []) only
      rw [close_asc _ (by rw [List.append_nil]; exact parts.keyword)] at left
      rw [List.append_nil] at right calm'
      rw [List.nil_append] at left right calm calm'
      rw [List.takeWhile_cons,space_] at null
      have closed := level_close levels (null.trans (by rw [← level.word]; simp))
      refine ⟨?_,calm,?_⟩
      · rw [left,right]
        exact ⟨closed.out,(close_word _).symm,closed.prev⟩
      · rw [calm',← level.word]
        exact level_closable levels own

end

-- The whole list and what closes it.
theorem list_level {a b : Clause} (valid : ∀ item ∈ items,Item.wellFormed item = true)
    (some_ : items ≠ []) (spaced : commasSpaced items = true)
    (closes : Closing closing) (level : Level a b) (safe : listSafe a b closing items = true) :
    Level (a.run (listText Item.text items ++ closing)) (b.run (listText Item.kept items ++ closing)) ∧
      clauseSafe a (listText Item.text items ++ closing) = true ∧
      clauseSafe b (listText Item.kept items ++ closing) = true := by
  induction items generalizing a b with
  | nil => exact absurd rfl some_
  | cons item rest ih =>
    obtain ⟨here,later⟩ := List.forall_mem_cons.mp valid
    cases rest with
    | nil => exact item_level here level (fun _ => closes) safe
    | cons next rest =>
      have cut (text : Item → Bytes) : listText text (item :: next :: rest) ++ closing =
          (text item ++ byte ',' :: item.after) ++ (listText text (next :: rest) ++ closing) := by
        simp [listText]
      have both := Bool.and_eq_true_iff.mp (spaced : (_ && commasSpaced (next :: rest)) = true)
      have closing_ (deleted : item.deleted = true) : Closing (byte ',' :: item.after) :=
        .comma _ (by simpa [deleted] using both.1) (name_valid here).2.2
      have safe := Bool.and_eq_true_iff.mp (safe : (itemSafe a b item (byte ',' :: item.after) && _) = true)
      obtain ⟨level,left,right⟩ := item_level here level closing_ safe.1
      obtain ⟨last,left',right'⟩ := ih later nofun both.2 level safe.2
      rw [cut,cut,run_append a,run_append b,safe_append a,safe_append b,left,left',right,right']
      exact ⟨last,rfl,rfl⟩

-- The list is a text of letters, commas and whitespace.
theorem list_text {kept : Item → Bytes} (valid : ∀ item ∈ items,Item.wellFormed item = true)
    (each : ∀ item,Item.wellFormed item = true → ∀ b ∈ kept item,letter b = true ∨ space b = true) :
    ∀ b ∈ listText kept items,(letter b || b = byte ',') = true ∨ space b = true := by
  have own (item : Item) (valid : item.wellFormed = true) : ∀ b ∈ kept item,
      (letter b || b = byte ',') = true ∨ space b = true := by
    intro b mem
    exact (each item valid b mem).imp_left fun text => by rw [text]; rfl
  induction items with
  | nil => exact nofun
  | cons item rest ih =>
    obtain ⟨here,later⟩ := List.forall_mem_cons.mp valid
    cases rest with
    | nil => exact own item here
    | cons next rest =>
      intro b mem
      rcases List.mem_append.mp
        (mem : b ∈ kept item ++ byte ',' :: (item.after ++ listText kept (next :: rest))) with name | behind
      · exact own item here b name
      · rcases List.mem_cons.mp behind with rfl | behind
        · exact .inl rfl
        · rcases List.mem_append.mp behind with after | list
          · exact .inr ((name_valid here).2.2 b after)
          · exact ih later b list

theorem text_letters (item : Item) (valid : item.wellFormed = true) :
    ∀ b ∈ item.text,letter b = true ∨ space b = true := by
  have lowerLetter : ∀ b : UInt8,letter (lowerByte b) = letter b := every_byte (by decide +kernel)
  have parts := valid
  simp only [Item.wellFormed,Bool.and_eq_true] at parts
  obtain ⟨⟨⟨⟨_,letters⟩,_⟩,_⟩,direction⟩ := parts
  intro b mem
  unfold Item.text at mem
  rcases List.mem_append.mp mem with name | behind
  · exact .inl (List.all_eq_true.mp letters b name)
  · cases shape : item.direction with
    | none =>
      rw [shape] at behind
      cases behind
    | some pair =>
      obtain ⟨gap,word⟩ := pair
      rw [shape] at behind direction
      simp only [Bool.and_eq_true,Bool.or_eq_true,decide_eq_true_eq] at direction
      rcases List.mem_append.mp behind with blank | keyword
      · exact .inr (all_blank direction.1.2 b blank)
      · left
        rw [← lowerLetter]
        have lower := List.mem_map_of_mem (f := lowerByte) keyword
        have each : ∀ c ∈ str "asc" ++ str "desc",letter c = true := by decide +kernel
        apply each
        rcases direction.2 with same | same
        · exact List.mem_append_left _ (same ▸ lower)
        · exact List.mem_append_right _ (same ▸ lower)

theorem kept_letters (item : Item) (valid : item.wellFormed = true) :
    ∀ b ∈ item.kept,letter b = true ∨ space b = true := by
  unfold Item.kept
  split
  · simp only [Item.wellFormed,Bool.and_eq_true] at valid
    exact fun b mem => .inl (List.all_eq_true.mp valid.1.1.1.2 b mem)
  · exact text_letters item valid

theorem list_head {kept : Item → Bytes} (valid : ∀ item ∈ items,Item.wellFormed item = true)
    (some_ : items ≠ [])
    (starts : ∀ item : Item,∃ rest,kept item = item.name ++ rest) :
    ∃ b t,listText kept items = b :: t ∧ letter b = true := by
  cases items with
  | nil => exact absurd rfl some_
  | cons item rest =>
    obtain ⟨here,_⟩ := List.forall_mem_cons.mp valid
    have parts := here
    simp only [Item.wellFormed,Bool.and_eq_true] at parts
    have letters := parts.1.1.1.2
    obtain ⟨more,same⟩ := starts item
    cases name : item.name with
    | nil => exact absurd name (name_valid here).1
    | cons b front =>
      rw [name] at same letters
      have own := (Bool.and_eq_true_iff.mp letters).1
      cases rest with
      | nil => exact ⟨b,_,same,own⟩
      | cons next rest =>
        refine ⟨b,front ++ more ++ byte ',' :: (item.after ++ listText kept (next :: rest)),?_,own⟩
        change kept item ++ _ = _
        rw [same]
        rfl

theorem text_starts (item : Item) : ∃ rest,item.text = item.name ++ rest := ⟨_,rfl⟩

theorem kept_starts (item : Item) : ∃ rest,item.kept = item.name ++ rest := by
  unfold Item.kept
  split
  · exact ⟨[],(List.append_nil _).symm⟩
  · exact text_starts item

end SqlReview.OrderClause
