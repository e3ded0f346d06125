import SqlReview.GoText

-- JSON texts as Go's encoding/json writes and reads them.
namespace SqlReview.Json
open GoText

inductive Value where
  | null
  | bool (value : Bool)
  | number (literal : Text)
  | string (value : Text)
  | array (items : List Value)
  | object (fields : List (Text × Value))

-- The characters Marshal writes as they are; it escapes the others for HTML as well as for JSON.
def unescaped (c : Char) : Bool :=
  !(c == '"' || c == '\\' || c == '<' || c == '>' || c == '&' || c.toNat < 0x20 ||
    c.toNat == 0x2028 || c.toNat == 0x2029)

def hexDigits (n : Nat) : Text :=
  [(n/4096%16).digitChar,(n/256%16).digitChar,(n/16%16).digitChar,(n%16).digitChar]

def escape (c : Char) : Text :=
  if unescaped c then [c]
  else if c == '"' || c == '\\' then ['\\',c]
  else if c == Char.ofNat 8 then text "\\b"
  else if c == Char.ofNat 12 then text "\\f"
  else if c == '\n' then text "\\n"
  else if c == '\r' then text "\\r"
  else if c == '\t' then text "\\t"
  else '\\' :: 'u' :: hexDigits c.toNat

def quote (s : Text) : Text := '"' :: (s.flatMap escape ++ ['"'])

def commas : List Text → Text
  | [] => []
  | [t] => t
  | t :: ts => t ++ ',' :: commas ts

mutual
def render : Value → Text
  | .null => text "null"
  | .bool true => text "true"
  | .bool false => text "false"
  | .number literal => literal
  | .string value => quote value
  | .array items => '[' :: (commas (renderItems items) ++ [']'])
  | .object fields => '{' :: (commas (renderFields fields) ++ ['}'])

def renderItems : List Value → List Text
  | [] => []
  | item :: items => render item :: renderItems items

def renderFields : List (Text × Value) → List Text
  | [] => []
  | (name,value) :: fields => (quote name ++ ':' :: render value) :: renderFields fields
end

-- What stands between the quotes: characters, and the code units of \u escapes.
inductive Piece where
  | char (c : Char)
  | unit (code : Nat)

def hexValue (c : Char) : Option Nat :=
  if c.isDigit then some (c.toNat - '0'.toNat)
  else if 'a' ≤ c ∧ c ≤ 'f' then some (c.toNat - 'a'.toNat + 10)
  else if 'A' ≤ c ∧ c ≤ 'F' then some (c.toNat - 'A'.toNat + 10)
  else none

def hexUnit (a b c d : Char) : Option Nat := do
  some ((((← hexValue a)*16+(← hexValue b))*16+(← hexValue c))*16+(← hexValue d))

def shortEscape (c : Char) : Option Char :=
  if c == '"' || c == '\\' || c == '/' then some c
  else if c == 'b' then some (Char.ofNat 8)
  else if c == 'f' then some (Char.ofNat 12)
  else if c == 'n' then some '\n'
  else if c == 'r' then some '\r'
  else if c == 't' then some '\t'
  else none

def readPieces : Text → Option (List Piece × Text)
  | [] => none
  | c :: s =>
    if c = '"' then some ([],s)
    else if c = '\\' then
      match s with
      | [] => none
      | e :: s =>
        if e = 'u' then
          match s with
          | h₁ :: h₂ :: h₃ :: h₄ :: s => do
            let code ← hexUnit h₁ h₂ h₃ h₄
            let (pieces,s) ← readPieces s
            some (.unit code :: pieces,s)
          | _ => none
        else do
          let c ← shortEscape e
          let (pieces,s) ← readPieces s
          some (.char c :: pieces,s)
    else if c.toNat < 0x20 then none
    else do
      let (pieces,s) ← readPieces s
      some (.char c :: pieces,s)

def surrogate (code : Nat) : Bool := 0xD800 ≤ code && code < 0xE000

def replacement : Char := Char.ofNat 0xFFFD

-- Two adjacent escapes that form a surrogate pair are one character, a lone surrogate is U+FFFD.
def joinPieces : List Piece → Text
  | [] => []
  | .char c :: pieces => c :: joinPieces pieces
  | .unit code :: pieces =>
    let later := joinPieces pieces
    if surrogate code then
      match pieces with
      | .unit low :: rest =>
        if code < 0xDC00 ∧ 0xDC00 ≤ low ∧ low < 0xE000 then
          Char.ofNat (0x10000+(code-0xD800)*0x400+(low-0xDC00)) :: joinPieces rest
        else replacement :: later
      | _ => replacement :: later
    else Char.ofNat code :: later

def readString (s : Text) : Option (Text × Text) :=
  (readPieces s).map fun (pieces,rest) => (joinPieces pieces,rest)

def space (c : Char) : Bool := c == ' ' || c == '\t' || c == '\r' || c == '\n'

def skip (s : Text) : Text := s.dropWhile space

def exponent : Text → Bool
  | [] => true
  | e :: s =>
    let digits := match s with
      | '+' :: s => s
      | '-' :: s => s
      | s => s
    (e == 'e' || e == 'E') && digits ≠ [] && digits.all Char.isDigit

def fraction : Text → Bool
  | '.' :: d :: s => d.isDigit && exponent (s.dropWhile Char.isDigit)
  | s => exponent s

def magnitude : Text → Bool
  | [] => false
  | d :: s => if d = '0' then fraction s else d.isDigit && fraction (s.dropWhile Char.isDigit)

def isNumber : Text → Bool
  | '-' :: s => magnitude s
  | s => magnitude s

def atomChar (c : Char) : Bool := c.isAlphanum || c == '-' || c == '+' || c == '.'

def atom (literal : Text) : Option Value :=
  if isNumber literal then some (.number literal)
  else if literal = text "null" then some .null
  else if literal = text "true" then some (.bool true)
  else if literal = text "false" then some (.bool false)
  else none

def readAtom (s : Text) : Option (Value × Text) :=
  (atom (s.takeWhile atomChar)).map fun value => (value,s.dropWhile atomChar)

section Sequence
variable (close : Char) (item : Text → Option (α × Text))

def readMore : Nat → Text → Option (List α × Text)
  | 0,_ => none
  | n+1,s => do
    let (x,s) ← item s
    match skip s with
    | [] => none
    | c :: s =>
      if c = ',' then do
        let (xs,s) ← readMore n s
        some (x :: xs,s)
      else if c = close then some ([x],s)
      else none

def readSequence (s : Text) : Option (List α × Text) :=
  match skip s with
  | [] => none
  | c :: rest => if c = close then some ([],rest) else readMore close item s.length s
end Sequence

def readField (value : Text → Option (Value × Text)) (s : Text) : Option ((Text × Value) × Text) :=
  match skip s with
  | '"' :: s => do
    let (name,s) ← readString s
    match skip s with
    | ':' :: s => do
      let (v,s) ← value s
      some ((name,v),s)
    | _ => none
  | _ => none

-- depth is how many brackets may still be opened inside one another.
def readValue (depth : Nat) (s : Text) : Option (Value × Text) :=
  match skip s with
  | '"' :: s => (readString s).map fun (value,s) => (.string value,s)
  | '[' :: s =>
    match depth with
    | 0 => none
    | depth+1 => (readSequence ']' (readValue depth) s).map fun (items,s) => (.array items,s)
  | '{' :: s =>
    match depth with
    | 0 => none
    | depth+1 => (readSequence '}' (readField (readValue depth)) s).map fun (fields,s) => (.object fields,s)
  | s => readAtom s
termination_by structural depth

-- The scanner gives a text up that nests deeper than this.
def maxNestingDepth : Nat := 10000

def parse (s : Text) : Option Value :=
  match readValue maxNestingDepth s with
  | some (value,rest) => if skip rest = [] then some value else none
  | none => none

-- Every string of the value, names included, is made of characters with p, its numbers are numbers, and it
-- nests no deeper than depth.
inductive Over (p : Char → Prop) : Nat → Value → Prop where
  | null : Over p depth .null
  | bool : Over p depth (.bool value)
  | number (numeric : isNumber literal = true) : Over p depth (.number literal)
  | string (chars : ∀ c ∈ value, p c) : Over p depth (.string value)
  | array (inside : ∀ item ∈ items, Over p depth item) : Over p (depth+1) (.array items)
  | object (names : ∀ field ∈ fields, ∀ c ∈ field.1, p c)
      (inside : ∀ field ∈ fields, Over p depth field.2) : Over p (depth+1) (.object fields)

-- The strings of a value, the names of its fields among them, put through f.
mutual
def restring (f : Text → Option Text) : Value → Option Value
  | .string value => (f value).map .string
  | .array items => (restringItems f items).map .array
  | .object fields => (restringFields f fields).map .object
  | v => some v

def restringItems (f : Text → Option Text) : List Value → Option (List Value)
  | [] => some []
  | item :: items => do
    let v ← restring f item
    let vs ← restringItems f items
    some (v :: vs)

def restringFields (f : Text → Option Text) : List (Text × Value) → Option (List (Text × Value))
  | [] => some []
  | (name,value) :: fields => do
    let name ← f name
    let v ← restring f value
    let vs ← restringFields f fields
    some ((name,v) :: vs)
end

theorem renderItems_map (items : List Value) : renderItems items = items.map render := by
  induction items with
  | nil => rfl
  | cons item items ih => simp [renderItems,ih]

def renderField (field : Text × Value) : Text := quote field.1 ++ ':' :: render field.2

theorem renderFields_map (fields : List (Text × Value)) : renderFields fields = fields.map renderField := by
  induction fields with
  | nil => rfl
  | cons field fields ih => simp [renderFields,renderField,ih]

theorem restringItems_map (f : Text → Option Text) (items : List Value) :
    restringItems f items = items.mapM (restring f) := by
  induction items with
  | nil => rfl
  | cons item items ih => simp [restringItems,ih]

def restringField (f : Text → Option Text) (field : Text × Value) : Option (Text × Value) := do
  let name ← f field.1
  let v ← restring f field.2
  some (name,v)

theorem restringFields_map (f : Text → Option Text) (fields : List (Text × Value)) :
    restringFields f fields = fields.mapM (restringField f) := by
  induction fields with
  | nil => rfl
  | cons field fields ih => simp [restringFields,restringField,ih,Option.bind_assoc]

theorem restring_some (made : Over p depth v) : restring some v = some v := by
  induction made with
  | array inside ih =>
    have same : ∀ items : List Value,(∀ item ∈ items,restring some item = some item) →
        items.mapM (restring some) = some items := by
      intro items
      induction items with
      | nil => exact fun _ => rfl
      | cons item items ih =>
        intro each
        obtain ⟨first,later⟩ := List.forall_mem_cons.mp each
        simp [first,ih later]
    rw [restring,restringItems_map,same _ ih]
    rfl
  | object names inside ih =>
    have same : ∀ fields : List (Text × Value),(∀ field ∈ fields,restring some field.2 = some field.2) →
        fields.mapM (restringField some) = some fields := by
      intro fields
      induction fields with
      | nil => exact fun _ => rfl
      | cons field fields ih =>
        intro each
        obtain ⟨first,later⟩ := List.forall_mem_cons.mp each
        simp [restringField,first,ih later]
    rw [restring,restringFields_map,same _ ih]
    rfl
  | _ => rfl

theorem hexValue_digitChar : ∀ d < 16, hexValue d.digitChar = some d := by decide

theorem hexUnit_hexDigits (small : n < 0x10000) :
    hexUnit (n/4096%16).digitChar (n/256%16).digitChar (n/16%16).digitChar (n%16).digitChar = some n := by
  have digit (m : Nat) : hexValue (m%16).digitChar = some (m%16) :=
    hexValue_digitChar _ (Nat.mod_lt _ (by decide))
  simp only [hexUnit,digit,Option.bind_eq_bind,Option.bind_some,Option.some.injEq]
  omega

theorem escaped_small (escaped : unescaped c = false) : c.toNat < 0x2030 := by
  simp only [unescaped,Bool.not_eq_false',Bool.or_eq_true,beq_iff_eq,decide_eq_true_eq] at escaped
  rcases escaped with ((((((rfl | rfl) | rfl) | rfl) | rfl) | low) | line) | paragraph
  iterate 5 decide
  all_goals omega

theorem readPieces_unit (small : n < 0x10000) (s : Text) : readPieces ('\\' :: 'u' :: (hexDigits n ++ s)) =
    (readPieces s).map fun r => (.unit n :: r.1,r.2) := by
  rw [readPieces.eq_def]
  simp [hexDigits,hexUnit_hexDigits small,Option.map_eq_bind]

theorem readPieces_short (other : e ≠ 'u') (short : shortEscape e = some c) (s : Text) :
    readPieces ('\\' :: e :: s) = (readPieces s).map fun r => (.char c :: r.1,r.2) := by
  rw [readPieces.eq_def]
  simp [other,short,Option.map_eq_bind]

-- What Marshal writes for a character is read as one piece, and that piece is the character again.
theorem readPieces_escape (c : Char) :
    ∃ piece,(∀ pieces,joinPieces (piece :: pieces) = c :: joinPieces pieces) ∧
    ∀ s,readPieces (escape c ++ s) = (readPieces s).map fun r => (piece :: r.1,r.2) := by
  unfold escape
  split
  · rename_i plain
    refine ⟨.char c,fun _ => rfl,fun s => ?_⟩
    simp only [unescaped,Bool.not_eq_true',Bool.or_eq_false_iff,beq_eq_false_iff_ne,
      decide_eq_false_iff_not] at plain
    rw [List.singleton_append,readPieces.eq_def]
    simp [plain,Option.map_eq_bind]
  · rename_i escaped
    split
    · rename_i own
      refine ⟨.char c,fun _ => rfl,readPieces_short ?_ ?_⟩
      · rintro rfl
        contradiction
      · simp_all [shortEscape]
    split
    · rename_i back
      cases eq_of_beq back
      exact ⟨.char (Char.ofNat 8),fun _ => rfl,readPieces_short (by decide) rfl⟩
    split
    · rename_i feed
      cases eq_of_beq feed
      exact ⟨.char (Char.ofNat 12),fun _ => rfl,readPieces_short (by decide) rfl⟩
    split
    · rename_i line
      cases eq_of_beq line
      exact ⟨.char '\n',fun _ => rfl,readPieces_short (by decide) rfl⟩
    split
    · rename_i line
      cases eq_of_beq line
      exact ⟨.char '\r',fun _ => rfl,readPieces_short (by decide) rfl⟩
    split
    · rename_i tab
      cases eq_of_beq tab
      exact ⟨.char '\t',fun _ => rfl,readPieces_short (by decide) rfl⟩
    · have small := escaped_small (Bool.eq_false_iff.mpr escaped)
      refine ⟨.unit c.toNat,fun pieces => ?_,readPieces_unit (by omega)⟩
      have single : surrogate c.toNat = false := by
        simp only [surrogate,Bool.and_eq_false_iff,decide_eq_false_iff_not]
        omega
      rw [joinPieces.eq_def]
      simp [single]

-- The texts that are read as one piece, which is the character c.
def Spelling (c : Char) (t : Text) : Prop :=
  ∃ piece,(∀ pieces,joinPieces (piece :: pieces) = c :: joinPieces pieces) ∧
    ∀ s,readPieces (t ++ s) = (readPieces s).map fun r => (piece :: r.1,r.2)

theorem readPieces_spelled {write : Char → Text} (spelling : ∀ c,Spelling c (write c)) (s : Text) :
    ∃ pieces,(∀ more,joinPieces (pieces ++ more) = s ++ joinPieces more) ∧
      ∀ rest,readPieces (s.flatMap write ++ rest) = (readPieces rest).map fun r => (pieces ++ r.1,r.2) := by
  induction s with
  | nil => exact ⟨[],fun _ => rfl,fun rest => by simp⟩
  | cons c s ih =>
    obtain ⟨later,join,read⟩ := ih
    obtain ⟨piece,single,reads⟩ := spelling c
    refine ⟨piece :: later,?_,?_⟩
    · intro more
      rw [List.cons_append,single,join,List.cons_append]
    · intro rest
      rw [List.flatMap_cons,List.append_assoc,reads,read,Option.map_map]
      rfl

theorem readString_spelled {write : Char → Text} (spelling : ∀ c,Spelling c (write c)) (s rest : Text) :
    readString (s.flatMap write ++ '"' :: rest) = some (s,rest) := by
  obtain ⟨pieces,join,read⟩ := readPieces_spelled spelling s
  have closed : readPieces ('"' :: rest) = some ([],rest) := by
    rw [readPieces.eq_def]
    rfl
  have whole := join []
  rw [List.append_nil,joinPieces,List.append_nil] at whole
  rw [readString,read,closed,Option.map_some,Option.map_some,List.append_nil]
  dsimp only
  rw [whole]

theorem readString_quote (s rest : Text) : readString (s.flatMap escape ++ '"' :: rest) = some (s,rest) :=
  readString_spelled readPieces_escape s rest

-- The characters a number is made of.
section Number
variable {p : Char → Bool} (digit : ∀ c,c.isDigit = true → p c = true)
  (signs : p '+' = true ∧ p '-' = true ∧ p '.' = true ∧ p 'e' = true ∧ p 'E' = true)
include digit

theorem digits_over {s : Text} (later : (s.dropWhile Char.isDigit).all p = true) : s.all p = true := by
  rw [← List.takeWhile_append_dropWhile (p := Char.isDigit) (l := s),List.all_append,later,Bool.and_true]
  refine List.all_eq_true.mpr fun c member => ?_
  exact digit c (List.all_eq_true.mp List.all_takeWhile c member)

include signs

theorem exponent_over (accepted : exponent s = true) : s.all p = true := by
  cases s with
  | nil => rfl
  | cons e s =>
    simp only [exponent,Bool.and_eq_true,Bool.or_eq_true,beq_iff_eq] at accepted
    obtain ⟨⟨letter,_⟩,digits⟩ := accepted
    have first : p e = true := by
      rcases letter with rfl | rfl
      · exact signs.2.2.2.1
      · exact signs.2.2.2.2
    have all {t : Text} (digits : t.all Char.isDigit = true) : t.all p = true :=
      List.all_eq_true.mpr fun c member => digit c (List.all_eq_true.mp digits c member)
    rw [List.all_cons,first,Bool.true_and]
    split at digits
    · rw [List.all_cons,all digits,signs.1,Bool.true_and]
    · rw [List.all_cons,all digits,signs.2.1,Bool.true_and]
    · exact all digits

theorem fraction_over (accepted : fraction s = true) : s.all p = true := by
  unfold fraction at accepted
  split at accepted
  · rename_i d s
    obtain ⟨own,later⟩ := Bool.and_eq_true_iff.mp accepted
    have rest := digits_over digit (exponent_over digit signs later)
    rw [List.all_cons,List.all_cons,signs.2.2.1,digit d own,rest]
    rfl
  · exact exponent_over digit signs accepted

theorem magnitude_over (accepted : magnitude s = true) : s ≠ [] ∧ s.all p = true := by
  cases s with
  | nil => cases accepted
  | cons d s =>
    refine ⟨List.cons_ne_nil _ _,?_⟩
    rw [magnitude] at accepted
    split at accepted
    · rename_i zero
      rw [List.all_cons,fraction_over digit signs accepted,zero,digit '0' rfl]
      rfl
    · obtain ⟨own,later⟩ := Bool.and_eq_true_iff.mp accepted
      rw [List.all_cons,digits_over digit (fraction_over digit signs later),digit d own]
      rfl

theorem number_over (numeric : isNumber s = true) : s ≠ [] ∧ s.all p = true := by
  unfold isNumber at numeric
  split at numeric
  · refine ⟨List.cons_ne_nil _ _,?_⟩
    rw [List.all_cons,(magnitude_over digit signs numeric).2,signs.2.1]
    rfl
  · exact magnitude_over digit signs numeric
end Number

theorem number_atom (numeric : isNumber s = true) : s ≠ [] ∧ s.all atomChar = true := by
  apply number_over _ ⟨rfl,rfl,rfl,rfl,rfl⟩ numeric
  intro c digit
  simp [atomChar,Char.isAlphanum,digit]

-- A text after a value: it does not go on with what could belong to a number or a word.
def Stops (rest : Text) : Prop := ∀ c ∈ rest.head?,atomChar c = false

theorem stops_cons (other : atomChar c = false) : Stops (c :: s) := by
  rintro d ⟨⟩
  exact other

theorem atomChar_space (own : atomChar c = true) : space c = false := by
  cases blank : space c with
  | false => rfl
  | true =>
    simp only [space,Bool.or_eq_true,beq_iff_eq] at blank
    rcases blank with ((rfl | rfl) | rfl) | rfl <;> cases own

theorem skip_cons (solid : space c = false) : skip (c :: s) = c :: s :=
  List.dropWhile_cons_of_neg (by simp [solid])

theorem readAtom_append (chars : literal.all atomChar = true) (known : atom literal = some value)
    (stops : Stops rest) : readAtom (literal ++ rest) = some (value,rest) := by
  have every := List.all_eq_true.mp chars
  have after : rest.takeWhile atomChar = [] ∧ rest.dropWhile atomChar = rest := by
    cases rest with
    | nil => exact ⟨rfl,rfl⟩
    | cons c s => simp [stops c rfl]
  unfold readAtom
  rw [List.takeWhile_append_of_pos every,List.dropWhile_append_of_pos every,after.1,after.2,
    List.append_nil,known]
  rfl

theorem readValue_atom (some_ : literal ≠ []) (chars : literal.all atomChar = true)
    (known : atom literal = some value)
    (stops : Stops rest) (depth : Nat) : readValue depth (literal ++ rest) = some (value,rest) := by
  have read := readAtom_append chars known stops
  cases literal with
  | nil => contradiction
  | cons c s =>
    have own : atomChar c = true := List.all_eq_true.mp chars c List.mem_cons_self
    rw [List.cons_append] at read
    rw [readValue.eq_def,List.cons_append,skip_cons (atomChar_space own)]
    split
    · rename_i same
      cases same
      cases own
    · rename_i same
      cases same
      cases own
    · rename_i same
      cases same
      cases own
    · exact read

theorem commas_length (ts : List Text) : ts.length ≤ (commas ts).length+1 := by
  induction ts using commas.induct with
  | case1 => simp
  | case2 => simp
  | case3 t ts rest ih =>
    rw [commas]
    · simp only [List.length_append,List.length_cons] at ih ⊢
      omega
    · exact rest

section Sequence
variable (close : Char) (item : Text → Option (β × Text)) (shown : α → Text)
  (value : α → Option β) {xs : List α}

-- The items are read one after the other, up to the first that is not.
theorem readMore_commas (each : ∀ x ∈ xs,∀ rest,Stops rest → item (shown x ++ rest) = (value x).map (·,rest))
    (some_ : xs ≠ []) (bound : xs.length ≤ n) (closes : atomChar close = false) (solid : space close = false)
    (other : close ≠ ',') (rest : Text) :
    readMore close item n (commas (xs.map shown) ++ close :: rest) = (xs.mapM value).map (·,rest) := by
  induction xs generalizing n with
  | nil => contradiction
  | cons x xs ih =>
    cases n with
    | zero => cases bound
    | succ n =>
      have first := each x List.mem_cons_self
      cases xs with
      | nil =>
        rw [List.map_singleton,commas,readMore,first _ (stops_cons closes)]
        cases head : value x with
        | none => simp [List.mapM_cons,head]
        | some v => simp [List.mapM_cons,head,skip_cons solid,other]
      | cons y ys =>
        have later := ih (fun z member => each z (List.mem_cons_of_mem _ member)) (List.cons_ne_nil _ _)
          (Nat.le_of_succ_le_succ bound)
        have comma : atomChar ',' = false := rfl
        rw [List.map_cons,commas,List.append_assoc,List.cons_append,readMore,first _ (stops_cons comma)]
        · cases head : value x with
          | none => simp [List.mapM_cons,head]
          | some v =>
            have goes := skip_cons (c := ',') (s := commas ((y :: ys).map shown) ++ close :: rest) rfl
            rw [List.mapM_cons,head]
            simp only [Option.map_some,Option.bind_eq_bind,Option.bind_some,goes,if_pos,later]
            cases (y :: ys).mapM value with
            | none => rfl
            | some vs => rfl
        · exact List.cons_ne_nil _ _

theorem readSequence_commas (each : ∀ x ∈ xs,∀ rest,Stops rest →
    item (shown x ++ rest) = (value x).map (·,rest))
    (starts : ∀ x ∈ xs,∃ c s,shown x = c :: s ∧ space c = false ∧ c ≠ close)
    (closes : atomChar close = false) (solid : space close = false) (other : close ≠ ',') (rest : Text) :
    readSequence close item (commas (xs.map shown) ++ close :: rest) = (xs.mapM value).map (·,rest) := by
  cases xs with
  | nil => simp [readSequence,commas,skip_cons solid]
  | cons x xs =>
    obtain ⟨c,s,start,open_,different⟩ := starts x List.mem_cons_self
    have bound := commas_length ((x :: xs).map shown)
    have more :=
      readMore_commas close item shown value
        (n := (commas ((x :: xs).map shown) ++ close :: rest).length) each
      (List.cons_ne_nil _ _) (by simp at bound ⊢; omega) closes solid other rest
    have head : ∃ t,commas ((x :: xs).map shown) ++ close :: rest = c :: t := by
      cases xs with
      | nil => exact ⟨_,by simp [commas,start]; rfl⟩
      | cons y ys => exact ⟨_,by simp [commas,start]; rfl⟩
    obtain ⟨t,same⟩ := head
    rw [same] at more ⊢
    rw [readSequence,skip_cons open_]
    simp only [if_neg different]
    exact more
end Sequence

-- The characters between the parts of a value.
def mark (c : Char) : Bool := c == '"' || c == '[' || c == ']' || c == '{' || c == '}' || c == ',' || c == ':'

-- A rewriting of texts that works between the marks, leaves words and numbers alone and makes of a string
-- what is read as `read` says.
structure Rewrites (rewrite : Text → Text) (read : Text → Option Text) : Prop where
  nil : rewrite [] = []
  splits : ∀ a c b,mark c = true → rewrite (a ++ c :: b) = rewrite a ++ c :: rewrite b
  atoms : ∀ literal value,atom literal = some value → rewrite literal = literal
  strings : ∀ s rest,readString (rewrite (s.flatMap escape) ++ '"' :: rest) = (read s).map (·,rest)

section Rewrites
variable {rewrite : Text → Text} {read : Text → Option Text} (rewrites : Rewrites rewrite read)
include rewrites

theorem rewrite_mark (own : mark c = true) (s : Text) : rewrite (c :: s) = c :: rewrite s := by
  have split := rewrites.splits [] c s own
  rwa [rewrites.nil] at split

theorem rewrite_quote (s : Text) : rewrite (quote s) = '"' :: (rewrite (s.flatMap escape) ++ ['"']) := by
  rw [quote,rewrite_mark rewrites rfl,rewrites.splits _ _ _ rfl,rewrites.nil]

theorem rewrite_commas (ts : List Text) : rewrite (commas ts) = commas (ts.map rewrite) := by
  induction ts using commas.induct with
  | case1 => exact rewrites.nil
  | case2 t => rfl
  | case3 t ts rest ih =>
    have more : ts.map rewrite ≠ [] := by simpa using rest
    rw [commas,rewrites.splits _ _ _ rfl,ih,List.map_cons,commas]
    · exact more
    · exact rest

theorem rewrite_bracket (opens : mark a = true) (closes : mark b = true) (ts : List Text) :
    rewrite (a :: (commas ts ++ [b])) = a :: (commas (ts.map rewrite) ++ [b]) := by
  rw [rewrite_mark rewrites opens,rewrites.splits _ _ _ closes,rewrites.nil,rewrite_commas rewrites]

theorem rewrite_field (field : Text × Value) :
    rewrite (renderField field) =
      '"' :: (rewrite (field.1.flatMap escape) ++ '"' :: ':' :: rewrite (render field.2)) := by
  rw [renderField,rewrites.splits _ _ _ rfl,rewrite_quote rewrites]
  simp

theorem rewrite_starts (made : Over p depth v) :
    ∃ c s,rewrite (render v) = c :: s ∧ (atomChar c = true ∨ c = '"' ∨ c = '[' ∨ c = '{') := by
  cases made with
  | null => exact ⟨_,_,rewrites.atoms _ .null rfl,Or.inl rfl⟩
  | @bool _ value =>
    cases value with
    | true => exact ⟨_,_,rewrites.atoms _ (.bool true) rfl,Or.inl rfl⟩
    | false => exact ⟨_,_,rewrites.atoms _ (.bool false) rfl,Or.inl rfl⟩
  | @number literal _ numeric =>
    obtain ⟨some_,chars⟩ := number_atom numeric
    have kept := rewrites.atoms literal (.number literal) (by simp [atom,numeric])
    cases literal with
    | nil => contradiction
    | cons c s => exact ⟨c,s,kept,Or.inl (List.all_eq_true.mp chars c List.mem_cons_self)⟩
  | string => exact ⟨_,_,rewrite_quote rewrites _,Or.inr (Or.inl rfl)⟩
  | array => exact ⟨_,_,rewrite_bracket rewrites rfl rfl _,Or.inr (Or.inr (Or.inl rfl))⟩
  | object => exact ⟨_,_,rewrite_bracket rewrites rfl rfl _,Or.inr (Or.inr (Or.inr rfl))⟩

theorem readField_rewritten {value : Text → Option (Value × Text)}
    (reads : ∀ rest,Stops rest →
    value (rewrite (render field.2) ++ rest) = (restring read field.2).map (·,rest))
    (stops : Stops rest) :
    readField value (rewrite (renderField field) ++ rest) = (restringField read field).map (·,rest) := by
  have quoted := rewrites.strings field.1 (':' :: (rewrite (render field.2) ++ rest))
  rw [rewrite_field rewrites,List.cons_append,readField,skip_cons rfl]
  simp only [List.append_assoc,List.cons_append,quoted,restringField]
  cases read field.1 with
  | none => rfl
  | some name =>
    simp only [Option.map_some,Option.bind_eq_bind,Option.bind_some,
      skip_cons (show space ':' = false from rfl),reads rest stops]
    cases restring read field.2 with
    | none => rfl
    | some v => rfl

theorem readValue_rewritten (made : Over p depth v) (stops : Stops rest) :
    readValue depth (rewrite (render v) ++ rest) = (restring read v).map (·,rest) := by
  induction made generalizing rest with
  | null =>
    rw [render,rewrites.atoms _ .null rfl]
    exact readValue_atom (by decide) rfl rfl stops _
  | @bool _ value =>
    cases value with
    | true =>
      rw [render,rewrites.atoms _ (.bool true) rfl]
      exact readValue_atom (by decide) rfl rfl stops _
    | false =>
      rw [render,rewrites.atoms _ (.bool false) rfl]
      exact readValue_atom (by decide) rfl rfl stops _
  | @number literal _ numeric =>
    obtain ⟨some_,chars⟩ := number_atom numeric
    have known : atom literal = some (.number literal) := by simp [atom,numeric]
    rw [render,rewrites.atoms _ _ known]
    exact readValue_atom some_ chars known stops _
  | @string value =>
    rw [render,rewrite_quote rewrites,List.cons_append,List.append_assoc,List.singleton_append,
      readValue.eq_def,skip_cons rfl]
    simp only [rewrites.strings,restring,Option.map_map]
    rfl
  | @array items _ inside ih =>
    have shape : rewrite (render (.array items)) =
        '[' :: (commas (items.map fun item => rewrite (render item)) ++ [']']) := by
      rw [render,renderItems_map,rewrite_bracket rewrites rfl rfl,List.map_map]
      rfl
    rw [shape]
    have sequence := readSequence_commas ']' (readValue _) (fun item => rewrite (render item)) (restring read)
      (fun item member rest stops => ih item member stops)
      (fun item member => by
        obtain ⟨c,s,start,opens⟩ := rewrite_starts rewrites (inside item member)
        refine ⟨c,s,start,?_⟩
        rcases opens with own | rfl | rfl | rfl
        · exact ⟨atomChar_space own,fun same => by cases same; cases own⟩
        iterate 3 decide)
      rfl rfl (by decide) rest
    rw [List.cons_append,List.append_assoc,List.singleton_append,readValue.eq_def,skip_cons rfl]
    simp only [sequence,restring,restringItems_map,Option.map_map]
    rfl
  | @object fields _ names inside ih =>
    have shape : rewrite (render (.object fields)) =
        '{' :: (commas (fields.map fun field => rewrite (renderField field)) ++ ['}']) := by
      rw [render,renderFields_map,rewrite_bracket rewrites rfl rfl,List.map_map]
      rfl
    rw [shape]
    have sequence :=
      readSequence_commas '}' (readField (readValue _)) (fun field => rewrite (renderField field))
      (restringField read)
      (fun field member rest stops => readField_rewritten rewrites
        (fun rest stops => ih field member stops) stops)
      (fun field member => ⟨'"',_,rewrite_field rewrites field,rfl,by decide⟩)
      rfl rfl (by decide) rest
    rw [List.cons_append,List.append_assoc,List.singleton_append,readValue.eq_def,skip_cons rfl]
    simp only [sequence,restring,restringFields_map,Option.map_map]
    rfl

theorem parse_rewritten (made : Over p maxNestingDepth v) : parse (rewrite (render v)) = restring read v := by
  have whole : readValue maxNestingDepth (rewrite (render v) ++ []) = (restring read v).map (·,[]) :=
    readValue_rewritten rewrites made (by simp [Stops])
  rw [List.append_nil] at whole
  rw [parse,whole]
  cases restring read v with
  | none => rfl
  | some w => rfl
end Rewrites

theorem parse_render (made : Over p maxNestingDepth v) : parse (render v) = some v := by
  have same : Rewrites id some := ⟨rfl,fun _ _ _ _ => rfl,fun _ _ _ => rfl,readString_quote⟩
  exact (parse_rewritten same made).trans (restring_some made)

end SqlReview.Json
