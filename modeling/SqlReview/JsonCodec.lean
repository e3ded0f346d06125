import SqlReview.JsonLiteral

-- Marshal and Unmarshal of encoding/json for Go's strings, integers, slices and structs.
namespace SqlReview.Json
open GoText

inductive Failure where
  | malformed
  | mismatch
  deriving DecidableEq

def Spells (p : Char → Prop) (texts : List Text) : Prop := ∀ t ∈ texts,∀ c ∈ t,p c

def nameChar (c : Char) : Bool := c.isLower || c == '_'

-- The strings of a value are made of characters with p, however deep it nests.
def Spelled (p : Char → Prop) (v : Value) : Prop := ∃ depth,Over p depth v

-- A slice is a list here, and nil says which of the empty slices of a value are nil, by their paths
-- in it. decode says what a variable holds after values were stored in it one after the other, as
-- Unmarshal stores them when a name comes again; what does not fit is reported and leaves the
-- variable as it was.
structure Codec (α : Type) where
  nesting : Nat
  encode : (List Nat → Bool) → α → Value
  decode : List Value → α
  fits : Value → Bool
  texts : α → List Text
  exact : ∀ nil x,decode [encode nil x] = x
  fitting : ∀ nil x,fits (encode nil x) = true
  encodes : ∀ {p : Char → Prop},(∀ c,nameChar c = true → p c) →
    ∀ {depth},nesting ≤ depth → ∀ nil x,Spells p (texts x) → Over p depth (encode nil x)
  decodes : ∀ {p : Char → Prop} values,(∀ v ∈ values,Spelled p v) → Spells p (texts (decode values))

def marshal (codec : Codec α) (nil : List Nat → Bool) (x : α) : Text := render (codec.encode nil x)

def unmarshal (codec : Codec α) (s : Text) : α × Option Failure :=
  match parse s with
  | none => (codec.decode [],some .malformed)
  | some v => (codec.decode [v],if codec.fits v then none else some .mismatch)

theorem Codec.made (codec : Codec α) (enough : codec.nesting ≤ depth) (nil : List Nat → Bool) (x : α) :
    Over (fun _ => True) depth (codec.encode nil x) :=
  codec.encodes (fun _ _ => trivial) enough nil x (fun _ _ _ _ => trivial)

theorem unmarshal_marshal (codec : Codec α) (shallow : codec.nesting ≤ maxNestingDepth)
    (nil : List Nat → Bool) (x : α) :
    unmarshal codec (marshal codec nil x) = (x,none) := by
  rw [unmarshal,marshal,parse_render (codec.made shallow nil x)]
  simp [codec.exact,codec.fitting]

theorem unmarshal_literal (codec : Codec α) {p : Char → Prop} (literal : Literal p s)
    (read : unmarshal codec s = (x,none)) : Spells p (codec.texts x) := by
  unfold unmarshal at read
  split at read
  · cases read
  · rename_i v parsed
    have stored := codec.decodes [v] (List.forall_mem_singleton.mpr ⟨_,parse_literal literal parsed⟩)
    cases congrArg Prod.fst read
    exact stored

-- The last of the values that can be read, or what the variable held before.
def latest (read : Value → Option α) (old : α) (values : List Value) : α :=
  values.foldl (fun old v => (read v).getD old) old

theorem latest_read (read : Value → Option α) (old : α) (values : List Value) :
    latest read old values = old ∨ ∃ v ∈ values,read v = some (latest read old values) := by
  induction values generalizing old with
  | nil => exact Or.inl rfl
  | cons v values ih =>
    rcases ih ((read v).getD old) with kept | ⟨w,among,found⟩
    · change latest read old (v :: values) = _ at kept
      cases own : read v with
      | none => exact Or.inl (kept.trans (by rw [own,Option.getD_none]))
      | some x => exact Or.inr ⟨v,List.mem_cons_self,by rw [kept,own,Option.getD_some]⟩
    · exact Or.inr ⟨w,List.mem_cons_of_mem _ among,found⟩

def Value.isNull : Value → Bool
  | .null => true
  | _ => false

def Value.string? : Value → Option Text
  | .string s => some s
  | _ => none

def Codec.text : Codec Text where
  nesting := 0
  encode _ s := .string s
  decode := latest Value.string? []
  fits v := v.isNull || v.string?.isSome
  texts s := [s]
  exact _ _ := rfl
  fitting _ _ := rfl
  encodes _ _ _ _ s spells := .string (spells s (List.mem_singleton_self _))
  decodes values made := by
    intro t member c inside
    cases List.mem_singleton.mp member
    rcases latest_read Value.string? [] values with none_ | ⟨v,among,found⟩
    · rw [none_] at inside
      cases inside
    · obtain ⟨depth,shape⟩ := made v among
      cases shape with
      | string chars =>
        cases found
        exact chars c inside
      | _ => cases found

def natural (s : Text) : Option Nat :=
  if s ≠ [] ∧ s.all Char.isDigit then some (Nat.ofDigitChars 10 s 0) else none

def integer : Text → Option Int
  | '-' :: s => (natural s).map fun n : Nat => -(n : Int)
  | s => (natural s).map Int.ofNat

def decimal (i : Int) : Text :=
  if i < 0 then '-' :: Nat.toDigits 10 i.natAbs else Nat.toDigits 10 i.natAbs

theorem toDigits_digits (n : Nat) : (Nat.toDigits 10 n).all Char.isDigit = true :=
  List.all_eq_true.mpr fun _ member => Nat.isDigit_of_mem_toDigits (by decide) (by decide) member

theorem natural_toDigits (n : Nat) : natural (Nat.toDigits 10 n) = some n := by
  rw [natural,if_pos ⟨Nat.toDigits_ne_nil,toDigits_digits n⟩,Nat.ofDigitChars_toDigits (by decide)
    (by decide)]

theorem toDigits_head (positive : 0 < n) : ∃ d s,Nat.toDigits 10 n = d :: s ∧ d ≠ '0' := by
  induction n using Nat.strongRecOn with
  | ind n ih =>
    by_cases small : n < 10
    · refine ⟨n.digitChar,[],Nat.toDigits_of_lt_base small,?_⟩
      have nonzero : ∀ m < 10,0 < m → m.digitChar ≠ '0' := by decide
      exact nonzero n small positive
    · obtain ⟨d,s,start,other⟩ := ih (n/10) (by omega) (by omega)
      refine ⟨d,s ++ [(n%10).digitChar],?_,other⟩
      rw [Nat.toDigits_of_base_le (by decide) (by omega),start,List.cons_append]

theorem magnitude_toDigits (n : Nat) : magnitude (Nat.toDigits 10 n) = true := by
  by_cases zero : n = 0
  · subst zero
    rfl
  · obtain ⟨d,s,start,other⟩ := toDigits_head (Nat.pos_of_ne_zero zero)
    have digits := toDigits_digits n
    rw [start,List.all_cons,Bool.and_eq_true] at digits
    have none_ : s.dropWhile Char.isDigit = [] :=
      List.dropWhile_eq_nil_iff.mpr (List.all_eq_true.mp digits.2)
    rw [start,magnitude,if_neg other,digits.1,none_]
    rfl

theorem isNumber_toDigits (n : Nat) : isNumber (Nat.toDigits 10 n) = true := by
  have accepted := magnitude_toDigits n
  unfold isNumber
  split
  · rename_i s start
    have digits := toDigits_digits n
    rw [start] at digits
    cases digits
  · exact accepted

theorem isNumber_decimal (i : Int) : isNumber (decimal i) = true := by
  unfold decimal
  split
  · exact magnitude_toDigits _
  · exact isNumber_toDigits _

theorem integer_decimal (i : Int) : integer (decimal i) = some i := by
  unfold decimal
  split
  · rw [integer,natural_toDigits]
    simp only [Option.map_some,Option.some.injEq]
    omega
  · unfold integer
    split
    · rename_i s start
      have digits := toDigits_digits i.natAbs
      rw [start] at digits
      cases digits
    · rw [natural_toDigits]
      simp only [Option.map_some,Option.some.injEq,Int.ofNat_eq_natCast]
      omega

def Value.number? (read : Text → Option α) : Value → Option α
  | .number literal => read literal
  | _ => none

-- The integer types differ in how a value is written and in which literals are read back.
def Codec.number (zero : α) (write : α → Text) (read : Text → Option α)
    (numeric : ∀ x,isNumber (write x) = true) (back : ∀ x,read (write x) = some x) : Codec α where
  nesting := 0
  encode _ x := .number (write x)
  decode := latest (Value.number? read) zero
  fits v := v.isNull || (v.number? read).isSome
  texts _ := []
  exact _ x := by simp [latest,Value.number?,back]
  fitting _ x := by simp [Value.number?,back]
  encodes _ _ _ _ x _ := .number (numeric x)
  decodes _ _ := by simp [Spells]

def readInt64 (literal : Text) : Option Int64 :=
  (integer literal).bind fun i => if -2^63 ≤ i ∧ i < 2^63 then some (Int64.ofInt i) else none

def readUInt64 (literal : Text) : Option UInt64 :=
  (natural literal).bind fun n => if n < 2^64 then some (UInt64.ofNat n) else none

def Codec.int64 : Codec Int64 :=
  .number 0 (fun x => decimal x.toInt) readInt64 (fun _ => isNumber_decimal _) (fun x => by
    have low := x.le_toInt
    have high := x.toInt_lt
    simp only [readInt64,integer_decimal,Option.bind_some,if_pos (And.intro low high),Int64.ofInt_toInt])

def Codec.uint64 : Codec UInt64 :=
  .number 0 (fun x => Nat.toDigits 10 x.toNat) readUInt64 (fun _ => isNumber_toDigits _) (fun x => by
    have high := x.toNat_lt
    simp only [readUInt64,natural_toDigits,Option.bind_some,if_pos high,UInt64.ofNat_toNat])

@[simp] theorem spells_nil : Spells p [] := by simp [Spells]

@[simp] theorem spells_cons : Spells p (t :: ts) ↔ (∀ c ∈ t,p c) ∧ Spells p ts := List.forall_mem_cons

@[simp] theorem spells_append : Spells p (ts ++ us) ↔ Spells p ts ∧ Spells p us := List.forall_mem_append

@[simp] theorem spells_flatMap {p : Char → Prop} {texts : α → List Text} {xs : List α} :
    Spells p (xs.flatMap texts) ↔ ∀ x ∈ xs,Spells p (texts x) := by
  constructor
  · intro spells x member t own
    exact spells t (List.mem_flatMap.mpr ⟨x,member,own⟩)
  · intro spells t inside
    obtain ⟨x,member,own⟩ := List.mem_flatMap.mp inside
    exact spells x member t own

-- The array behind a slice: the values stored so far in each of its elements, and how many of them the slice
-- shows. The elements behind keep what they hold until an array that is as long comes again.
structure Backing where
  slots : List (List Value)
  length : Nat

def stack : List Value → List (List Value) → List (List Value)
  | [],slots => slots
  | v :: vs,slots => (slots.headD [] ++ [v]) :: stack vs slots.tail

def Backing.store (old : Backing) : Value → Backing
  | .array [] => ⟨[],0⟩
  | .array items => ⟨stack items old.slots,items.length⟩
  | .null => ⟨[],0⟩
  | _ => old

def backing (values : List Value) : Backing := values.foldl Backing.store ⟨[],0⟩

def Backing.shown (b : Backing) : List (List Value) := b.slots.take b.length

theorem stack_nil (items : List Value) : stack items [] = items.map fun v => [v] := by
  induction items with
  | nil => rfl
  | cons v items ih => simp [stack,ih]

theorem stack_length (items : List Value) (slots : List (List Value)) :
    items.length ≤ (stack items slots).length := by
  induction items generalizing slots with
  | nil => exact Nat.zero_le _
  | cons v items ih => exact Nat.succ_le_succ (ih slots.tail)

-- The slice shows no more elements than there are.
theorem store_held {b : Backing} (held : b.length ≤ b.slots.length) (v : Value) :
    (b.store v).length ≤ (b.store v).slots.length := by
  cases v with
  | array items =>
    cases items with
    | nil => exact Nat.le_refl _
    | cons item items => exact stack_length _ _
  | null => exact Nat.le_refl _
  | _ => exact held

theorem stack_spelled {p : Char → Prop} {items : List Value} (made : ∀ v ∈ items,Spelled p v)
    {slots : List (List Value)} (old : ∀ slot ∈ slots,∀ v ∈ slot,Spelled p v) :
    ∀ slot ∈ stack items slots,∀ v ∈ slot,Spelled p v := by
  induction items generalizing slots with
  | nil => exact old
  | cons v items ih =>
    obtain ⟨first,later⟩ := List.forall_mem_cons.mp made
    have rest := ih later fun slot member => old slot (List.mem_of_mem_tail member)
    refine List.forall_mem_cons.mpr ⟨?_,rest⟩
    intro w member
    rcases List.mem_append.mp member with before | last
    · cases slots with
      | nil => cases before
      | cons slot slots => exact old slot List.mem_cons_self w before
    · cases List.mem_singleton.mp last
      exact first

theorem store_spelled {p : Char → Prop} {b : Backing} (old : ∀ slot ∈ b.slots,∀ v ∈ slot,Spelled p v)
    (made : Spelled p v) : ∀ slot ∈ (b.store v).slots,∀ v ∈ slot,Spelled p v := by
  obtain ⟨depth,shape⟩ := made
  cases shape with
  | @array items _ inside =>
    cases items with
    | nil => simp [Backing.store]
    | cons item items => exact stack_spelled (fun w member => ⟨_,inside w member⟩) old
  | null => simp [Backing.store]
  | _ => exact old

theorem backing_spelled {p : Char → Prop} {values : List Value} (made : ∀ v ∈ values,Spelled p v) :
    ∀ slot ∈ (backing values).slots,∀ v ∈ slot,Spelled p v := by
  have from_ : ∀ b : Backing,(∀ slot ∈ b.slots,∀ v ∈ slot,Spelled p v) →
      ∀ slot ∈ (values.foldl Backing.store b).slots,∀ v ∈ slot,Spelled p v := by
    induction values with
    | nil => exact fun _ old => old
    | cons v values ih =>
      obtain ⟨first,later⟩ := List.forall_mem_cons.mp made
      exact fun b old => ih later _ (store_spelled old first)
  exact from_ ⟨[],0⟩ (by simp)

def Codec.fitsItems (codec : Codec α) : Value → Bool
  | .array items => items.all codec.fits
  | v => v.isNull

theorem Codec.decode_singles (codec : Codec α) (nil : Nat → List Nat → Bool) (xs : List α) :
    ((xs.mapIdx fun i x => codec.encode (nil i) x).map fun v => [v]).map codec.decode = xs := by
  induction xs generalizing nil with
  | nil => rfl
  | cons x xs ih =>
    rw [List.mapIdx_cons,List.map_cons,List.map_cons,codec.exact,ih fun i => nil (i+1)]

def Codec.slice (codec : Codec α) : Codec (List α) where
  nesting := codec.nesting+1
  encode nil xs :=
    if xs.isEmpty && nil [] then .null
    else .array (xs.mapIdx fun i x => codec.encode (fun path => nil (i :: path)) x)
  decode values := (backing values).shown.map codec.decode
  fits := codec.fitsItems
  texts xs := xs.flatMap codec.texts
  exact nil xs := by
    cases xs with
    | nil => cases nil [] <;> rfl
    | cons x xs =>
      have items := codec.decode_singles (fun i path => nil (i :: path)) (x :: xs)
      rw [List.isEmpty_cons,Bool.false_and,if_neg Bool.false_ne_true]
      rw [List.mapIdx_cons] at items ⊢
      simp only [backing,List.foldl_cons,List.foldl_nil,Backing.store,Backing.shown,stack_nil]
      rw [← List.length_map (fun v => [v]),List.take_length]
      exact items
  fitting nil xs := by
    split
    · rfl
    · refine List.all_eq_true.mpr fun v member => ?_
      obtain ⟨i,inside,rfl⟩ := List.mem_mapIdx.mp member
      exact codec.fitting _ _
  encodes names depth enough nil xs spells := by
    split
    · exact .null
    · obtain ⟨depth,rfl⟩ := Nat.exists_eq_add_one_of_ne_zero (Nat.ne_zero_of_lt enough)
      refine .array fun v member => ?_
      obtain ⟨i,inside,rfl⟩ := List.mem_mapIdx.mp member
      exact codec.encodes names (Nat.le_of_succ_le_succ enough) _ _
        (spells_flatMap.mp spells _ (List.getElem_mem inside))
  decodes values made := by
    refine spells_flatMap.mpr fun x member => ?_
    obtain ⟨slot,among,rfl⟩ := List.mem_map.mp member
    exact codec.decodes slot (backing_spelled made slot (List.mem_of_mem_take among))

structure FieldCodec (α : Type) where
  name : Text
  nesting : Nat
  encode : (List Nat → Bool) → α → Value
  store : List Value → α → α
  copy : α → α → α
  fits : Value → Bool
  texts : α → List Text
  lower : name.all nameChar = true
  exact : ∀ nil x y,store [encode nil x] y = copy x y
  fitting : ∀ nil x,fits (encode nil x) = true
  encodes : ∀ {p : Char → Prop},(∀ c,nameChar c = true → p c) →
    ∀ {depth},nesting ≤ depth → ∀ nil x,Spells p (texts x) → Over p depth (encode nil x)
  decodes : ∀ {p : Char → Prop} values x,(∀ v ∈ values,Spelled p v) → Spells p (texts (store values x))

def Codec.field (codec : Codec β) (name : Text) (get : α → β) (set : α → β → α)
    (lower : name.all nameChar = true := by exact Eq.refl true)
    (put : ∀ x v,get (set x v) = v := by intros; rfl) :
    FieldCodec α where
  name := name
  nesting := codec.nesting
  encode nil x := codec.encode nil (get x)
  store values x := set x (codec.decode values)
  copy x y := set y (get x)
  fits := codec.fits
  texts x := codec.texts (get x)
  lower := lower
  exact nil x y := by rw [codec.exact]
  fitting nil x := codec.fitting nil (get x)
  encodes names _ enough nil x spells := codec.encodes names enough nil (get x) spells
  decodes values x made := by
    rw [put]
    exact codec.decodes values made

-- Names are compared without case when no field has exactly the name; ſ and the Kelvin sign fold to s and k.
def foldName (name : Text) : Text :=
  name.map fun c => if c.toNat = 0x17F then 's' else if c.toNat = 0x212A then 'k' else c.toLower

def find (fields : List (FieldCodec α)) (name : Text) : Option (FieldCodec α) :=
  (fields.find? fun f => f.name == name).or (fields.find? fun f => foldName f.name == foldName name)

-- The values of an object, or of any other value, that are stored in the field.
def valuesOf (fields : List (FieldCodec α)) (f : FieldCodec α) : Value → List Value
  | .object pairs =>
    (pairs.filter fun pair => (find fields pair.1).any fun g => g.name == f.name).map Prod.snd
  | _ => []

def fitsFields (fields : List (FieldCodec α)) : Value → Bool
  | .object pairs => pairs.all fun pair => (find fields pair.1).all fun f => f.fits pair.2
  | v => v.isNull

-- Storing in the later field leaves the texts of the earlier.
def FieldCodec.Apart (f g : FieldCodec α) : Prop := ∀ values x,f.texts (g.store values x) = f.texts x

theorem find_name {fields : List (FieldCodec α)} (distinct : (fields.map FieldCodec.name).Nodup)
    (member : f ∈ fields) :
    find fields f.name = some f := by
  have exactly : fields.find? (fun g => g.name == f.name) = some f := by
    induction fields with
    | nil => cases member
    | cons g fields ih =>
      obtain ⟨fresh,later⟩ := List.nodup_cons.mp distinct
      rcases List.mem_cons.mp member with rfl | inside
      · exact List.find?_cons_of_pos (by simp)
      · rw [List.find?_cons_of_neg]
        · exact ih later inside
        · intro same
          exact fresh (List.mem_map.mpr ⟨f,inside,(eq_of_beq same).symm⟩)
  rw [find,exactly]
  rfl

theorem find_mem {fields : List (FieldCodec α)} (found : find fields name = some f) : f ∈ fields := by
  rcases Option.or_eq_some_iff.mp found with exactly | ⟨_,folded⟩
  · exact List.mem_of_find?_eq_some exactly
  · exact List.mem_of_find?_eq_some folded

theorem find_folded {fields : List (FieldCodec α)} (found : find fields name = some f) :
    foldName f.name = foldName name := by
  rcases Option.or_eq_some_iff.mp found with exactly | ⟨_,folded⟩
  · have same : f.name = name := by simpa using List.find?_some exactly
    rw [same]
  · simpa using List.find?_some folded

-- A field is found under every spelling of its name.
theorem find_spelling {fields : List (FieldCodec α)} (distinct : (fields.map fun f => foldName f.name).Nodup)
    (member : f ∈ fields) (spelled : foldName f.name = foldName name) : find fields name = some f := by
  cases found : find fields name with
  | some g =>
    have same :=
      List.inj_on_of_nodup_map distinct (find_mem found) member ((find_folded found).trans spelled.symm)
    rw [same]
  | none =>
    have missing := List.find?_eq_none.mp (Option.or_eq_none_iff.mp found).2 f member
    exact absurd (beq_iff_eq.mpr spelled) missing

def encodeFields (nil : Nat → List Nat → Bool) (x : α) (fields : List (FieldCodec α)) : List (Text × Value) :=
  fields.mapIdx fun i f => (f.name,f.encode (nil i) x)

-- Each field finds in an encoded object the one value written for it.
theorem encoded_value {all fields : List (FieldCodec α)} (distinct : (all.map FieldCodec.name).Nodup)
    (inside : ∀ g ∈ fields,g ∈ all) (own : (fields.map FieldCodec.name).Nodup)
    (nil : Nat → List Nat → Bool) (x : α)
    (f : FieldCodec α) :
    (f.name ∉ fields.map FieldCodec.name → valuesOf all f (.object (encodeFields nil x fields)) = []) ∧
    (f ∈ fields → ∃ empty,valuesOf all f (.object (encodeFields nil x fields)) = [f.encode empty x]) := by
  induction fields generalizing nil with
  | nil => exact ⟨fun _ => rfl,by simp⟩
  | cons g fields ih =>
    obtain ⟨first,later⟩ := List.forall_mem_cons.mp inside
    obtain ⟨fresh,others⟩ := List.nodup_cons.mp own
    obtain ⟨without,with_⟩ := ih later others fun i => nil (i+1)
    have step : valuesOf all f (.object (encodeFields nil x (g :: fields))) =
        (if g.name = f.name then [g.encode (nil 0) x] else []) ++
          valuesOf all f (.object (encodeFields (fun i => nil (i+1)) x fields)) := by
      simp only [valuesOf,encodeFields,List.mapIdx_cons,List.filter_cons,find_name distinct first,
        Option.any_some,beq_iff_eq]
      split <;> rfl
    rw [step]
    constructor
    · intro missing
      obtain ⟨other,rest⟩ := not_or.mp fun either => missing (List.mem_cons.mpr either)
      rw [if_neg (Ne.symm other),without rest]
      rfl
    · intro member
      rcases List.mem_cons.mp member with rfl | among
      · exact ⟨nil 0,by rw [if_pos rfl,without fresh]; rfl⟩
      · have other : g.name ≠ f.name := fun same => fresh (same ▸ List.mem_map_of_mem among)
        rw [if_neg other]
        exact with_ among

theorem apart_kept {fields : List (FieldCodec α)} (apart : ∀ g ∈ fields,FieldCodec.Apart f g)
    (values : FieldCodec α → List Value) (x : α) :
    f.texts (fields.foldl (fun x g => g.store (values g) x) x) = f.texts x := by
  induction fields generalizing x with
  | nil => rfl
  | cons g fields ih =>
    obtain ⟨first,later⟩ := List.forall_mem_cons.mp apart
    rw [List.foldl_cons,ih later,first]

theorem stored_spells {fields : List (FieldCodec α)} {p : Char → Prop}
    (apart : fields.Pairwise FieldCodec.Apart)
    {values : FieldCodec α → List Value} (made : ∀ f,∀ v ∈ values f,Spelled p v) (x : α) :
    ∀ f ∈ fields,Spells p (f.texts (fields.foldl (fun x g => g.store (values g) x) x)) := by
  induction fields generalizing x with
  | nil => simp
  | cons g fields ih =>
    obtain ⟨first,later⟩ := List.pairwise_cons.mp apart
    refine List.forall_mem_cons.mpr ⟨?_,ih later _⟩
    rw [List.foldl_cons,apart_kept first]
    exact g.decodes _ x (made g)

theorem valuesOf_spelled {fields : List (FieldCodec α)} {p : Char → Prop} (made : Spelled p v)
    (f : FieldCodec α) :
    ∀ w ∈ valuesOf fields f v,Spelled p w := by
  obtain ⟨depth,shape⟩ := made
  cases shape with
  | object names inside =>
    intro w member
    obtain ⟨pair,among,rfl⟩ := List.mem_map.mp member
    exact ⟨_,inside pair (List.mem_of_mem_filter among)⟩
  | _ => simp [valuesOf]

def deepest (fields : List (FieldCodec α)) : Nat := (fields.map FieldCodec.nesting).foldr max 0

theorem nesting_deepest {fields : List (FieldCodec α)} (member : f ∈ fields) :
    f.nesting ≤ deepest fields := by
  induction fields with
  | nil => cases member
  | cons g fields ih =>
    rcases List.mem_cons.mp member with rfl | among
    · exact Nat.le_max_left _ _
    · exact Nat.le_trans (ih among) (Nat.le_max_right _ _)

def Codec.record (fields : List (FieldCodec α)) (zero : α) (distinct : (fields.map FieldCodec.name).Nodup)
    (apart : fields.Pairwise FieldCodec.Apart)
    (exactly : ∀ x,fields.foldl (fun y f => f.copy x y) zero = x) : Codec α where
  nesting := deepest fields+1
  encode nil x := .object (encodeFields (fun i path => nil (i :: path)) x fields)
  decode values := fields.foldl (fun x f => f.store (values.flatMap (valuesOf fields f)) x) zero
  fits := fitsFields fields
  texts x := fields.flatMap fun f => f.texts x
  exact nil x := by
    refine (List.foldl_ext _ _ zero fun y f member => ?_).trans (exactly x)
    obtain ⟨empty,single⟩ :=
      (encoded_value distinct (fun _ => id) distinct (fun i path => nil (i :: path)) x f).2 member
    rw [List.flatMap_singleton,single,f.exact]
  fitting nil x := by
    refine List.all_eq_true.mpr fun pair member => ?_
    obtain ⟨i,inside,rfl⟩ := List.mem_mapIdx.mp member
    rw [find_name distinct (List.getElem_mem inside)]
    exact FieldCodec.fitting _ _ _
  encodes names depth enough nil x spells := by
    have each := spells_flatMap.mp spells
    obtain ⟨depth,rfl⟩ := Nat.exists_eq_add_one_of_ne_zero (Nat.ne_zero_of_lt enough)
    refine .object ?_ ?_
    · intro pair member
      obtain ⟨i,inside,rfl⟩ := List.mem_mapIdx.mp member
      exact fun c own => names c (List.all_eq_true.mp (FieldCodec.lower _) c own)
    · intro pair member
      obtain ⟨i,inside,rfl⟩ := List.mem_mapIdx.mp member
      have small := Nat.le_trans (nesting_deepest (List.getElem_mem inside)) (Nat.le_of_succ_le_succ enough)
      exact FieldCodec.encodes _ names small _ x (each _ (List.getElem_mem inside))
  decodes values made := by
    refine spells_flatMap.mpr (stored_spells apart (fun f w member => ?_) zero)
    obtain ⟨v,among,own⟩ := List.mem_flatMap.mp member
    exact valuesOf_spelled (made v among) f w own

end SqlReview.Json
