import SqlReview.JsonCodec

-- What is read back from a text of Marshal after it has been rewritten.
namespace SqlReview.Json
open GoText

-- A string made of characters with p is read as g says, any other is not read at all.
def guarded (p : Char → Bool) (g : Text → Text) (s : Text) : Option Text :=
  if s.all p then some (g s) else none

theorem guarded_some (own : s.all p = true) : guarded p g s = some (g s) := if_pos own

theorem guarded_all (read : guarded p g s = some t) : ∀ c ∈ s,p c = true := by
  unfold guarded at read
  split at read
  · rename_i all
    exact List.all_eq_true.mp all
  · cases read

section
variable {p : Char → Bool} {g : Text → Text}

-- The values whose strings are put through g become the values of `change`.
def Codec.Restrings (codec : Codec α) (p : Char → Bool) (g : Text → Text) (change : α → α) : Prop :=
  ∀ nil x,Spells (p · = true) (codec.texts x) →
    restring (guarded p g) (codec.encode nil x) = some (codec.encode nil (change x))

def FieldCodec.Restrings (f : FieldCodec α) (p : Char → Bool) (g : Text → Text) (change : α → α) : Prop :=
  ∀ nil x,Spells (p · = true) (f.texts x) →
    restring (guarded p g) (f.encode nil x) = some (f.encode nil (change x))

theorem text_restrings : Codec.text.Restrings p g g := by
  intro nil s spells
  have own : s.all p = true := List.all_eq_true.mpr (spells s (List.mem_singleton_self s))
  simp [Codec.text,restring,guarded_some own]

theorem number_restrings {zero : α} {write : α → Text} {read : Text → Option α}
    (numeric : ∀ x,isNumber (write x) = true)
    (back : ∀ x,read (write x) = some x) :
    (Codec.number zero write read numeric back).Restrings p g id :=
  fun _ _ _ => rfl

theorem items_restring {codec : Codec α} (each : codec.Restrings p g change)
    (nil : Nat → List Nat → Bool) (xs : List α)
    (spells : ∀ x ∈ xs,Spells (p · = true) (codec.texts x)) :
    (xs.mapIdx fun i x => codec.encode (nil i) x).mapM (restring (guarded p g)) =
      some ((xs.map change).mapIdx fun i x => codec.encode (nil i) x) := by
  induction xs generalizing nil with
  | nil => rfl
  | cons x xs ih =>
    obtain ⟨first,later⟩ := List.forall_mem_cons.mp spells
    have rest := ih (fun i => nil (i+1)) later
    simp [List.mapIdx_cons,List.mapM_cons,each (nil 0) x first,rest]

theorem slice_restrings {codec : Codec α} (each : codec.Restrings p g change) :
    codec.slice.Restrings p g (List.map change) := by
  intro nil xs spells
  by_cases empty : (xs.isEmpty && nil []) = true
  · cases xs with
    | nil => simp [Codec.slice,(Bool.and_eq_true_iff.mp empty).2,restring]
    | cons x xs => cases empty
  · have items := items_restring each (fun i path => nil (i :: path)) xs (spells_flatMap.mp spells)
    have still : ¬ ((xs.map change).isEmpty && nil []) = true := by
      rw [List.isEmpty_map]
      exact empty
    change restring (guarded p g) (if _ then _ else _) = some (if _ then _ else _)
    rw [if_neg empty,if_neg still,restring,restringItems_map,items]
    rfl

theorem field_restrings {codec : Codec β} {get : α → β} {set : α → β → α} {name : Text}
    {lower : name.all nameChar = true}
    {put : ∀ x v,get (set x v) = v} (base : codec.Restrings p g own)
    (same : ∀ x,get (change x) = own (get x)) :
    (codec.field name get set lower put).Restrings p g change := by
  intro nil x spells
  have read := base nil (get x) spells
  rw [← same] at read
  exact read

theorem fields_restring {fields : List (FieldCodec α)} (each : ∀ f ∈ fields,f.Restrings p g change)
    (names : ∀ f ∈ fields,guarded p g f.name = some f.name) (nil : Nat → List Nat → Bool) (x : α)
    (spells : ∀ f ∈ fields,Spells (p · = true) (f.texts x)) :
    (encodeFields nil x fields).mapM (restringField (guarded p g)) =
      some (encodeFields nil (change x) fields) := by
  induction fields generalizing nil with
  | nil => rfl
  | cons f fields ih =>
    obtain ⟨one,others⟩ := List.forall_mem_cons.mp each
    obtain ⟨name,more⟩ := List.forall_mem_cons.mp names
    obtain ⟨first,later⟩ := List.forall_mem_cons.mp spells
    have rest := ih others more (fun i => nil (i+1)) later
    unfold encodeFields at rest ⊢
    simp [List.mapIdx_cons,List.mapM_cons,restringField,name,one (nil 0) x first,rest]

theorem record_restrings {fields : List (FieldCodec α)} {zero : α}
    {distinct : (fields.map FieldCodec.name).Nodup}
    {apart : fields.Pairwise FieldCodec.Apart}
    {exactly : ∀ x,fields.foldl (fun y f => f.copy x y) zero = x} (each : ∀ f ∈ fields,f.Restrings p g change)
    (names : ∀ f ∈ fields,guarded p g f.name = some f.name) :
    (Codec.record fields zero distinct apart exactly).Restrings p g change := by
  intro nil x spells
  have pairs := fields_restring each names (fun i path => nil (i :: path)) x (spells_flatMap.mp spells)
  change restring (guarded p g) (.object _) = some (.object _)
  rw [restring,restringFields_map,pairs]
  rfl

theorem mapM_each {f : α → Option β} {xs : List α} (found : xs.mapM f = some ys) :
    ∀ x ∈ xs,∃ y,f x = some y := by
  induction xs generalizing ys with
  | nil => exact nofun
  | cons x xs ih =>
    rw [List.mapM_cons] at found
    obtain ⟨y,first,rest⟩ := Option.bind_eq_some_iff.mp found
    obtain ⟨zs,later,_⟩ := Option.bind_eq_some_iff.mp rest
    exact List.forall_mem_cons.mpr ⟨⟨y,first⟩,ih later⟩

theorem restring_over (made : Over q depth v) (read : restring (guarded p g) v = some w) :
    Over (p · = true) depth v := by
  induction made generalizing w with
  | null => exact .null
  | bool => exact .bool
  | number numeric => exact .number numeric
  | string =>
    obtain ⟨t,found,_⟩ := Option.map_eq_some_iff.mp read
    exact .string (guarded_all found)
  | array inside ih =>
    rw [restring,restringItems_map] at read
    obtain ⟨items,found,_⟩ := Option.map_eq_some_iff.mp read
    refine .array fun item member => ?_
    obtain ⟨w,own⟩ := mapM_each found item member
    exact ih item member own
  | object names inside ih =>
    rw [restring,restringFields_map] at read
    obtain ⟨fields,found,_⟩ := Option.map_eq_some_iff.mp read
    refine .object (fun field member => ?_) fun field member => ?_
    · obtain ⟨w,own⟩ := mapM_each found field member
      obtain ⟨name,named,_⟩ := Option.bind_eq_some_iff.mp own
      exact guarded_all named
    · obtain ⟨w,own⟩ := mapM_each found field member
      obtain ⟨name,_,rest⟩ := Option.bind_eq_some_iff.mp own
      obtain ⟨value,valued,_⟩ := Option.bind_eq_some_iff.mp rest
      exact ih field member valued

section
variable {rewrite : Text → Text} (rewrites : Rewrites rewrite (guarded p g)) {codec : Codec α}
  (shallow : codec.nesting ≤ maxNestingDepth) (each : codec.Restrings p g change)
include rewrites shallow each

theorem parse_marshal (nil : List Nat → Bool) (x : α) (spells : Spells (p · = true) (codec.texts x)) :
    parse (rewrite (marshal codec nil x)) = some (codec.encode nil (change x)) := by
  rw [marshal,parse_rewritten rewrites (codec.made shallow nil x),each nil x spells]

omit each in
theorem parse_spells (nil : List Nat → Bool) (x : α) (read : parse (rewrite (marshal codec nil x)) = some v) :
    Spells (p · = true) (codec.texts x) := by
  have made := codec.made shallow nil x
  rw [marshal,parse_rewritten rewrites made] at read
  have stored :=
    codec.decodes [codec.encode nil x] (List.forall_mem_singleton.mpr ⟨_,restring_over made read⟩)
  rwa [codec.exact] at stored

-- The rewritten text is JSON exactly when all its strings are read, and then it holds the changed value.
theorem marshal_rewritten (nil : List Nat → Bool) (x : α) :
    ((parse (rewrite (marshal codec nil x))).isSome = true ↔ Spells (p · = true) (codec.texts x)) ∧
    (unmarshal codec (rewrite (marshal codec nil x)) = (change x,none) ↔
      Spells (p · = true) (codec.texts x)) := by
  refine ⟨⟨?_,?_⟩,?_,?_⟩
  · intro accepted
    obtain ⟨v,read⟩ := Option.isSome_iff_exists.mp accepted
    exact parse_spells rewrites shallow nil x read
  · intro spells
    rw [parse_marshal rewrites shallow each nil x spells]
    rfl
  · intro decoded
    cases read : parse (rewrite (marshal codec nil x)) with
    | none =>
      rw [unmarshal,read] at decoded
      cases congrArg Prod.snd decoded
    | some v => exact parse_spells rewrites shallow nil x read
  · intro spells
    rw [unmarshal,parse_marshal rewrites shallow each nil x spells]
    simp [codec.exact,codec.fitting]
end
end

end SqlReview.Json
