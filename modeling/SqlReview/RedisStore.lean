import Mathlib

namespace SqlReview.RedisStore

variable {τ : Type} [DecidableEq τ]

inductive Value (τ : Type) where
  | string (text : τ)
  | list (items : List τ)
  | set (members : Finset τ)

abbrev Store (τ : Type) := τ → Option (Value τ)

inductive Fault where
  -- WRONGTYPE: the key holds another kind of value
  | wrongType
  -- an argument of a command that is neither a string nor a number
  | badArgument
  deriving DecidableEq,Repr

-- A fault does not take back what a script has done before it.
abbrev Command (τ α : Type) := EStateM Fault (Store τ) α

-- An absent key reads as an empty list or set, and one that becomes empty is removed.
def Store.list? (s : Store τ) (key : τ) : Option (List τ) :=
  match s key with
  | none => some []
  | some (.list items) => some items
  | some _ => none

def Store.set? (s : Store τ) (key : τ) : Option (Finset τ) :=
  match s key with
  | none => some ∅
  | some (.set members) => some members
  | some _ => none

def Store.putList (s : Store τ) (key : τ) (items : List τ) : Store τ :=
  Function.update s key (if items = [] then none else some (.list items))

def Store.putSet (s : Store τ) (key : τ) (members : Finset τ) : Store τ :=
  Function.update s key (if members = ∅ then none else some (.set members))

def sadd (key member : τ) : Command τ Nat := fun s =>
  match s.set? key with
  | none => .error .wrongType s
  | some members => if member ∈ members then .ok 0 s else .ok 1 (s.putSet key (insert member members))

def srem (key member : τ) : Command τ Nat := fun s =>
  match s.set? key with
  | none => .error .wrongType s
  | some members => if member ∈ members then .ok 1 (s.putSet key (members.erase member)) else .ok 0 s

def rpush (key item : τ) : Command τ Nat := fun s =>
  match s.list? key with
  | none => .error .wrongType s
  | some items => .ok (items.length+1) (s.putList key (items ++ [item]))

def lpop (key : τ) : Command τ (Option τ) := fun s =>
  match s.list? key with
  | none => .error .wrongType s
  | some [] => .ok none s
  | some (item :: items) => .ok (some item) (s.putList key items)

def llen (key : τ) : Command τ Nat := fun s =>
  match s.list? key with
  | none => .error .wrongType s
  | some items => .ok items.length s

def del (key : τ) : Command τ Nat := fun s =>
  .ok (if (s key).isSome then 1 else 0) (Function.update s key none)

def get (key : τ) : Command τ (Option τ) := fun s =>
  match s key with
  | none => .ok none s
  | some (.string text) => .ok (some text) s
  | some _ => .error .wrongType s

def set (key text : τ) : Command τ Unit := fun s => .ok () (Function.update s key (some (.string text)))

-- The store a command leaves, whatever its reply.
def leaves (command : Command τ α) (s : Store τ) : Store τ :=
  match command s with
  | .ok _ s => s
  | .error _ s => s

@[simp] theorem putList_list (s : Store τ) (key : τ) (items : List τ) :
    (s.putList key items).list? key = some items := by
  by_cases none : items = [] <;> simp [Store.list?,Store.putList,none]

@[simp] theorem putSet_set (s : Store τ) (key : τ) (members : Finset τ) :
    (s.putSet key members).set? key = some members := by
  by_cases none : members = ∅ <;> simp [Store.set?,Store.putSet,none]

theorem update_list {s : Store τ} {key other : τ} (apart : other ≠ key) (value : Option (Value τ)) :
    Store.list? (Function.update s key value) other = s.list? other := by
  simp [Store.list?,Function.update_of_ne apart]

theorem update_set {s : Store τ} {key other : τ} (apart : other ≠ key) (value : Option (Value τ)) :
    Store.set? (Function.update s key value) other = s.set? other := by
  simp [Store.set?,Function.update_of_ne apart]

-- Only SET makes a key hold a string, and no list or set command succeeds on one.
theorem putList_string {s : Store τ} {key : τ} (typed : s.list? key = some old) (items : List τ)
    (other text : τ) :
    s.putList key items other = some (.string text) ↔ s other = some (.string text) := by
  by_cases same : other = key
  · subst same
    have before : s other ≠ some (.string text) := fun held => by simp [Store.list?,held] at typed
    have after : s.putList other items other ≠ some (.string text) := by
      unfold Store.putList
      rw [Function.update_self]
      split <;> simp
    exact ⟨fun held => absurd held after,fun held => absurd held before⟩
  · rw [Store.putList,Function.update_of_ne same]

theorem putSet_string {s : Store τ} {key : τ} (typed : s.set? key = some old) (members : Finset τ)
    (other text : τ) :
    s.putSet key members other = some (.string text) ↔ s other = some (.string text) := by
  by_cases same : other = key
  · subst same
    have before : s other ≠ some (.string text) := fun held => by simp [Store.set?,held] at typed
    have after : s.putSet other members other ≠ some (.string text) := by
      unfold Store.putSet
      rw [Function.update_self]
      split <;> simp
    exact ⟨fun held => absurd held after,fun held => absurd held before⟩
  · rw [Store.putSet,Function.update_of_ne same]

-- The members of the set at a key; a key that holds something else has none.
def Store.members (s : Store τ) (key : τ) : Finset τ := (s.set? key).getD ∅

theorem putSet_members (s : Store τ) (key other : τ) (members : Finset τ) :
    (s.putSet key members).members other = if other = key then members else s.members other := by
  split
  · rename_i same
    rw [same,Store.members,putSet_set]
    rfl
  · rename_i apart
    rw [Store.members,Store.putSet,update_set apart]
    rfl

-- A key that holds a list or nothing has no members before and after.
theorem putList_members {s : Store τ} {key : τ} (typed : s.list? key = some old) (items : List τ)
    (other : τ) :
    (s.putList key items).members other = s.members other := by
  by_cases same : other = key
  · subst same
    have before : s.members other = ∅ := by
      unfold Store.list? at typed
      split at typed
      · rename_i absent
        simp [Store.members,Store.set?,absent]
      · rename_i held
        simp [Store.members,Store.set?,held]
      · cases typed
    rw [before]
    by_cases none : items = [] <;> simp [Store.members,Store.set?,Store.putList,none]
  · rw [Store.members,Store.putList,update_set same]
    rfl

theorem update_members {s : Store τ} {key : τ} {value : Option (Value τ)}
    (none : ∀ members, value ≠ some (.set members)) (other : τ)
    (found : member ∈ Store.members (Function.update s key value) other) : member ∈ s.members other := by
  by_cases same : other = key
  · subst same
    unfold Store.members Store.set? at found
    rw [Function.update_self] at found
    split at found
    · simp at found
    · exact absurd rfl (none _)
    · simp at found
  · rwa [Store.members,update_set same] at found

end SqlReview.RedisStore
