import Mathlib.Data.List.Basic
import Mathlib.Data.List.Forall2

-- Readers of a stream that may end too early.
namespace SqlReview.ExactReader

abbrev Reader (τ ε α : Type) := StateT (List τ) (Except ε) α

variable {τ ε α β : Type} {short : ε}

-- `read` takes `w` and nothing behind it, and makes nothing but the error `short` of a part of it.
structure Exact (short : ε) (read : Reader τ ε α) (w : List τ) (x : α) : Prop where
  whole : ∀ rest, read (w ++ rest) = .ok (x,rest)
  cut : ∀ front back, front ++ back = w → back ≠ [] → read front = .error short

theorem Exact.pure (x : α) : Exact short (pure x : Reader τ ε α) [] x := by
  refine ⟨fun rest => rfl,fun front back split some_ => ?_⟩
  exact absurd (List.append_eq_nil_iff.mp split).2 some_

theorem bind_ok {read : Reader τ ε α} {next : α → Reader τ ε β} (ends : read s = .ok (x,rest)) :
    (read >>= next) s = next x rest := by
  change (read s >>= fun result => next result.1 result.2) = _
  rw [ends]
  rfl

theorem bind_error {read : Reader τ ε α} {next : α → Reader τ ε β} {fault : ε}
    (ends : read s = .error fault) :
    (read >>= next) s = .error fault := by
  change (read s >>= fun result => next result.1 result.2) = _
  rw [ends]
  rfl

theorem Exact.bind {read : Reader τ ε α} {next : α → Reader τ ε β} (first : Exact short read u x)
    (second : Exact short (next x) v y) :
    Exact short (read >>= next) (u ++ v) y := by
  constructor
  · intro rest
    rw [List.append_assoc,bind_ok (first.whole (v ++ rest))]
    exact second.whole rest
  · intro front back split some_
    rcases List.append_eq_append_iff.mp split with ⟨more,rfl,rfl⟩ | ⟨more,rfl,rfl⟩
    · cases more with
      | nil =>
        have ends := first.whole []
        rw [List.append_nil,List.append_nil] at ends
        rw [bind_ok ends]
        exact second.cut [] _ rfl some_
      | cons t more => exact bind_error (first.cut front (t :: more) rfl (List.cons_ne_nil _ _))
    · rw [bind_ok (first.whole more)]
      exact second.cut more back rfl some_

-- Of a stream that is cut off somewhere the reader makes the same value or none.
theorem Exact.either {read : Reader τ ε α} (exact_ : Exact short read w x)
    (split : front ++ back = w ++ more) :
    (∃ rest, front = w ++ rest ∧ rest ++ back = more ∧ read front = .ok (x,rest)) ∨
      read front = .error short := by
  rcases List.append_eq_append_iff.mp split with ⟨missing,rfl,rfl⟩ | ⟨rest,rfl,rfl⟩
  · cases missing with
    | nil =>
      have ends := exact_.whole []
      rw [List.append_nil,List.append_nil] at ends
      exact Or.inl ⟨[],by simp,by simp,ends⟩
    | cons t missing => exact Or.inr (exact_.cut front (t :: missing) rfl (List.cons_ne_nil _ _))
  · exact Or.inl ⟨rest,rfl,rfl,exact_.whole rest⟩

-- n tokens
def readFull (short : ε) (n : Nat) : Reader τ ε (List τ) := fun s =>
  if s.length < n then .error short else .ok (s.take n,s.drop n)

theorem exact_readFull (w : List τ) : Exact short (readFull short w.length) w w := by
  constructor
  · intro rest
    rw [readFull,if_neg (by simp),List.take_left,List.drop_left]
  · intro front back split some_
    have length := congrArg List.length split
    have room := List.length_pos_iff.mpr some_
    rw [List.length_append] at length
    rw [readFull,if_pos (by omega)]

-- One value after the other.
def items (read : Reader τ ε α) : Nat → Reader τ ε (List α)
  | 0 => pure []
  | n+1 => do
    let x ← read
    let rest ← items read n
    return x :: rest

theorem exact_items {read : Reader τ ε α} (write : α → List τ) {values : List α}
    (each : ∀ x ∈ values, Exact short read (write x) x) :
    Exact short (items read values.length) (values.flatMap write) values := by
  induction values with
  | nil => exact .pure []
  | cons x values ih =>
    obtain ⟨first,later⟩ := List.forall_mem_cons.mp each
    have tail : Exact short (items read values.length >>= fun rest => pure (x :: rest))
        (values.flatMap write ++ []) (x :: values) :=
      (ih later).bind (.pure _)
    rw [List.append_nil] at tail
    exact first.bind tail

end SqlReview.ExactReader
