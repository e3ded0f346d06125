import SqlReview.GoBytes

-- strconv.ParseUint and strconv.ParseInt in base 10 with 64 bits; Atoi is ParseInt here.
namespace SqlReview.GoNumber
open GoBytes

inductive NumError where
  | errSyntax | errRange
  deriving DecidableEq,Repr

def maxUint : Nat := 2^64-1

def digit? (b : UInt8) : Option Nat :=
  if (byte '0').toNat ≤ b.toNat ∧ b.toNat ≤ (byte '9').toNat then some (b.toNat-(byte '0').toNat) else none

-- The loop over the digits: an overflow ends it before what stands behind is looked at.
def parseDigits : Nat → Bytes → Nat × Option NumError
  | n,[] => (n,none)
  | n,b :: rest =>
    match digit? b with
    | none => (0,some .errSyntax)
    | some d =>
      if maxUint/10+1 ≤ n then (maxUint,some .errRange)
      else if maxUint < n*10+d then (maxUint,some .errRange)
      else parseDigits (n*10+d) rest

def parseUint (s : Bytes) : Nat × Option NumError := if s = [] then (0,some .errSyntax) else parseDigits 0 s

def signed (neg : Bool) : Nat × Option NumError → Int × Option NumError
  | (_,some .errSyntax) => (0,some .errSyntax)
  | (un,err) =>
    if neg = false ∧ 2^63 ≤ un then (2^63-1,some .errRange)
    else if neg = true ∧ 2^63 < un then (-2^63,some .errRange)
    else (if neg then -un else un,err)

def parseInt : Bytes → Int × Option NumError
  | [] => (0,some .errSyntax)
  | b :: rest =>
    if b = byte '+' then signed false (parseUint rest)
    else if b = byte '-' then signed true (parseUint rest)
    else signed false (parseUint (b :: rest))

-- The digits of a number as bytes.
def digits (n : Nat) : Bytes := (Nat.toDigits 10 n).map byte

-- strconv.Itoa
def itoa (i : Int) : Bytes := if i < 0 then byte '-' :: digits i.natAbs else digits i.natAbs

def value (n : Nat) (s : Bytes) : Nat := s.foldl (fun n b => n*10+(b.toNat-(byte '0').toNat)) n

def Decimal (s : Bytes) : Prop := ∀ b ∈ s,(digit? b).isSome = true

theorem digit_some {b : UInt8} (found : digit? b = some d) : d = b.toNat-(byte '0').toNat ∧ d < 10 := by
  have zero : (byte '0').toNat = 48 := by decide
  have nine : (byte '9').toNat = 57 := by decide
  unfold digit? at found
  split at found
  · rename_i range
    cases found
    exact ⟨rfl,by omega⟩
  · cases found

theorem value_le (n : Nat) (s : Bytes) : n ≤ value n s := by
  induction s generalizing n with
  | nil => exact Nat.le_refl n
  | cons b s ih =>
    have later := ih (n*10+(b.toNat-(byte '0').toNat))
    exact Nat.le_trans (by omega) later

-- On digits the loop gives their value if it fits and the largest number if not.
theorem parseDigits_decimal {s : Bytes} (decimal : Decimal s) (start : n ≤ maxUint) :
    parseDigits n s = if value n s ≤ maxUint then (value n s,none) else (maxUint,some .errRange) := by
  induction s generalizing n with
  | nil => rw [parseDigits,value,List.foldl_nil,if_pos start]
  | cons b s ih =>
    obtain ⟨first,later⟩ := List.forall_mem_cons.mp decimal
    obtain ⟨d,found⟩ := Option.isSome_iff_exists.mp first
    obtain ⟨same,small⟩ := digit_some found
    have step : value n (b :: s) = value (n*10+d) s := by rw [same]; rfl
    have grows := value_le (n*10+d) s
    rw [parseDigits,found,step]
    dsimp only
    split
    · rename_i many
      rw [if_neg (by simp only [maxUint] at *; omega)]
    · split
      · rw [if_neg (by omega)]
      · exact ih later (by omega)

theorem digit_char (small : d < 10) : digit? (byte d.digitChar) = some d := by
  have cases : d = 0 ∨ d = 1 ∨ d = 2 ∨ d = 3 ∨ d = 4 ∨ d = 5 ∨ d = 6 ∨ d = 7 ∨ d = 8 ∨ d = 9 := by omega
  rcases cases with rfl | rfl | rfl | rfl | rfl | rfl | rfl | rfl | rfl | rfl <;> rfl

theorem digits_small (small : n < 10) : digits n = [byte n.digitChar] := by
  rw [digits,Nat.toDigits_of_lt_base small]
  rfl

theorem digits_large (large : 10 ≤ n) : digits n = digits (n/10) ++ [byte (n%10).digitChar] := by
  rw [digits,Nat.toDigits_of_base_le (by decide) large,List.map_append]
  rfl

theorem digits_read (n : Nat) : Decimal (digits n) ∧ value 0 (digits n) = n := by
  induction n using Nat.strong_induction_on with
  | _ n ih =>
    have last (d : Nat) (small : d < 10) : (digit? (byte d.digitChar)).isSome = true ∧
        (byte d.digitChar).toNat-(byte '0').toNat = d := by
      have found := digit_char small
      exact ⟨by rw [found]; rfl,(digit_some found).1.symm⟩
    by_cases small : n < 10
    · obtain ⟨accepted,same⟩ := last n small
      rw [digits_small small]
      exact ⟨List.forall_mem_singleton.mpr accepted,by simp [value,same]⟩
    · obtain ⟨accepted,same⟩ := last (n%10) (by omega)
      obtain ⟨front,count⟩ := ih (n/10) (by omega)
      rw [digits_large (by omega)]
      refine ⟨List.forall_mem_append.mpr ⟨front,List.forall_mem_singleton.mpr accepted⟩,?_⟩
      have snoc : value 0 (digits (n/10) ++ [byte (n%10).digitChar]) =
          value 0 (digits (n/10))*10+((byte (n%10).digitChar).toNat-(byte '0').toNat) := by simp [value]
      rw [snoc,count,same]
      omega

theorem digits_some (n : Nat) : digits n ≠ [] := by
  rw [digits]
  exact fun none => Nat.toDigits_ne_nil (List.map_eq_nil_iff.mp none)

theorem parseUint_digits (n : Nat) :
    parseUint (digits n) = if n ≤ maxUint then (n,none) else (maxUint,some .errRange) := by
  obtain ⟨decimal,same⟩ := digits_read n
  rw [parseUint,if_neg (digits_some n),parseDigits_decimal decimal (by decide),same]

theorem digits_head (n : Nat) : ∃ b rest,digits n = b :: rest ∧ b ≠ byte '-' := by
  have decimal := (digits_read n).1
  cases shown : digits n with
  | nil => exact absurd shown (digits_some n)
  | cons b rest =>
    rw [shown] at decimal
    have first := decimal b List.mem_cons_self
    refine ⟨b,rest,rfl,?_⟩
    rintro rfl
    exact absurd first (by decide)

end SqlReview.GoNumber
