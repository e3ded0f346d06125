import Mathlib

namespace SqlReview.GoBytes

-- A string of Go is a byte sequence; nothing forces it to be UTF-8. Offsets
-- and lengths below are byte offsets and byte lengths. Runes are natural numbers.
abbrev Bytes := List UInt8

def str (s : String) : Bytes := s.toUTF8.data.toList
def rune (c : Char) : Nat := c.toNat
def byte (c : Char) : UInt8 := UInt8.ofNat c.toNat

-- utf8.RuneError, the rune that stands for one undecodable byte.
def runeError : Nat := 0xFFFD

def tail (b : UInt8) : Bool := 0x80 ≤ b.toNat && b.toNat ≤ 0xBF

def lead2 (a : UInt8) : Bool := 0xC2 ≤ a.toNat && a.toNat ≤ 0xDF

-- The second byte decides overlong forms and surrogates.
def lead3 (a b : UInt8) : Bool :=
  (a.toNat == 0xE0 && 0xA0 ≤ b.toNat && b.toNat ≤ 0xBF) ||
  (0xE1 ≤ a.toNat && a.toNat ≤ 0xEC && tail b) ||
  (a.toNat == 0xED && 0x80 ≤ b.toNat && b.toNat ≤ 0x9F) ||
  (0xEE ≤ a.toNat && a.toNat ≤ 0xEF && tail b)

def lead4 (a b : UInt8) : Bool :=
  (a.toNat == 0xF0 && 0x90 ≤ b.toNat && b.toNat ≤ 0xBF) ||
  (0xF1 ≤ a.toNat && a.toNat ≤ 0xF3 && tail b) ||
  (a.toNat == 0xF4 && 0x80 ≤ b.toNat && b.toNat ≤ 0x8F)

def tailBits (value : Nat) (b : UInt8) : Nat := value*0x40 + (b.toNat - 0x80)

-- utf8.DecodeRuneInString on a non-empty string: the first rune and its width.
-- A byte that starts no valid sequence is RuneError of width one.
def decodeRune (a : UInt8) (t : Bytes) : Nat × Nat :=
  if a.toNat < 0x80 then (a.toNat,1) else
  match t with
  | [] => (runeError,1)
  | b :: u =>
    if lead2 a && tail b then (tailBits (a.toNat - 0xC0) b,2) else
    match u with
    | [] => (runeError,1)
    | c :: v =>
      if lead3 a b && tail c then (tailBits (tailBits (a.toNat - 0xE0) b) c,3) else
      match v with
      | [] => (runeError,1)
      | d :: _ =>
        if lead4 a b && tail c && tail d then
          (tailBits (tailBits (tailBits (a.toNat - 0xF0) b) c) d,4)
        else (runeError,1)

-- `skip` bytes belong to the rune already delivered.
def runesFrom : Nat → Bytes → List (Nat × Bytes)
  | _,[] => []
  | 0,a :: t =>
    let piece := decodeRune a t
    (piece.1,(a :: t).take piece.2) :: runesFrom (piece.2-1) t
  | skip+1,_ :: t => runesFrom skip t

-- The pieces `for _, r := range s` walks over: each rune with its bytes.
def runes (s : Bytes) : List (Nat × Bytes) := runesFrom 0 s

theorem runesFrom_drop (skip : Nat) (s : Bytes) : runesFrom skip s = runes (s.drop skip) := by
  induction s generalizing skip with
  | nil => simp [runesFrom,runes]
  | cons a t ih =>
    cases skip with
    | zero => rfl
    | succ skip => simpa [runesFrom] using ih skip

theorem decodeRune_width (a : UInt8) (t : Bytes) :
    1 ≤ (decodeRune a t).2 ∧ (decodeRune a t).2 ≤ (a :: t).length := by
  unfold decodeRune
  split
  · simp
  · split
    · simp
    · split
      · simp
      · split
        · simp
        · split
          · simp
          · split
            · simp
            · split <;> simp

theorem tailBits_le (value : Nat) (b : UInt8) : value*0x40 ≤ tailBits value b := Nat.le_add_right _ _

-- Overlong forms are rejected, so a rune below 0x80 is one byte.
theorem decodeRune_ascii {a : UInt8} {t : Bytes} (ascii : (decodeRune a t).1 < 0x80) :
    decodeRune a t = (a.toNat,1) := by
  by_cases low : a.toNat < 0x80
  · simp [decodeRune,low]
  · have bad : 0x80 ≤ runeError := by simp [runeError]
    have wide : 0x80 ≤ (decodeRune a t).1 := by
      simp only [decodeRune,if_neg low]
      split
      · exact bad
      · rename_i b u
        split
        · rename_i two
          simp only [lead2,Bool.and_eq_true,decide_eq_true_eq] at two
          have := tailBits_le (a.toNat-0xC0) b
          dsimp only
          omega
        · split
          · exact bad
          · rename_i c v
            split
            · rename_i three
              simp only [lead3,tail,Bool.and_eq_true,Bool.or_eq_true,decide_eq_true_eq,beq_iff_eq] at three
              have one : tailBits (a.toNat-0xE0) b = (a.toNat-0xE0)*0x40+(b.toNat-0x80) := rfl
              have two := tailBits_le (tailBits (a.toNat-0xE0) b) c
              dsimp only
              omega
            · split
              · exact bad
              · rename_i d w
                split
                · rename_i four
                  simp only [lead4,tail,Bool.and_eq_true,Bool.or_eq_true,decide_eq_true_eq,beq_iff_eq] at four
                  have one : tailBits (a.toNat-0xF0) b = (a.toNat-0xF0)*0x40+(b.toNat-0x80) := rfl
                  have two := tailBits_le (tailBits (a.toNat-0xF0) b) c
                  have three := tailBits_le (tailBits (tailBits (a.toNat-0xF0) b) c) d
                  dsimp only
                  omega
                · exact bad
    omega

theorem runes_cons (a : UInt8) (t : Bytes) :
    runes (a :: t) = ((decodeRune a t).1,(a :: t).take (decodeRune a t).2) ::
      runes ((a :: t).drop (decodeRune a t).2) := by
  have wide := (decodeRune_width a t).1
  obtain ⟨width,eq⟩ : ∃ width, (decodeRune a t).2 = width+1 := ⟨(decodeRune a t).2-1,by omega⟩
  rw [runes,runesFrom,runesFrom_drop,eq]
  simp

@[simp] theorem runes_nil : runes [] = [] := rfl

theorem runes_cons_ascii {c : UInt8} (ascii : c.toNat < 0x80) (s : Bytes) :
    runes (c :: s) = (c.toNat,[c]) :: runes s := by
  rw [runes_cons]
  simp [decodeRune,ascii]

-- Induction over a string in the steps the decoder takes.
theorem rune_induction {motive : Bytes → Prop} (nil : motive [])
    (cons : ∀ a t, motive ((a :: t).drop (decodeRune a t).2) → motive (a :: t)) (s : Bytes) : motive s := by
  induction size : s.length using Nat.strongRecOn generalizing s with
  | ind n ih =>
    cases s with
    | nil => exact nil
    | cons a t =>
      refine cons a t (ih _ ?_ _ rfl)
      have wide := (decodeRune_width a t).1
      simp only [List.length_drop,← size,List.length_cons]
      omega

theorem runes_join (s : Bytes) : (runes s).flatMap Prod.snd = s := by
  induction s using rune_induction with
  | nil => rfl
  | cons a t ih => rw [runes_cons,List.flatMap_cons,ih,List.take_append_drop]

-- An ASCII byte is never inside a multi-byte sequence, so it ends what precedes it.
theorem decodeRune_append_ascii (a : UInt8) (s t : Bytes) {c : UInt8} (ascii : c.toNat < 0x80) :
    decodeRune a (s ++ c :: t) = decodeRune a s := by
  have notTail : tail c = false := by simp [tail]; omega
  have not3 : lead3 a c = false := by simp [lead3,notTail]; omega
  have not4 : lead4 a c = false := by simp [lead4,notTail]; omega
  match s with
  | [] => cases t with
    | nil => simp [decodeRune,notTail]
    | cons d t => cases t <;> simp [decodeRune,notTail,not3,not4]
  | [b] => cases t <;> simp [decodeRune,notTail]
  | [b,d] => simp [decodeRune,notTail]
  | b :: d :: e :: rest => simp [decodeRune]

theorem runes_append_ascii (s t : Bytes) {c : UInt8} (ascii : c.toNat < 0x80) :
    runes (s ++ c :: t) = runes s ++ (c.toNat,[c]) :: runes t := by
  induction s using rune_induction with
  | nil => exact runes_cons_ascii ascii t
  | cons a s ih =>
    have wide := (decodeRune_width a s).2
    rw [List.cons_append,runes_cons,runes_cons a s,decodeRune_append_ascii a s t ascii,List.cons_append,
      ← ih,← List.cons_append,List.take_append_of_le_length wide,List.drop_append_of_le_length wide]

theorem runes_text (q : Bytes) (ascii : ∀ b ∈ q, b.toNat < 0x80) :
    runes q = q.map fun b => (b.toNat,[b]) := by
  induction q with
  | nil => rfl
  | cons b q ih =>
    rw [runes_cons_ascii (ascii b (by simp)),ih fun c found => ascii c (by simp [found]),List.map_cons]

theorem runes_append_head (s : Bytes) {t : Bytes} (ascii : ∀ c ∈ t.head?, c.toNat < 0x80) :
    runes (s ++ t) = runes s ++ runes t := by
  cases t with
  | nil => rw [List.append_nil,runes_nil,List.append_nil]
  | cons c t =>
    have first := ascii c rfl
    rw [runes_append_ascii s t first,runes_cons_ascii first]

theorem runes_text_append {s : Bytes} (ascii : ∀ b ∈ s, b.toNat < 0x80) (t : Bytes) :
    runes (s ++ t) = runes s ++ runes t := by
  induction s with
  | nil => rfl
  | cons b s ih =>
    obtain ⟨first,later⟩ := List.forall_mem_cons.mp ascii
    rw [List.cons_append,runes_cons_ascii first,runes_cons_ascii first,ih later,List.cons_append]

theorem runes_piece (s : Bytes) : ∀ piece ∈ runes s, 1 ≤ piece.2.length ∧
    (piece.1 < 0x80 → piece.2 = [UInt8.ofNat piece.1]) := by
  induction s using rune_induction with
  | nil => simp
  | cons a t ih =>
    have wide := decodeRune_width a t
    rw [runes_cons]
    intro piece found
    rcases List.mem_cons.mp found with rfl | later
    · refine ⟨?_,fun ascii => ?_⟩
      · rw [List.length_take]
        omega
      · rw [decodeRune_ascii ascii]
        simp
    · exact ih piece later

-- Text in ASCII is cut off from what surrounds it.
theorem runes_append_text (p t : Bytes) {n : Bytes} (some : n ≠ []) (ascii : ∀ b ∈ n, b.toNat < 0x80) :
    runes (p ++ (n ++ t)) = runes p ++ (runes n ++ runes t) := by
  rw [runes_append_head p,runes_text_append ascii]
  intro c first
  cases n with
  | nil => exact absurd rfl some
  | cons b n =>
    cases first
    exact ascii c List.mem_cons_self

-- utf8.EncodeRune: surrogates and values past the last code point become RuneError.
def encodeRune (r : Nat) : Bytes :=
  if r < 0x80 then [UInt8.ofNat r]
  else if r < 0x800 then [UInt8.ofNat (0xC0 + r/0x40),UInt8.ofNat (0x80 + r%0x40)]
  else if (0xD800 ≤ r ∧ r < 0xE000) ∨ 0x10FFFF < r then [0xEF,0xBF,0xBD]
  else if r < 0x10000 then
    [UInt8.ofNat (0xE0 + r/0x1000),UInt8.ofNat (0x80 + r/0x40%0x40),UInt8.ofNat (0x80 + r%0x40)]
  else [UInt8.ofNat (0xF0 + r/0x40000),UInt8.ofNat (0x80 + r/0x1000%0x40),
    UInt8.ofNat (0x80 + r/0x40%0x40),UInt8.ofNat (0x80 + r%0x40)]

theorem every_byte {P : UInt8 → Prop} (all : ∀ n : Fin 256, P (UInt8.ofNat n)) (b : UInt8) : P b := by
  have this := all ⟨b.toNat,b.toNat_lt⟩
  rwa [UInt8.ofNat_toNat] at this

def lowerByte (b : UInt8) : UInt8 := if 0x41 ≤ b.toNat ∧ b.toNat ≤ 0x5A then b + 0x20 else b

-- unicode.ToLower: fixed on ASCII; `lower` is its table for the other runes.
def lowerRune (lower : Nat → Nat) (r : Nat) : Nat :=
  if r < 0x80 then (if 0x41 ≤ r ∧ r ≤ 0x5A then r + 0x20 else r) else lower r

-- strings.ToLower: rune by rune, an undecodable byte becomes an encoded RuneError.
def toLower (lower : Nat → Nat) (s : Bytes) : Bytes :=
  (runes s).flatMap fun piece => encodeRune (lowerRune lower piece.1)

@[simp] theorem toLower_nil (lower : Nat → Nat) : toLower lower [] = [] := rfl

theorem encodeRune_lower_ascii (lower : Nat → Nat) {c : UInt8} (ascii : c.toNat < 0x80) :
    encodeRune (lowerRune lower c.toNat) = [lowerByte c] := by
  unfold lowerRune lowerByte
  rw [if_pos ascii]
  by_cases upper : 0x41 ≤ c.toNat ∧ c.toNat ≤ 0x5A
  · have small : c.toNat + 0x20 < 0x80 := by omega
    rw [if_pos upper,if_pos upper,encodeRune,if_pos small]
    congr 1
  · rw [if_neg upper,if_neg upper,encodeRune,if_pos ascii]
    simp

theorem toLower_cons_ascii (lower : Nat → Nat) {c : UInt8} (ascii : c.toNat < 0x80) (s : Bytes) :
    toLower lower (c :: s) = lowerByte c :: toLower lower s := by
  rw [toLower,runes_cons_ascii ascii,List.flatMap_cons,encodeRune_lower_ascii lower ascii]
  rfl

theorem toLower_ascii (lower : Nat → Nat) (s : Bytes) (ascii : ∀ b ∈ s, b.toNat < 0x80) :
    toLower lower s = s.map lowerByte := by
  induction s with
  | nil => rfl
  | cons c s ih =>
    rw [toLower_cons_ascii lower (ascii c (by simp)),ih fun b member => ascii b (by simp [member]),
      List.map_cons]

theorem runes_length (s : Bytes) : (runes s).length ≤ s.length := by
  induction s using rune_induction with
  | nil => simp
  | cons a t ih =>
    have wide := decodeRune_width a t
    rw [runes_cons,List.length_cons]
    rw [List.length_drop] at ih
    omega

-- A multi-byte encoding starts with a byte that is not ASCII.
theorem encodeRune_ascii (r : Nat) (ascii : ∀ b ∈ encodeRune r, b.toNat < 0x80) :
    (encodeRune r).length = 1 := by
  by_cases one : r < 0x80
  · simp [encodeRune,one]
  · exfalso
    have head := ascii ((encodeRune r).headD 0) (by unfold encodeRune; split_ifs <;> simp)
    simp only [encodeRune,if_neg one] at head
    split_ifs at head with two bad three <;>
      simp only [List.headD_cons,UInt8.toNat_ofNat'] at head
    · omega
    · exact absurd head (by decide)
    · omega
    · omega

-- and its other bytes are not ASCII either.
theorem encodeRune_last (r : Nat) {b : UInt8} (last : (encodeRune r).getLast? = some b)
    (ascii : b.toNat < 0x80) :
    encodeRune r = [b] := by
  unfold encodeRune at last ⊢
  split_ifs at last ⊢ with one two bad three <;>
    simp only [List.getLast?_cons_cons,List.getLast?_singleton,Option.some.injEq] at last
  · rw [last]
  all_goals
    have tail := congrArg UInt8.toNat last
  · rw [UInt8.toNat_ofNat'] at tail
    omega
  · rw [← tail] at ascii
    exact absurd ascii (by decide)
  · rw [UInt8.toNat_ofNat'] at tail
    omega
  · rw [UInt8.toNat_ofNat'] at tail
    omega

theorem toNat_ofNat (small : n < 0x100) : (UInt8.ofNat n).toNat = n := by
  rw [UInt8.toNat_ofNat']
  omega

theorem decodeRune_two (a b : UInt8) (s : Bytes) (wide : ¬ a.toNat < 0x80) (first : lead2 a = true)
    (last : tail b = true) :
    decodeRune a (b :: s) = (tailBits (a.toNat-0xC0) b,2) := by
  unfold decodeRune
  rw [if_neg wide]
  simp only [first,last,Bool.and_self,if_true]

theorem decodeRune_three (a b c : UInt8) (s : Bytes) (wide : ¬ a.toNat < 0x80)
    (two : lead2 a = false) (first : lead3 a b = true)
    (last : tail c = true) : decodeRune a (b :: c :: s) = (tailBits (tailBits (a.toNat-0xE0) b) c,3) := by
  unfold decodeRune
  rw [if_neg wide]
  simp only [two,first,last,Bool.and_self,Bool.false_and,Bool.false_eq_true,if_true,if_false]

theorem decodeRune_four (a b c d : UInt8) (s : Bytes) (wide : ¬ a.toNat < 0x80)
    (two : lead2 a = false) (three : lead3 a b = false)
    (first : lead4 a b = true) (third : tail c = true) (last : tail d = true) :
    decodeRune a (b :: c :: d :: s) = (tailBits (tailBits (tailBits (a.toNat-0xF0) b) c) d,4) := by
  unfold decodeRune
  rw [if_neg wide]
  simp only [two,three,first,third,last,Bool.and_self,Bool.false_and,Bool.false_eq_true,if_true,if_false]

theorem tail_ofNat (small : n < 0x40) : tail (UInt8.ofNat (0x80+n)) = true ∧
    (UInt8.ofNat (0x80+n)).toNat = 0x80+n := by
  have value := toNat_ofNat (n := 0x80+n) (by omega)
  refine ⟨?_,value⟩
  simp only [tail,value,Bool.and_eq_true,decide_eq_true_eq]
  omega

-- What encodeRune writes for a character is decoded as that character.
theorem decodeRune_encode (c : Char) (s : Bytes) :
    ∃ a t,encodeRune c.toNat = a :: t ∧ decodeRune a (t ++ s) = (c.toNat,t.length+1) := by
  have valid : c.toNat < 0xD800 ∨ (0xDFFF < c.toNat ∧ c.toNat < 0x110000) := c.valid
  generalize c.toNat = r at valid
  unfold encodeRune
  split_ifs with one two bad three
  · have lead := toNat_ofNat (n := r) (by omega)
    refine ⟨_,[],rfl,?_⟩
    unfold decodeRune
    rw [if_pos (by omega),lead]
    rfl
  · obtain ⟨last,low⟩ := tail_ofNat (n := r%0x40) (by omega)
    have lead := toNat_ofNat (n := 0xC0+r/0x40) (by omega)
    have first : lead2 (UInt8.ofNat (0xC0+r/0x40)) = true := by
      simp only [lead2,lead,Bool.and_eq_true,decide_eq_true_eq]
      omega
    refine ⟨_,_,rfl,(decodeRune_two _ _ s (by omega) first last).trans (Prod.ext ?_ rfl)⟩
    unfold tailBits
    rw [lead,low]
    dsimp only
    omega
  · omega
  · obtain ⟨last,low⟩ := tail_ofNat (n := r%0x40) (by omega)
    obtain ⟨_,mid⟩ := tail_ofNat (n := r/0x40%0x40) (by omega)
    have lead := toNat_ofNat (n := 0xE0+r/0x1000) (by omega)
    have two : lead2 (UInt8.ofNat (0xE0+r/0x1000)) = false := by
      simp only [lead2,lead,Bool.and_eq_false_iff,decide_eq_false_iff_not]
      omega
    have first : lead3 (UInt8.ofNat (0xE0+r/0x1000)) (UInt8.ofNat (0x80+r/0x40%0x40)) = true := by
      simp only [lead3,tail,lead,mid,Bool.and_eq_true,Bool.or_eq_true,decide_eq_true_eq,beq_iff_eq]
      omega
    refine ⟨_,_,rfl,(decodeRune_three _ _ _ s (by omega) two first last).trans (Prod.ext ?_ rfl)⟩
    unfold tailBits
    rw [lead,mid,low]
    dsimp only
    omega
  · obtain ⟨last,low⟩ := tail_ofNat (n := r%0x40) (by omega)
    obtain ⟨third,high⟩ := tail_ofNat (n := r/0x40%0x40) (by omega)
    obtain ⟨_,mid⟩ := tail_ofNat (n := r/0x1000%0x40) (by omega)
    have lead := toNat_ofNat (n := 0xF0+r/0x40000) (by omega)
    have two : lead2 (UInt8.ofNat (0xF0+r/0x40000)) = false := by
      simp only [lead2,lead,Bool.and_eq_false_iff,decide_eq_false_iff_not]
      omega
    have three : lead3 (UInt8.ofNat (0xF0+r/0x40000)) (UInt8.ofNat (0x80+r/0x1000%0x40)) = false := by
      simp only [lead3,tail,lead,mid,Bool.and_eq_false_iff,Bool.or_eq_false_iff,
        decide_eq_false_iff_not,beq_eq_false_iff_ne,ne_eq]
      omega
    have first : lead4 (UInt8.ofNat (0xF0+r/0x40000)) (UInt8.ofNat (0x80+r/0x1000%0x40)) = true := by
      simp only [lead4,tail,lead,mid,Bool.and_eq_true,Bool.or_eq_true,decide_eq_true_eq,beq_iff_eq]
      omega
    refine ⟨_,_,rfl,(decodeRune_four _ _ _ _ s (by omega) two three first third last).trans (Prod.ext ?_ rfl)⟩
    unfold tailBits
    rw [lead,mid,high,low]
    dsimp only
    omega

theorem runes_encode (c : Char) (s : Bytes) :
    runes (encodeRune c.toNat ++ s) = (c.toNat,encodeRune c.toNat) :: runes s := by
  obtain ⟨a,t,bytes,decoded⟩ := decodeRune_encode c s
  rw [bytes,List.cons_append,runes_cons,decoded]
  simp

theorem encodeRune_wide (wide : 0x80 ≤ r) : ∀ b ∈ encodeRune r,0x80 ≤ b.toNat := by
  have tail : ∀ n,0x80 ≤ (UInt8.ofNat (0x80+n%0x40)).toNat := by
    intro n
    rw [toNat_ofNat (by omega)]
    omega
  intro b member
  unfold encodeRune at member
  split_ifs at member with one two bad three
  · omega
  · rcases List.mem_pair.mp member with rfl | rfl
    · rw [toNat_ofNat (by omega)]
      omega
    · exact tail _
  · simp only [List.mem_cons,List.not_mem_nil,or_false] at member
    rcases member with rfl | rfl | rfl <;> decide
  · simp only [List.mem_cons,List.not_mem_nil,or_false] at member
    rcases member with rfl | rfl | rfl
    · rw [toNat_ofNat (by omega)]
      omega
    · exact tail _
    · exact tail _
  · simp only [List.mem_cons,List.not_mem_nil,or_false] at member
    rcases member with rfl | rfl | rfl | rfl
    · have : r/0x40000 ≤ 4 := by omega
      rw [toNat_ofNat (by omega)]
      omega
    · exact tail _
    · exact tail _
    · exact tail _

-- Lower-casing may change the byte length, but an ASCII result is no longer
-- than its source.
theorem toLower_length (lower : Nat → Nat) (s : Bytes)
    (ascii : ∀ b ∈ toLower lower s, b.toNat < 0x80) : (toLower lower s).length ≤ s.length := by
  have ones : (toLower lower s).length = (runes s).length := by
    unfold toLower at ascii ⊢
    generalize runes s = pieces at ascii
    induction pieces with
    | nil => rfl
    | cons piece rest ih =>
      have one := encodeRune_ascii (lowerRune lower piece.1) fun b member => ascii b (by simp [member])
      have more := ih fun b member => ascii b (by
        rw [List.flatMap_cons]; exact List.mem_append_right _ member)
      rw [List.flatMap_cons,List.length_append,one,more,List.length_cons]
      omega
  rw [ones]
  exact runes_length s

-- s[i:j] for i ≤ j ≤ len(s); callers check the bounds.
def slice (s : Bytes) (i j : Nat) : Bytes := (s.drop i).take (j-i)

theorem slice_length (s : Bytes) {i j : Nat} (bound : j ≤ s.length) : (slice s i j).length = j-i := by
  simp only [slice,List.length_take,List.length_drop]
  omega

theorem slice_append (s : Bytes) {i j k : Nat} (left : i ≤ j) (right : j ≤ k) :
    slice s i j ++ slice s j k = slice s i k := by
  have split : k-i = (j-i)+(k-j) := by omega
  have shift : s.drop j = (s.drop i).drop (j-i) := by rw [List.drop_drop]; congr 1; omega
  rw [slice,slice,slice,split,shift,List.take_add]

theorem slice_take (s : Bytes) {i j k : Nat} (right : j ≤ k) : (slice s i k).take (j-i) = slice s i j := by
  rw [slice,slice,List.take_take,Nat.min_eq_left (by omega)]

theorem slice_drop (s : Bytes) {i j : Nat} (k : Nat) (left : i ≤ j) :
    (slice s i k).drop (j-i) = slice s j k := by
  have rest : k-i-(j-i) = k-j := by omega
  have offset : i+(j-i) = j := by omega
  rw [slice,slice,List.drop_take,List.drop_drop,rest,offset]

-- A buffer of `len` bytes made by make([]byte, len) after `out` was written from its
-- start. Writes past the end are the caller's concern; what does not fit is missing.
def buffer (len : Nat) (out : Bytes) : Bytes := (out ++ List.replicate len 0).take len

@[simp] theorem buffer_length (len : Nat) (out : Bytes) : (buffer len out).length = len := by
  simp [buffer]

theorem buffer_nil (len : Nat) : buffer len [] = List.replicate len 0 := by
  simp [buffer]

theorem buffer_get (len i : Nat) (out : Bytes) :
    (buffer len out)[i]? = if i < len then (if i < out.length then out[i]? else some 0) else none := by
  rw [buffer,List.getElem?_take]
  split
  · rw [List.getElem?_append]
    split
    · rfl
    · rw [List.getElem?_replicate,if_pos (by omega)]
  · rfl

theorem buffer_eq {len : Nat} {out : Bytes} (fits : out.length ≤ len) :
    buffer len out = out ++ List.replicate (len-out.length) 0 := by
  rw [buffer,List.take_append,List.take_of_length_le fits,List.take_replicate,Nat.min_eq_left (by omega)]

theorem buffer_take {len : Nat} {out : Bytes} (fits : out.length ≤ len) :
    (buffer len out).take out.length = out := by
  rw [buffer,List.take_take,Nat.min_eq_left fits,List.take_left' rfl]

theorem buffer_set (len : Nat) (out : Bytes) (b : UInt8) :
    (buffer len out).set out.length b = buffer len (out ++ [b]) := by
  apply List.ext_getElem?
  intro i
  rw [List.getElem?_set,buffer_length,buffer_get,buffer_get]
  by_cases here : out.length = i
  · subst here
    simp
  · rw [if_neg here]
    by_cases before : i < out.length
    · simp [before,Nat.lt_succ_of_lt before]
    · have after : ¬ i < (out ++ [b]).length := by simp; omega
      rw [if_neg before,if_neg after]

-- copy(f[fi:fi+l], w) writes at most l bytes of w; what is left of the l keeps its zeros.
def fit (l : Nat) (w : Bytes) : Bytes := w.take l ++ List.replicate (l-w.length) 0

@[simp] theorem fit_length (l : Nat) (w : Bytes) : (fit l w).length = l := by
  simp [fit]; omega

theorem fit_self (w : Bytes) : fit w.length w = w := by simp [fit]

theorem buffer_copy {len l : Nat} {out : Bytes} (w : Bytes) (fits : out.length+l ≤ len) :
    (buffer len out).take out.length ++ w.take l ++ (buffer len out).drop (out.length+(w.take l).length) =
      buffer len (out ++ fit l w) := by
  have room : (out ++ fit l w).length ≤ len := by simpa using fits
  rw [buffer_take (by omega),buffer_eq (by omega),buffer_eq room,List.drop_append,
    List.drop_eq_nil_of_le (by omega),List.nil_append,List.drop_replicate,fit,List.append_assoc,
    List.append_assoc,List.append_assoc,← List.replicate_add]
  congr 3
  simp only [List.length_append,List.length_take,List.length_replicate]
  omega

end SqlReview.GoBytes
