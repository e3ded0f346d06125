import SqlReview.GoBytes

-- Byte strings that are the encoding of a text.
namespace SqlReview.GoUtf8
open GoBytes

def Valid (s : Bytes) : Prop := ∃ t : List Char,s = t.flatMap fun c => encodeRune c.toNat

-- utf8.ValidString: every piece is the encoding of its rune.
def validString (s : Bytes) : Bool := (runes s).all fun piece => piece.2 == encodeRune piece.1

theorem valid_nil : Valid [] := ⟨[],rfl⟩

theorem valid_append (left : Valid s) (right : Valid t) : Valid (s ++ t) := by
  obtain ⟨cs,rfl⟩ := left
  obtain ⟨ds,rfl⟩ := right
  exact ⟨cs ++ ds,List.flatMap_append.symm⟩

theorem valid_char (c : Char) : Valid (encodeRune c.toNat) := ⟨[c],(List.append_nil _).symm⟩

theorem valid_encode (r : Nat) : Valid (encodeRune r) := by
  by_cases scalar : r.isValidChar
  · have same : (Char.ofNatAux r scalar).toNat = r := rfl
    rw [← same]
    exact valid_char _
  · have bad : encodeRune r = encodeRune '�'.toNat := by
      have last : encodeRune '�'.toNat = [0xEF,0xBF,0xBD] := by decide
      have outside : ¬ (r < 0xD800 ∨ (0xDFFF < r ∧ r < 0x110000)) := scalar
      rw [last,encodeRune,if_neg (by omega),if_neg (by omega),if_pos (by omega)]
    rw [bad]
    exact valid_char _

theorem valid_flatMap {xs : List α} {f : α → Bytes} (each : ∀ x ∈ xs,Valid (f x)) : Valid (xs.flatMap f) := by
  induction xs with
  | nil => exact valid_nil
  | cons x xs ih =>
    obtain ⟨first,rest⟩ := List.forall_mem_cons.mp each
    rw [List.flatMap_cons]
    exact valid_append first (ih rest)

theorem valid_toLower (lower : Nat → Nat) (s : Bytes) : Valid (toLower lower s) :=
  valid_flatMap fun _ _ => valid_encode _

theorem valid_byte {b : UInt8} (ascii : b.toNat < 0x80) : Valid [b] := by
  have one : encodeRune b.toNat = [b] := by rw [encodeRune,if_pos ascii,UInt8.ofNat_toNat]
  rw [← one]
  exact valid_encode _

theorem valid_ascii (ascii : ∀ b ∈ s,b.toNat < 0x80) : Valid s := by
  induction s with
  | nil => exact valid_nil
  | cons b s ih =>
    obtain ⟨first,rest⟩ := List.forall_mem_cons.mp ascii
    exact valid_append (valid_byte first) (ih rest)

theorem runes_valid (valid : Valid s) : ∀ piece ∈ runes s,piece.2 = encodeRune piece.1 := by
  obtain ⟨t,rfl⟩ := valid
  induction t with
  | nil => exact nofun
  | cons c t ih =>
    rw [List.flatMap_cons,runes_encode]
    exact List.forall_mem_cons.mpr ⟨rfl,ih⟩

theorem valid_iff : validString s = true ↔ Valid s := by
  unfold validString
  rw [List.all_eq_true]
  constructor
  · intro each
    rw [← runes_join s]
    apply valid_flatMap
    intro piece mem
    rw [beq_iff_eq.mp (each piece mem)]
    exact valid_encode _
  · intro valid piece mem
    exact beq_iff_eq.mpr (runes_valid valid piece mem)

-- A byte below 0x80 is a character of its own.
theorem valid_init (valid : Valid (s ++ [b])) (ascii : b.toNat < 0x80) : Valid s := by
  obtain ⟨t,whole⟩ := valid
  rcases List.eq_nil_or_concat t with rfl | ⟨front,c,rfl⟩
  · simp at whole
  · rw [List.concat_eq_append,List.flatMap_append,List.flatMap_singleton] at whole
    have last : (encodeRune c.toNat).getLast? = some b := by
      have ends := congrArg List.getLast? whole
      rw [List.getLast?_concat] at ends
      obtain ⟨a,rest,bytes,_⟩ := decodeRune_encode c []
      rw [bytes,List.getLast?_append_of_ne_nil _ (List.cons_ne_nil a rest)] at ends
      rw [bytes,ends]
    rw [encodeRune_last c.toNat last ascii] at whole
    exact ⟨front,List.append_cancel_right whole⟩

theorem valid_cancel (valid : Valid (s ++ t)) (ascii : ∀ b ∈ t,b.toNat < 0x80) : Valid s := by
  induction t generalizing s with
  | nil => rwa [List.append_nil] at valid
  | cons b t ih =>
    obtain ⟨first,rest⟩ := List.forall_mem_cons.mp ascii
    rw [List.append_cons] at valid
    exact valid_init (ih valid rest) first

theorem encode_bytes (c : Char) {b : UInt8} (mem : b ∈ encodeRune c.toNat)
    (ascii : b.toNat < 0x80) : encodeRune c.toNat = [b] := by
  by_cases wide : 0x80 ≤ c.toNat
  · exact absurd ascii (Nat.not_lt.mpr (encodeRune_wide wide b mem))
  · rw [encodeRune,if_pos (Nat.lt_of_not_le wide)] at mem ⊢
    rw [List.mem_singleton.mp mem]

-- Bytes below 0x80 can be left out.
theorem valid_filter {keep : UInt8 → Bool} (valid : Valid s)
    (ascii : ∀ b,keep b = false → b.toNat < 0x80) : Valid (s.filter keep) := by
  obtain ⟨t,rfl⟩ := valid
  rw [List.filter_flatMap]
  apply valid_flatMap
  intro c _
  by_cases all : ∀ b ∈ encodeRune c.toNat,keep b = true
  · rw [List.filter_eq_self.mpr all]
    exact valid_char c
  · obtain ⟨b,mem,out⟩ := not_forall₂.mp all
    have out := Bool.eq_false_iff.mpr out
    rw [encode_bytes c mem (ascii b out),List.filter_singleton,out]
    exact valid_nil

theorem valid_rdropWhile {drop : UInt8 → Bool} (valid : Valid s)
    (ascii : ∀ b,drop b = true → b.toNat < 0x80) : Valid (s.rdropWhile drop) := by
  induction s using List.reverseRecOn with
  | nil => exact valid_nil
  | append_singleton s b ih =>
    by_cases dropped : drop b = true
    · rw [List.rdropWhile_concat_pos _ _ _ dropped]
      exact ih (valid_init valid (ascii b dropped))
    · rw [List.rdropWhile_concat_neg _ _ _ dropped]
      exact valid

end SqlReview.GoUtf8
