import SqlReview.Json

-- Which characters a JSON text is made of, and what a text without escapes can be read as.
namespace SqlReview.Json
open GoText

theorem mem_commas {ts : List Text} (member : c ∈ commas ts) : c = ',' ∨ ∃ t ∈ ts,c ∈ t := by
  induction ts using commas.induct with
  | case1 => cases member
  | case2 t => exact Or.inr ⟨t,List.mem_singleton_self _,member⟩
  | case3 t ts rest ih =>
    rw [commas] at member
    · rcases List.mem_append.mp member with first | later
      · exact Or.inr ⟨t,List.mem_cons_self,first⟩
      · rcases List.mem_cons.mp later with comma | later
        · exact Or.inl comma
        · rcases ih later with comma | ⟨u,among,inside⟩
          · exact Or.inl comma
          · exact Or.inr ⟨u,List.mem_cons_of_mem _ among,inside⟩
    · exact rest

-- The characters of a text that are not written for a character of a string.
def framing (c : Char) : Bool :=
  atomChar c || c == '"' || c == '[' || c == ']' || c == '{' || c == '}' || c == ',' || c == ':'

theorem alphanum_range (own : c.isAlphanum = true) : 0x30 ≤ c.toNat ∧ c.toNat < 0x7B ∧ c ≠ '\\' ∧
    c ≠ '<' ∧ c ≠ '>' := by
  refine ⟨?_,?_,?_,?_,?_⟩
  iterate 2
    simp only [Char.isAlphanum,Char.isAlpha,Char.isUpper,Char.isLower,Char.isDigit,Bool.or_eq_true,
      Bool.and_eq_true,decide_eq_true_eq,ge_iff_le,UInt32.le_iff_toNat_le] at own
    change _ ∨ 48 ≤ c.toNat ∧ c.toNat ≤ 57 at own
    change (65 ≤ c.toNat ∧ c.toNat ≤ 90 ∨ 97 ≤ c.toNat ∧ c.toNat ≤ 122) ∨ _ at own
    omega
  all_goals
    rintro rfl
    cases own

theorem atomChar_unescaped (own : atomChar c = true) : unescaped c = true := by
  simp only [atomChar,Bool.or_eq_true,beq_iff_eq] at own
  rcases own with ((word | rfl) | rfl) | rfl
  · obtain ⟨low,high,slash,less,more⟩ := alphanum_range word
    have quote : c ≠ '"' := by
      rintro rfl
      cases word
    have ampersand : c ≠ '&' := by
      rintro rfl
      cases word
    simp only [unescaped,Bool.not_eq_true',Bool.or_eq_false_iff,beq_eq_false_iff_ne,decide_eq_false_iff_not]
    exact ⟨⟨⟨⟨⟨⟨⟨quote,slash⟩,less⟩,more⟩,ampersand⟩,by omega⟩,by omega⟩,by omega⟩
  all_goals rfl

theorem framing_unescaped (frame : framing c = true) : c = '"' ∨ unescaped c = true := by
  simp only [framing,Bool.or_eq_true,beq_iff_eq] at frame
  rcases frame with ((((((own | rfl) | rfl) | rfl) | rfl) | rfl) | rfl) | rfl
  · exact Or.inr (atomChar_unescaped own)
  · exact Or.inl rfl
  all_goals exact Or.inr rfl

theorem escape_chars (member : d ∈ escape c) : d = '"' ∨ d = '\\' ∨ unescaped d = true := by
  unfold escape at member
  split at member
  · rename_i plain
    cases List.mem_singleton.mp member
    exact Or.inr (Or.inr plain)
  split at member
  · rename_i own
    rcases List.mem_cons.mp member with rfl | last
    · exact Or.inr (Or.inl rfl)
    · cases List.mem_singleton.mp last
      simp only [Bool.or_eq_true,beq_iff_eq] at own
      rcases own with rfl | rfl
      · exact Or.inl rfl
      · exact Or.inr (Or.inl rfl)
  -- A backslash and a letter, or the four digits of a code unit.
  have short : ∀ e,unescaped e = true → d ∈ ['\\',e] → d = '"' ∨ d = '\\' ∨ unescaped d = true := by
    intro e plain inside
    rcases List.mem_cons.mp inside with rfl | last
    · exact Or.inr (Or.inl rfl)
    · cases List.mem_singleton.mp last
      exact Or.inr (Or.inr plain)
  have digit (n : Nat) : unescaped (n%16).digitChar = true := by
    have all : ∀ m < 16,unescaped m.digitChar = true := by decide
    exact all _ (Nat.mod_lt _ (by decide))
  split at member
  · exact short 'b' rfl member
  split at member
  · exact short 'f' rfl member
  split at member
  · exact short 'n' rfl member
  split at member
  · exact short 'r' rfl member
  split at member
  · exact short 't' rfl member
  · simp only [hexDigits,List.mem_cons,List.not_mem_nil,or_false] at member
    rcases member with rfl | rfl | rfl | rfl | rfl | rfl
    · exact Or.inr (Or.inl rfl)
    · exact Or.inr (Or.inr rfl)
    all_goals exact Or.inr (Or.inr (digit _))

section Chars
variable {p q : Char → Prop} (frame : ∀ c,framing c = true → q c)
include frame

theorem bracket_chars {ts : List Text} (opens : framing a = true) (closes : framing b = true)
    (inside : ∀ t ∈ ts,∀ c ∈ t,q c) (member : c ∈ a :: (commas ts ++ [b])) : q c := by
  rcases List.mem_cons.mp member with rfl | later
  · exact frame _ opens
  · rcases List.mem_append.mp later with among | last
    · rcases mem_commas among with rfl | ⟨t,own,shown⟩
      · exact frame _ rfl
      · exact inside t own c shown
    · cases List.mem_singleton.mp last
      exact frame _ closes

variable (written : ∀ c,p c → ∀ d ∈ escape c,q d)
include written

theorem quote_chars {s : Text} (made : ∀ c ∈ s,p c) (member : c ∈ quote s) : q c := by
  rcases List.mem_cons.mp member with rfl | later
  · exact frame _ rfl
  · rcases List.mem_append.mp later with inside | last
    · obtain ⟨d,among,shown⟩ := List.mem_flatMap.mp inside
      exact written d (made d among) c shown
    · cases List.mem_singleton.mp last
      exact frame _ rfl

theorem render_chars (made : Over p depth v) : ∀ c ∈ render v,q c := by
  have word (literal : Text) (chars : literal.all atomChar = true) : ∀ c ∈ literal,q c := by
    intro c member
    apply frame
    simp [framing,List.all_eq_true.mp chars c member]
  induction made with
  | null => exact word _ rfl
  | @bool _ value =>
    cases value with
    | true => exact word _ rfl
    | false => exact word _ rfl
  | number numeric => exact word _ (number_atom numeric).2
  | string chars =>
    intro c member
    exact quote_chars frame written chars member
  | array inside ih =>
    intro c member
    rw [render,renderItems_map] at member
    refine bracket_chars frame rfl rfl ?_ member
    intro t among
    obtain ⟨item,own,rfl⟩ := List.mem_map.mp among
    exact ih item own
  | object names inside ih =>
    intro c member
    rw [render,renderFields_map] at member
    refine bracket_chars frame rfl rfl ?_ member
    intro t among
    obtain ⟨field,own,rfl⟩ := List.mem_map.mp among
    intro d shown
    rcases List.mem_append.mp shown with name | later
    · exact quote_chars frame written (names field own) name
    · rcases List.mem_cons.mp later with rfl | value
      · exact frame _ rfl
      · exact ih field own d value
end Chars

-- A text without backslashes: what stands in its strings are its own characters.
def Literal (p : Char → Prop) (s : Text) : Prop := ∀ c ∈ s,c ≠ '\\' ∧ (c = '"' ∨ p c)

section Literal
variable {p : Char → Prop}

theorem literal_subset (literal : Literal p s) (subset : t ⊆ s) : Literal p t :=
  fun c member => literal c (subset member)

theorem literal_skip (literal : Literal p s) : Literal p (skip s) :=
  literal_subset literal (List.dropWhile_sublist _).subset

theorem readPieces_literal (literal : Literal p s) (read : readPieces s = some (pieces,rest)) :
    (∀ c ∈ joinPieces pieces,p c) ∧ Literal p rest := by
  induction s generalizing pieces with
  | nil =>
    rw [readPieces.eq_def] at read
    cases read
  | cons c s ih =>
    have tail : Literal p s := literal_subset literal (List.subset_cons_self _ _)
    obtain ⟨noEscape,kind⟩ := literal c List.mem_cons_self
    rw [readPieces.eq_def] at read
    simp only [if_neg noEscape] at read
    split at read
    · cases read
      exact ⟨by rintro d ⟨⟩,tail⟩
    · rename_i inside
      split at read
      · cases read
      · obtain ⟨⟨later,after⟩,found,same⟩ := Option.bind_eq_some_iff.mp read
        cases same
        obtain ⟨chars,remains⟩ := ih tail found
        refine ⟨?_,remains⟩
        intro d member
        rcases List.mem_cons.mp member with rfl | among
        · exact kind.resolve_left inside
        · exact chars d among

theorem readString_literal (literal : Literal p s) (read : readString s = some (t,rest)) :
    (∀ c ∈ t,p c) ∧ Literal p rest := by
  obtain ⟨⟨pieces,after⟩,found,same⟩ := Option.map_eq_some_iff.mp read
  cases same
  exact readPieces_literal literal found

theorem readAtom_literal (literal : Literal p s) (read : readAtom s = some (v,rest)) :
    Over p depth v ∧ Literal p rest := by
  obtain ⟨value,found,same⟩ := Option.map_eq_some_iff.mp read
  cases same
  refine ⟨?_,literal_subset literal (List.dropWhile_sublist _).subset⟩
  unfold atom at found
  split at found
  · rename_i numeric
    cases found
    exact .number numeric
  repeat' split at found
  all_goals cases found
  · exact .null
  · exact .bool
  · exact .bool

section Sequence
variable {item : Text → Option (α × Text)} {good : α → Prop}
  (each : ∀ s x rest,Literal p s → item s = some (x,rest) → good x ∧ Literal p rest)
include each

theorem readMore_literal (literal : Literal p s) (read : readMore close item n s = some (xs,rest)) :
    (∀ x ∈ xs,good x) ∧ Literal p rest := by
  induction n generalizing s xs with
  | zero => cases read
  | succ n ih =>
    obtain ⟨⟨x,after⟩,first,read⟩ := Option.bind_eq_some_iff.mp read
    obtain ⟨own,remains⟩ := each s x after literal first
    have skipped := literal_skip remains
    dsimp only at read
    split at read
    · cases read
    · rename_i c next open_
      rw [open_] at skipped
      have tail : Literal p next := literal_subset skipped (List.subset_cons_self _ _)
      split at read
      · obtain ⟨⟨ys,last⟩,more,same⟩ := Option.bind_eq_some_iff.mp read
        cases same
        obtain ⟨others,remains⟩ := ih tail more
        exact ⟨List.forall_mem_cons.mpr ⟨own,others⟩,remains⟩
      · split at read
        · cases read
          exact ⟨List.forall_mem_singleton.mpr own,tail⟩
        · cases read

theorem readSequence_literal (literal : Literal p s) (read : readSequence close item s = some (xs,rest)) :
    (∀ x ∈ xs,good x) ∧ Literal p rest := by
  have skipped := literal_skip literal
  unfold readSequence at read
  split at read
  · cases read
  · rename_i c next open_
    rw [open_] at skipped
    split at read
    · cases read
      exact ⟨nofun,literal_subset skipped (List.subset_cons_self _ _)⟩
    · exact readMore_literal each literal read
end Sequence

theorem readField_literal {value : Text → Option (Value × Text)}
    (each : ∀ s v rest,Literal p s → value s = some (v,rest) → Over p depth v ∧ Literal p rest)
    (literal : Literal p s) (read : readField value s = some (field,rest)) :
    ((∀ c ∈ field.1,p c) ∧ Over p depth field.2) ∧ Literal p rest := by
  have skipped := literal_skip literal
  unfold readField at read
  split at read
  · rename_i next open_
    rw [open_] at skipped
    obtain ⟨⟨name,after⟩,named,read⟩ := Option.bind_eq_some_iff.mp read
    obtain ⟨chars,remains⟩ := readString_literal (literal_subset skipped (List.subset_cons_self _ _)) named
    have skipped := literal_skip remains
    dsimp only at read
    split at read
    · rename_i next colon
      rw [colon] at skipped
      obtain ⟨⟨v,last⟩,found,same⟩ := Option.bind_eq_some_iff.mp read
      cases same
      obtain ⟨made,remains⟩ := each next v _ (literal_subset skipped (List.subset_cons_self _ _)) found
      exact ⟨⟨chars,made⟩,remains⟩
    · cases read
  · cases read

theorem readValue_literal (literal : Literal p s) (read : readValue depth s = some (v,rest)) :
    Over p depth v ∧ Literal p rest := by
  induction depth using Nat.strongRecOn generalizing s v rest with
  | ind depth ih =>
    have skipped := literal_skip literal
    rw [readValue.eq_def] at read
    split at read
    · rename_i next open_
      rw [open_] at skipped
      obtain ⟨⟨value,after⟩,found,same⟩ := Option.map_eq_some_iff.mp read
      cases same
      obtain ⟨chars,remains⟩ := readString_literal (literal_subset skipped (List.subset_cons_self _ _)) found
      exact ⟨.string chars,remains⟩
    · rename_i next open_
      rw [open_] at skipped
      split at read
      · cases read
      · rename_i below
        obtain ⟨⟨items,after⟩,found,same⟩ := Option.map_eq_some_iff.mp read
        cases same
        obtain ⟨inside,remains⟩ := readSequence_literal (fun _ _ _ => ih below (Nat.lt_succ_self _))
          (literal_subset skipped (List.subset_cons_self _ _)) found
        exact ⟨.array inside,remains⟩
    · rename_i next open_
      rw [open_] at skipped
      split at read
      · cases read
      · rename_i below
        obtain ⟨⟨fields,after⟩,found,same⟩ := Option.map_eq_some_iff.mp read
        cases same
        obtain ⟨inside,remains⟩ := readSequence_literal
          (fun _ _ _ => readField_literal fun _ _ _ => ih below (Nat.lt_succ_self _))
          (literal_subset skipped (List.subset_cons_self _ _)) found
        exact ⟨.object (fun field member => (inside field member).1)
          (fun field member => (inside field member).2),remains⟩
    · exact readAtom_literal skipped read

theorem parse_literal (literal : Literal p s) (read : parse s = some v) : Over p maxNestingDepth v := by
  unfold parse at read
  split at read
  · rename_i value rest found
    split at read
    · cases read
      exact (readValue_literal literal found).1
    · cases read
  · cases read
end Literal

end SqlReview.Json
