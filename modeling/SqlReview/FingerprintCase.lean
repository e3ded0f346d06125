import SqlReview.FingerprintTwin

-- Queries that differ in the case of letters only.
namespace SqlReview.FingerprintCase
open GoBytes Fingerprint FingerprintView FingerprintLiteral FingerprintPending FingerprintRegular
  FingerprintNumber FingerprintTwin

def alphabetic (r : Nat) : Bool := (rune 'a' ≤ r && r ≤ rune 'z') || (rune 'A' ≤ r && r ≤ rune 'Z')

def Alike (r r' : Nat) : Prop := r = r' ∨ (alphabetic r = true ∧ alphabetic r' = true)

def Cased (a b : Bytes) : Prop :=
  a.map lowerByte = b.map lowerByte ∧ (∀ c ∈ a,c.toNat < 0x80) ∧ ∀ c ∈ b,c.toNat < 0x80

-- The quote character is the same in both runs.
def cased : Texts := plain Cased Alike fun char char' => char = char' ∧ alphabetic char = false

theorem lowerByte_toNat (b : UInt8) :
    (lowerByte b).toNat = if 0x41 ≤ b.toNat ∧ b.toNat ≤ 0x5A then b.toNat+0x20 else b.toNat := by
  revert b
  exact every_byte (by decide +kernel)

theorem alike_of_lower {b c : UInt8} (same : lowerByte b = lowerByte c) : Alike b.toNat c.toNat := by
  have same := congrArg UInt8.toNat same
  rw [lowerByte_toNat,lowerByte_toNat] at same
  unfold Alike alphabetic
  simp only [Bool.or_eq_true,Bool.and_eq_true,decide_eq_true_eq]
  change _ ∨ ((0x61 ≤ b.toNat ∧ b.toNat ≤ 0x7A) ∨ (0x41 ≤ b.toNat ∧ b.toNat ≤ 0x5A)) ∧
    ((0x61 ≤ c.toNat ∧ c.toNat ≤ 0x7A) ∨ (0x41 ≤ c.toNat ∧ c.toNat ≤ 0x5A))
  split at same <;> split at same <;> omega

theorem alphabetic_tests : alphabetic r = true → isDigit r = false ∧ isSpace r = false ∧
    ¬ quoting r ∧ (∀ c ∈ specials,r ≠ c) ∧ (∀ c ∈ prRunes,r ≠ c) ∧
    (inNumeral r = false → notNumeral r = true) := by
  have small : ∀ r < 0x80,alphabetic r = true → isDigit r = false ∧ isSpace r = false ∧
    ¬ quoting r ∧ (∀ c ∈ specials,r ≠ c) ∧ (∀ c ∈ prRunes,r ≠ c) ∧
      (inNumeral r = false → notNumeral r = true) := by decide +kernel
  intro letter
  apply small r _ letter
  simp only [alphabetic,Bool.or_eq_true,Bool.and_eq_true,decide_eq_true_eq] at letter
  rcases letter with ⟨_,upper⟩ | ⟨_,upper⟩
  · exact Nat.lt_of_le_of_lt upper (show rune 'z' < 0x80 by decide)
  · exact Nat.lt_of_le_of_lt upper (show rune 'Z' < 0x80 by decide)

theorem alike_test {f : Nat → Prop} (alike : Alike r r')
    (letters : ∀ r,alphabetic r = true → ¬ f r) : f r ↔ f r' := by
  rcases alike with same | ⟨letter,letter'⟩
  · rw [same]
  · exact iff_of_false (letters r letter) (letters r' letter')

theorem alike_flag {f : Nat → Bool} (alike : Alike r r')
    (letters : ∀ r,alphabetic r = true → f r = false) : f r = f r' := by
  rcases alike with same | ⟨letter,letter'⟩
  · rw [same]
  · rw [letters r letter,letters r' letter']

theorem alike_tests (pr : Alike p p') (alike : Alike r r') : Tests p p' r r' where
  digit := alike_flag alike fun _ letter => (alphabetic_tests letter).1
  space := alike_flag alike fun _ letter => (alphabetic_tests letter).2.1
  quote := alike_test alike fun _ letter => (alphabetic_tests letter).2.2.1
  same c listed := alike_test alike fun _ letter => (alphabetic_tests letter).2.2.2.1 c listed
  prSame c listed := alike_test pr fun _ letter => (alphabetic_tests letter).2.2.2.2.1 c listed
  prSpace _ := alike_flag pr fun _ letter => (alphabetic_tests letter).2.1

theorem alike_numeral (alike : Alike r r') (same : inNumeral r = inNumeral r')
    (ends : inNumeral r = false) : notNumeral r = notNumeral r' := by
  rcases alike with equal | ⟨letter,letter'⟩
  · rw [equal]
  · rw [(alphabetic_tests letter).2.2.2.2.2 ends,(alphabetic_tests letter').2.2.2.2.2 (same ▸ ends)]

theorem cased_lower (cased : Cased a b) (lower : Nat → Nat) : toLower lower a = toLower lower b := by
  obtain ⟨same,ascii,ascii'⟩ := cased
  rw [toLower_ascii lower a ascii,toLower_ascii lower b ascii',same]

theorem cased_level : Level Cased where
  length := by
    rintro a b ⟨same,_⟩
    simpa using congrArg List.length same
  drop := by
    rintro a b n ⟨same,ascii,ascii'⟩
    refine ⟨?_,fun c mem => ascii c (List.mem_of_mem_drop mem),fun c mem =>
      ascii' c (List.mem_of_mem_drop mem)⟩
    rw [List.map_drop,List.map_drop,same]

theorem cased_take (cased : Cased a b) (n : Nat) : Cased (a.take n) (b.take n) := by
  obtain ⟨same,ascii,ascii'⟩ := cased
  refine ⟨?_,fun c mem => ascii c (List.mem_of_mem_take mem),fun c mem => ascii' c (List.mem_of_mem_take mem)⟩
  rw [List.map_take,List.map_take,same]

theorem cased_append (left : Cased a b) (right : Cased c d) : Cased (a ++ c) (b ++ d) := by
  refine ⟨?_,List.forall_mem_append.mpr ⟨left.2.1,right.2.1⟩,List.forall_mem_append.mpr ⟨left.2.2,right.2.2⟩⟩
  rw [List.map_append,List.map_append,left.1,right.1]

theorem cased_nil : Cased [] [] := ⟨rfl,nofun,nofun⟩

theorem cased_lawful (env : Env) : Lawful env cased := by
  apply plain_lawful cased_nil
  · intro a b cased _ _
    rw [cased_lower cased]
  · intro a b cased _ _
    rw [cased_lower cased]
  · intro a b cased
    rw [cased_lower cased]

structure Letters (p q : Nat × Bytes) : Prop where
  bytes : ∃ b c : UInt8,p = (b.toNat,[b]) ∧ q = (c.toNat,[c])
  cased : Cased p.2 q.2
  alike : Alike p.1 q.1

theorem letters_pieces (letters : Letters p q) : Pieces cased p.1 q.1 p.2 q.2 where
  runes := letters.alike
  chars quote := by
    rcases letters.alike with same | ⟨letter,_⟩
    · refine ⟨same,?_⟩
      rcases quote with single | double
      · rw [single]
        rfl
      · rw [double]
        rfl
    · exact absurd quote (alphabetic_tests letter).2.2.1
  more texts := cased_append texts letters.cased
  rest := by
    obtain ⟨b,c,first,second⟩ := letters.bytes
    rw [first,second]
    exact cased_nil
  length := cased_level.length letters.cased

-- Where the machine looks at the letter itself: x goes on in a number and X ends it, x and b before a quote
-- are left out and X and B are not, and the name behind CALL is returned as it is written.
def caseSafe (v w : View) (p q : Nat × Bytes) : Bool :=
  (v.s ≠ .inNumber || inNumeral p.1 = inNumeral q.1) &&
  (!passes v.s || !decide (quoting p.1) || decide (hexPrefix v.pr) = decide (hexPrefix w.pr)) &&
  (!passes v.s || p.1 ≠ rune '(' || v.prevWord ≠ str "call" || v.pend = w.pend)

theorem step_cased (twin : Twin cased v w) (letters : Letters p q) (safe : caseSafe v w p q = true) :
    Paired cased (View.step env v p.1 p.2) (View.step env w q.1 q.2) := by
  simp only [caseSafe,Bool.and_eq_true,Bool.or_eq_true,Bool.not_eq_true',decide_eq_true_eq,
    decide_eq_false_iff_not] at safe
  obtain ⟨⟨numeral,hex⟩,call⟩ := safe
  have pieces := letters_pieces letters
  have agrees : Agrees v w p.1 q.1 := by
    refine ⟨alike_tests twin.pr letters.alike,fun state => ?_,fun _ _ => ?_,fun reaches quote => ?_⟩
    · have same := numeral.resolve_left (not_not.mpr state)
      exact ⟨same,alike_numeral letters.alike same⟩
    · obtain ⟨same,other⟩ := twin.char
      rw [← same]
      apply alike_test (f := fun r => r = v.quoteChar) letters.alike
      intro r letter equal
      have other : alphabetic v.quoteChar = false := other
      rw [← equal,letter] at other
      exact Bool.noConfusion other
    · have same :=
        hex.resolve_left fun no =>
          no.elim (fun closed => by rw [reaches] at closed; exact Bool.noConfusion closed) (· quote)
      exact decide_eq_decide.mp same
  apply step_paired (cased_lawful env) twin pieces agrees
  · intro reaches
    have out : v.out = w.out := twin.out
    refine ⟨fun _ _ _ => congrArg List.dropLast out,fun par named => ?_⟩
    rcases call with ((closed | other) | other) | same
    · rw [reaches] at closed
      exact Bool.noConfusion closed
    · exact absurd par other
    · exact absurd named other
    · exact same
  · intro a b twin _ _
    exact copySlice_plain cased_level env twin pieces.length fun _ =>
      cased_lower (cased_take twin.pend _) env.lower

theorem letters_pair (p q : Bytes) (ascii : ∀ b ∈ p,b.toNat < 0x80)
    (ascii' : ∀ b ∈ q,b.toNat < 0x80) (same : p.map lowerByte = q.map lowerByte) :
    List.Forall₂ Letters (runes p) (runes q) := by
  rw [runes_text p ascii,runes_text q ascii']
  induction p generalizing q with
  | nil =>
    cases q with
    | nil => exact .nil
    | cons c q => cases same
  | cons b p ih =>
    cases q with
    | nil => cases same
    | cons c q =>
      obtain ⟨first,later⟩ := List.forall_mem_cons.mp ascii
      obtain ⟨first',later'⟩ := List.forall_mem_cons.mp ascii'
      obtain ⟨head,tail⟩ := List.cons.inj same
      refine .cons ⟨⟨b,c,rfl,rfl⟩,⟨?_,?_,?_⟩,alike_of_lower head⟩ (ih q later later' tail)
      · exact congrArg (fun b => [b]) head
      · exact List.forall_mem_singleton.mpr first
      · exact List.forall_mem_singleton.mpr first'

def caseKept (env : Env) (p q : Bytes) : Bool :=
  lockstep env caseSafe (runes (p ++ [byte ' '])) (runes (q ++ [byte ' '])) .start .start

theorem case_ignored {env : Env} {p q : Bytes} (ascii : ∀ b ∈ p,b.toNat < 0x80)
    (ascii' : ∀ b ∈ q,b.toNat < 0x80)
    (same : p.map lowerByte = q.map lowerByte) (kept : caseKept env p q = true)
    (command : run env p ≠ .error .adminCommand)
    (left : Completes (run env p)) (right : Completes (run env q)) :
    fingerprint env p = fingerprint env q := by
  have space : ∀ b ∈ [byte ' '],b.toNat < 0x80 := List.forall_mem_singleton.mpr (by decide)
  have pairs :=
    letters_pair (p ++ [byte ' ']) (q ++ [byte ' ']) (List.forall_mem_append.mpr ⟨ascii,space⟩)
      (List.forall_mem_append.mpr ⟨ascii',space⟩)
    (by rw [List.map_append,List.map_append,same])
  have start : Twin cased .start .start := ⟨cased_nil,rfl,rfl,.inl rfl,⟨rfl,rfl⟩,rfl⟩
  have paired := run_paired (fun _ _ _ _ => step_cased) pairs start kept
  exact paired.same.fingerprint command left right

theorem keywords_case_ignored :
    caseKept asciiEnv (str "SELECT Max(X) FROM T WHERE B=0xab")
      (str "select MAX(x) From t where b=0xaB") = true ∧
    fingerprint asciiEnv (str "SELECT Max(X) FROM T WHERE B=0xab") =
      fingerprint asciiEnv (str "select MAX(x) From t where b=0xaB") := by
  have kept : caseKept asciiEnv (str "SELECT Max(X) FROM T WHERE B=0xab")
      (str "select MAX(x) From t where b=0xaB") = true := by
    decide +kernel
  exact ⟨kept,case_ignored (by decide +kernel) (by decide +kernel) (by decide +kernel) kept
    (by decide +kernel) (by decide +kernel) (by decide +kernel)⟩

theorem case_shown :
    (str "select x'0f'").map lowerByte = (str "select X'0f'").map lowerByte ∧
    fingerprint asciiEnv (str "select x'0f'") = some (str "select ?") ∧
      fingerprint asciiEnv (str "select X'0f'") = some (str "select x?") ∧
    (str "call P(1)").map lowerByte = (str "CALL p(1)").map lowerByte ∧
    fingerprint asciiEnv (str "call P(1)") = some (str "call P") ∧
      fingerprint asciiEnv (str "CALL p(1)") = some (str "call p") := by
  decide +kernel

end SqlReview.FingerprintCase
