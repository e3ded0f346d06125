import SqlReview.FingerprintOffsets

namespace SqlReview.FingerprintProvenance
open GoBytes Fingerprint FingerprintView FingerprintOffsets

-- The machine with what it has read and written: for each byte of f[0:fi] the offset it was copied from,
-- the ranges of q copied so far and the offsets of the literals recognised so far.
structure Trace where
  machine : Machine
  origins : List (Option Nat)
  ranges : List (Nat × Nat)
  literals : List Nat

-- From m to n all but the last `back` bytes are kept and the rest is the function's own.
def putIn (origins : List (Option Nat)) (back : Nat) (m n : Machine) : List (Option Nat) :=
  origins.take (m.fi-back) ++ List.replicate (n.fi-(m.fi-back)) none

def copied (m : Machine) : List (Nat × Nat) :=
  if (m.cpFromOffset : Int) < m.cpToOffset then [(m.cpFromOffset,m.cpToOffset.toNat)] else []

def offsets (ranges : List (Nat × Nat)) : List Nat :=
  ranges.flatMap fun range => List.range' range.1 (range.2-range.1)

-- A literal runs from the rune that puts the machine inQuote to the one that takes it out.
def quoted (m n : Machine) (qi : Nat) (bs : Bytes) : List Nat :=
  if m.s = .inQuote ∨ n.s = .inQuote then List.range' qi bs.length else []

def Trace.step (env : Env) (q : Bytes) (t : Trace) (qi : Nat) (piece : Nat × Bytes) : Go Trace := do
  match ← skipPart t.machine qi piece.1 with
  | .skip n => return ⟨n,putIn t.origins 0 t.machine n,t.ranges,t.literals ++ quoted t.machine n qi piece.2⟩
  | .through a =>
    let k ← changeState env q a qi piece.1
    let l ← copySlice env q k
    let origins :=
      putIn (putIn t.origins 0 t.machine a) (wordBack env q a qi piece.1).toNat a k ++
        (offsets (copied k)).map some
    return ⟨{l with pr := piece.1},origins ++ List.replicate (l.fi-origins.length) none,t.ranges ++ copied k,
      t.literals ++ quoted t.machine l qi piece.2⟩

def Trace.loop (env : Env) (q : Bytes) : Nat → List (Nat × Bytes) → Trace → Go Trace
  | _,[],t => .ok t
  | qi,piece :: rest,t => do
    let t ← t.step env q qi piece
    Trace.loop env q (qi+piece.2.length) rest t

def Trace.run (env : Env) (query : Bytes) : Go Trace :=
  let q := query ++ [byte ' ']
  Trace.loop env q 0 (runes q) ⟨Fingerprint.start q,[],[],[]⟩

-- The bytes that finish returns, each with its origin.
def Trace.output (t : Trace) : List (UInt8 × Option Nat) :=
  let fi := trimSpaces t.machine.f t.machine.fi
  if fi ≤ t.machine.f.length then ((t.machine.f.zip t.origins).take fi).filter (·.1 ≠ 0) else []

-- The bytes of a text at the offsets that are in no literal.
def outside (literals : List Nat) (text : Bytes) : Bytes :=
  ((List.range text.length).filter (!literals.contains ·)).filterMap (text[·]?)

theorem Trace.step_machine (env : Env) (q : Bytes) (t : Trace) (qi : Nat) (piece : Nat × Bytes) :
    (t.step env q qi piece).map Trace.machine = Fingerprint.step env q t.machine qi piece.1 := by
  unfold Trace.step Fingerprint.step
  cases skipPart t.machine qi piece.1 with
  | error exit => rfl
  | ok skipped =>
    cases skipped with
    | skip n => rfl
    | through a =>
      change Except.map _ (changeState env q a qi piece.1 >>= _) = (changeState env q a qi piece.1 >>= _)
      cases changeState env q a qi piece.1 with
      | error exit => rfl
      | ok k =>
        change Except.map _ (copySlice env q k >>= _) = (copySlice env q k >>= _)
        cases copySlice env q k with
        | error exit => rfl
        | ok l => rfl

theorem Trace.loop_machine (env : Env) (q : Bytes) (t : Trace) (qi : Nat) (pieces : List (Nat × Bytes)) :
    (Trace.loop env q qi pieces t).map Trace.machine = Fingerprint.loop env q qi pieces t.machine := by
  induction pieces generalizing qi t with
  | nil => rfl
  | cons piece rest ih =>
    have same := Trace.step_machine env q t qi piece
    change Except.map _ (t.step env q qi piece >>= _) = (Fingerprint.step env q t.machine qi piece.1 >>= _)
    rw [← same]
    cases t.step env q qi piece with
    | error exit => rfl
    | ok next => exact ih next (qi+piece.2.length)

theorem Trace.run_machine (env : Env) (query : Bytes) :
    (Trace.run env query).map Trace.machine = Fingerprint.run env query :=
  Trace.loop_machine env _ _ 0 _

theorem Trace.step_ok {env : Env} {t u : Trace} (ran : t.step env q qi piece = .ok u) :
    (∃ n,skipPart t.machine qi piece.1 = .ok (.skip n) ∧
      u = ⟨n,putIn t.origins 0 t.machine n,t.ranges,t.literals ++ quoted t.machine n qi piece.2⟩) ∨
    ∃ a k l origins,skipPart t.machine qi piece.1 = .ok (.through a) ∧
      changeState env q a qi piece.1 = .ok k ∧ copySlice env q k = .ok l ∧
      origins = putIn (putIn t.origins 0 t.machine a) (wordBack env q a qi piece.1).toNat a k ++
      (offsets (copied k)).map some ∧
      u = ⟨{l with pr := piece.1},origins ++ List.replicate (l.fi-origins.length) none,t.ranges ++ copied k,
        t.literals ++ quoted t.machine l qi piece.2⟩ := by
  obtain ⟨skipped,first,ran⟩ := bind_ok ran
  cases skipped with
  | skip n =>
    cases ran
    exact .inl ⟨n,first,rfl⟩
  | through a =>
    obtain ⟨k,second,ran⟩ := bind_ok ran
    obtain ⟨l,third,ran⟩ := bind_ok ran
    cases ran
    exact .inr ⟨a,k,l,_,first,second,third,rfl,rfl⟩

-- Each byte of f[0:fi] is the byte of the source at its origin, or the function's own; the origins
-- come in the order of the ranges.
structure Tagged (source : Bytes) (ranges : List (Nat × Nat)) (f : Bytes) (fi : Nat)
    (origins : List (Option Nat)) : Prop where
  fits : origins.length = fi
  copied : ∀ (i o : Nat),origins[i]? = some (some o) → f[i]? = source[o]?
  own : ∀ (i : Nat) (b : UInt8),origins[i]? = some none → f[i]? = some b → b ∈ inserted
  order : (origins.filterMap id).Sublist (offsets ranges)

theorem Tagged.put (tagged : Tagged source ranges f fi origins) (adds : Adds back f fi g gi) :
    Tagged source ranges g gi (origins.take (fi-back) ++ List.replicate (gi-(fi-back)) none) := by
  have grows := adds.grows
  have size : (origins.take (fi-back)).length = fi-back := by
    rw [List.length_take,tagged.fits]
    omega
  have early : ∀ (i : Nat) (tag : Option Nat),
    (origins.take (fi-back) ++ List.replicate (gi-(fi-back)) none)[i]? = some tag → i < fi-back →
      origins[i]? = some tag := by
    intro i tag found low
    rwa [List.getElem?_append_left (by omega),List.getElem?_take_of_lt low] at found
  refine ⟨?_,?_,?_,?_⟩
  · rw [List.length_append,size,List.length_replicate]
    omega
  · intro i o found
    by_cases low : i < fi-back
    · rw [adds.kept i low]
      exact tagged.copied i o (early i _ found low)
    · rw [List.getElem?_append_right (by omega)] at found
      cases (List.mem_replicate.mp (List.mem_of_getElem? found)).2
  · intro i b found here
    by_cases low : i < fi-back
    · rw [adds.kept i low] at here
      exact tagged.own i b (early i _ found low) here
    · obtain ⟨bound,_⟩ := List.getElem?_eq_some_iff.mp found
      rw [List.length_append,size,List.length_replicate] at bound
      exact adds.own i b (by omega) (by omega) here
  · rw [List.filterMap_append]
    have nothing : (List.replicate (gi-(fi-back)) (none : Option Nat)).filterMap id = [] := by simp
    rw [nothing,List.append_nil]
    exact ((List.take_sublist _ _).filterMap id).trans tagged.order

theorem Tagged.copy (tagged : Tagged source ranges f fi origins) (room : fi ≤ f.length)
    (inside : b ≤ source.length)
    (rest : Bytes) : Tagged source (ranges ++ [(a,b)]) (f.take fi ++ slice source a b ++ rest) (fi+(b-a))
      (origins ++ (offsets [(a,b)]).map some) := by
  have front : (f.take fi).length = fi := by
    rw [List.length_take]
    omega
  have fits := tagged.fits
  have new : offsets [(a,b)] = List.range' a (b-a) := by simp [offsets]
  have width := slice_length source inside (i := a)
  rw [new]
  have early : ∀ (i : Nat) (tag : Option Nat),(origins ++ (List.range' a (b-a)).map some)[i]? =
    some tag → i < fi →
      origins[i]? = some tag ∧ (f.take fi ++ slice source a b ++ rest)[i]? = f[i]? := by
    intro i tag found low
    rw [List.getElem?_append_left (by omega)] at found
    rw [List.append_assoc,List.getElem?_append_left (by omega),List.getElem?_take_of_lt low]
    exact ⟨found,rfl⟩
  refine ⟨?_,?_,?_,?_⟩
  · rw [List.length_append,List.length_map,List.length_range',fits]
  · intro i o found
    by_cases low : i < fi
    · obtain ⟨old,same⟩ := early i _ found low
      rw [same]
      exact tagged.copied i o old
    · obtain ⟨bound,_⟩ := List.getElem?_eq_some_iff.mp found
      rw [List.length_append,List.length_map,List.length_range',fits] at bound
      rw [List.getElem?_append_right (by omega),List.getElem?_map,List.getElem?_range' (by omega)] at found
      have here : a+(i-fi) = o := by
        rw [fits] at found
        simpa using found
      rw [List.append_assoc,List.getElem?_append_right (by omega),front,
        List.getElem?_append_left (by omega),slice,
        List.getElem?_take_of_lt (by omega),List.getElem?_drop,here]
  · intro i c found at_
    by_cases low : i < fi
    · obtain ⟨old,same⟩ := early i _ found low
      rw [same] at at_
      exact tagged.own i c old at_
    · rw [List.getElem?_append_right (by omega)] at found
      obtain ⟨o,_,none_⟩ := List.mem_map.mp (List.mem_of_getElem? found)
      cases none_
  · rw [List.filterMap_append,offsets,List.flatMap_append]
    apply tagged.order.append
    simp

-- What is known of a trace at the head of the iteration at qi.
structure Traced (source : Bytes) (qi : Nat) (t : Trace) : Prop where
  ordered : Ordered qi t.machine
  tagged : Tagged source t.ranges t.machine.f t.machine.fi t.origins
  sorted : t.ranges.Pairwise fun one two => one.2 ≤ two.1
  proper : ∀ range ∈ t.ranges,range.1 < range.2 ∧ range.2 ≤ t.machine.cpFromOffset ∧ range.2 < source.length
  past : ∀ o ∈ t.literals,o < qi
  apart : ∀ range ∈ t.ranges,∀ o ∈ t.literals,o < range.1 ∨ range.2 ≤ o
  closed : t.machine.s ≠ .inQuote → ∀ o ∈ t.literals,o < t.machine.cpFromOffset

theorem mem_quoted {m n : Machine} (one : bs.length = 1) (inside : o ∈ quoted m n qi bs) :
    o = qi ∧ (m.s = .inQuote ∨ n.s = .inQuote) := by
  unfold quoted at inside
  split at inside
  · rename_i state
    rw [one,List.mem_range'_1] at inside
    exact ⟨by omega,state⟩
  · cases inside

section Step
variable {source q : Bytes} {env : Env} {qi : Nat} {t u : Trace} {a k l n : Machine}

theorem Traced.skip (traced : Traced source qi t) (one : bs.length = 1)
    (ran : skipPart t.machine qi r = .ok (.skip n)) :
    Traced source (qi+1) ⟨n,putIn t.origins 0 t.machine n,t.ranges,
      t.literals ++ quoted t.machine n qi bs⟩ := by
  obtain ⟨moves,leaves⟩ := skipPart_skips ran
  obtain ⟨grows,low,top⟩ := skipPart_ordered traced.ordered ran
  refine ⟨⟨low,top⟩,traced.tagged.put moves.adds,traced.sorted,?_,?_,?_,?_⟩
  · intro range mem
    obtain ⟨wide,before,inside⟩ := traced.proper range mem
    exact ⟨wide,Nat.le_trans before grows,inside⟩
  · intro o mem
    rcases List.mem_append.mp mem with old | new
    · exact Nat.lt_succ_of_lt (traced.past o old)
    · rw [(mem_quoted one new).1]
      exact Nat.lt_succ_self qi
  · intro range inRanges o mem
    rcases List.mem_append.mp mem with old | new
    · exact traced.apart range inRanges o old
    · rw [(mem_quoted one new).1]
      exact .inr (Nat.le_trans (traced.proper range inRanges).2.1 traced.ordered.low)
  · intro outside_ o mem
    dsimp only at outside_ ⊢
    by_cases quote : t.machine.s = .inQuote
    · -- The rune closes the literal: all of it is behind cpFromOffset.
      have behind : n.cpFromOffset = qi+1 := (leaves quote).resolve_left outside_
      rcases List.mem_append.mp mem with old | new
      · have := traced.past o old
        omega
      · have := (mem_quoted one new).1
        omega
    · rcases List.mem_append.mp mem with old | new
      · exact Nat.lt_of_lt_of_le (traced.closed quote o old) grows
      · rcases (mem_quoted one new).2 with before | after
        · exact absurd before quote
        · exact absurd after outside_

-- The copy of q[cpFromOffset:cpToOffset], with the space that afterCopy may add.
theorem copySlice_tagged {ranges : List (Nat × Nat)} {origins : List (Option Nat)}
    (ascii : ∀ b ∈ q,b.toNat < 0x80)
    (tagged : Tagged (q.map lowerByte) ranges k.f k.fi origins) (top : k.cpToOffset ≤ q.length)
    (ran : copySlice env q k = .ok l) :
    ∃ more,more = origins ++ (offsets (copied k)).map some ∧
      Tagged (q.map lowerByte) (ranges ++ copied k) l.f l.fi
      (more ++ List.replicate (l.fi-more.length) none) := by
  refine ⟨_,rfl,?_⟩
  rcases copySlice_cases ran with ⟨idle,rfl⟩ | ⟨due,m,put,rfl⟩
  · have none_ : copied l = [] := if_neg idle
    rw [none_]
    have fits := tagged.fits
    simpa [offsets,fits] using tagged
  · have some_ : copied k = [(k.cpFromOffset,k.cpToOffset.toNat)] := if_pos due
    have lowered : toLower env.lower (slice q k.cpFromOffset k.cpToOffset.toNat) =
        slice (q.map lowerByte) k.cpFromOffset k.cpToOffset.toNat := by
      rw [toLower_ascii]
      · simp only [slice,List.map_take,List.map_drop]
      · exact fun b mem => ascii b (List.mem_of_mem_drop (List.mem_of_mem_take mem))
    have inside : k.cpToOffset.toNat ≤ (q.map lowerByte).length := by
      rw [List.length_map]
      omega
    have size := slice_length (q.map lowerByte) inside (i := k.cpFromOffset)
    rw [lowered] at put
    obtain ⟨room,same⟩ := copyInto_ok size put
    have early : k.fi ≤ k.f.length := Nat.le_trans (Nat.le_add_right _ _) room
    have copy : Tagged (q.map lowerByte) (ranges ++ copied k) m.f m.fi
        (origins ++ (offsets (copied k)).map some) := by
      rw [same,some_]
      exact tagged.copy early inside _
    obtain ⟨_,_,_,adds⟩ := afterCopy_moves env {m with cpFromOffset := k.cpToOffset.toNat}
    have final := copy.put adds
    rw [Nat.sub_zero,List.take_of_length_le (Nat.le_of_eq copy.fits)] at final
    rw [copy.fits]
    exact final

theorem mem_copied (mem : range ∈ copied k) : range = (k.cpFromOffset,k.cpToOffset.toNat) ∧
    (k.cpFromOffset : Int) < k.cpToOffset := by
  unfold copied at mem
  split at mem
  · rename_i due
    exact ⟨List.mem_singleton.mp mem,due⟩
  · cases mem

theorem copied_pairwise (k : Machine) : (copied k).Pairwise fun one two => one.2 ≤ two.1 := by
  unfold copied
  split
  · exact List.pairwise_singleton _ _
  · exact .nil

theorem Traced.through (traced : Traced (q.map lowerByte) qi t) (ascii : ∀ b ∈ q,b.toNat < 0x80)
    (room : qi < q.length) (one : bs.length = 1)
    (entered : skipPart t.machine qi r = .ok (.through a))
    (changed : changeState env q a qi r = .ok k) (ran : copySlice env q k = .ok l)
    (same : origins = putIn (putIn t.origins 0 t.machine a) (wordBack env q a qi r).toNat a k ++
    (offsets (copied k)).map some) :
    Traced (q.map lowerByte) (qi+1) ⟨{l with pr := r},
      origins ++ List.replicate (l.fi-origins.length) none,t.ranges ++ copied k,
      t.literals ++ quoted t.machine l qi bs⟩ := by
  obtain ⟨free,moves⟩ := skipPart_enters entered
  have first := (moves.low_le traced.ordered).1
  obtain ⟨second,low,top⟩ := changeState_ordered (moves.keeps traced.ordered) changed
  obtain ⟨third,low',top',behind⟩ := copySlice_ordered low top ran
  have grows : t.machine.cpFromOffset ≤ l.cpFromOffset := by omega
  have written := (traced.tagged.put moves.adds).put (changeState_moves changed).adds
  obtain ⟨more,named,tagged⟩ := copySlice_tagged ascii written (by omega) ran
  rw [← show origins = more from same.trans named.symm] at tagged
  -- The copied range starts behind every earlier range and literal and ends before qi.
  have fresh : ∀ range ∈ copied k,t.machine.cpFromOffset ≤ range.1 ∧ range.1 < range.2 ∧
      range.2 ≤ qi ∧ range.2 ≤ l.cpFromOffset := by
    intro range mem
    obtain ⟨rfl,due⟩ := mem_copied mem
    have := behind due
    dsimp only
    omega
  refine ⟨⟨low',by dsimp only; omega⟩,tagged,?_,?_,?_,?_,?_⟩
  · apply List.pairwise_append.mpr
    refine ⟨traced.sorted,copied_pairwise k,?_⟩
    intro old inOld new inNew
    exact Nat.le_trans (traced.proper old inOld).2.1 (fresh new inNew).1
  · intro range mem
    rw [List.length_map]
    rcases List.mem_append.mp mem with old | new
    · obtain ⟨wide,before,inside⟩ := traced.proper range old
      rw [List.length_map] at inside
      exact ⟨wide,Nat.le_trans before grows,inside⟩
    · obtain ⟨_,wide,before,last⟩ := fresh range new
      exact ⟨wide,last,Nat.lt_of_le_of_lt before room⟩
  · intro o mem
    rcases List.mem_append.mp mem with old | new
    · exact Nat.lt_succ_of_lt (traced.past o old)
    · rw [(mem_quoted one new).1]
      exact Nat.lt_succ_self qi
  · intro range inRanges o mem
    have early : range.2 ≤ qi := by
      rcases List.mem_append.mp inRanges with old | new
      · exact Nat.le_trans (traced.proper range old).2.1 traced.ordered.low
      · exact (fresh range new).2.2.1
    rcases List.mem_append.mp mem with oldLiteral | new
    · rcases List.mem_append.mp inRanges with old | new
      · exact traced.apart range old o oldLiteral
      · exact .inl (Nat.lt_of_lt_of_le (traced.closed free o oldLiteral) (fresh range new).1)
    · rw [(mem_quoted one new).1]
      exact .inr early
  · intro outside_ o mem
    rcases List.mem_append.mp mem with old | new
    · exact Nat.lt_of_lt_of_le (traced.closed free o old) grows
    · rcases (mem_quoted one new).2 with before | after
      · exact absurd before free
      · exact absurd after outside_

theorem Traced.step (traced : Traced (q.map lowerByte) qi t) (ascii : ∀ b ∈ q,b.toNat < 0x80)
    (room : qi < q.length)
    (one : piece.2.length = 1) (ran : t.step env q qi piece = .ok u) : Traced (q.map lowerByte) (qi+1) u := by
  rcases Trace.step_ok ran with ⟨n,skipped,rfl⟩ | ⟨a,k,l,origins,entered,changed,copies,same,rfl⟩
  · exact traced.skip one skipped
  · exact traced.through ascii room one entered changed copies same

theorem Traced.loop (traced : Traced (q.map lowerByte) qi t) (ascii : ∀ b ∈ q,b.toNat < 0x80)
    (rest : q.drop qi = bytes)
    (ran : Trace.loop env q qi (bytes.map fun b => (b.toNat,[b])) t = .ok u) :
    ∃ qj,Traced (q.map lowerByte) qj u := by
  induction bytes generalizing qi t with
  | nil =>
    cases ran
    exact ⟨qi,traced⟩
  | cons b bytes ih =>
    obtain ⟨next,stepped,ran⟩ := bind_ok ran
    have room : qi < q.length := by
      by_contra full
      rw [List.drop_eq_nil_of_le (by omega)] at rest
      cases rest
    apply ih (traced.step ascii room rfl stepped) _ ran
    rw [← List.drop_drop,rest]
    rfl

end Step

theorem offsets_sorted (sorted : ranges.Pairwise fun (one two : Nat × Nat) => one.2 ≤ two.1) :
    (offsets ranges).Pairwise (· < ·) := by
  induction sorted with
  | nil => exact .nil
  | @cons range ranges first rest ih =>
    rw [offsets,List.flatMap_cons]
    apply List.pairwise_append.mpr
    refine ⟨List.pairwise_lt_range',ih,?_⟩
    intro low inLow high inHigh
    obtain ⟨other,mem,inHigh⟩ := List.mem_flatMap.mp inHigh
    have := first other mem
    rw [List.mem_range'_1] at inLow inHigh
    omega

theorem sublist_of_increasing {xs ys : List Nat} (left : xs.Pairwise (· < ·))
    (right : ys.Pairwise (· < ·)) (subset : ∀ x ∈ xs,x ∈ ys) :
    xs.Sublist ys := by
  apply List.sublist_of_subperm_of_sortedLE
  · apply List.subperm_of_subset
    · exact left.imp Nat.ne_of_lt
    · exact fun x mem => subset x mem
  · exact (left.imp Nat.le_of_lt).sortedLE
  · exact (right.imp Nat.le_of_lt).sortedLE

section Output
variable {t : Trace} {source : Bytes} (tagged : Tagged source t.ranges t.machine.f t.machine.fi t.origins)
include tagged

-- The output is a part of f[0:fi] with its origins.
theorem output_part :
    ∃ n,n ≤ t.origins.length ∧ t.output = ((t.machine.f.take n).zip (t.origins.take n)).filter (·.1 ≠ 0) ∧
    (t.machine.f.take n).length = n ∧ (t.machine.f.take n).filter (· ≠ 0) = finish t.machine := by
  have le := trimSpaces_le t.machine.f t.machine.fi
  by_cases room : trimSpaces t.machine.f t.machine.fi ≤ t.machine.f.length
  · refine ⟨trimSpaces t.machine.f t.machine.fi,by rw [tagged.fits]; exact le,?_,
      List.length_take_of_le room,?_⟩
    · rw [Trace.output,if_pos room,List.zip_eq_zipWith,List.take_zipWith,List.zip_eq_zipWith]
    · rw [finish,if_pos room]
  · refine ⟨0,Nat.zero_le _,?_,rfl,?_⟩
    · rw [Trace.output,if_neg room]
      rfl
    · rw [finish,if_neg room]
      rfl

theorem output_text : t.output.map Prod.fst = finish t.machine := by
  obtain ⟨n,le,same,size,text⟩ := output_part tagged
  have fst : ((t.machine.f.take n).zip (t.origins.take n)).map Prod.fst = t.machine.f.take n := by
    apply List.map_fst_zip
    rw [size,List.length_take]
    omega
  have kept := congrArg (List.filter (· ≠ 0)) fst
  rw [List.filter_map] at kept
  rw [same,← text,← kept]
  rfl

theorem output_order : (t.output.filterMap Prod.snd).Sublist (offsets t.ranges) := by
  obtain ⟨n,le,same,size,_⟩ := output_part tagged
  have snd : ((t.machine.f.take n).zip (t.origins.take n)).map Prod.snd = t.origins.take n := by
    apply List.map_snd_zip
    rw [size,List.length_take]
    omega
  have part : (t.output.map Prod.snd).Sublist t.origins := by
    rw [same]
    apply (List.filter_sublist.map Prod.snd).trans
    rw [snd]
    exact List.take_sublist n _
  have tags := part.filterMap id
  rw [List.filterMap_map] at tags
  exact tags.trans tagged.order

theorem output_tags (mem : (b,tag) ∈ t.output) :
    (tag = none → b ∈ inserted) ∧ ∀ o,tag = some o → source[o]? = some b := by
  obtain ⟨n,_,same,_,_⟩ := output_part tagged
  rw [same] at mem
  obtain ⟨i,at_⟩ := List.mem_iff_getElem?.mp (List.mem_of_mem_filter mem)
  obtain ⟨byteAt,tagAt⟩ := List.getElem?_zip_eq_some.mp at_
  have early : i < n := by
    obtain ⟨bound,_⟩ := List.getElem?_eq_some_iff.mp tagAt
    rw [List.length_take] at bound
    omega
  rw [List.getElem?_take_of_lt early] at byteAt tagAt
  refine ⟨?_,?_⟩
  · intro own
    rw [own] at tagAt
    exact tagged.own i b tagAt byteAt
  · intro o from_
    rw [from_] at tagAt
    rw [← tagged.copied i o tagAt]
    exact byteAt

end Output

-- What the run says about where its output comes from, over the lower-cased query.
structure Provenance (text : Bytes) (t : Trace) : Prop where
  ordered : t.ranges.Pairwise fun one two => one.2 ≤ two.1
  proper : ∀ range ∈ t.ranges,range.1 < range.2 ∧ range.2 ≤ text.length
  apart : ∀ range ∈ t.ranges,∀ o ∈ t.literals,o < range.1 ∨ range.2 ≤ o
  output : t.output.map Prod.fst = finish t.machine
  own : ∀ b,(b,none) ∈ t.output → b ∈ inserted
  copied : ∀ b o,(b,some o) ∈ t.output → text[o]? = some b ∧ ∃ range ∈ t.ranges,range.1 ≤ o ∧ o < range.2
  subsequence : ((t.output.filter (·.2.isSome)).map Prod.fst).Sublist (outside t.literals text)

theorem copied_bytes (text : Bytes) (output : List (UInt8 × Option Nat))
    (from_ : ∀ b o,(b,some o) ∈ output → text[o]? = some b) :
    (output.filter (·.2.isSome)).map Prod.fst = (output.filterMap Prod.snd).filterMap (text[·]?) := by
  induction output with
  | nil => rfl
  | cons pair output ih =>
    have rest := ih fun b o mem => from_ b o (List.mem_cons_of_mem _ mem)
    obtain ⟨b,tag⟩ := pair
    cases tag with
    | none => exact rest
    | some o =>
      have here := from_ b o List.mem_cons_self
      have tags : ((b,some o) :: output).filterMap Prod.snd = o :: output.filterMap Prod.snd := rfl
      rw [List.filter_cons_of_pos rfl,tags,List.filterMap_cons_some here,List.map_cons,rest]

theorem Traced.provenance {t : Trace} (traced : Traced ((query ++ [byte ' ']).map lowerByte) qi t) :
    Provenance (query.map lowerByte) t := by
  have size : ((query ++ [byte ' ']).map lowerByte).length = (query.map lowerByte).length+1 := by simp
  have short : ∀ range ∈ t.ranges,range.1 < range.2 ∧ range.2 ≤ (query.map lowerByte).length := by
    intro range mem
    obtain ⟨wide,_,inside⟩ := traced.proper range mem
    rw [size] at inside
    exact ⟨wide,Nat.le_of_lt_succ inside⟩
  have order := output_order traced.tagged
  have found : ∀ o ∈ t.output.filterMap Prod.snd,∃ range ∈ t.ranges,range.1 ≤ o ∧ o < range.2 := by
    intro o mem
    obtain ⟨range,inRanges,inside⟩ := List.mem_flatMap.mp (order.subset mem)
    rw [List.mem_range'_1] at inside
    exact ⟨range,inRanges,by omega⟩
  have copies : ∀ b o,(b,some o) ∈ t.output → (query.map lowerByte)[o]? = some b ∧
      ∃ range ∈ t.ranges,range.1 ≤ o ∧ o < range.2 := by
    intro b o mem
    obtain ⟨range,inRanges,low,high⟩ := found o (List.mem_filterMap.mpr ⟨_,mem,rfl⟩)
    have inside := (short range inRanges).2
    refine ⟨?_,range,inRanges,low,high⟩
    have at_ := (output_tags traced.tagged mem).2 o rfl
    rwa [List.map_append,List.getElem?_append_left (by omega)] at at_
  refine ⟨traced.sorted,short,traced.apart,output_text traced.tagged,fun b mem =>
    (output_tags traced.tagged mem).1 rfl,copies,?_⟩
  rw [copied_bytes (query.map lowerByte) t.output fun b o mem => (copies b o mem).1]
  apply List.Sublist.filterMap
  apply sublist_of_increasing
  · exact (offsets_sorted traced.sorted).sublist order
  · exact List.pairwise_lt_range.filter _
  · intro o mem
    obtain ⟨range,inRanges,low,high⟩ := found o mem
    have inside := (short range inRanges).2
    apply List.mem_filter.mpr
    refine ⟨List.mem_range.mpr (by omega),?_⟩
    have free : o ∉ t.literals := by
      intro literal
      rcases traced.apart range inRanges o literal with before | behind <;> omega
    simpa using free

theorem start_traced (q : Bytes) : Traced (q.map lowerByte) 0 ⟨Fingerprint.start q,[],[],[]⟩ where
  ordered := ⟨Nat.le_refl _,Int.le_refl _⟩
  tagged := ⟨rfl,fun i o found => (by cases found),fun i b found => (by cases found),.slnil⟩
  sorted := .nil
  proper range mem := by cases mem
  past o mem := by cases mem
  apart range mem := by cases mem
  closed _ o mem := by cases mem

theorem run_traced (env : Env) (query : Bytes) (ascii : ∀ b ∈ query,b.toNat < 0x80)
    (ran : Trace.run env query = .ok t) :
    Provenance (query.map lowerByte) t := by
  have all : ∀ b ∈ query ++ [byte ' '],b.toNat < 0x80 := by
    intro b mem
    rcases List.mem_append.mp mem with inside | last
    · exact ascii b inside
    · rw [List.mem_singleton.mp last]
      decide
  unfold Trace.run at ran
  dsimp only at ran
  rw [runes_text _ all] at ran
  obtain ⟨qj,traced⟩ := (start_traced _).loop all rfl ran
  exact traced.provenance

theorem fingerprint_provenance (env : Env) (query : Bytes) :
    (∀ before piece after m,runes (query ++ [byte ' ']) = before ++ piece :: after →
      Fingerprint.loop env (query ++ [byte ' ']) 0 before (Fingerprint.start (query ++ [byte ' '])) = .ok m →
        Disciplined env (query ++ [byte ' ']) (before.flatMap Prod.snd).length piece.1 m) ∧
    ((∀ b ∈ query,b.toNat < 0x80) → ∀ m,Fingerprint.run env query = .ok m →
      ∃ t,Trace.run env query = .ok t ∧ t.machine = m ∧ Provenance (toLower env.lower query) t) := by
  refine ⟨?_,?_⟩
  · intro before piece after m split ran
    have pieces := runes_pieces [] (query ++ [byte ' '])
    rw [split,List.nil_append] at pieces
    obtain ⟨qi,front,rest⟩ := pieces.split
    have here : qi = (before.flatMap Prod.snd).length := by
      rw [front.ends]
      simp
    have ordered := (loop_ordered front ⟨Nat.le_refl _,Int.le_refl _⟩ ran).2
    rw [← here]
    apply disciplined env ordered
    cases rest with
    | read reads rest => exact Nat.le_trans (Nat.le_add_right _ _) reads.room
  · intro ascii m ran
    have same := Trace.run_machine env query
    rw [ran] at same
    cases traced : Trace.run env query with
    | error exit =>
      rw [traced] at same
      cases same
    | ok t =>
      rw [traced] at same
      rw [toLower_ascii env.lower query ascii]
      exact ⟨t,rfl,Except.ok.inj same,run_traced env query ascii traced⟩

theorem ok_of_isSome {x : Go α} (fine : x.toOption.isSome = true) : ∃ a,x = .ok a := by
  cases x with
  | error exit => cases fine
  | ok a => exact ⟨a,rfl⟩

theorem quoted_left_out :
    (∃ m,Fingerprint.loop asciiEnv (str "A 'b' C ") 0 [(0x41,str "A"),
      (0x20,str " ")] (Fingerprint.start (str "A 'b' C ")) = .ok m ∧
      Disciplined asciiEnv (str "A 'b' C ") 2 (rune '\'') m) ∧
    ∃ t,Trace.run asciiEnv (str "A 'b' C") = .ok t ∧ t.literals = [2,3,4] ∧ t.ranges = [(0,1),(6,7)] ∧
      finish t.machine = str "a ? c" ∧ Provenance (toLower id (str "A 'b' C")) t := by
  obtain ⟨disciplined,provenance⟩ := fingerprint_provenance asciiEnv (str "A 'b' C")
  have ascii : (str "A 'b' C").all (fun b => decide (b.toNat < 0x80)) = true := by decide
  have found : (Trace.run asciiEnv (str "A 'b' C")).toOption.map
    (fun t => (t.literals,t.ranges,finish t.machine)) =
      some ([2,3,4],[(0,1),(6,7)],str "a ? c") := by decide +kernel
  refine ⟨?_,?_⟩
  · obtain ⟨m,ran⟩ :=
      ok_of_isSome (show (Fingerprint.loop asciiEnv (str "A 'b' C ") 0 [(0x41,str "A"),(0x20,str " ")]
      (Fingerprint.start (str "A 'b' C "))).toOption.isSome = true by decide +kernel)
    exact ⟨m,ran,disciplined _ (rune '\'',str "'") (runes (str "b' C ")) m (by decide +kernel) ran⟩
  · obtain ⟨m,ran⟩ :=
      ok_of_isSome (show (Fingerprint.run asciiEnv (str "A 'b' C")).toOption.isSome = true by decide +kernel)
    obtain ⟨t,traced,_,known⟩ :=
      provenance (fun b mem => of_decide_eq_true (List.all_eq_true.mp ascii b mem)) m ran
    rw [traced] at found
    simp only [Except.toOption,Option.map_some,Option.some.injEq,Prod.mk.injEq] at found
    exact ⟨t,traced,found.1,found.2.1,found.2.2,known⟩

end SqlReview.FingerprintProvenance
