import SqlReview.PriorityQueue

namespace SqlReview.PriorityDelivery
open GoText RedisStore LeveledQueue PriorityQueue
open UniqueQueue (getQueueSet noStore)

-- The priorities whose lists Pop looks at under the names that Push gives them.
def reach (u : PriorityQueue) : Set Int := {p | 1 ≤ p ∧ p ≤ u.priority.toInt ∧ p < 10^14}

-- None of the keys that Push or Pop can name is in use.
structure Fresh (q : Text) (s : Store Text) : Prop where
  unused : Unused q s
  scanned : ∀ i,s (scanKey q i) = none

def FindsNothing (u : PriorityQueue) (q : Text) (s : Store Text) : Prop :=
  ∃ t,scriptPriorityPop q u.priority s = some (.ok none t)

-- The store after n Pops; none when one of them does not return.
def drain (u : PriorityQueue) (q : Text) : Nat → Store Text → Option (Store Text)
  | 0,s => some s
  | n+1,s => (pop u q s).bind fun answer => drain u q n answer.store

-- A Push that is accepted puts its body where Pop looks.
def Reaches (u : PriorityQueue) (q : Text) (s : State) : Action ι → Prop
  | .push _ body priority => body ∈ s.store.members (getQueueSet q) ∨ priority.toInt ∈ reach u
  | .pop _ => True

structure Stands (q : Text) (Q : Queue Int Text) (s : Store Text) : Prop where
  holds : Holds q Q s
  spare : ∀ i,10^14 ≤ i → s (scanKey q i) = none

theorem fresh_stands {s : Store Text} (fresh : Fresh q s) : Stands q .none s :=
  ⟨unused_holds fresh.unused,fun i _ => fresh.scanned i⟩

theorem stands_members {s : Store Text} (stands : Stands q Q s) (x : Text) :
    x ∈ s.members (getQueueSet q) ↔ Q.Has x := by
  obtain ⟨members,set,same⟩ := stands.holds.set
  rw [Store.members,set]
  exact same x

theorem luaNumber_large (large : 2^53 ≤ n) : 2^53 ≤ luaNumber n := by
  have some_ : n ≠ 0 := by omega
  have bits : 53 ≤ n.log2 := (Nat.le_log2 some_).mpr large
  have size : 2^n.log2 ≤ n := Nat.log2_self_le some_
  have split : 2^n.log2 = 2^52*2^(n.log2-52) := by
    rw [← Nat.pow_add]
    congr 1
    omega
  have half : n/2^(n.log2-52) ≤ halfEven n (2^(n.log2-52)) := by
    unfold halfEven
    split <;> omega
  have quotient : 2^52 ≤ n/2^(n.log2-52) := by
    apply (Nat.le_div_iff_mul_le (Nat.two_pow_pos _)).mpr
    omega
  calc 2^53 ≤ 2^n.log2 := Nat.pow_le_pow_right (by decide) bits
    _ = 2^52*2^(n.log2-52) := split
    _ ≤ luaNumber n := Nat.mul_le_mul_right _ (Nat.le_trans quotient half)

-- The counter goes up to 2^53 and stays there.
theorem counter_next (small : i ≤ 2^53) : luaNumber (i+1) ≤ 2^53 ∧ (1 ≤ i → 1 ≤ luaNumber (i+1)) := by
  by_cases last : i = 2^53
  · subst last
    decide +kernel
  · by_cases limit : i+1 = 2^53
    · rw [limit,luaNumber_limit]
      exact ⟨Nat.le_refl _,fun _ => by decide⟩
    · rw [luaNumber_exact (by omega)]
      exact ⟨by omega,fun _ => by omega⟩

theorem scan_endless {s : Store Text} (lists : ∀ j,1 ≤ j → s.list? (scanKey q j) = some [])
    (large : 2^53 ≤ n) (fuel : Nat)
    (start : 1 ≤ i) (small : i ≤ 2^53) : scan q n fuel i s = none := by
  induction fuel generalizing i with
  | zero => rfl
  | succ fuel ih =>
    have gone : lpop (scanKey q i) s = .ok none s := by simp [lpop,lists i start]
    obtain ⟨bounded,positive⟩ := counter_next small
    rw [scan,if_pos (by omega),gone]
    exact ih (positive start) bounded

section
variable {u : PriorityQueue} {s : Store Text} (stands : Stands q Q s)
include stands

theorem lists_empty (none_ : ∀ i ∈ reach u,Q.levels i = []) {j : Nat} (start : 1 ≤ j)
    (within : j ≤ u.priority.toInt.toNat ∨ 10^14 ≤ u.priority.toInt) : s.list? (scanKey q j) = some [] := by
  by_cases small : j < 10^14
  · apply scan_empty stands.holds small
    apply none_
    exact ⟨by omega,by omega,by omega⟩
  · rw [Store.list?,stands.spare j (by omega)]

theorem pop_first (first : Q.First (reach u) i body) :
    ∃ t,scriptPriorityPop q u.priority s = some (.ok (some body) t) ∧ Stands q (Q.remove i) t := by
  obtain ⟨rest,front⟩ := List.head?_eq_some_iff.mp first.front
  obtain ⟨positive,within,small⟩ := first.ranged
  obtain ⟨j,rfl⟩ := Int.eq_ofNat_of_zero_le (show 0 ≤ i by omega)
  have least : ∀ k : Nat,1 ≤ k → k < j → Q.levels k = [] := by
    intro k start earlier
    exact first.least k ⟨by omega,by omega,by omega⟩ (by omega)
  have bound : j ≤ luaNumber u.priority.toInt.toNat := by
    by_cases exact : u.priority.toInt.toNat < 2^53
    · rw [luaNumber_exact exact]
      omega
    · have := luaNumber_large (Nat.le_of_not_lt exact)
      omega
  obtain ⟨t,scanned,after,frame⟩ :=
    scan_first (n := luaNumber u.priority.toInt.toNat) stands.holds (show j < 10^14 by omega)
    (luaNumber u.priority.toInt.toNat) (by omega) (by omega) bound front least
  refine ⟨t,scanned,after,?_⟩
  intro k large
  rw [frame _ (scanKey_level large q j) (scanKey_set large q)]
  exact stands.spare k large

theorem pop_nothing (small : u.priority.toInt < 2^53) (none_ : ∀ i ∈ reach u,Q.levels i = []) :
    scriptPriorityPop q u.priority s = some (.ok none s) := by
  rw [scriptPriorityPop,luaNumber_exact (by omega)]
  apply scan_nothing (by omega) _ (by omega)
  intro j start within
  exact lists_empty stands none_ start (.inl within)

theorem pop_endless (large : 2^53 ≤ u.priority.toInt) (none_ : ∀ i ∈ reach u,Q.levels i = []) :
    scriptPriorityPop q u.priority s = none := by
  apply scan_endless _ (luaNumber_large (by omega)) _ (Nat.le_refl 1) (by decide)
  intro j start
  exact lists_empty stands none_ start (.inr (by omega))

-- What Pop can do in a store that holds Q.
theorem pop_cases (u : PriorityQueue) :
    (∃ i body t,Q.First (reach u) i body ∧
      scriptPriorityPop q u.priority s = some (.ok (some body) t) ∧ Stands q (Q.remove i) t) ∨
    ((∀ i ∈ reach u,Q.levels i = []) ∧ u.priority.toInt < 2^53 ∧
      scriptPriorityPop q u.priority s = some (.ok none s)) ∨
    ((∀ i ∈ reach u,Q.levels i = []) ∧ 2^53 ≤ u.priority.toInt ∧
      scriptPriorityPop q u.priority s = none) := by
  by_cases none_ : ∀ i ∈ reach u,Q.levels i = []
  · by_cases small : u.priority.toInt < 2^53
    · exact .inr (.inl ⟨none_,small,pop_nothing stands small none_⟩)
    · exact .inr (.inr ⟨none_,by omega,pop_endless stands (by omega) none_⟩)
  · have finite : (reach u).Finite :=
      (Set.finite_Icc 1 u.priority.toInt).subset fun p ranged => ⟨ranged.1,ranged.2.1⟩
    obtain ⟨i,body,first⟩ := Queue.first_exists finite none_
    obtain ⟨t,popped,after⟩ := pop_first stands first
    exact .inl ⟨i,body,t,first,popped,after⟩

theorem nothing_iff : FindsNothing u q s ↔ (∀ i ∈ reach u,Q.levels i = []) ∧ u.priority.toInt < 2^53 := by
  rcases pop_cases stands u with ⟨i,body,t,first,popped,_⟩ | ⟨none_,small,popped⟩ | ⟨none_,large,popped⟩
  · have front := first.front
    constructor
    · intro ⟨t,found⟩
      rw [popped] at found
      cases found
    · intro ⟨none_,_⟩
      rw [none_ i first.ranged] at front
      cases front
  · exact ⟨fun _ => ⟨none_,small⟩,fun _ => ⟨s,popped⟩⟩
  · constructor
    · intro ⟨t,found⟩
      rw [popped] at found
      cases found
    · intro ⟨_,small⟩
      omega

end

-- What lies out of reach is never taken away, and only a push that does not reach adds to it.
structure Beyond (u : PriorityQueue) (before after : Queue Int Text) : Prop where
  kept : ∀ i,i ∉ reach u → before.levels i <+: after.levels i

def Untouched (u : PriorityQueue) (before after : Queue Int Text) : Prop :=
  ∀ i,i ∉ reach u → after.levels i = before.levels i

theorem untouched_trans {one two three : Queue Int Text} (first : Beyond u one two)
    (second : Beyond u two three) :
    Untouched u one three ↔ Untouched u one two ∧ Untouched u two three := by
  constructor
  · intro same
    have middle : Untouched u one two := by
      intro i outside
      apply (first.kept i outside).eq_of_length_le _ |>.symm
      rw [← same i outside]
      exact (second.kept i outside).length_le
    refine ⟨middle,?_⟩
    intro i outside
    rw [same i outside,middle i outside]
  · intro ⟨left,right⟩ i outside
    rw [right i outside,left i outside]

theorem push_stands {s : Store Text} (stands : Stands q Q s) (fresh : ¬ Q.Has body) (priority : Int64) :
    Stands q (Q.append priority.toInt body fresh) (push q body priority s).store := by
  obtain ⟨t,answer,holds⟩ := push_fresh stands.holds fresh priority
  obtain ⟨members,set,same⟩ := stands.holds.set
  have written := push_new set (mt (same body).mp fresh) (stands.holds.lists priority.toInt)
  refine ⟨by rw [answer]; exact holds,?_⟩
  intro i large
  rw [written]
  dsimp only
  rw [Store.putList,Function.update_of_ne (scanKey_level large q _),Store.putSet,
    Function.update_of_ne (scanKey_set large q)]
  exact stands.spare i large

theorem remove_untouched (first : Q.First (reach u) i body) : Untouched u Q (Q.remove i) := by
  intro j outside
  apply Queue.remove_other
  intro same
  exact outside (same ▸ first.ranged)

theorem Untouched.beyond (same : Untouched u Q next) : Beyond u Q next :=
  ⟨fun i outside => by rw [same i outside]⟩

theorem append_beyond {Q : Queue Int Text} (u : PriorityQueue) (i : Int) (fresh : ¬ Q.Has body) :
    Beyond u Q (Q.append i body fresh) := by
  refine ⟨fun j _ => ?_⟩
  by_cases same : j = i
  · subst same
    rw [Queue.append_self]
    exact List.prefix_append _ _
  · rw [Queue.append_other Q body fresh same]

theorem append_untouched {Q : Queue Int Text} (i : Int) (fresh : ¬ Q.Has body) :
    Untouched u Q (Q.append i body fresh) ↔ i ∈ reach u := by
  constructor
  · intro same
    by_contra outside
    have longer := same i outside
    rw [Queue.append_self] at longer
    simp at longer
  · intro inside j outside
    apply Queue.append_other
    intro same
    exact outside (same ▸ inside)

theorem pop_store {u : PriorityQueue} (popped : scriptPriorityPop q u.priority s = some (.ok body t)) :
    pop u q s = some ⟨body.getD [],none,t⟩ := by
  rw [pop,popped]
  rfl

theorem step_beyond {s : State} (stands : Stands q Q s.store) (action : Action ι)
    (stepped : s.step u q action = some t) :
    ∃ next,Stands q next t.store ∧ Beyond u Q next ∧ (Reaches u q s action ↔ Untouched u Q next) := by
  cases action with
  | push client body priority =>
    cases stepped
    by_cases known : Q.Has body
    · refine ⟨Q,?_,⟨fun i _ => List.prefix_rfl⟩,?_⟩
      · rw [push_known stands.holds known]
        exact stands
      · exact ⟨fun _ i _ => rfl,fun _ => .inl ((stands_members stands body).mpr known)⟩
    · refine ⟨_,push_stands stands known priority,append_beyond u _ known,?_⟩
      rw [append_untouched,Reaches,stands_members stands]
      exact ⟨fun either => either.resolve_left known,.inr⟩
  | pop client =>
    rcases pop_cases stands u with ⟨i,body,next,first,popped,after⟩ | ⟨_,_,popped⟩ | ⟨_,_,popped⟩
    · rw [State.step,pop_store popped] at stepped
      cases stepped
      have same := remove_untouched first
      exact ⟨_,after,same.beyond,fun _ => same,fun _ => trivial⟩
    · rw [State.step,pop_store popped] at stepped
      cases stepped
      exact ⟨Q,stands,⟨fun i _ => List.prefix_rfl⟩,fun _ i _ => rfl,fun _ => trivial⟩
    · rw [State.step,pop,popped] at stepped
      cases stepped

theorem run_beyond {s : State} (stands : Stands q Q s.store) (actions : List (Action ι))
    (ran : Transitions.run (State.step u q) s actions = some t) :
    ∃ next,Stands q next t.store ∧ Beyond u Q next ∧
      (Transitions.Runs (State.step u q) (Reaches u q) s actions t ↔ Untouched u Q next) := by
  induction actions generalizing s Q with
  | nil =>
    cases ran
    exact ⟨Q,stands,⟨fun i _ => List.prefix_rfl⟩,fun _ i _ => rfl,fun _ => .nil⟩
  | cons action actions ih =>
    cases stepped : s.step u q action with
    | none =>
      rw [Transitions.run,stepped] at ran
      cases ran
    | some middle =>
      rw [Transitions.run,stepped] at ran
      obtain ⟨Q',mid,first,reaches⟩ := step_beyond stands action stepped
      obtain ⟨next,last,second,rest⟩ := ih mid ran
      have joined := untouched_trans first second
      refine ⟨next,last,⟨fun i outside => (first.kept i outside).trans (second.kept i outside)⟩,?_⟩
      rw [joined,← reaches,← rest]
      constructor
      · intro runs
        cases runs with
        | cons allowed taken after =>
          cases stepped.symm.trans taken
          exact ⟨allowed,after⟩
      · rintro ⟨allowed,after⟩
        exact .cons allowed stepped after

theorem drain_untouched {s : Store Text} (stands : Stands q Q s) (n : Nat)
    (drained : drain u q n s = some t) :
    ∃ next,Stands q next t ∧ Untouched u Q next := by
  induction n generalizing s Q with
  | zero =>
    cases drained
    exact ⟨Q,stands,fun i _ => rfl⟩
  | succ n ih =>
    rcases pop_cases stands u with ⟨i,body,middle,first,popped,after⟩ | ⟨_,_,popped⟩ | ⟨_,_,popped⟩
    · rw [drain,pop_store popped] at drained
      obtain ⟨next,last,rest⟩ := ih after drained
      refine ⟨next,last,?_⟩
      intro j outside
      rw [rest j outside,remove_untouched first j outside]
    · rw [drain,pop_store popped] at drained
      exact ih stands drained
    · rw [drain,pop,popped] at drained
      cases drained

-- Every Pop that finds a body takes it from the set, so in the end there is none within reach.
theorem drain_empties {s : Store Text} (u : PriorityQueue) (stands : Stands q Q s) :
    ∃ n t next,drain u q n s = some t ∧ Stands q next t ∧ Untouched u Q next ∧ ∀ i ∈ reach u,
      next.levels i = [] := by
  generalize size : (s.members (getQueueSet q)).card = count
  induction count using Nat.strong_induction_on generalizing s Q with
  | _ count ih =>
    by_cases none_ : ∀ i ∈ reach u,Q.levels i = []
    · exact ⟨0,s,Q,rfl,stands,fun i _ => rfl,none_⟩
    · rcases pop_cases stands u with ⟨i,body,middle,first,popped,after⟩ | ⟨empty,_⟩ | ⟨empty,_⟩
      · obtain ⟨rest,front⟩ := List.head?_eq_some_iff.mp first.front
        have fewer : middle.members (getQueueSet q) ⊂ s.members (getQueueSet q) := by
          apply Finset.ssubset_iff_subset_ne.mpr
          constructor
          · intro x inside
            rw [stands_members after,Queue.remove_has Q front] at inside
            exact (stands_members stands x).mpr inside.2
          · intro same
            have held : body ∈ s.members (getQueueSet q) :=
              (stands_members stands body).mpr ⟨i,front ▸ List.mem_cons_self⟩
            rw [← same,stands_members after,Queue.remove_has Q front] at held
            exact held.1 rfl
        obtain ⟨n,t,next,drained,last,rest,done⟩ := ih _ (size ▸ Finset.card_lt_card fewer) after rfl
        refine ⟨n+1,t,next,?_,last,?_,done⟩
        · rw [drain,pop_store popped]
          exact drained
        · intro j outside
          rw [rest j outside,remove_untouched first j outside]
      · exact absurd empty none_
      · exact absurd empty none_

theorem levels_empty {s : Store Text} (stands : Stands q Q s) :
    s.set? (getQueueSet q) = some ∅ ↔ ∀ i,Q.levels i = [] := by
  obtain ⟨members,set,same⟩ := stands.holds.set
  rw [set,Option.some.injEq,Finset.eq_empty_iff_forall_notMem]
  constructor
  · intro none_ i
    apply List.eq_nil_iff_forall_not_mem.mpr
    intro x inside
    exact none_ x ((same x).mpr ⟨i,inside⟩)
  · intro none_ x inside
    obtain ⟨i,held⟩ := (same x).mp inside
    rw [none_ i] at held
    cases held

section
variable {u : PriorityQueue} {s : Store Text} (stands : Stands q Q s)
include stands

theorem emptied_iff : (∀ n t,drain u q n s = some t → FindsNothing u q t → t.set? (getQueueSet q) = some ∅) ↔
    (∀ i,i ∉ reach u → Q.levels i = []) ∨ 2^53 ≤ u.priority.toInt := by
  constructor
  · intro emptied
    by_cases large : 2^53 ≤ u.priority.toInt
    · exact .inr large
    · obtain ⟨n,t,next,drained,last,same,done⟩ := drain_empties u stands
      have nothing := (nothing_iff last).mpr ⟨done,by omega⟩
      have empty := (levels_empty last).mp (emptied n t drained nothing)
      refine .inl ?_
      intro i outside
      rw [← same i outside,empty i]
  · intro either n t drained nothing
    obtain ⟨next,last,same⟩ := drain_untouched stands n drained
    obtain ⟨within,small⟩ := (nothing_iff last).mp nothing
    have outside := either.resolve_right (by omega)
    apply (levels_empty last).mpr
    intro i
    by_cases inside : i ∈ reach u
    · exact within i inside
    · rw [same i inside,outside i inside]

theorem delivered_iff :
    (∀ body ∈ s.members (getQueueSet q),∃ n t,drain u q n s = some t ∧ body ∉ t.members (getQueueSet q)) ↔
    ∀ i,i ∉ reach u → Q.levels i = [] := by
  constructor
  · intro delivered i outside
    apply List.eq_nil_iff_forall_not_mem.mpr
    intro body inside
    obtain ⟨n,t,drained,gone⟩ := delivered body ((stands_members stands body).mpr ⟨i,inside⟩)
    obtain ⟨next,last,same⟩ := drain_untouched stands n drained
    apply gone
    rw [stands_members last]
    exact ⟨i,by rwa [same i outside]⟩
  · intro outside body _
    obtain ⟨n,t,next,drained,last,same,done⟩ := drain_empties u stands
    refine ⟨n,t,drained,?_⟩
    rw [stands_members last]
    intro ⟨i,inside⟩
    by_cases within : i ∈ reach u
    · rw [done i within] at inside
      cases inside
    · rw [same i within,outside i within] at inside
      cases inside

end

-- From 2^53 on the loop of Pop never ends without a body.
theorem accepted_delivered (priority : Int64) (unique : Bool) (q : Text) (start : Store Text)
    (fresh : Fresh q start)
    (actions : List (Action ι)) (s : State)
    (ran : Transitions.run (State.step (newPriorityQueue priority unique) q) ⟨start,[]⟩ actions = some s) :
    ((∀ n t,drain (newPriorityQueue priority unique) q n s.store = some t →
      FindsNothing (newPriorityQueue priority unique) q t →
        t.set? (getQueueSet q) = some ∅) ↔
      Transitions.Runs (State.step (newPriorityQueue priority unique) q)
      (Reaches (newPriorityQueue priority unique) q) ⟨start,[]⟩ actions s ∨
        2^53 ≤ priority.toInt) ∧
    ((∀ body ∈ s.store.members (getQueueSet q),∃ n t,
      drain (newPriorityQueue priority unique) q n s.store = some t ∧
        body ∉ t.members (getQueueSet q)) ↔
      Transitions.Runs (State.step (newPriorityQueue priority unique) q)
      (Reaches (newPriorityQueue priority unique) q) ⟨start,[]⟩ actions s) := by
  obtain ⟨Q,stands,_,runs⟩ := run_beyond (fresh_stands fresh) actions ran
  have large : 2^53 ≤ (newPriorityQueue priority unique).priority.toInt ↔ 2^53 ≤ priority.toInt := by
    unfold newPriorityQueue
    dsimp only
    split
    · rename_i negative
      have small := Int64.lt_iff_toInt_lt.mp negative
      have one : defaultPriority.toInt = 1 := rfl
      have zero : (0 : Int64).toInt = 0 := rfl
      omega
    · rfl
  rw [runs,← large]
  exact ⟨emptied_iff stands,delivered_iff stands⟩

theorem noStore_fresh (q : Text) : Fresh q noStore := ⟨⟨fun _ => rfl,rfl⟩,fun _ => rfl⟩

theorem none_has (x : Text) : ¬ (Queue.none : Queue Int Text).Has x := by
  intro ⟨i,inside⟩
  cases inside

-- A body pushed at a priority that Pop looks at comes back.
theorem middle_delivered : text "a" ∈ (push [] (text "a") 2 noStore).store.members (getQueueSet []) ∧
    ∃ n t,drain (newPriorityQueue 3 true) [] n (push [] (text "a") 2 noStore).store = some t ∧
      text "a" ∉ t.members (getQueueSet []) := by
  have held : text "a" ∈ (push [] (text "a") 2 noStore).store.members (getQueueSet []) :=
    (stands_members (push_stands (fresh_stands (noStore_fresh [])) (none_has (text "a")) 2) _).mpr
      ((Queue.append_has _ _ _ _ _).mpr (.inl rfl))
  exact ⟨held,(accepted_delivered 3 true [] noStore
    (noStore_fresh []) [Action.push () (text "a") 2] _ rfl).2.mpr
    (.cons (.inr ⟨by decide,by decide,by decide⟩) rfl .nil) (text "a") held⟩

-- NewPriorityQueue(1,..) looks at one list only, and Push writes to any.
theorem body_stranded : ∃ s : State,
    Transitions.run (State.step (newPriorityQueue 1 true) [])
      ⟨noStore,[]⟩ [Action.push () (text "a") 2] = some s ∧
    s.log = [.push (text "a") 2 1 none] ∧ FindsNothing (newPriorityQueue 1 true) [] s.store ∧
    text "a" ∈ s.store.members (getQueueSet []) ∧ push [] (text "a") 1 s.store = ⟨0,none,s.store⟩ := by
  have stands := push_stands (fresh_stands (noStore_fresh [])) (none_has (text "a")) 2
  have held : (Queue.none.append (2 : Int64).toInt (text "a") (none_has (text "a"))).Has (text "a") :=
    (Queue.append_has _ _ _ _ _).mpr (.inl rfl)
  refine ⟨_,rfl,?_,(nothing_iff stands).mpr ⟨?_,by decide⟩,(stands_members stands _).mpr held,
    push_known stands.holds held 1⟩
  · rfl
  · intro i inside
    apply Queue.append_other
    intro same
    rw [same] at inside
    exact absurd inside.2.1 (by decide)

end SqlReview.PriorityDelivery
