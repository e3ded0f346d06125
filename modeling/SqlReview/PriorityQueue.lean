import SqlReview.JsonCodec
import SqlReview.LeveledQueue
import SqlReview.UniqueQueue

namespace SqlReview

structure PriorityQueue where
  priority : Int64
  unique : Bool

namespace PriorityQueue
open GoText RedisStore UniqueQueue Json LeveledQueue

def defaultPriority : Int64 := 1

def newPriorityQueue (priority : Int64) (unique : Bool) : PriorityQueue :=
  ⟨if priority < 0 then defaultPriority else priority,unique⟩

def halfEven (n unit : Nat) : Nat :=
  if unit < 2*(n%unit) ∨ (unit = 2*(n%unit) ∧ n/unit%2 = 1) then n/unit+1 else n/unit

-- A number of Lua is a double: 53 bits and an exponent.
def luaNumber (n : Nat) : Nat := halfEven n (2^(n.log2-52)) * 2^(n.log2-52)

def mantissa (digits : Text) : Text :=
  match (digits.reverse.dropWhile (· == '0')).reverse with
  | d :: e :: rest => d :: '.' :: e :: rest
  | s => s

-- A number that is joined to a string is printed with %.14g.
def luaText (n : Nat) : Text :=
  if n < 10^14 then Nat.toDigits 10 n
  else
    let size := (Nat.toDigits 10 n).length
    let shown := halfEven n (10^(size-14))
    mantissa (Nat.toDigits 10 shown) ++ text "e+" ++ Nat.toDigits 10 (if shown = 10^14 then size else size-1)

example : luaNumber (2^53+1) = 2^53 ∧ luaText (10^14) = text "1e+14" ∧
    luaText 123456789012345 = text "1.2345678901234e+14" := by
  decide +kernel

-- Push names the list by the argument it is given, Pop by its own counter.
def levelKey (q : Text) (priority : Int) : Text := q ++ '_' :: decimal priority
def scanKey (q : Text) (i : Nat) : Text := q ++ '_' :: luaText i

def scriptPriorityPush (q body : Text) (priority : Int64) : Command Text Nat := do
  let v ← sadd (getQueueSet q) body
  if v = 1 then
    let _ ← rpush (levelKey q priority.toInt) body
    return 1
  else return 0

-- The while loop; none when it runs on after `fuel` rounds.
def scan (q : Text) (loopNum : Nat) :
    Nat → Nat → Store Text → Option (EStateM.Result Fault (Store Text) (Option Text))
  | 0,_,_ => none
  | fuel+1,i,s =>
    if i ≤ loopNum then
      match lpop (scanKey q i) s with
      | .error fault t => some (.error fault t)
      | .ok none t => scan q loopNum fuel (luaNumber (i+1)) t
      | .ok (some v) t =>
        some ((do let _ ← srem (getQueueSet q) v; return some v : Command Text (Option Text)) t)
    else some (.ok none s)

-- A bound below 1 ends the loop before its first round. From 2^53 on the counter stands still,
-- so a loop that is not done after this many rounds is never done.
def scriptPriorityPop (q : Text) (priority : Int64) (s : Store Text) :
    Option (EStateM.Result Fault (Store Text) (Option Text)) :=
  let loopNum := luaNumber priority.toInt.toNat
  scan q loopNum (loopNum+1) 1 s

def push (q body : Text) (priority : Int64) (s : Store Text) : Answer Nat :=
  match scriptPriorityPush q body priority s with
  | .ok resp s => ⟨resp,none,s⟩
  | .error fault s => ⟨0,some fault,s⟩

def pop (u : PriorityQueue) (q : Text) (s : Store Text) : Option (Answer Text) :=
  (scriptPriorityPop q u.priority s).map fun
    | .ok resp s => ⟨resp.getD [],none,s⟩
    | .error fault s => ⟨[],some fault,s⟩

inductive Action (ι : Type) where
  | push (client : ι) (body : Text) (priority : Int64)
  | pop (client : ι)

-- What a client sees of its call.
inductive Entry where
  | push (body : Text) (priority : Int64) (resp : Nat) (err : Option Fault)
  | pop (resp : Text) (err : Option Fault)

structure State where
  store : Store Text
  log : List Entry

def State.step (u : PriorityQueue) (q : Text) (s : State) : Action ι → Option State
  | .push _ body priority =>
    let answer := push q body priority s.store
    some ⟨answer.store,s.log ++ [.push body priority answer.resp answer.err]⟩
  | .pop _ => (pop u q s.store).map fun answer => ⟨answer.store,s.log ++ [.pop answer.resp answer.err]⟩

inductive Shows : Event Int Text → Entry → Prop where
  | accepted {p : Int64} : Shows (.accepted p.toInt body) (.push body p 1 none)
  | refused {p : Int64} : Shows (.refused body) (.push body p 0 none)
  | returned : Shows (.returned i body) (.pop body none)
  | empty : Shows .empty (.pop [] none)

-- The lists of q are the levels of Q, and its set is their union.
structure Holds (q : Text) (Q : Queue Int Text) (s : Store Text) : Prop where
  lists : ∀ i,s.list? (levelKey q i) = some (Q.levels i)
  set : ∃ members,s.set? (getQueueSet q) = some members ∧ ∀ x,x ∈ members ↔ Q.Has x

def range (u : PriorityQueue) : Set Int := Set.Icc 1 u.priority.toInt

structure Obeys (u : PriorityQueue) (q : Text) (Q : Queue Int Text) (s : Store Text) : Prop where
  holds : Holds q Q s
  refuses : ∀ body priority,Q.Has body → push q body priority s = ⟨0,none,s⟩
  accepts : ∀ body priority (fresh : ¬ Q.Has body),∃ t,push q body priority s = ⟨1,none,t⟩ ∧
    Holds q (Q.append priority.toInt body fresh) t
  returns : ∀ i body,Q.First u.range i body → ∃ t,pop u q s = some ⟨body,none,t⟩ ∧ Holds q (Q.remove i) t
  nothing : (∀ i ∈ u.range,Q.levels i = []) → pop u q s = some ⟨[],none,s⟩

structure Unused (q : Text) (s : Store Text) : Prop where
  lists : ∀ i,s (levelKey q i) = none
  set : s (getQueueSet q) = none

-- Every call returns, what the clients saw is a run of the queue with its levels, each call does in the
-- store what the queue says, and each level was filled and emptied in order.
def Refines (u : PriorityQueue) : Prop :=
  ∀ (q : Text) (start : Store Text),Unused q start → ∀ (ι : Type) (actions : List (Action ι)),
    ∃ s,Transitions.run (State.step u q) ⟨start,[]⟩ actions = some s ∧
      ∃ events Q,List.Forall₂ Shows events s.log ∧ Run u.range .none events Q ∧ Obeys u q Q s.store ∧
        ∀ i,events.flatMap (Event.acceptedAt i) = events.flatMap (Event.returnedAt i) ++ Q.levels i

theorem decimal_injective (same : decimal i = decimal j) : i = j := by
  have read := congrArg integer same
  rw [integer_decimal,integer_decimal] at read
  exact Option.some.inj read

theorem levelKey_injective (same : levelKey q i = levelKey q j) : i = j :=
  decimal_injective (List.cons.inj (List.append_cancel_left same)).2

theorem levelKey_set (q : Text) (i : Int) : levelKey q i ≠ getQueueSet q := by
  intro same
  have digits : decimal i = text "set" := (List.cons.inj (List.append_cancel_left same)).2
  have read := integer_decimal i
  rw [digits] at read
  cases read

theorem luaNumber_exact (small : n < 2^53) : luaNumber n = n := by
  have bits : n.log2 - 52 = 0 := by
    by_cases zero : n = 0
    · subst zero
      rfl
    · have := (Nat.log2_lt zero).mpr small
      omega
  simp [luaNumber,bits,halfEven,Nat.mod_one]

theorem luaNumber_limit : luaNumber (2^53) = 2^53 := by decide +kernel

theorem luaText_exact (small : n < 10^14) : luaText n = decimal n := by
  rw [luaText,if_pos small,decimal,if_neg (by omega)]
  rfl

theorem luaText_plus (large : 10^14 ≤ n) : '+' ∈ luaText n := by
  rw [luaText,if_neg (by omega)]
  simp [text]

theorem decimal_plus (i : Int) : '+' ∉ decimal i := by
  have digits : '+' ∉ Nat.toDigits 10 i.natAbs := by
    intro inside
    cases List.all_eq_true.mp (toDigits_digits _) _ inside
  unfold decimal
  split
  · intro member
    rcases List.mem_cons.mp member with minus | inside
    · cases minus
    · exact digits inside
  · exact digits

theorem scanKey_exact (q : Text) (small : n < 10^14) : scanKey q n = levelKey q n := by
  rw [scanKey,luaText_exact small,levelKey]

-- From 10^14 on the counter is printed with an exponent, and names no key of Push.
theorem scanKey_level (large : 10^14 ≤ n) (q : Text) (i : Int) : scanKey q n ≠ levelKey q i := by
  intro same
  have digits : luaText n = decimal i := (List.cons.inj (List.append_cancel_left same)).2
  exact decimal_plus i (digits ▸ luaText_plus large)

theorem scanKey_set (large : 10^14 ≤ n) (q : Text) : scanKey q n ≠ getQueueSet q := by
  intro same
  have letters : luaText n = text "set" := (List.cons.inj (List.append_cancel_left same)).2
  have plus := luaText_plus large
  rw [letters] at plus
  exact absurd plus (by decide)

theorem push_known {s : Store Text} (holds : Holds q Q s) (known : Q.Has body) (priority : Int64) :
    push q body priority s = ⟨0,none,s⟩ := by
  obtain ⟨members,set,same⟩ := holds.set
  have add : sadd (getQueueSet q) body s = .ok 0 s := by simp [sadd,set,(same body).mpr known]
  simp [push,scriptPriorityPush,bind,EStateM.bind,add,pure,EStateM.pure]

theorem push_new {s : Store Text} (set : s.set? (getQueueSet q) = some members)
    (unknown : body ∉ members) {p : Int64}
    (list : s.list? (levelKey q p.toInt) = some items) : push q body p s =
      ⟨1,none,(s.putSet (getQueueSet q) (insert body members)).putList (levelKey q p.toInt)
      (items ++ [body])⟩ := by
  have add : sadd (getQueueSet q) body s = .ok 1 (s.putSet (getQueueSet q) (insert body members)) := by
    simp [sadd,set,unknown]
  have same : (s.putSet (getQueueSet q) (insert body members)).list? (levelKey q p.toInt) = some items :=
    (update_list (levelKey_set q _) _).trans list
  simp [push,scriptPriorityPush,bind,EStateM.bind,add,rpush,same,pure,EStateM.pure]

theorem push_fresh {s : Store Text} (holds : Holds q Q s) (fresh : ¬ Q.Has body) (priority : Int64) :
    ∃ t,push q body priority s = ⟨1,none,t⟩ ∧ Holds q (Q.append priority.toInt body fresh) t := by
  obtain ⟨members,set,same⟩ := holds.set
  refine ⟨_,push_new set (mt (same body).mp fresh) (holds.lists _),?_,?_⟩
  · intro i
    by_cases here : i = priority.toInt
    · subst here
      rw [putList_list,Queue.append_self]
    · have apart : levelKey q i ≠ levelKey q priority.toInt := mt levelKey_injective here
      rw [Store.putList,update_list apart,Store.putSet,update_list (levelKey_set q i),holds.lists,
        Queue.append_other Q body fresh here]
  · refine ⟨insert body members,?_,?_⟩
    · rw [Store.putList,update_set (levelKey_set q _).symm,putSet_set]
    · intro x
      rw [Finset.mem_insert,same,Queue.append_has]

theorem scan_done (fuel : Nat) (past : n < i) (s : Store Text) :
    scan q n (fuel+1) i s = some (.ok none s) := by
  rw [scan,if_neg (by omega)]

-- A round on an empty list goes on with the next number, as long as numbers are exact.
theorem scan_skip {s : Store Text} (fuel : Nat) (within : i ≤ n) (exact : i < 2^53)
    (list : s.list? (scanKey q i) = some []) :
    scan q n (fuel+1) i s = scan q n fuel (i+1) s := by
  have gone : lpop (scanKey q i) s = .ok none s := by simp [lpop,list]
  have next : luaNumber (i+1) = i+1 := by
    by_cases last : i+1 = 2^53
    · rw [last]
      exact luaNumber_limit
    · exact luaNumber_exact (by omega)
  rw [scan,if_pos within,gone]
  dsimp only
  rw [next]

theorem scan_found {s : Store Text} (fuel : Nat) (within : i ≤ n)
    (list : s.list? (scanKey q i) = some (body :: rest))
    (set : (s.putList (scanKey q i) rest).set? (getQueueSet q) = some members) (known : body ∈ members) :
    scan q n (fuel+1) i s =
      some (.ok (some body) ((s.putList (scanKey q i) rest).putSet (getQueueSet q)
      (members.erase body))) := by
  have first : lpop (scanKey q i) s = .ok (some body) (s.putList (scanKey q i) rest) := by simp [lpop,list]
  rw [scan,if_pos within,first]
  simp [bind,EStateM.bind,srem,set,known,pure,EStateM.pure]

theorem scan_nothing {s : Store Text} (exact : n < 2^53) (fuel : Nat) (enough : n < i + fuel)
    (lists : ∀ j,i ≤ j → j ≤ n → s.list? (scanKey q j) = some []) :
    scan q n (fuel+1) i s = some (.ok none s) := by
  induction fuel generalizing i with
  | zero => exact scan_done 0 (by omega) s
  | succ fuel ih =>
    by_cases within : i ≤ n
    · rw [scan_skip _ within (by omega) (lists i (Nat.le_refl i) within)]
      apply ih
      · omega
      · intro j later
        exact lists j (by omega)
    · exact scan_done _ (by omega) s

section
variable {s : Store Text} (holds : Holds q Q s)
include holds

theorem scan_empty {i : Nat} (small : i < 10^14) (none_ : Q.levels i = []) :
    s.list? (scanKey q i) = some [] := by
  rw [scanKey_exact q small,holds.lists,none_]

theorem scan_first {j : Nat} (small : j < 10^14) (fuel : Nat) (enough : n < i + fuel)
    (before : i ≤ j) (within : j ≤ n) (front : Q.levels j = body :: rest)
    (least : ∀ k : Nat,i ≤ k → k < j → Q.levels k = []) :
    ∃ t,scan q n (fuel+1) i s = some (.ok (some body) t) ∧ Holds q (Q.remove j) t ∧
      ∀ key,key ≠ levelKey q j → key ≠ getQueueSet q → t key = s key := by
  induction fuel generalizing i with
  | zero => omega
  | succ fuel ih =>
    by_cases here : i = j
    · subst here
      obtain ⟨members,set,same⟩ := holds.set
      have key := scanKey_exact q (show i < 10^14 by omega)
      have known : body ∈ members := (same body).mpr ⟨i,front ▸ List.mem_cons_self⟩
      have kept : (s.putList (scanKey q i) rest).set? (getQueueSet q) = some members := by
        rw [key,Store.putList,update_set (levelKey_set q i).symm,set]
      refine ⟨_,scan_found _ within (by rw [key,holds.lists,front]) kept known,⟨?_,?_⟩,?_⟩
      · intro k
        rw [Store.putSet,update_list (levelKey_set q k),key]
        by_cases own : k = i
        · subst own
          rw [putList_list,Queue.remove_self,front,List.tail_cons]
        · rw [Store.putList,update_list (mt levelKey_injective own),holds.lists,Queue.remove_other Q own]
      · refine ⟨members.erase body,putSet_set _ _ _,?_⟩
        intro x
        rw [Finset.mem_erase,same,Queue.remove_has Q front]
      · intro other level set
        rw [Store.putSet,Function.update_of_ne set,key,Store.putList,Function.update_of_ne level]
    · have list := scan_empty holds (show i < 10^14 by omega) (least i (Nat.le_refl i) (by omega))
      rw [scan_skip _ (by omega) (by omega) list]
      apply ih
      · omega
      · omega
      · intro k later
        exact least k (by omega)

end

theorem bound_small {u : PriorityQueue} (small : u.priority.toInt < 10^14) :
    luaNumber u.priority.toInt.toNat = u.priority.toInt.toNat ∧ u.priority.toInt.toNat < 10^14 := by
  have bound : u.priority.toInt.toNat < 10^14 := by omega
  exact ⟨luaNumber_exact (by omega),bound⟩

theorem holds_obeys {u : PriorityQueue} {s : Store Text} (small : u.priority.toInt < 10^14)
    (holds : Holds q Q s) :
    Obeys u q Q s := by
  obtain ⟨exact,bound⟩ := bound_small small
  refine ⟨holds,fun _ p known => push_known holds known p,fun _ p fresh => push_fresh holds fresh p,?_,?_⟩
  · intro i body first
    obtain ⟨rest,front⟩ := List.head?_eq_some_iff.mp first.front
    obtain ⟨positive,within⟩ := first.ranged
    obtain ⟨j,rfl⟩ := Int.eq_ofNat_of_zero_le (show 0 ≤ i by omega)
    have least : ∀ k : Nat,1 ≤ k → k < j → Q.levels k = [] := by
      intro k start earlier
      exact first.least k ⟨by omega,by omega⟩ (by omega)
    obtain ⟨t,scanned,after,_⟩ :=
      scan_first (n := u.priority.toInt.toNat) holds
        (show j < 10^14 by omega) u.priority.toInt.toNat (by omega) (by omega) (by omega) front least
    refine ⟨t,?_,after⟩
    rw [pop,scriptPriorityPop,exact,scanned]
    rfl
  · intro none_
    have empty : ∀ j : Nat,1 ≤ j → j ≤ u.priority.toInt.toNat → s.list? (scanKey q j) = some [] := by
      intro j start within
      exact scan_empty holds (by omega) (none_ j ⟨by omega,by omega⟩)
    have scanned := scan_nothing (by omega) u.priority.toInt.toNat (by omega) empty
    rw [pop,scriptPriorityPop,exact,scanned]
    rfl

-- One call: its answer is the next event of the queue.
theorem step_follows {u : PriorityQueue} {s : State} (obeys : Obeys u q Q s.store) (action : Action ι) :
    ∃ t event entry next,s.step u q action = some t ∧ t.log = s.log ++ [entry] ∧ Shows event entry ∧
      Step u.range Q event next ∧ Holds q next t.store := by
  cases action with
  | push client body p =>
    by_cases known : Q.Has body
    · have answer := obeys.refuses body p known
      refine ⟨⟨s.store,_⟩,_,.push body p 0 none,Q,?_,rfl,.refused,.refused known,obeys.holds⟩
      rw [State.step,answer]
    · obtain ⟨t,answer,holds⟩ := obeys.accepts body p known
      refine ⟨⟨t,_⟩,_,_,_,?_,rfl,.accepted,.accepted known,holds⟩
      rw [State.step,answer]
  | pop client =>
    by_cases none_ : ∀ i ∈ u.range,Q.levels i = []
    · refine ⟨⟨s.store,_⟩,_,_,Q,?_,rfl,.empty,.empty none_,obeys.holds⟩
      rw [State.step,obeys.nothing none_]
      rfl
    · obtain ⟨i,body,first⟩ := Queue.first_exists (Set.finite_Icc 1 u.priority.toInt) none_
      obtain ⟨t,answer,holds⟩ := obeys.returns i body first
      refine ⟨⟨t,_⟩,_,_,_,?_,rfl,.returned,.returned first,holds⟩
      rw [State.step,answer]
      rfl

theorem run_follows {u : PriorityQueue} {s : State} (small : u.priority.toInt < 10^14)
    (actions : List (Action ι))
    (shown : List.Forall₂ Shows events s.log) (run : Run u.range .none events Q) (holds : Holds q Q s.store) :
    ∃ t,Transitions.run (State.step u q) s actions = some t ∧
      ∃ events Q,List.Forall₂ Shows events t.log ∧ Run u.range .none events Q ∧ Holds q Q t.store := by
  induction actions generalizing s events Q with
  | nil => exact ⟨s,rfl,events,Q,shown,run,holds⟩
  | cons action actions ih =>
    obtain ⟨t,event,entry,next,stepped,log,shows_,step,after⟩ := step_follows (holds_obeys small holds) action
    have longer : List.Forall₂ Shows (events ++ [event]) t.log := by
      rw [log]
      exact List.rel_append shown (.cons shows_ .nil)
    obtain ⟨last,ran,rest⟩ := ih longer (run.snoc step) after
    refine ⟨last,?_,rest⟩
    rw [Transitions.run,stepped]
    exact ran

theorem unused_holds {s : Store Text} (unused : Unused q s) : Holds q .none s where
  lists i := by simp [Store.list?,unused.lists,Queue.none]
  set := ⟨∅,by simp [Store.set?,unused.set],fun x => by simp [Queue.Has,Queue.none]⟩

theorem refines_small {u : PriorityQueue} (small : u.priority.toInt < 10^14) : Refines u := by
  intro q start unused ι actions
  obtain ⟨s,ran,events,Q,shown,run,holds⟩ :=
    run_follows small actions (s := ⟨start,[]⟩) .nil .nil (unused_holds unused)
  exact ⟨s,ran,events,Q,shown,run,holds_obeys small holds,run.account⟩

-- The store after one push at priority 10^14, whose list no counter of Pop names.
def farStore : Store Text := (push [] (text "a") 100000000000000 noStore).store

theorem farStore_eq : farStore =
    (noStore.putSet (getQueueSet []) {text "a"}).putList (levelKey [] 100000000000000) [text "a"] := by
  have empty : text "a" ∉ (∅ : Finset Text) := Finset.notMem_empty _
  have list : noStore.list? (levelKey [] (100000000000000 : Int64).toInt) = some [] := rfl
  rw [farStore,push_new rfl empty list]
  rfl

theorem far_levels (i : Int) :
    farStore.list? (levelKey [] i) = some (if i = 100000000000000 then [text "a"] else []) := by
  rw [farStore_eq]
  split
  · rename_i same
    rw [same,putList_list]
  · rename_i other
    rw [Store.putList,update_list (mt levelKey_injective other),Store.putSet,update_list (levelKey_set [] i)]
    rfl

theorem far_lists (i : Nat) : farStore.list? (scanKey [] i) = some [] := by
  by_cases small : i < 10^14
  · rw [scanKey_exact [] small,far_levels,if_neg (by omega)]
  · have large : 10^14 ≤ i := by omega
    rw [farStore_eq,Store.putList,update_list (scanKey_level large [] _),Store.putSet,
      update_list (scanKey_set large [])]
    rfl

theorem scan_misses {s : Store Text} (absent : ∀ i,s.list? (scanKey q i) = some []) (n fuel i : Nat) :
    scan q n fuel i s = none ∨ scan q n fuel i s = some (.ok none s) := by
  induction fuel generalizing i with
  | zero => exact Or.inl rfl
  | succ fuel ih =>
    by_cases within : i ≤ n
    · have gone : lpop (scanKey q i) s = .ok none s := by simp [lpop,absent i]
      rw [scan,if_pos within,gone]
      exact ih _
    · rw [scan,if_neg within]
      exact Or.inr rfl

theorem far_pop (u : PriorityQueue) (answer : Answer Text)
    (popped : pop u [] farStore = some answer) : answer.resp = [] := by
  rcases scan_misses far_lists (luaNumber u.priority.toInt.toNat)
    (luaNumber u.priority.toInt.toNat+1) 1 with runs | ends
  · rw [pop,scriptPriorityPop,runs] at popped
    cases popped
  · rw [pop,scriptPriorityPop,ends] at popped
    cases popped
    rfl

theorem refines_bound {u : PriorityQueue} (refines : Refines u) : u.priority.toInt < 10^14 := by
  by_contra large
  have unused : Unused [] noStore := ⟨fun _ => rfl,rfl⟩
  obtain ⟨s,ran,events,Q,_,_,obeys,_⟩ := refines [] noStore unused Unit [.push () (text "a") 100000000000000]
  cases ran
  have levels (i : Int) : Q.levels i = if i = 100000000000000 then [text "a"] else [] := by
    exact Option.some.inj ((obeys.holds.lists i).symm.trans (far_levels i))
  have first : Q.First u.range 100000000000000 (text "a") := by
    refine ⟨⟨by decide,by omega⟩,by rw [levels,if_pos rfl]; rfl,?_⟩
    intro j _ smaller
    rw [levels,if_neg (by omega)]
  obtain ⟨t,popped,_⟩ := obeys.returns _ _ first
  cases far_pop u _ popped

-- The bodies pushed at priority 10^14 are looked for under another key.
theorem priority_queue_refines (u : PriorityQueue) : Refines u ↔ u.priority.toInt < 10^14 :=
  ⟨refines_bound,refines_small⟩

theorem priority_lost : ¬ Refines (newPriorityQueue 100000000000000 true) ∧
    Transitions.run (State.step (newPriorityQueue 100000000000000 true) [])
      ⟨noStore,[]⟩ [Action.push () (text "a") 100000000000000] =
      some ⟨farStore,[.push (text "a") 100000000000000 1 none]⟩ ∧
    farStore.list? (levelKey [] 100000000000000) = some [text "a"] ∧
    pop (newPriorityQueue 100000000000000 true) [] farStore = some ⟨[],none,farStore⟩ := by
  refine ⟨fun refines => absurd (refines_bound refines) (by decide),rfl,far_levels 100000000000000,?_⟩
  have exact : luaNumber 100000000000000 = 100000000000000 := luaNumber_exact (by decide)
  have scanned :=
    scan_nothing (i := 1) (n := 100000000000000) (by decide) 100000000000000
      (by decide) fun j _ _ => far_lists j
  have bound : (newPriorityQueue 100000000000000 true).priority.toInt.toNat = 100000000000000 := rfl
  rw [pop,scriptPriorityPop,bound,exact,scanned]
  rfl

end PriorityQueue

end SqlReview
