import Mathlib.Data.List.Perm.Basic
import SqlReview.DoublyLinked
import SqlReview.Transitions

-- redis.Pool: get, put and Close under any number of goroutines.
namespace SqlReview.RedisPool
open DoublyLinked

-- When a connection was put back and when it was dialled, in nanoseconds.
structure Times where
  t : Int
  created : Int

-- The poolConns by their addresses.
abbrev Heap := Nat → Node Nat Times

structure IdleList where
  count : Int
  front : Option Nat
  back : Option Nat

def unlink (h : Heap) (pc : Nat) : Heap := setPrev (setNext h pc none) pc none

-- In these three `none` is a nil pointer that is followed.
def pushFront (h : Heap) (l : IdleList) (pc : Nat) : Option (Heap × IdleList) :=
  let h := setPrev (setNext h pc l.front) pc none
  if l.count = 0 then some (h,⟨l.count+1,some pc,some pc⟩)
  else match l.front with
    | none => none
    | some front => some (setPrev h front (some pc),⟨l.count+1,some pc,l.back⟩)

def popFront (h : Heap) (l : IdleList) : Option (Heap × IdleList) :=
  match l.front with
  | none => none
  | some pc =>
    if l.count-1 = 0 then some (unlink h pc,⟨l.count-1,none,none⟩)
    else match (h pc).next with
      | none => none
      | some next => some (unlink (setPrev h next none) pc,⟨l.count-1,some next,l.back⟩)

def popBack (h : Heap) (l : IdleList) : Option (Heap × IdleList) :=
  match l.back with
  | none => none
  | some pc =>
    if l.count-1 = 0 then some (unlink h pc,⟨l.count-1,none,none⟩)
    else match (h pc).prev with
      | none => none
      | some prev => some (unlink (setNext h prev none) pc,⟨l.count-1,l.front,some prev⟩)

-- The exported fields of Pool; of TestOnBorrow whether it is set.
structure Settings where
  testOnBorrow : Bool
  maxIdle : Int
  maxActive : Int
  idleTimeout : Int
  wait : Bool
  maxConnLifetime : Int

def Settings.waits (cfg : Settings) : Bool := cfg.wait && decide (0 < cfg.maxActive)

-- `ch` is nil or the number of tokens in the channel, which is closed when the pool is. `fresh` is the
-- next address, `shut` the connections that have been closed: both are not in the program.
structure Pool where
  closed : Bool
  active : Int
  ch : Option Nat
  heap : Heap
  idle : IdleList
  fresh : Nat
  shut : List Nat

inductive GetError where
  | context | closed | exhausted | dial

-- A caller of Get or GetContext, between two sections of code under p.mu: the connection it has in its
-- hands and, in the loop that prunes, i and n.
inductive Thread where
  | get (ctx : Bool)
  | wait (ctx : Bool)
  | lock
  | prune (pc : Nat) (i n : Int)
  | test (pc : Nat)
  | discard (pc : Nat)
  | dial
  | undial
  | held (pc : Nat)
  | put (pc : Nat) (forceClose : Bool)
  | drop (pc : Nat)
  | failed (err : GetError)

-- A nil pointer, or a send on a channel that is full, with p.mu held.
inductive Fault where
  | nilPointer | fullChannel

inductive Outcome where
  | blocked
  | fault (why : Fault)
  | goes (p : Pool) (next : Option Thread)

def lazyInit (cfg : Settings) (p : Pool) : Pool :=
  match p.ch with
  | some _ => p
  | none => {p with ch := some (if p.closed then 0 else cfg.maxActive.toNat)}

-- A receive from a closed channel returns when the tokens are used up.
def receive (p : Pool) : Outcome :=
  match p.ch with
  | none => .blocked
  | some 0 => if p.closed then .goes p (some .lock) else .blocked
  | some (n+1) => .goes {p with ch := some n} (some .lock)

-- get from the idle connections on.
def borrow (cfg : Settings) (p : Pool) : Outcome :=
  match p.idle.front with
  | some pc =>
    match popFront p.heap p.idle with
    | none => .fault .nilPointer
    | some (heap,idle) => .goes {p with heap := heap,idle := idle} (some (.test pc))
  | none =>
    if p.closed then .goes p (some (.failed .closed))
    else if !cfg.wait && decide (0 < cfg.maxActive) && decide
      (cfg.maxActive ≤ p.active) then .goes p (some (.failed .exhausted))
    else .goes {p with active := p.active+1} (some .dial)

def stale (cfg : Settings) (now : Int) (p : Pool) (pc : Nat) : Bool :=
  decide ((p.heap pc).data.t+cfg.idleTimeout < now)

-- get from round i of the loop that prunes on.
def prune (cfg : Settings) (now : Int) (p : Pool) (i n : Int) : Outcome :=
  match p.idle.back with
  | some pc =>
    if 0 < cfg.idleTimeout ∧ i < n ∧ stale cfg now p pc = true then
      match popBack p.heap p.idle with
      | none => .fault .nilPointer
      | some (heap,idle) => .goes {p with heap := heap,idle := idle} (some (.prune pc i n))
    else borrow cfg p
  | none => borrow cfg p

-- What put and a failed dial end with.
def release (cfg : Settings) (p : Pool) (next : Option Thread) : Outcome :=
  match p.ch with
  | none => .goes p next
  | some n =>
    if p.closed then .goes p next
    else if (n : Int) < cfg.maxActive then .goes {p with ch := some (n+1)} next
    else .fault .fullChannel

-- pc.c.Close() and p.active--
def Pool.dropped (p : Pool) (pc : Nat) : Pool := {p with active := p.active-1,shut := p.shut ++ [pc]}

def usable (cfg : Settings) (now : Int) (ok : Bool) (p : Pool) (pc : Nat) : Bool :=
  (!cfg.testOnBorrow || ok) &&
    (cfg.maxConnLifetime == 0 || decide (now-(p.heap pc).data.created < cfg.maxConnLifetime))

def put (cfg : Settings) (now : Int) (p : Pool) (pc : Nat) : Outcome :=
  match pushFront (setData p.heap pc {(p.heap pc).data with t := now}) p.idle pc with
  | none => .fault .nilPointer
  | some (heap,idle) =>
    if cfg.maxIdle < idle.count then
      match idle.back,popBack heap idle with
      | some last,some (heap,idle) => .goes {p with heap := heap,idle := idle} (some (.drop last))
      | _,_ => .fault .nilPointer
    else release cfg {p with heap := heap,idle := idle} none

-- A caller goes on up to the next place where it does not hold p.mu. `ok` is what TestOnBorrow or Dial
-- answers, or whether the caller closes its connection without an error and without a state.
def advance (cfg : Settings) (now : Int) (ok : Bool) (p : Pool) : Thread → Outcome
  | .get ctx => if cfg.waits then .goes (lazyInit cfg p) (some (.wait ctx)) else .goes p (some .lock)
  | .wait _ => receive p
  | .lock => prune cfg now p 0 p.idle.count
  | .prune pc i n => prune cfg now (p.dropped pc) (i+1) n
  | .test pc => .goes p (some (if usable cfg now ok p pc then .held pc else .discard pc))
  | .discard pc => borrow cfg (p.dropped pc)
  | .dial =>
    if ok then .goes {p with heap := Function.update p.heap p.fresh ⟨⟨0,now⟩,none,none⟩,fresh := p.fresh+1} (some (.held p.fresh))
    else .goes p (some .undial)
  | .undial => release cfg {p with active := p.active-1} (some (.failed .dial))
  | .held pc => .goes p (some (.put pc (!ok)))
  | .put pc forceClose => if !p.closed && !forceClose then put cfg now p pc else .goes p (some (.drop pc))
  | .drop pc => release cfg (p.dropped pc) none
  | .failed _ => .goes p none

-- `sweep` is the loop variable of Close.
structure System where
  pool : Pool
  threads : List Thread
  sweep : Option Nat
  fault : Option Fault

def System.start : System := ⟨⟨false,0,none,fun _ => ⟨⟨0,0⟩,none,none⟩,⟨0,none,none⟩,0,[]⟩,[],none,none⟩

inductive Action where
  | get (ctx : Bool)
  | advance (i : Nat) (now : Int) (ok : Bool)
  | cancel (i : Nat)
  | close
  | sweep

def System.step (cfg : Settings) (s : System) : Action → Option System
  | .get ctx => some {s with threads := s.threads ++ [.get ctx]}
  | .advance i now ok =>
    match s.threads[i]? with
    | none => none
    | some thread =>
      match advance cfg now ok s.pool thread with
      | .blocked => none
      | .fault why => some {s with fault := some why}
      | .goes p next =>
        some {s with pool := p,threads := s.threads.take i ++ (next.toList ++ s.threads.drop (i+1))}
  | .cancel i =>
    match s.threads[i]? with
    | some (.wait true) =>
      some {s with threads := s.threads.take i ++ .failed .context :: s.threads.drop (i+1)}
    | _ => none
  | .close =>
    if s.pool.closed then some s
    else some {s with
      pool := {s.pool with closed := true,active := s.pool.active-s.pool.idle.count,idle := ⟨0,none,none⟩}
      sweep := s.pool.idle.front}
  | .sweep =>
    s.sweep.map fun pc =>
      {s with pool := {s.pool with shut := s.pool.shut ++ [pc]},sweep := (s.pool.heap pc).next}

-- The idle list as the sequence of its connections.
structure Holds (h : Heap) (l : IdleList) (items : List Nat) : Prop where
  count : l.count = items.length
  front : l.front = items.head?
  back : l.back = items.getLast?
  chain : Segment h none items none
  nodup : items.Nodup

-- Nothing outside a list of nodes changes.
def Outside (h g : Heap) (items : List Nat) : Prop := ∀ k,k ∉ items → g k = h k

theorem setNext_outside (h : Heap) (inside : k ∈ items) (link : Option Nat) :
    Outside h (setNext h k link) items := by
  intro l outside
  refine Function.update_of_ne ?_ _ _
  rintro rfl
  exact outside inside

theorem setPrev_outside (h : Heap) (inside : k ∈ items) (link : Option Nat) :
    Outside h (setPrev h k link) items := by
  intro l outside
  refine Function.update_of_ne ?_ _ _
  rintro rfl
  exact outside inside

theorem Outside.trans (first : Outside h g items) (second : Outside g f items) : Outside h f items :=
  fun k outside => (second k outside).trans (first k outside)

theorem unlink_outside (h : Heap) (inside : k ∈ items) : Outside h (unlink h k) items :=
  (setNext_outside h inside none).trans (setPrev_outside _ inside none)

theorem Outside.segment (outside : Outside h g items) (apart : items.Disjoint others)
    (segment : Segment h before others after) :
    Segment g before others after := by
  refine segment.frame fun k member => ?_
  rw [outside k fun inside => apart inside member]
  exact ⟨rfl,rfl⟩

theorem pushFront_holds {l : IdleList} (holds : Holds h l items) (new : pc ∉ items) :
    ∃ g m,pushFront h l pc = some (g,m) ∧
    Holds g m (pc :: items) ∧ Outside h g (pc :: items) := by
  obtain ⟨count,front,back,chain,nodup⟩ := holds
  have linked : Segment (setPrev (setNext h pc l.front) pc none) none [pc] items.head? := by
    refine ⟨?_,?_,trivial⟩
    · simp [setPrev]
    · simp [setPrev,setNext,front]
  have others : Segment (setPrev (setNext h pc l.front) pc none) none items none :=
    (chain.update new _).update new _
  have moved : Outside h (setPrev (setNext h pc l.front) pc none) (pc :: items) :=
    (setNext_outside h List.mem_cons_self _).trans (setPrev_outside _ List.mem_cons_self _)
  unfold pushFront
  cases items with
  | nil =>
    rw [if_pos (by simpa using count)]
    refine ⟨_,_,rfl,⟨?_,rfl,rfl,linked,List.nodup_singleton pc⟩,moved⟩
    simp [count]
  | cons first rest =>
    have some_ : l.front = some first := front
    rw [if_neg (by rw [count,List.length_cons]; omega)]
    simp only [some_] at linked others moved ⊢
    refine ⟨_,_,rfl,⟨?_,rfl,?_,?_,List.nodup_cons.mpr ⟨new,nodup⟩⟩,
      moved.trans (setPrev_outside _ (List.mem_cons_of_mem _ List.mem_cons_self) _)⟩
    · simp [count]
    · rw [back,List.getLast?_cons_cons]
    · have apart : first ∉ [pc] := by
        rintro same
        exact new (List.mem_singleton.mp same ▸ List.mem_cons_self)
      exact segment_append.mpr ⟨linked.update apart _,others.setPrev (List.nodup_cons.mp nodup).1 _⟩

theorem popFront_holds {l : IdleList} (holds : Holds h l (pc :: items)) : ∃ g m,popFront h l = some (g,m) ∧
    Holds g m items ∧ Outside h g (pc :: items) := by
  obtain ⟨count,front,back,chain,nodup⟩ := holds
  obtain ⟨new,nodup⟩ := List.nodup_cons.mp nodup
  have some_ : l.front = some pc := front
  unfold popFront
  simp only [some_]
  cases items with
  | nil =>
    rw [if_pos (by simp [count])]
    refine ⟨_,_,rfl,⟨?_,rfl,rfl,trivial,nodup⟩,unlink_outside h List.mem_cons_self⟩
    simp [count]
  | cons first rest =>
    obtain ⟨_,next,rest_⟩ := chain
    rw [if_neg (by rw [count,List.length_cons,List.length_cons]; omega)]
    have linked : (h pc).next = some first := next
    simp only [linked]
    refine ⟨_,_,rfl,⟨?_,rfl,?_,?_,nodup⟩,?_⟩
    · simp [count]
    · rw [back,List.getLast?_cons_cons]
    · exact ((rest_.setPrev (List.nodup_cons.mp nodup).1 none).update new _).update new _
    · exact (setPrev_outside h (List.mem_cons_of_mem _ List.mem_cons_self) none).trans
        (unlink_outside _ List.mem_cons_self)

theorem popBack_holds {l : IdleList} (holds : Holds h l (items ++ [pc])) : ∃ g m,popBack h l = some (g,m) ∧
    Holds g m items ∧ Outside h g (items ++ [pc]) := by
  obtain ⟨count,front,back,chain,nodup⟩ := holds
  have own : pc ∈ items ++ [pc] := List.mem_append_right _ List.mem_cons_self
  have new : pc ∉ items := by
    have apart := List.disjoint_of_nodup_append nodup
    exact fun member => apart member List.mem_cons_self
  have some_ : l.back = some pc := by rw [back,List.getLast?_concat]
  obtain ⟨chain,prev,_,_⟩ := segment_append.mp chain
  unfold popBack
  simp only [some_]
  rcases List.eq_nil_or_concat items with rfl | ⟨rest,last,rfl⟩
  · rw [if_pos (by simp [count])]
    refine ⟨_,_,rfl,⟨?_,rfl,rfl,trivial,List.nodup_nil⟩,unlink_outside h own⟩
    simp [count]
  · rw [List.concat_eq_append] at *
    have linked : (h pc).prev = some last := by simpa using prev
    have final : last ∉ rest := by
      have apart := List.disjoint_of_nodup_append (List.nodup_append.mp nodup).1
      exact fun member => apart member List.mem_cons_self
    rw [if_neg (by rw [count]; simp; omega)]
    simp only [linked]
    refine ⟨_,_,rfl,⟨?_,?_,?_,?_,(List.nodup_append.mp nodup).1⟩,?_⟩
    · simp [count]
      omega
    · rw [front]
      cases rest <;> rfl
    · rw [List.getLast?_concat]
    · exact ((chain.setNext final none).update new _).update new _
    · exact (setNext_outside h (by simp) none).trans (unlink_outside _ own)

end SqlReview.RedisPool
