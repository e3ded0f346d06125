import SqlReview.GoText
import SqlReview.RedisStore
import SqlReview.Transitions

namespace SqlReview.UniqueQueue
open GoText RedisStore

def getQueueSet (q : Text) : Text := q ++ text "_set"

def scriptPush (q body : Text) : Command Text Nat := do
  let v ← sadd (getQueueSet q) body
  if v = 1 then
    let _ ← rpush q body
    return 1
  else return 0

-- LPOP of an empty list is false in Lua, which differs from "" and is no argument for SREM.
def scriptPop (q : Text) : Command Text (Option Text) := do
  let v ← lpop q
  if v ≠ some [] then
    match v with
    | none => throw .badArgument
    | some body => let _ ← srem (getQueueSet q) body
  return v

-- The value and the error that a call returns, and the store it leaves.
structure Answer (α : Type) where
  resp : α
  err : Option Fault
  store : Store Text

def uniquePush (q body : Text) (s : Store Text) : Answer Nat :=
  match scriptPush q body s with
  | .ok resp s => ⟨resp,none,s⟩
  | .error fault s => ⟨0,some fault,s⟩

-- redis.String of a nil reply is "" with ErrNil, which is dropped.
def uniquePop (q : Text) (s : Store Text) : Answer Text :=
  match scriptPop q s with
  | .ok resp s => ⟨resp.getD [],none,s⟩
  | .error fault s => ⟨[],some fault,s⟩

def length (q : Text) (s : Store Text) : Answer Nat :=
  match llen q s with
  | .ok resp s => ⟨resp,none,s⟩
  | .error fault s => ⟨0,some fault,s⟩

-- Clear is DEL q and then, as a command of its own, DEL q_set.
def clearList (q : Text) (s : Store Text) : Store Text := leaves (del q) s
def clearSet (q : Text) (s : Store Text) : Store Text := leaves (del (getQueueSet q)) s

-- The clients of one queue; those marked in `clearing` have deleted the list and not yet the set.
structure Clients (ι : Type) where
  store : Store Text
  clearing : ι → Bool

inductive Action (ι : Type) where
  | push (client : ι) (body : Text)
  | pop (client : ι)
  | length (client : ι)
  | clear (client : ι)
  | finish (client : ι)

def Action.client : Action ι → ι
  | .push c _ | .pop c | .length c | .clear c | .finish c => c

def Action.finishes : Action ι → Bool
  | .finish _ => true
  | _ => false

variable {ι : Type} [DecidableEq ι]

def Clients.after (q : Text) (s : Clients ι) : Action ι → Clients ι
  | .push _ body => {s with store := (uniquePush q body s.store).store}
  | .pop _ => {s with store := (uniquePop q s.store).store}
  | .length _ => {s with store := (UniqueQueue.length q s.store).store}
  | .clear c => ⟨clearList q s.store,Function.update s.clearing c true⟩
  | .finish c => ⟨clearSet q s.store,Function.update s.clearing c false⟩

-- A client in the middle of Clear only goes on with it.
def Clients.step (q : Text) (s : Clients ι) (action : Action ι) : Option (Clients ι) :=
  if s.clearing action.client = action.finishes then some (s.after q action) else none

def Clients.Settled (s : Clients ι) : Prop := ∀ c, s.clearing c = false

-- The list holds no body twice and the set holds what the list holds.
structure Holds (q : Text) (items : List Text) (s : Store Text) : Prop where
  list : s.list? q = some items
  set : s.set? (getQueueSet q) = some items.toFinset
  nodup : items.Nodup

theorem queueSet_ne (q : Text) : getQueueSet q ≠ q := by
  intro same
  exact absurd (List.append_right_eq_self.mp same) (by decide)

theorem queueSet_injective (front : Text)
    (same : getQueueSet (front ++ a) = getQueueSet (front ++ b)) : a = b :=
  List.append_cancel_left (List.append_cancel_right same)

theorem queueSet_list (q : Text) (s : Store Text) (members : Finset Text) :
    (s.putSet (getQueueSet q) members).list? q = s.list? q := update_list (queueSet_ne q).symm _

theorem queueSet_set (q : Text) (s : Store Text) (items : List Text) :
    (s.putList q items).set? (getQueueSet q) = s.set? (getQueueSet q) := update_set (queueSet_ne q) _

-- What a push can do: fail on the set, find the body there, add it to both, or fail on the
-- list when the set has it already.
theorem uniquePush_cases {motive : Answer Nat → Prop} (q body : Text) (s : Store Text)
    (fails : s.set? (getQueueSet q) = none → motive ⟨0,some .wrongType,s⟩)
    (present : ∀ members, s.set? (getQueueSet q) = some members → body ∈ members → motive ⟨0,none,s⟩)
    (accepted : ∀ members items, s.set? (getQueueSet q) = some members → body ∉ members →
    s.list? q = some items →
      motive ⟨1,none,(s.putSet (getQueueSet q) (insert body members)).putList q (items ++ [body])⟩)
    (halfway : ∀ members, s.set? (getQueueSet q) = some members → body ∉ members → s.list? q = none →
      motive ⟨0,some .wrongType,s.putSet (getQueueSet q) (insert body members)⟩) :
    motive (uniquePush q body s) := by
  unfold uniquePush scriptPush
  cases set : s.set? (getQueueSet q) with
  | none =>
    have add : sadd (getQueueSet q) body s = .error .wrongType s := by simp [sadd,set]
    simpa [bind,EStateM.bind,add] using fails set
  | some members =>
    by_cases known : body ∈ members
    · have add : sadd (getQueueSet q) body s = .ok 0 s := by simp [sadd,set,known]
      simpa [bind,EStateM.bind,add,pure,EStateM.pure] using present members set known
    · have add : sadd (getQueueSet q) body s = .ok 1 (s.putSet (getQueueSet q) (insert body members)) := by
        simp [sadd,set,known]
      cases list : s.list? q with
      | none => simpa [bind,EStateM.bind,add,rpush,queueSet_list,list] using halfway members set known list
      | some items =>
        simpa [bind,EStateM.bind,add,rpush,queueSet_list,list,pure,EStateM.pure]
          using accepted members items set known list

theorem uniquePop_cases {motive : Answer Text → Prop} (q : Text) (s : Store Text)
    (fails : s.list? q = none → motive ⟨[],some .wrongType,s⟩)
    (empty : s.list? q = some [] → motive ⟨[],some .badArgument,s⟩)
    (blank : ∀ items, s.list? q = some ([] :: items) → motive ⟨[],none,s.putList q items⟩)
    (removed : ∀ body items members, s.list? q = some (body :: items) → body ≠ [] →
    s.set? (getQueueSet q) = some members →
      body ∈ members → motive ⟨body,none,(s.putList q items).putSet (getQueueSet q) (members.erase body)⟩)
    (kept : ∀ body items members, s.list? q = some (body :: items) → body ≠ [] →
    s.set? (getQueueSet q) = some members →
      body ∉ members → motive ⟨body,none,s.putList q items⟩)
    (halfway : ∀ body items, s.list? q = some (body :: items) → body ≠ [] → s.set? (getQueueSet q) = none →
      motive ⟨[],some .wrongType,s.putList q items⟩) : motive (uniquePop q s) := by
  unfold uniquePop scriptPop
  cases list : s.list? q with
  | none => simpa [bind,EStateM.bind,lpop,list] using fails list
  | some items =>
    cases items with
    | nil =>
      simpa [bind,EStateM.bind,lpop,list,throw,throwThe,MonadExceptOf.throw,EStateM.throw] using empty list
    | cons body items =>
      by_cases blanks : body = []
      · subst blanks
        simpa [bind,EStateM.bind,lpop,list,pure,EStateM.pure] using blank items list
      · cases set : s.set? (getQueueSet q) with
        | none =>
          simpa [bind,EStateM.bind,lpop,list,blanks,srem,queueSet_set,set]
            using halfway body items list blanks set
        | some members =>
          by_cases known : body ∈ members
          · simpa [bind,EStateM.bind,lpop,list,blanks,srem,queueSet_set,set,known,pure,EStateM.pure]
              using removed body items members list blanks set known
          · simpa [bind,EStateM.bind,lpop,list,blanks,srem,queueSet_set,set,known,pure,EStateM.pure]
              using kept body items members list blanks set known

theorem push_string (q body : Text) (s : Store Text) (key content : Text) :
    (uniquePush q body s).store key = some (.string content) ↔ s key = some (.string content) := by
  refine uniquePush_cases (motive := fun answer => answer.store key = some (.string content) ↔
    s key = some (.string content)) q body s
    (fun _ => Iff.rfl) (fun _ _ _ => Iff.rfl) (fun members items set _ list => ?_)
      (fun members set _ _ => putSet_string set _ key content)
  have typed : (s.putSet (getQueueSet q) (insert body members)).list? q = some items :=
    (queueSet_list q s _).trans list
  exact (putList_string typed _ key content).trans (putSet_string set _ key content)

-- A push that does not fail changes the sets by the accepted body alone.
theorem push_members (q body : Text) (s : Store Text) (works : (uniquePush q body s).err = none)
    (key member : Text) :
    member ∈ (uniquePush q body s).store.members key ↔
      member ∈ s.members key ∨ (key = getQueueSet q ∧ member = body ∧ (uniquePush q body s).resp = 1) := by
  revert works
  refine uniquePush_cases (motive := fun answer => answer.err = none → (member ∈ answer.store.members key ↔
    member ∈ s.members key ∨
      (key = getQueueSet q ∧ member = body ∧ answer.resp = 1))) q body s nofun ?_ ?_ nofun
  · intro members set known works
    simp
  · intro members items set fresh list works
    have typed : (s.putSet (getQueueSet q) (insert body members)).list? q = some items :=
      (queueSet_list q s _).trans list
    rw [putList_members typed,putSet_members]
    by_cases same : key = getQueueSet q
    · subst same
      have before : s.members (getQueueSet q) = members := by rw [Store.members,set]; rfl
      simp [before,or_comm]
    · simp [same]

-- It is accepted exactly when the set does not have the body.
theorem push_accepts (q body : Text) (s : Store Text) (works : (uniquePush q body s).err = none) :
    (uniquePush q body s).resp = 1 ↔ body ∉ s.members (getQueueSet q) := by
  revert works
  refine uniquePush_cases (motive := fun answer => answer.err = none →
    (answer.resp = 1 ↔ body ∉ s.members (getQueueSet q))) q body s nofun ?_ ?_ nofun
  · intro members set known works
    simp [Store.members,set,known]
  · intro members items set fresh list works
    simp [Store.members,set,fresh]

theorem Holds.push {s : Store Text} (holds : Holds q items s) (body : Text) :
    ∃ items, Holds q items (uniquePush q body s).store := by
  refine uniquePush_cases (motive := fun answer => ∃ items, Holds q items answer.store) q body s
    (fun fault => absurd (holds.set.symm.trans fault) nofun) (fun _ _ _ => ⟨items,holds⟩) ?_
    (fun _ _ _ fault => absurd (holds.list.symm.trans fault) nofun)
  intro members others set fresh list
  cases Option.some.inj (holds.set.symm.trans set)
  cases Option.some.inj (holds.list.symm.trans list)
  refine ⟨items ++ [body],putList_list _ _ _,?_,?_⟩
  · rw [queueSet_set,putSet_set]
    congr 1
    ext other
    simp
  · exact List.nodup_append.mpr ⟨holds.nodup,List.nodup_singleton body,fun a found b single same => fresh (by
      cases List.mem_singleton.mp single
      rw [← same]
      exact List.mem_toFinset.mpr found)⟩

theorem Holds.pop {s : Store Text} (holds : Holds q items s)
    (visible : ∀ items ∈ s.list? q, items.head? ≠ some []) :
    ∃ items, Holds q items (uniquePop q s).store := by
  refine uniquePop_cases (motive := fun answer => ∃ items, Holds q items answer.store) q s
    (fun fault => absurd (holds.list.symm.trans fault) nofun) (fun _ => ⟨items,holds⟩)
    (fun rest list => absurd rfl (visible ([] :: rest) list)) ?_ ?_
    (fun _ _ _ _ fault => absurd (holds.set.symm.trans fault) nofun)
  · intro body rest members list _ set _
    cases Option.some.inj (holds.list.symm.trans list)
    cases Option.some.inj (holds.set.symm.trans set)
    obtain ⟨gone,nodup⟩ := List.nodup_cons.mp holds.nodup
    refine ⟨rest,?_,?_,nodup⟩
    · rw [queueSet_list,putList_list]
    · rw [putSet_set,List.toFinset_cons,Finset.erase_insert (mt List.mem_toFinset.mp gone)]
  · intro body rest members list _ set lost
    cases Option.some.inj (holds.list.symm.trans list)
    cases Option.some.inj (holds.set.symm.trans set)
    exact absurd (List.mem_toFinset.mpr List.mem_cons_self) lost

theorem Holds.accepts {s : Store Text} (holds : Holds q items s) (body : Text) :
    (uniquePush q body s).resp = 1 ↔ body ∉ items := by
  refine uniquePush_cases (motive := fun answer => answer.resp = 1 ↔ body ∉ items) q body s
    (fun fault => absurd (holds.set.symm.trans fault) nofun) (fun members set known => ?_)
      (fun members _ set fresh _ => ?_)
    (fun _ _ _ fault => absurd (holds.list.symm.trans fault) nofun)
  · cases Option.some.inj (holds.set.symm.trans set)
    simpa using List.mem_toFinset.mp known
  · cases Option.some.inj (holds.set.symm.trans set)
    simpa using mt List.mem_toFinset.mpr fresh

-- No empty body is popped and nothing is accepted while some Clear is half-done.
def Orderly (q : Text) (s : Clients ι) : Action ι → Prop
  | .push _ body => s.Settled ∨ ∀ members ∈ s.store.set? (getQueueSet q), body ∈ members
  | .pop _ => ∀ items ∈ s.store.list? q, items.head? ≠ some []
  | _ => True

instance [Fintype ι] (q : Text) (s : Clients ι) : (action : Action ι) → Decidable (Orderly q s action)
  | .push _ body =>
    inferInstanceAs (Decidable ((∀ c, s.clearing c = false) ∨
      ∀ members ∈ s.store.set? (getQueueSet q), body ∈ members))
  | .pop _ => inferInstanceAs (Decidable (∀ items ∈ s.store.list? q, items.head? ≠ some []))
  | .length _ | .clear _ | .finish _ => .isTrue trivial

-- While a Clear is half-done the list stays empty.
structure Sound (q : Text) (s : Clients ι) : Prop where
  settled : s.Settled → ∃ items, Holds q items s.store
  clearing : ¬ s.Settled → s.store.list? q = some []

theorem push_sound {s : Clients ι} (sound : Sound q s) (orderly : Orderly q s (.push c body)) :
    Sound q (s.after q (.push c body)) := by
  refine ⟨fun settled => ?_,fun busy => ?_⟩
  · obtain ⟨items,holds⟩ := sound.settled settled
    exact holds.push body
  · have list := sound.clearing busy
    have known := orderly.resolve_left busy
    exact uniquePush_cases (motive := fun answer => answer.store.list? q = some []) q body s.store
      (fun _ => list)
      (fun _ _ _ => list) (fun members _ set fresh _ => absurd (known members set) fresh)
      (fun _ _ _ fault => absurd (list.symm.trans fault) nofun)

theorem pop_sound {s : Clients ι} (sound : Sound q s) (orderly : Orderly q s (.pop c)) :
    Sound q (s.after q (.pop c)) := by
  refine ⟨fun settled => ?_,fun busy => ?_⟩
  · obtain ⟨items,holds⟩ := sound.settled settled
    exact holds.pop orderly
  · have list := sound.clearing busy
    refine uniquePop_cases (motive := fun answer => answer.store.list? q = some []) q s.store (fun _ => list)
      (fun _ => list) ?_ ?_ ?_ ?_
    all_goals
      intros
      have other := list.symm.trans ‹_›
      cases other

theorem length_store (q : Text) (s : Store Text) : (UniqueQueue.length q s).store = s := by
  unfold UniqueQueue.length llen
  cases s.list? q <;> rfl

theorem step_sound {s t : Clients ι} (sound : Sound q s) (orderly : Orderly q s action)
    (step : s.step q action = some t) :
    Sound q t := by
  unfold Clients.step at step
  split at step
  · rename_i phase
    cases Option.some.inj step
    cases action with
    | push c body => exact push_sound sound orderly
    | pop c => exact pop_sound sound orderly
    | length c =>
      have same : s.after q (.length c) = s := by simp [Clients.after,length_store]
      rwa [same]
    | clear c =>
      refine ⟨fun settled => ?_,fun _ => ?_⟩
      · have busy := settled c
        simp [Clients.after] at busy
      · simp [Clients.after,clearList,leaves,del,Store.list?]
    | finish c =>
      have busy : ¬ s.Settled := fun settled => by
        have idle := settled c
        rw [show s.clearing c = true from phase] at idle
        cases idle
      have list : (s.after q (.finish c)).store.list? q = some [] := by
        exact (update_list (queueSet_ne q).symm none).trans (sound.clearing busy)
      refine ⟨fun _ => ⟨[],list,?_,List.nodup_nil⟩,fun _ => list⟩
      simp [Clients.after,clearSet,leaves,del,Store.set?]
  · cases step

-- Whatever the clients do, whenever no Clear is half-done list and set agree, and a push
-- succeeds exactly for a body that is not queued.
theorem queue_set_agree {start s : Clients ι} (settled : start.Settled) (holds : Holds q items start.store)
    (runs : Transitions.Runs (Clients.step q) (Orderly q) start actions s) (done : s.Settled) :
    ∃ items, Holds q items s.store ∧ ∀ body, (uniquePush q body s.store).resp = 1 ↔ body ∉ items := by
  have sound := runs.invariant (Sound q) ⟨fun _ => ⟨items,holds⟩,fun busy => absurd settled busy⟩
    fun _ _ _ sound orderly step => step_sound sound orderly step
  obtain ⟨items,holds⟩ := sound.settled done
  exact ⟨items,holds,holds.accepts⟩

def noStore : Store Text := fun _ => none

def twoClients : Clients (Fin 2) := ⟨noStore,fun _ => false⟩

theorem noStore_holds (q : Text) : Holds q [] noStore := ⟨rfl,rfl,List.nodup_nil⟩

-- One client pops and the other one clears; what is pushed during the Clear is in the set already.
def clearRun : List (Action (Fin 2)) :=
  [.push 0 (text "a"),.push 1 (text "b"),.pop 1,.clear 0,.push 1 (text "b"),.finish 0]

theorem cleared_queue_agrees :
    ∃ s : Clients (Fin 2), Transitions.run (Clients.step (text "q")) twoClients clearRun = some s ∧
    ∃ items, Holds (text "q") items s.store ∧
      ∀ body, (uniquePush (text "q") body s.store).resp = 1 ↔ body ∉ items :=
  ⟨_,rfl,queue_set_agree (fun _ => rfl) (noStore_holds (text "q"))
    (Transitions.runs_of_run twoClients clearRun rfl (by decide +kernel))
      (by unfold Clients.Settled; decide +kernel)⟩

-- An empty body stays in the set when it is popped, and a body pushed between the two
-- deletions of Clear stays in the list alone.
theorem queue_set_diverge :
    (∃ s : Clients (Fin 2), Transitions.run (Clients.step (text "q")) twoClients [.push 0 [],
      .pop 0] = some s ∧ s.Settled ∧
      s.store.list? (text "q") = some [] ∧ s.store.set? (getQueueSet (text "q")) = some {[]} ∧
      (uniquePush (text "q") [] s.store).resp = 0) ∧
    (∃ s : Clients (Fin 2), Transitions.run (Clients.step (text "q")) twoClients
        [.push 0 (text "a"),.clear 0,.push 1 (text "b"),.finish 0] = some s ∧ s.Settled ∧
      s.store.list? (text "q") = some [text "b"] ∧ s.store.set? (getQueueSet (text "q")) = some ∅ ∧
      (uniquePush (text "q") (text "b") s.store).resp = 1) := by
  refine ⟨⟨_,rfl,?_⟩,⟨_,rfl,?_⟩⟩
  · unfold Clients.Settled
    decide +kernel
  · unfold Clients.Settled
    decide +kernel

end SqlReview.UniqueQueue
