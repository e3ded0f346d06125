import SqlReview.UniqueQueue

-- ListPush, ListPop and ListCount.
namespace SqlReview.RedisLists
open GoText RedisStore UniqueQueue

def listPush (q body : Text) (s : Store Text) : Answer Nat :=
  match rpush q body s with
  | .ok resp s => ⟨resp,none,s⟩
  | .error fault s => ⟨0,some fault,s⟩

inductive ReplyError where
  | fault (fault : Fault)
  -- redis.String of a reply that is a number
  | notString
  deriving DecidableEq

structure Popped where
  resp : Text
  err : Option ReplyError
  store : Store Text

-- The script answers 0 for an empty text, and nil, which ErrNil hides, for an empty list.
def listPop (q : Text) (s : Store Text) : Popped :=
  match lpop q s with
  | .ok none s => ⟨[],none,s⟩
  | .ok (some []) s => ⟨[],some .notString,s⟩
  | .ok (some resp) s => ⟨resp,none,s⟩
  | .error fault s => ⟨[],some (.fault fault),s⟩

def listCount (q : Text) (s : Store Text) : Answer Nat := UniqueQueue.length q s

-- How a call ends: with its reply, with the reply lost, or before Redis has executed it.
inductive Link where
  | answered | lost | failed
  deriving DecidableEq

variable {s : Store Text} {q : Text} {items : List Text}

theorem listPush_list (held : s.list? q = some items) (body : Text) :
    listPush q body s = ⟨items.length+1,none,s.putList q (items ++ [body])⟩ := by
  simp [listPush,rpush,held]

theorem listPop_nil (held : s.list? q = some []) : listPop q s = ⟨[],none,s⟩ := by
  simp [listPop,lpop,held]

theorem listPop_cons (held : s.list? q = some (item :: items)) :
    (listPop q s).resp = item ∧ (listPop q s).store = s.putList q items := by
  cases item with
  | nil => simp [listPop,lpop,held]
  | cons c item => simp [listPop,lpop,held]

-- A push touches no set.
theorem listPush_members (held : s.list? q = some items) (body key : Text) :
    (listPush q body s).store.members key = s.members key := by
  rw [listPush_list held]
  exact putList_members held _ key

theorem listCount_list (held : s.list? q = some items) : listCount q s = ⟨items.length,none,s⟩ := by
  simp [listCount,UniqueQueue.length,llen,held]

-- No command touches another key.
theorem listPush_other (q body : Text) (s : Store Text) {key : Text} (other : key ≠ q) :
    (listPush q body s).store key = s key := by
  unfold listPush rpush
  cases s.list? q with
  | none => rfl
  | some items => exact Function.update_of_ne other _ _

theorem listPop_other (q : Text) (s : Store Text) {key : Text} (other : key ≠ q) :
    (listPop q s).store key = s key := by
  cases held : s.list? q with
  | none => simp [listPop,lpop,held]
  | some items =>
    cases items with
    | nil => rw [listPop_nil held]
    | cons item items =>
      rw [(listPop_cons held).2]
      exact Function.update_of_ne other _ _

theorem uniquePush_other (q body : Text) (s : Store Text) {key : Text} (list : key ≠ q)
    (set : key ≠ getQueueSet q) :
    (uniquePush q body s).store key = s key := by
  refine uniquePush_cases (motive := fun answer => answer.store key = s key) q body s
    (fun _ => rfl) (fun _ _ _ => rfl) (fun members items _ _ _ => ?_)
      (fun members _ _ _ => Function.update_of_ne set _ _)
  exact (Function.update_of_ne list _ _).trans (Function.update_of_ne set _ _)

theorem uniquePush_list (q body : Text) (s : Store Text) {other : Text} (list : other ≠ q)
    (set : other ≠ getQueueSet q) :
    (uniquePush q body s).store.list? other = s.list? other := by
  rw [Store.list?,uniquePush_other q body s list set]
  rfl

end SqlReview.RedisLists
