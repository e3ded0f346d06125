import SqlReview.UniqueQueue
import SqlReview.Wire

namespace SqlReview.ExplainDb
open GoText Records RedisStore UniqueQueue

def replaceEach (s : Text) (pairs : List (Text × Text)) : Text :=
  pairs.foldl (fun s pair => replaceAll s pair.1 pair.2) s

-- The two orders differ: in a fingerprint u0026 comes before &lt and &gt.
def jsonColumn (s : Text) : Text :=
  replaceEach s [(text "u003c",text "<"),(text "u003e",text ">"),(text "&lt",text "<"),(text "&gt",text ">"),
    (text "u0026",text "&"),(['\''],['\\','\''])]

def explColumn (s : Text) : Text :=
  replaceEach s [(text "u003c",text "<"),(text "u003e",text ">"),(text "u0026",text "&"),
    (text "&lt",text "<"),
    (text "&gt",text ">")]

-- The thirteen values of the INSERT into sqlexplain.
structure Row where
  expl : Text
  route : Text
  sqlInfo : Text
  explain : Text
  lastQueryCost : Text
  level : Text
  score : Int64
  content : Text
  branch : Text
  db : Text
  flag : Nat
  daytime : Text
  createDatetime : Text
  deriving DecidableEq

-- time.Now in the two formats of the row.
structure Now where
  daytime : Text
  createDatetime : Text

-- What a goroutine computes before its first step outside; `nil` as in Wire.jsonSqlExpEncode.
def Row.of (sql : ExplainsResult) (nil : List Nat → Bool) (now : Now) : Row where
  expl := explColumn sql.expl
  route := sql.route
  sqlInfo := jsonColumn (Json.marshal Wire.sqlInfo.slice (fun path => nil (1 :: path)) sql.arr)
  explain := jsonColumn (Json.marshal Wire.explains.slice (fun path => nil (2 :: path)) sql.explain)
  lastQueryCost := sql.lastQueryCost
  level := sql.level
  score := sql.score
  content := sql.content
  branch := sql.branch
  db := sql.db
  flag := 0
  daytime := now.daytime
  createDatetime := now.createDatetime

def branchName (branch : Text) : Text := text "julive:" ++ branch

inductive Phase where
  | push | insert
  deriving DecidableEq

structure Job where
  row : Row
  phase : Phase

-- Redis, the goroutines of NewExplainDb and the table sqlexplain.
structure Db where
  store : Store Text
  jobs : List Job
  rows : List Row

-- `works` is false for an Insert that returns an error, which is only logged.
inductive Action where
  | receive (sql : ExplainsResult) (nil : List Nat → Bool) (now : Now)
  | push (i : Nat)
  | insert (i : Nat) (works : Bool)

section
variable (md5 : Text → Text)

def Row.pushed (row : Row) (s : Store Text) : Answer Nat :=
  uniquePush (branchName row.branch) (md5 row.expl) s

def Row.flagged (row : Row) (resp : Nat) : Row := {row with flag := if resp = 1 then 1 else 0}

def Db.step (s : Db) : Action → Option Db
  | .receive sql nil now => some {s with jobs := s.jobs ++ [⟨Row.of sql nil now,.push⟩]}
  | .push i =>
    match s.jobs[i]? with
    | some ⟨row,.push⟩ =>
      let answer := row.pushed md5 s.store
      some {s with store := answer.store,jobs := s.jobs.take i ++ ⟨row.flagged answer.resp,
        .insert⟩ :: s.jobs.drop (i+1)}
    | _ => none
  | .insert i works =>
    match s.jobs[i]? with
    | some ⟨row,.insert⟩ =>
      some {s with
        jobs := s.jobs.take i ++ s.jobs.drop (i+1),rows := if works then s.rows ++ [row] else s.rows}
    | _ => none

inductive Step (s : Db) : Action → Db → Prop where
  | receive : Step s (.receive sql nil now) {s with jobs := s.jobs ++ [⟨Row.of sql nil now,.push⟩]}
  | push : s.jobs = l ++ ⟨row,.push⟩ :: r → Step s (.push l.length) {s with
      store := (row.pushed md5 s.store).store,
      jobs := l ++ ⟨row.flagged (row.pushed md5 s.store).resp,.insert⟩ :: r}
  | insert : s.jobs = l ++ ⟨row,.insert⟩ :: r →
      Step s (.insert l.length true) {s with jobs := l ++ r,rows := s.rows ++ [row]}
  | lose : s.jobs = l ++ ⟨row,.insert⟩ :: r → Step s (.insert l.length false) {s with jobs := l ++ r}

theorem step_exact {s t : Db} (stepped : s.step md5 action = some t) : Step md5 s action t := by
  cases action with
  | receive sql nil now =>
    cases Option.some.inj stepped
    exact .receive
  | push i =>
    simp only [Db.step] at stepped
    split at stepped
    · rename_i row found
      obtain ⟨l,r,jobs,rfl,left,right⟩ := Transitions.split_at found
      rw [left,right] at stepped
      cases Option.some.inj stepped
      exact .push jobs
    · cases stepped
  | insert i works =>
    simp only [Db.step] at stepped
    split at stepped
    · rename_i row found
      obtain ⟨l,r,jobs,rfl,left,right⟩ := Transitions.split_at found
      rw [left,right] at stepped
      cases Option.some.inj stepped
      cases works with
      | true => exact .insert jobs
      | false => exact .lose jobs
    · cases stepped

def Works (s : Db) : Action → Prop
  | .push i => ∀ job ∈ s.jobs[i]?,(job.row.pushed md5 s.store).err = none
  | _ => True

instance (s : Db) : (action : Action) → Decidable (Works md5 s action)
  | .push i => inferInstanceAs (Decidable (∀ job ∈ s.jobs[i]?,(job.row.pushed md5 s.store).err = none))
  | .receive _ _ _ | .insert _ _ => .isTrue trivial
end

-- No Insert fails that carries the mark of its fingerprint.
def Saved (s : Db) : Action → Prop
  | .insert i works => works = false → ∀ job ∈ s.jobs[i]?,job.row.flag ≠ 1
  | _ => True

instance (s : Db) : (action : Action) → Decidable (Saved s action)
  | .insert i works => inferInstanceAs (Decidable (works = false → ∀ job ∈ s.jobs[i]?,job.row.flag ≠ 1))
  | .receive _ _ _ | .push _ => .isTrue trivial

-- A row of the pair that is marked as new.
def marks (branch expl : Text) (row : Row) : Bool := row.branch = branch && row.expl = expl && row.flag = 1

def holds (branch expl : Text) (job : Job) : Bool := job.phase = .insert && marks branch expl job.row

def tally (branch expl : Text) (s : Db) : Nat :=
  s.rows.countP (marks branch expl) + s.jobs.countP (holds branch expl)

def known (md5 : Text → Text) (branch expl : Text) (s : Store Text) : Prop :=
  md5 expl ∈ s.members (getQueueSet (branchName branch))

-- Each pair in a dedup set has one mark, in the table or on its way there.
structure Marked (md5 : Text → Text) (s : Db) : Prop where
  once : ∀ branch expl,known md5 branch expl s.store → tally branch expl s = 1
  rows : ∀ row ∈ s.rows,known md5 row.branch row.expl s.store ∧ row.flag ≤ 1
  jobs : ∀ job ∈ s.jobs,job.phase = .insert → known md5 job.row.branch job.row.expl s.store ∧ job.row.flag ≤ 1

theorem marks_iff : marks branch expl row = true ↔ row.branch = branch ∧ row.expl = expl ∧ row.flag = 1 := by
  simp [marks,and_assoc]

theorem flagged_one (row : Row) : (row.flagged resp).flag = 1 ↔ resp = 1 := by
  unfold Row.flagged
  split <;> simp_all

theorem flagged_le (row : Row) : (row.flagged resp).flag ≤ 1 := by
  unfold Row.flagged
  split <;> simp

variable {md5 : Text → Text}

theorem known_push {s : Store Text} {row : Row} (collisionFree : Function.Injective md5)
    (works : (row.pushed md5 s).err = none) :
    known md5 branch expl (row.pushed md5 s).store ↔
      known md5 branch expl s ∨ (row.branch = branch ∧ row.expl = expl ∧ (row.pushed md5 s).resp = 1) := by
  refine (push_members _ _ _ works _ _).trans (or_congr_right ?_)
  constructor
  · rintro ⟨set,body,accepted⟩
    exact ⟨(queueSet_injective _ set).symm,(collisionFree body).symm,accepted⟩
  · rintro ⟨rfl,rfl,accepted⟩
    exact ⟨rfl,rfl,accepted⟩

theorem Marked.unknown {s : Db} (marked : Marked md5 s) (fresh : ¬ known md5 branch expl s.store) :
    tally branch expl s = 0 := by
  have table : s.rows.countP (marks branch expl) = 0 := by
    refine List.countP_eq_zero.mpr fun row member mark => ?_
    obtain ⟨rfl,rfl,_⟩ := marks_iff.mp mark
    exact fresh (marked.rows row member).1
  have waiting : s.jobs.countP (holds branch expl) = 0 := by
    refine List.countP_eq_zero.mpr fun job member held => ?_
    obtain ⟨phase,mark⟩ := Bool.and_eq_true_iff.mp held
    obtain ⟨rfl,rfl,_⟩ := marks_iff.mp mark
    exact fresh (marked.jobs job member (of_decide_eq_true phase)).1
  rw [tally,table,waiting]

theorem tally_split {s : Db} (branch expl : Text) (jobs : s.jobs = l ++ job :: r) : tally branch expl s =
    s.rows.countP (marks branch expl) + (l ++ r).countP (holds branch expl) +
      if holds branch expl job then 1 else 0 := by
  rw [tally,jobs,List.countP_append,List.countP_cons,List.countP_append]
  omega

theorem Marked.others {s : Db} (marked : Marked md5 s) (jobs : s.jobs = l ++ job :: r) :
    ∀ other ∈ l ++ r,other.phase = .insert → known md5 other.row.branch other.row.expl s.store ∧
      other.row.flag ≤ 1 := by
  intro other member
  apply marked.jobs
  rw [jobs]
  rcases List.mem_append.mp member with left | right
  · exact List.mem_append_left _ left
  · exact List.mem_append_right _ (List.mem_cons_of_mem _ right)

theorem push_marked {s : Db} {row : Row} (collisionFree : Function.Injective md5) (marked : Marked md5 s)
    (works : (row.pushed md5 s.store).err = none) (jobs : s.jobs = l ++ ⟨row,.push⟩ :: r) :
    Marked md5 {s with
      store := (row.pushed md5 s.store).store
      jobs := l ++ ⟨row.flagged (row.pushed md5 s.store).resp,.insert⟩ :: r} := by
  have accepts : (row.pushed md5 s.store).resp = 1 ↔ ¬ known md5 row.branch row.expl s.store :=
    push_accepts _ _ _ works
  refine ⟨?_,?_,?_⟩
  · intro branch expl found
    have before := tally_split branch expl jobs
    have own : holds branch expl ⟨row.flagged (row.pushed md5 s.store).resp,.insert⟩ = true ↔
        row.branch = branch ∧ row.expl = expl ∧ (row.pushed md5 s.store).resp = 1 := by
      rw [← flagged_one row]
      exact marks_iff
    rw [tally_split branch expl rfl]
    change tally branch expl s = _ + 0 at before
    rcases (known_push collisionFree works).mp found with already | new
    · have other : ¬ (row.branch = branch ∧ row.expl = expl ∧ (row.pushed md5 s.store).resp = 1) := by
        rintro ⟨rfl,rfl,accepted⟩
        exact accepts.mp accepted already
      rw [if_neg (mt own.mp other),← before]
      exact marked.once branch expl already
    · rw [if_pos (own.mpr new)]
      obtain ⟨rfl,rfl,accepted⟩ := new
      rw [marked.unknown (accepts.mp accepted)] at before
      dsimp only
      omega
  · intro old member
    obtain ⟨before,flag⟩ := marked.rows old member
    exact ⟨(known_push collisionFree works).mpr (Or.inl before),flag⟩
  · intro job member phase
    have old (inside : job ∈ l ++ r) :
        known md5 job.row.branch job.row.expl (row.pushed md5 s.store).store ∧ job.row.flag ≤ 1 := by
      obtain ⟨before,flag⟩ := marked.others jobs job inside phase
      exact ⟨(known_push collisionFree works).mpr (Or.inl before),flag⟩
    rcases List.mem_append.mp member with left | later
    · exact old (List.mem_append_left _ left)
    · rcases List.mem_cons.mp later with rfl | right
      · refine ⟨(known_push collisionFree works).mpr ?_,flagged_le row⟩
        by_cases already : known md5 row.branch row.expl s.store
        · exact Or.inl already
        · exact Or.inr ⟨rfl,rfl,accepts.mpr already⟩
      · exact old (List.mem_append_right _ right)

theorem insert_marked {s : Db} (marked : Marked md5 s) (jobs : s.jobs = l ++ ⟨row,.insert⟩ :: r) :
    Marked md5 {s with jobs := l ++ r,rows := s.rows ++ [row]} := by
  refine ⟨?_,?_,marked.others jobs⟩
  · intro branch expl found
    have before := tally_split branch expl jobs
    rw [marked.once branch expl found] at before
    -- The mark of the goroutine, if it has it, is now that of its row.
    change 1 = _ + if marks branch expl row then 1 else 0 at before
    rw [tally,List.countP_append,List.countP_singleton]
    dsimp only
    omega
  · intro old member
    rcases List.mem_append.mp member with before | new
    · exact marked.rows old before
    · cases List.mem_singleton.mp new
      exact marked.jobs ⟨row,.insert⟩ (jobs ▸ List.mem_append_right _ List.mem_cons_self) rfl

theorem lose_marked {s : Db} (marked : Marked md5 s) (jobs : s.jobs = l ++ ⟨row,.insert⟩ :: r)
    (unflagged : row.flag ≠ 1) :
    Marked md5 {s with jobs := l ++ r} := by
  refine ⟨?_,marked.rows,marked.others jobs⟩
  intro branch expl found
  have without : holds branch expl ⟨row,.insert⟩ = false := by
    refine Bool.eq_false_iff.mpr fun mark => ?_
    obtain ⟨_,_,flag⟩ := marks_iff.mp mark
    exact unflagged flag
  have before := tally_split branch expl jobs
  rw [marked.once branch expl found,without] at before
  exact before.symm

theorem step_marked {s t : Db} (collisionFree : Function.Injective md5) (marked : Marked md5 s)
    (works : Works md5 s action)
    (saved : Saved s action) (step : Step md5 s action t) : Marked md5 t := by
  cases step with
  | receive =>
    refine ⟨?_,marked.rows,?_⟩
    · intro branch expl found
      have before := marked.once branch expl found
      simpa [tally,holds] using before
    · intro job member phase
      rcases List.mem_append.mp member with old | new
      · exact marked.jobs job old phase
      · cases List.mem_singleton.mp new
        cases phase
  | @push l r row jobs => exact push_marked collisionFree marked (works ⟨row,.push⟩ (by simp [jobs])) jobs
  | insert jobs => exact insert_marked marked jobs
  | @lose l r row jobs => exact lose_marked marked jobs (saved rfl ⟨row,.insert⟩ (by simp [jobs]))

-- Nothing is marked, received or queued yet.
structure Fresh (s : Db) : Prop where
  store : ∀ branch,s.store.members (getQueueSet (branchName branch)) = ∅
  jobs : s.jobs = []
  rows : s.rows = []

-- Whichever Inserts fail, as long as none of them carries a mark, each pair with a row has one marked row.
theorem one_row_marked {start s : Db} (collisionFree : Function.Injective md5) (fresh : Fresh start)
    (runs : Transitions.Runs (Db.step md5) (fun s action => Works md5 s action ∧
    Saved s action) start actions s) (done : s.jobs = []) :
    ∀ row ∈ s.rows,s.rows.countP (marks row.branch row.expl) = 1 ∧ (row.flag = 0 ∨ row.flag = 1) := by
  have initial : Marked md5 start := by
    refine ⟨?_,?_,?_⟩
    · intro branch expl found
      rw [known,fresh.store] at found
      cases found
    · rw [fresh.rows]
      exact nofun
    · rw [fresh.jobs]
      exact nofun
  have marked := runs.invariant (Marked md5) initial
    fun _ _ _ marked kept stepped => step_marked collisionFree marked kept.1 kept.2 (step_exact md5 stepped)
  intro row member
  obtain ⟨found,flag⟩ := marked.rows row member
  have once := marked.once row.branch row.expl found
  rw [tally,done] at once
  exact ⟨once,by omega⟩

def noRows : Db := ⟨noStore,[],[]⟩

def reviewed (branch : String) : Action :=
  .receive ⟨text "select u003c ?",[],[],text "1",[],0,[],text branch,[],[]⟩ (fun _ => true) ⟨[],[]⟩

-- The second goroutine wins the mark and the Insert of the first one fails.
def savedRun : List Action :=
  [reviewed "a",reviewed "a",reviewed "b",.push 1,.push 0,.insert 0 false,.push 1,.insert 1 true,
    .insert 0 true]

theorem saved_run_marked : ∃ s,Transitions.run (Db.step id) noRows savedRun = some s ∧ s.rows.length = 2 ∧
    ∀ row ∈ s.rows,s.rows.countP (marks row.branch row.expl) = 1 ∧ (row.flag = 0 ∨ row.flag = 1) :=
  ⟨_,rfl,rfl,one_row_marked Function.injective_id ⟨fun _ => rfl,rfl,rfl⟩
    (Transitions.runs_of_run noRows savedRun rfl (by decide +kernel)) rfl⟩

-- The goroutine with the mark fails to insert, and the pair's only row counts as old data.
def lostRun : List Action := [reviewed "a",reviewed "a",.push 0,.push 1,.insert 0 false,.insert 0 true]

theorem lost_mark : ∃ s,Transitions.run (Db.step id) noRows lostRun = some s ∧
    Transitions.obeys (Db.step id) (Works id) noRows lostRun = true ∧ s.jobs = [] ∧
    ∃ row ∈ s.rows,s.rows.countP (marks row.branch row.expl) = 0 :=
  ⟨_,rfl,by decide +kernel,rfl,_,List.mem_singleton_self _,by decide +kernel⟩

end SqlReview.ExplainDb
