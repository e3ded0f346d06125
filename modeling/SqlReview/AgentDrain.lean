import SqlReview.AgentFlow

-- The timer of testSQL leaves no branch behind.
namespace SqlReview.Agent
open GoText GoBytes Records RedisStore UniqueQueue RedisLists Intake

def Outcome.prints : Outcome → Bool
  | .call line _ => line ≠ []
  | _ => false

-- A message that ExcuteUnique gives to importToRedis.
def Printed (cfg : Settings) (body : Bytes) : Prop := (excuteUnique cfg (jsonDecode body)).prints = true

instance (cfg : Settings) (body : Bytes) : Decidable (Printed cfg body) :=
  inferInstanceAs (Decidable (_ = true))

theorem Printed.call (printed : Printed cfg body) :
    ∃ line sample,excuteUnique cfg (jsonDecode body) = .call line sample ∧ line ≠ [] := by
  unfold Printed at printed
  cases outcome : excuteUnique cfg (jsonDecode body) with
  | call line sample =>
    rw [outcome] at printed
    exact ⟨line,sample,rfl,of_decide_eq_true printed⟩
  | _ =>
    rw [outcome] at printed
    cases printed

theorem blank_unprinted : ¬ Printed cfg [] := Bool.false_ne_true

-- The steps of the timer, of checkBranch, of sendData and of ExcuteUnique, none of whose calls fails.
def Serves (_ : Process) : Action → Prop
  | .check | .excute _ => True
  | .count _ link | .pop _ link => link = .answered
  | .push _ _ | .sample _ | .kill => False

-- Each message that is left, on a list of dispatch or in an ExcuteUnique, has a fingerprint.
structure Ready (cfg : Settings) (queued : Nat → List Bytes) (s : Process) : Prop where
  lists : ∀ i < cfg.branches,∀ body ∈ queued i,Printed cfg body
  excutes : ∀ job ∈ s.excutes,Printed cfg job.1

-- A check of the branches comes to branch i and starts a goroutine for it.
theorem count_to (cfg : Settings) {s : Process} (front : List Nat)
    (checks : s.checks = l ++ (front ++ i :: rest) :: r)
    (busy : (listCount (branch i) s.store).resp ≠ 0) : ∃ actions workers checks,
      Transitions.Runs (Process.step cfg) Serves s actions {s with
      workers := workers,checks := checks} ∧ i ∈ workers := by
  induction front generalizing s with
  | nil =>
    have serves : Serves s (.count l.length .answered) := rfl
    have stepped : s.step cfg (.count l.length .answered) = some {s with
        workers := s.workers ++ [i],checks := l ++ rest :: r} := by
      simp [Process.step,Process.counted,checks,busy]
    exact ⟨_,_,_,.single serves stepped,List.mem_append_right _ List.mem_cons_self⟩
  | cons j front ih =>
    let t : Process := {s with checks := l ++ (front ++ i :: rest) :: r,workers := s.counted j .answered}
    have serves : Serves s (.count l.length .answered) := rfl
    have stepped : s.step cfg (.count l.length .answered) = some t := by simp [Process.step,checks,t]
    obtain ⟨actions,workers,later,runs,found⟩ := ih (s := t) rfl busy
    exact ⟨_,workers,later,.cons serves stepped runs,found⟩

theorem worker_for {s : Process} (kept : Kept queued s) (served : i < cfg.branches) (busy : queued i ≠ []) :
    ∃ actions workers checks,
      Transitions.Runs (Process.step cfg) Serves s actions {s with
      workers := workers,checks := checks} ∧ i ∈ workers := by
  obtain ⟨front,rest,split⟩ := List.append_of_mem (List.mem_range.mpr served)
  let t : Process := {s with checks := s.checks ++ [List.range cfg.branches]}
  have counted : (listCount (branch i) t.store).resp ≠ 0 := by
    rw [show t.store = s.store from rfl,listCount_list (kept.lists i)]
    simpa using busy
  have checks : t.checks = s.checks ++ (front ++ i :: rest) :: [] := by simp [t,split]
  obtain ⟨actions,workers,later,runs,found⟩ := count_to cfg front checks counted
  have stepped : s.step cfg .check = some t := rfl
  exact ⟨.check :: actions,workers,later,.cons trivial stepped runs,found⟩

-- The messages on the lists that are served, and those that ExcuteUnique has.
def distance (cfg : Settings) (queued : Nat → List Bytes) (s : Process) : Nat :=
  s.excutes.length+2*Finset.sum (Finset.range cfg.branches) fun i => (queued i).length

-- A state that such steps reach from `s`: nothing is pushed or lost.
structure Around (cfg : Settings) (s : Process) (queued : Nat → List Bytes) (t : Process) : Prop where
  kept : Kept queued t
  given : Given cfg t
  ready : Ready cfg queued t
  pushed : t.pushed = s.pushed
  dropped : t.dropped = s.dropped

def Near (cfg : Settings) (s : Process) (n : Nat) (t : Process) : Prop :=
  ∃ queued,Around cfg s queued t ∧ distance cfg queued t = n

def Nearer (cfg : Settings) (s : Process) (n : Nat) (t : Process) : Prop :=
  ∃ actions u m,Transitions.Runs (Process.step cfg) Serves t actions u ∧ Near cfg s m u ∧ m < n

section
variable {cfg : Settings} {s t : Process} {queued : Nat → List Bytes}

theorem nearer_excutes (around : Around cfg s queued t) (busy : t.excutes ≠ []) :
    Nearer cfg s (distance cfg queued t) t := by
  cases excutes : t.excutes with
  | nil => exact absurd excutes busy
  | cons job rest =>
    obtain ⟨body,sql⟩ := job
    have ready := around.ready.excutes
    rw [excutes,List.forall_mem_cons] at ready
    obtain ⟨line,sample,outcome,some_⟩ := ready.1.call
    have own : sql = jsonDecode body := around.given.excutes (body,sql) (excutes ▸ List.mem_cons_self)
    let u : Process := {t with
      system := {t.system with calls := t.system.calls ++ [⟨Sampling.unescape line,sample,.push⟩]}
      excutes := rest,handed := t.handed ++ [(body,line,sample)]}
    have serves : Serves t (.excute 0) := trivial
    have stepped : t.step cfg (.excute 0) = some u := by
      simp [Process.step,excutes,Process.excute,own,outcome,Sampling.System.step,some_,u]
    have kept : Kept queued u :=
      excuted_kept (l := []) around.kept excutes rfl (fun _ => rfl) rfl rfl (Or.inl (by simp [u]))
    have next : Around cfg s queued u :=
      ⟨kept,step_given around.given (step_exact stepped),⟨around.ready.lists,ready.2⟩,around.pushed,
        around.dropped⟩
    refine ⟨_,u,_,.single serves stepped,⟨queued,next,rfl⟩,?_⟩
    simp [distance,excutes,u]

theorem fewer_queued (served : i < cfg.branches) (held : queued i = body :: later) :
    Finset.sum (Finset.range cfg.branches) (fun j => (Function.update queued i later j).length) <
      Finset.sum (Finset.range cfg.branches) fun j => (queued j).length := by
  refine Finset.sum_lt_sum (fun j _ => ?_) ⟨i,Finset.mem_range.mpr served,?_⟩
  · by_cases same : j = i
    · rw [same,Function.update_self,held]
      exact Nat.le_succ _
    · rw [Function.update_of_ne same]
  · rw [Function.update_self,held]
    exact Nat.lt_succ_self _

-- A message of a list becomes the one of an ExcuteUnique.
theorem taken_ready (ready : Ready cfg queued t) (served : i < cfg.branches) (held : queued i = body :: later)
    (excutes : u.excutes = t.excutes ++ [(body,sql)]) : Ready cfg (Function.update queued i later) u := by
  have own := ready.lists i served
  rw [held,List.forall_mem_cons] at own
  refine ⟨fun j inside => ?_,?_⟩
  · by_cases same : j = i
    · rw [same,Function.update_self]
      exact own.2
    · rw [Function.update_of_ne same]
      exact ready.lists j inside
  · rw [excutes]
    exact List.forall_mem_append.mpr ⟨ready.excutes,List.forall_mem_singleton.mpr own.1⟩

theorem nearer_lists (around : Around cfg s queued t) (served : i < cfg.branches) (busy : queued i ≠ []) :
    Nearer cfg s (distance cfg queued t) t := by
  obtain ⟨actions,workers,checks,runs,found⟩ := worker_for around.kept served busy
  obtain ⟨l,r,split⟩ := List.append_of_mem found
  let middle : Process := {t with workers := workers,checks := checks}
  have keeps : Kept queued middle := ⟨around.kept.lists,around.kept.ordered,around.kept.conserved⟩
  have gives : Given cfg middle := ⟨around.given.excutes,around.given.handed⟩
  have serves : Serves middle (.pop l.length .answered) := rfl
  have stepped : middle.step cfg (.pop l.length .answered) = some (middle.pop i .answered (l ++ r)) := by
    simp [Process.step,middle,split]
  have given := pop_given gives i .answered (l ++ r)
  obtain ⟨later,popped⟩ := pop_exact keeps i .answered (l ++ r)
  have kept := popped_kept keeps popped
  have longer := runs.append (.single serves stepped)
  generalize middle.pop i .answered (l ++ r) = u at popped kept given longer
  have own := around.ready.lists i served
  generalize held : queued i = items at popped own busy
  cases popped with
  | idle none =>
    rcases none with failed | empty
    · cases failed
    · exact absurd empty busy
  | taken _ =>
    refine ⟨_,_,_,longer,⟨_,⟨kept,given,?_,around.pushed,around.dropped⟩,rfl⟩,?_⟩
    · exact taken_ready around.ready served held rfl
    · have fewer := fewer_queued served held
      simp only [distance,List.length_append,List.length_singleton,middle]
      omega
  | gone blank _ =>
    rw [blank rfl] at own
    exact absurd (own [] List.mem_cons_self) blank_unprinted

-- Nothing is left to do.
def Rested (cfg : Settings) (s : Process) : Prop :=
  s.excutes = [] ∧ ∀ i < cfg.branches,s.store.list? (branch i) = some []

theorem near_progress (near : Near cfg s n t) : Rested cfg t ∨ Nearer cfg s n t := by
  obtain ⟨queued,around,rfl⟩ := near
  by_cases idle : t.excutes = []
  · by_cases empty : ∀ i < cfg.branches,queued i = []
    · refine Or.inl ⟨idle,fun i served => ?_⟩
      rw [around.kept.lists i,empty i served]
      rfl
    · obtain ⟨i,rest⟩ := not_forall.mp empty
      obtain ⟨served,busy⟩ := Classical.not_imp.mp rest
      exact Or.inr (nearer_lists around served busy)
  · exact Or.inr (nearer_excutes around idle)
end

-- No branch is left behind: from wherever a run has led, crashes included, the timer, checkBranch,
-- sendData and ExcuteUnique alone bring every message that is left on a list of dispatch to
-- importToRedis, if each of these has a fingerprint.
theorem branches_drain {store : Store Text} {s : Process} (apart : Apart cfg)
    (held : ∀ i,store.list? (branch i) = some ((onBranch i old).map latin))
    (ran : Transitions.run (Process.step cfg) (.start cfg store old) actions = some s)
    (lists : ∀ i < cfg.branches,s.store.list? (branch i) = some ((queued i).map latin))
    (ready : Ready cfg queued s) :
    ∃ more t,Transitions.Runs (Process.step cfg) Serves s more t ∧ Rested cfg t ∧
      (∀ i < cfg.branches,onBranch i t.popped = onBranch i s.pushed) ∧
      (t.popped.map Prod.snd).Perm (t.handed.map Prod.fst ++ s.dropped.map Prod.fst) := by
  obtain ⟨others,kept⟩ := run_kept apart held ran
  have start : Ready cfg others s := by
    refine ⟨fun i served => ?_,ready.excutes⟩
    have same := latins_injective (Option.some.inj ((kept.lists i).symm.trans (lists i served)))
    rw [same]
    exact ready.lists i served
  have here : Near cfg s _ s := ⟨others,⟨kept,run_given ran,start,rfl,rfl⟩,rfl⟩
  obtain ⟨more,t,_,runs,⟨last,around,_⟩,rested⟩ := Transitions.reaches (fun _ _ => near_progress) here
  refine ⟨more,t,runs,rested,fun i served => ?_,?_⟩
  · have empty := (around.kept.lists i).symm.trans (rested.2 i served)
    have none := List.map_eq_nil_iff.mp (Option.some.inj empty)
    have ordered := around.kept.ordered i
    rw [none,List.append_nil,around.pushed] at ordered
    exact ordered.symm
  · have conserved := around.kept.conserved
    rwa [rested.1,around.dropped] at conserved

-- The goroutine of branch 2 has ended before its message comes, and a message without a statement
-- was dropped.
def lateRun : List Action :=
  [.push 0 (str "\x7b\x7d"),.pop 0 .answered,.excute 0,.pop 2 .failed,.push 2 stated,.push 0 stated,
    .pop 0 .answered]

def lateQueue (i : Nat) : List Bytes := if i = 2 then [stated] else []

theorem late_branch_drains : ∃ s more t,
    Transitions.run (Process.step trial) (.start trial noStore []) lateRun = some s ∧
    Transitions.Runs (Process.step trial) Serves s more t ∧ Rested trial t ∧
      (∀ i < trial.branches,onBranch i t.popped = onBranch i s.pushed) ∧
      (t.popped.map Prod.snd).Perm (t.handed.map Prod.fst ++ s.dropped.map Prod.fst) := by
  have ends : (Transitions.run (Process.step trial) (.start trial noStore []) lateRun).map (fun s =>
      (s.excutes.map Prod.fst,
        decide (∀ i < trial.branches,s.store.list? (branch i) = some ((lateQueue i).map latin)))) =
        some ([stated],true) := by decide +kernel
  obtain ⟨s,ran,result⟩ := Option.map_eq_some_iff.mp ends
  obtain ⟨excutes,lists⟩ := Prod.mk.inj result
  have printed : Printed trial stated := by decide +kernel
  have ready : Ready trial lateQueue s := by
    refine ⟨fun i served body member => ?_,fun job member => ?_⟩
    · unfold lateQueue at member
      split at member
      · cases List.mem_singleton.mp member
        exact printed
      · cases member
    · have own : job.1 ∈ s.excutes.map Prod.fst := List.mem_map_of_mem member
      rw [excutes] at own
      rw [List.mem_singleton.mp own]
      exact printed
  obtain ⟨more,t,drained⟩ := branches_drain trial_apart no_lists ran (of_decide_eq_true lists) ready
  exact ⟨s,more,t,ran,drained⟩

end SqlReview.Agent
