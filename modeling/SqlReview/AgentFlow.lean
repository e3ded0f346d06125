import SqlReview.Agent

-- Where the messages of the branches go, over whole runs.
namespace SqlReview.Agent
open GoText GoBytes Records RedisStore UniqueQueue RedisLists Intake

-- The messages of one branch in a log.
def onBranch (i : Nat) (log : List (Nat × Bytes)) : List Bytes :=
  (log.filter fun entry => entry.1 = i).map Prod.snd

theorem onBranch_append (i : Nat) (one two : List (Nat × Bytes)) :
    onBranch i (one ++ two) = onBranch i one ++ onBranch i two := by
  simp [onBranch]

theorem onBranch_own (i : Nat) (bodies : List Bytes) : onBranch i (bodies.map (i,·)) = bodies := by
  have all : (bodies.map (i,·)).filter (fun entry => entry.1 = i) = bodies.map (i,·) := by
    refine List.filter_eq_self.mpr fun entry member => ?_
    obtain ⟨body,_,rfl⟩ := List.mem_map.mp member
    simp
  rw [onBranch,all,List.map_map]
  exact List.map_id bodies

theorem onBranch_other (apart : j ≠ i) (bodies : List Bytes) : onBranch j (bodies.map (i,·)) = [] := by
  have none : (bodies.map (i,·)).filter (fun entry => entry.1 = j) = [] := by
    refine List.filter_eq_nil_iff.mpr fun entry member => ?_
    obtain ⟨body,_,rfl⟩ := List.mem_map.mp member
    simpa using Ne.symm apart
  rw [onBranch,none]
  rfl

-- The key of a fingerprint is the name of no branch list: NewMd5 writes 32 hexadecimal digits.
def Apart (cfg : Settings) : Prop := ∀ line i,cfg.md5 line ≠ branch i

theorem branch_injective (same : branch i = branch j) : i = j := by
  have digits : Nat.toDigits 10 i = Nat.toDigits 10 j := List.append_cancel_left same
  have read := congrArg Json.natural digits
  rw [Json.natural_toDigits,Json.natural_toDigits] at read
  exact Option.some.inj read

theorem branch_queue (i : Nat) (name : Text) : branch i ≠ Sampling.queueOf name ∧
    branch i ≠ getQueueSet (Sampling.queueOf name) := by
  constructor
  · intro same
    exact absurd (List.cons.inj same).1 (by decide)
  · intro same
    exact absurd (List.cons.inj same).1 (by decide)

-- The sampling leaves the lists of the branches alone.
theorem sampling_list {s t : Sampling.System} (apart : Apart cfg)
    (step : Sampling.Step cfg.sampling s action t) (i : Nat) :
    t.store.list? (branch i) = s.store.list? (branch i) := by
  cases step with
  | accepted calls phase answer => exact uniquePush_list _ _ _ (branch_queue i _).1 (branch_queue i _).2
  | refused calls phase answer => exact uniquePush_list _ _ _ (branch_queue i _).1 (branch_queue i _).2
  | set calls phase => exact update_list (Ne.symm (apart _ i)) _
  | flush flushing collected => exact update_list (Ne.symm (apart _ i)) _
  | _ => rfl

-- `queued i` is what the list of branch i holds.
structure Kept (queued : Nat → List Bytes) (s : Process) : Prop where
  lists : ∀ i,s.store.list? (branch i) = some ((queued i).map latin)
  ordered : ∀ i,onBranch i s.pushed = onBranch i s.popped ++ queued i
  conserved : (s.popped.map Prod.snd).Perm (s.excutes.map Prod.fst ++ s.handed.map Prod.fst ++
    s.dropped.map Prod.fst)

theorem putList_lists {store : Store Text} {queued : Nat → List Bytes}
    (lists : ∀ i,store.list? (branch i) = some ((queued i).map latin))
    (i : Nat) (bodies : List Bytes) (j : Nat) :
    (store.putList (branch i) (bodies.map latin)).list? (branch j) =
      some ((Function.update queued i bodies j).map latin) := by
  by_cases same : j = i
  · rw [same,putList_list,Function.update_self]
  · rw [Function.update_of_ne same,← lists j]
    exact update_list (fun equal => same (branch_injective equal)) _

theorem push_kept {s : Process} (kept : Kept queued s) (i : Nat) (body : Bytes) :
    Kept (Function.update queued i (queued i ++ [body])) {s with
      system := {s.system with store := (listPush (branch i) (latin body) s.store).store}
      pushed := s.pushed ++ [(i,body)]} := by
  have answer := listPush_list (kept.lists i) (latin body)
  have snoc : (queued i).map latin ++ [latin body] = (queued i ++ [body]).map latin := by simp
  refine ⟨fun j => ?_,fun j => ?_,kept.conserved⟩
  · change (listPush (branch i) (latin body) s.store).store.list? (branch j) = _
    rw [answer,snoc]
    exact putList_lists kept.lists i (queued i ++ [body]) j
  · have one : onBranch j [(i,body)] = if j = i then [body] else [] := by
      split
      · rename_i same
        rw [same]
        exact onBranch_own i [body]
      · exact onBranch_other ‹_› [body]
    change onBranch j (s.pushed ++ [(i,body)]) = _
    rw [onBranch_append,one,kept.ordered j,List.append_assoc]
    by_cases same : j = i
    · rw [if_pos same,same,Function.update_self]
    · rw [if_neg same,Function.update_of_ne same,List.append_nil]

theorem front_kept {s : Process} (kept : Kept queued s) (i : Nat) : s.front i = (queued i).head? := by
  rw [Process.front,kept.lists]
  cases queued i with
  | nil => rfl
  | cons body rest => simp [unlatin_latin]

-- What one round of sendData does to a list that holds `queued`.
inductive Popped (s : Process) (i : Nat) (rest : List Nat) :
    List Bytes → Link → List Bytes → Process → Prop where
  | idle : link = .failed ∨ queued = [] → Popped s i rest queued link queued {s with workers := rest}
  | taken : body ≠ [] → Popped s i rest (body :: later) .answered later {s with
      system := {s.system with store := s.store.putList (branch i) (later.map latin)}
      popped := s.popped ++ [(i,body)],excutes := s.excutes ++ [(body,jsonDecode body)]}
  | gone : (link = .answered → body = []) → link ≠ .failed →
    Popped s i rest (body :: later) link later {s with
      system := {s.system with store := s.store.putList (branch i) (later.map latin)}
      popped := s.popped ++ [(i,body)],workers := rest
      dropped := s.dropped ++ [(body,if link = .answered then .blank else .unanswered)]}

theorem pop_exact {s : Process} (kept : Kept queued s) (i : Nat) (link : Link) (rest : List Nat) :
    ∃ later,Popped s i rest (queued i) link later (s.pop i link rest) := by
  have list := kept.lists i
  have front := front_kept kept i
  by_cases failed : link = .failed
  · rw [Process.pop,if_pos failed]
    exact ⟨queued i,.idle (.inl failed)⟩
  · rw [Process.pop,if_neg failed]
    cases held : queued i with
    | nil =>
      rw [held] at list front
      have idle : Popped s i rest [] link [] {s with workers := rest} := .idle (.inr rfl)
      refine ⟨[],?_⟩
      simp only [listPop_nil list,front]
      simpa [Process.store] using idle
    | cons body later =>
      rw [held] at list front
      obtain ⟨resp,store⟩ := listPop_cons list
      refine ⟨later,?_⟩
      simp only [resp,store,front,unlatin_latin]
      by_cases read : link = .answered ∧ latin body ≠ []
      · rw [if_pos read]
        obtain ⟨rfl,inked⟩ := read
        exact .taken fun blank => inked (congrArg latin blank)
      · rw [if_neg read]
        refine .gone (fun answered => ?_) failed
        by_contra inked
        exact read ⟨answered,fun blank => inked (List.map_eq_nil_iff.mp blank)⟩

-- A message leaves its list for one place.
theorem taken_kept {s t : Process} (kept : Kept queued s) (held : queued i = body :: later)
    (store : t.store = s.store.putList (branch i) (later.map latin)) (pushed : t.pushed = s.pushed)
    (popped : t.popped = s.popped ++ [(i,body)])
    (moved : ∀ other,(t.excutes.map Prod.fst ++ t.handed.map Prod.fst ++ t.dropped.map Prod.fst).count other =
      (s.excutes.map Prod.fst ++ s.handed.map Prod.fst ++ s.dropped.map Prod.fst ++ [body]).count other) :
    Kept (Function.update queued i later) t := by
  refine ⟨fun j => ?_,fun j => ?_,?_⟩
  · rw [store]
    exact putList_lists kept.lists i later j
  · rw [pushed,popped,onBranch_append,kept.ordered j,List.append_assoc]
    by_cases same : j = i
    · have own : onBranch i [(i,body)] = [body] := onBranch_own i [body]
      rw [same,own,held,Function.update_self]
      rfl
    · have other : onBranch j [(i,body)] = [] := onBranch_other same [body]
      rw [other,Function.update_of_ne same]
      rfl
  · rw [popped,List.perm_iff_count]
    intro other
    have before := List.perm_iff_count.mp kept.conserved other
    have after := moved other
    simp only [List.map_append,List.map_cons,List.map_nil,List.count_append] at before after ⊢
    omega

theorem popped_kept {s t : Process} (kept : Kept queued s)
    (popped : Popped s i rest (queued i) link later t) :
    Kept (Function.update queued i later) t := by
  generalize held : queued i = items at popped
  cases popped with
  | idle _ =>
    rw [← held,Function.update_eq_self]
    exact ⟨kept.lists,kept.ordered,kept.conserved⟩
  | taken _ =>
    refine taken_kept kept held rfl rfl rfl fun other => ?_
    simp only [List.map_append,List.map_cons,List.map_nil,List.count_append]
    omega
  | gone _ _ =>
    refine taken_kept kept held rfl rfl rfl fun other => ?_
    simp only [List.map_append,List.map_cons,List.map_nil,List.count_append]
    omega

theorem crash_kept {s : Process} (kept : Kept queued s) : Kept queued (s.crash cfg) := by
  refine ⟨kept.lists,kept.ordered,?_⟩
  have labels : (s.excutes.map fun job => (job.1,Cause.crashed)).map Prod.fst = s.excutes.map Prod.fst := by
    rw [List.map_map]
    rfl
  have before := kept.conserved
  rw [List.perm_iff_count] at before ⊢
  intro other
  have here := before other
  simp only [Process.crash,List.map_append,labels,List.map_nil,List.count_append,List.count_nil] at here ⊢
  omega

-- A message that leaves ExcuteUnique is handed over or dropped.
theorem excuted_kept {s t : Process} (kept : Kept queued s) (excutes : s.excutes = l ++ job :: r)
    (rest : t.excutes = l ++ r)
    (lists : ∀ i,t.store.list? (branch i) = s.store.list? (branch i)) (pushed : t.pushed = s.pushed)
    (popped : t.popped = s.popped)
    (moved : t.handed.map Prod.fst ++ t.dropped.map Prod.fst = s.handed.map Prod.fst ++ job.1 ::
    s.dropped.map Prod.fst ∨
      t.handed.map Prod.fst ++ t.dropped.map Prod.fst = s.handed.map Prod.fst ++
    s.dropped.map Prod.fst ++ [job.1]) : Kept queued t := by
  refine ⟨fun i => (lists i).trans (kept.lists i),fun i => by rw [pushed,popped]; exact kept.ordered i,?_⟩
  have before := kept.conserved
  rw [excutes] at before
  rw [popped,rest]
  rw [List.perm_iff_count] at before ⊢
  intro other
  have here := before other
  rcases moved with moved | moved
  all_goals
    have gone := congrArg (List.count other) moved
    simp [List.count_cons] at here gone ⊢
    omega

theorem step_kept {s t : Process} (apart : Apart cfg) (kept : Kept queued s)
    (step : Step cfg s action t) : ∃ later,Kept later t := by
  cases step with
  | push => exact ⟨_,push_kept kept _ _⟩
  | @pop l i r link workers =>
    obtain ⟨later,popped⟩ := pop_exact kept i link (l ++ r)
    exact ⟨_,popped_kept kept popped⟩
  | panic _ _ => exact ⟨queued,crash_kept kept⟩
  | kill => exact ⟨queued,crash_kept kept⟩
  | unstated excutes _ =>
    exact ⟨queued,excuted_kept kept excutes rfl (fun _ => rfl) rfl rfl (Or.inr (by simp))⟩
  | unprinted excutes _ =>
    exact ⟨queued,excuted_kept kept excutes rfl (fun _ => rfl) rfl rfl (Or.inr (by simp))⟩
  | hand excutes _ _ => exact ⟨queued,excuted_kept kept excutes rfl (fun _ => rfl) rfl rfl (Or.inl (by simp))⟩
  | sample _ advanced =>
    exact ⟨queued,fun i => (sampling_list apart advanced i).trans (kept.lists i),kept.ordered,kept.conserved⟩
  | _ => exact ⟨queued,kept.lists,kept.ordered,kept.conserved⟩

theorem start_kept {store : Store Text}
    (held : ∀ i,store.list? (branch i) = some ((onBranch i old).map latin)) :
    Kept (fun i => onBranch i old) (.start cfg store old) := ⟨held,fun _ => rfl,List.Perm.refl _⟩

theorem run_kept {store : Store Text} {s : Process} (apart : Apart cfg)
    (held : ∀ i,store.list? (branch i) = some ((onBranch i old).map latin))
    (ran : Transitions.run (Process.step cfg) (.start cfg store old) actions = some s) :
    ∃ queued,Kept queued s := by
  refine Transitions.run_invariant (fun s => ∃ queued,Kept queued s) ⟨_,start_kept held⟩ ?_ ran
  rintro s action t ⟨queued,kept⟩ stepped
  exact step_kept apart kept (step_exact stepped)

-- However many goroutines pop from it, each branch list is read in the order in which it was
-- written, and each message that was read is in one ExcuteUnique, given to one importToRedis, or
-- dropped for a cause on record.
theorem branches_conserved {store : Store Text} {s : Process} (apart : Apart cfg)
    (held : ∀ i,store.list? (branch i) = some ((onBranch i old).map latin))
    (ran : Transitions.run (Process.step cfg) (.start cfg store old) actions = some s) :
    (∀ i,∃ queued,s.store.list? (branch i) = some (queued.map latin) ∧
      onBranch i s.pushed = onBranch i s.popped ++ queued) ∧
      (s.popped.map Prod.snd).Perm (s.excutes.map Prod.fst ++ s.handed.map Prod.fst ++
      s.dropped.map Prod.fst) := by
  obtain ⟨queued,kept⟩ := run_kept apart held ran
  exact ⟨fun i => ⟨queued i,kept.lists i,kept.ordered i⟩,kept.conserved⟩

def trial : Settings := ⟨Routing.prodConf,fun line => 'm' :: line,Fingerprint.asciiEnv⟩

theorem trial_apart : Apart trial := fun _ _ same => absurd (List.cons.inj same).1 (by decide)

theorem no_lists (i : Nat) : noStore.list? (branch i) = some ((onBranch i []).map latin) := rfl

def stated : Bytes := str "\x7b\"info\":\"select 1\",\"branch\":\"b\"\x7d"

-- One message is sampled, an empty one stops its goroutine, one lies past the branches, and a kill
-- comes in between.
def mixedRun : List Action :=
  [.push 0 stated,.push 0 [],.push 0 stated,.push 7 stated,.pop 0 .answered,.excute 0,
  .pop 0 .answered,.check,.count 0 .answered,.count 0 .failed,.kill,.pop 0 .lost,.pop 0 .failed]

theorem mixed_run :
    ∃ s : Process,Transitions.run (Process.step trial) (.start trial noStore []) mixedRun = some s :=
  Option.isSome_iff_exists.mp (by decide +kernel)

theorem mixed_run_conserves :
    ∃ s : Process,Transitions.run (Process.step trial) (.start trial noStore []) mixedRun = some s ∧
    (∀ i,∃ queued,s.store.list? (branch i) = some (queued.map latin) ∧
      onBranch i s.pushed = onBranch i s.popped ++ queued) ∧
      (s.popped.map Prod.snd).Perm (s.excutes.map Prod.fst ++ s.handed.map Prod.fst ++
      s.dropped.map Prod.fst) := by
  obtain ⟨s,ran⟩ := mixed_run
  exact ⟨s,ran,branches_conserved trial_apart no_lists ran⟩

-- The keys that testSQL and the application under test work on.
def Own (cfg : Settings) (key : Text) : Prop :=
  (∃ i,key = branch i) ∨
    (∃ name,key = Sampling.queueOf name ∨ key = getQueueSet (Sampling.queueOf name)) ∨ ∃ line,
    key = cfg.md5 line

theorem sampling_frame {s t : Sampling.System} (foreign : ¬ Own cfg key)
    (step : Sampling.Step cfg.sampling s action t) :
    t.store key = s.store key := by
  have queue (name : Text) : key ≠ Sampling.queueOf name :=
    fun same => foreign (Or.inr (Or.inl ⟨name,Or.inl same⟩))
  have set (name : Text) : key ≠ getQueueSet (Sampling.queueOf name) :=
    fun same => foreign (Or.inr (Or.inl ⟨name,Or.inr same⟩))
  have mark (line : Text) : key ≠ cfg.md5 line := fun same => foreign (Or.inr (Or.inr ⟨line,same⟩))
  cases step with
  | accepted calls phase answer => exact uniquePush_other _ _ _ (queue _) (set _)
  | refused calls phase answer => exact uniquePush_other _ _ _ (queue _) (set _)
  | set calls phase => exact Function.update_of_ne (mark _) _ _
  | flush flushing collected => exact Function.update_of_ne (mark _) _ _
  | _ => rfl

theorem pop_frame (s : Process) (i : Nat) (link : Link) (rest : List Nat) (other : key ≠ branch i) :
    (s.pop i link rest).store key = s.store key := by
  unfold Process.pop
  dsimp only
  split
  · rfl
  · split <;> exact listPop_other _ _ other

theorem step_frame {s t : Process} (foreign : ¬ Own cfg key) (step : Step cfg s action t) :
    t.store key = s.store key := by
  have list (i : Nat) : key ≠ branch i := fun same => foreign (Or.inl ⟨i,same⟩)
  cases step with
  | push => exact listPush_other _ _ _ (list _)
  | pop workers => exact pop_frame s _ _ _ (list _)
  | sample _ advanced => exact sampling_frame foreign advanced
  | _ => rfl

-- Only the branches of dispatch are ever read.
structure Served (cfg : Settings) (s : Process) : Prop where
  workers : ∀ i ∈ s.workers,i < cfg.branches
  checks : ∀ check ∈ s.checks,∀ i ∈ check,i < cfg.branches
  popped : ∀ entry ∈ s.popped,entry.1 < cfg.branches

theorem pop_served {s : Process} (served : Served cfg s) (workers : s.workers = l ++ i :: r) :
    Served cfg (s.pop i link (l ++ r)) := by
  have own : i < cfg.branches := served.workers i (workers ▸ List.mem_append_right _ List.mem_cons_self)
  have read : ∀ entry ∈ s.popped ++ (s.front i).toList.map (i,·),entry.1 < cfg.branches := by
    intro entry member
    rcases List.mem_append.mp member with old | new
    · exact served.popped entry old
    · obtain ⟨_,_,rfl⟩ := List.mem_map.mp new
      exact own
  have others : ∀ j ∈ l ++ r,j < cfg.branches := by
    intro j member
    apply served.workers
    rw [workers]
    rcases List.mem_append.mp member with left | right
    · exact List.mem_append_left _ left
    · exact List.mem_append_right _ (List.mem_cons_of_mem _ right)
  unfold Process.pop
  dsimp only
  split
  · exact ⟨others,served.checks,served.popped⟩
  · split
    · exact ⟨served.workers,served.checks,read⟩
    · exact ⟨others,served.checks,read⟩

theorem step_served {s t : Process} (served : Served cfg s) (step : Step cfg s action t) : Served cfg t := by
  have crashed : Served cfg (s.crash cfg) :=
    ⟨fun i member => List.mem_range.mp member,List.forall_mem_nil _,served.popped⟩
  cases step with
  | panic _ _ => exact crashed
  | kill => exact crashed
  | pop workers => exact pop_served served workers
  | check =>
    refine ⟨served.workers,fun check member => ?_,served.popped⟩
    rcases List.mem_append.mp member with old | new
    · exact served.checks check old
    · cases List.mem_singleton.mp new
      exact fun i member => List.mem_range.mp member
  | checked checks =>
    have before := served.checks
    rw [checks,List.forall_mem_append,List.forall_mem_cons] at before
    exact ⟨served.workers,List.forall_mem_append.mpr ⟨before.1,before.2.2⟩,served.popped⟩
  | count checks =>
    have before := served.checks
    rw [checks,List.forall_mem_append,List.forall_mem_cons,List.forall_mem_cons] at before
    obtain ⟨left,⟨own,rest⟩,right⟩ := before
    refine ⟨?_,List.forall_mem_append.mpr ⟨left,List.forall_mem_cons.mpr ⟨rest,right⟩⟩,served.popped⟩
    dsimp only [Process.counted]
    split
    · exact List.forall_mem_append.mpr ⟨served.workers,List.forall_mem_singleton.mpr own⟩
    · exact served.workers
  | _ => exact ⟨served.workers,served.checks,served.popped⟩

theorem run_served {store : Store Text} {s : Process}
    (ran : Transitions.run (Process.step cfg) (.start cfg store old) actions = some s) :
    Served cfg s :=
  Transitions.run_invariant (Served cfg) ⟨fun _ member => List.mem_range.mp member,
    List.forall_mem_nil _,List.forall_mem_nil _⟩
    (fun _ _ _ served stepped => step_served served (step_exact stepped)) ran

-- testSQL changes no key but its own, and a list past BranchActive keeps whatever is pushed onto it.
theorem agent_frame {store : Store Text} {s : Process} (apart : Apart cfg)
    (held : ∀ i,store.list? (branch i) = some ((onBranch i old).map latin))
    (ran : Transitions.run (Process.step cfg) (.start cfg store old) actions = some s) :
    (∀ key,¬ Own cfg key → s.store key = store key) ∧
      ∀ i,cfg.branches ≤ i → s.store.list? (branch i) = some ((onBranch i s.pushed).map latin) := by
  constructor
  · intro key foreign
    exact Transitions.run_invariant (fun s => s.store key = store key) rfl
      (fun _ _ _ same stepped => (step_frame foreign (step_exact stepped)).trans same) ran
  · intro i beyond
    have served := run_served ran
    obtain ⟨queued,kept⟩ := run_kept apart held ran
    have unread : onBranch i s.popped = [] := by
      rw [onBranch,List.filter_eq_nil_iff.mpr,List.map_nil]
      intro entry member same
      have own := served.popped entry member
      rw [of_decide_eq_true same] at own
      omega
    rw [kept.ordered i,unread]
    exact kept.lists i

theorem mixed_run_frame :
    ∃ s : Process,Transitions.run (Process.step trial) (.start trial noStore []) mixedRun = some s ∧
    (∀ key,¬ Own trial key → s.store key = noStore key) ∧
      ∀ i,trial.branches ≤ i → s.store.list? (branch i) = some ((onBranch i s.pushed).map latin) := by
  obtain ⟨s,ran⟩ := mixed_run
  exact ⟨s,ran,agent_frame trial_apart no_lists ran⟩

-- What ExcuteUnique and importToRedis were started with.
structure Given (cfg : Settings) (s : Process) : Prop where
  excutes : ∀ job ∈ s.excutes,job.2 = jsonDecode job.1
  handed : ∀ entry ∈ s.handed,excuteUnique cfg (jsonDecode entry.1) = .call entry.2.1 entry.2.2 ∧
    entry.2.1 ≠ []

theorem pop_given {s : Process} (given : Given cfg s) (i : Nat) (link : Link) (rest : List Nat) :
    Given cfg (s.pop i link rest) := by
  unfold Process.pop
  dsimp only
  split
  · exact ⟨given.excutes,given.handed⟩
  · split
    · refine ⟨List.forall_mem_append.mpr ⟨given.excutes,List.forall_mem_singleton.mpr rfl⟩,given.handed⟩
    · exact ⟨given.excutes,given.handed⟩

theorem excutes_rest {s : Process} (given : Given cfg s) (excutes : s.excutes = l ++ job :: r) :
    ∀ job ∈ l ++ r,job.2 = jsonDecode job.1 := by
  intro job member
  apply given.excutes
  rw [excutes]
  rcases List.mem_append.mp member with left | right
  · exact List.mem_append_left _ left
  · exact List.mem_append_right _ (List.mem_cons_of_mem _ right)

theorem step_given {s t : Process} (given : Given cfg s) (step : Step cfg s action t) : Given cfg t := by
  cases step with
  | pop workers => exact pop_given given _ _ _
  | panic _ _ => exact ⟨List.forall_mem_nil _,given.handed⟩
  | kill => exact ⟨List.forall_mem_nil _,given.handed⟩
  | unstated excutes _ => exact ⟨excutes_rest given excutes,given.handed⟩
  | unprinted excutes _ => exact ⟨excutes_rest given excutes,given.handed⟩
  | hand excutes outcome printed =>
    have own := given.excutes _ (excutes ▸ List.mem_append_right _ List.mem_cons_self)
    refine ⟨excutes_rest given excutes,fun entry member => ?_⟩
    rcases List.mem_append.mp member with old | new
    · exact given.handed entry old
    · cases List.mem_singleton.mp new
      exact ⟨own ▸ outcome,printed⟩
  | _ => exact ⟨given.excutes,given.handed⟩

theorem run_given {store : Store Text} {s : Process}
    (ran : Transitions.run (Process.step cfg) (.start cfg store old) actions = some s) :
    Given cfg s :=
  Transitions.run_invariant (Given cfg) ⟨List.forall_mem_nil _,List.forall_mem_nil _⟩
    (fun _ _ _ given stepped => step_given given (step_exact stepped)) ran

theorem Kept.read {s : Process} (kept : Kept queued s) : (∀ entry ∈ s.popped,entry ∈ s.pushed) ∧
    ∀ i,∀ body ∈ queued i,(i,body) ∈ s.pushed := by
  have entry_iff {log : List (Nat × Bytes)} {i : Nat} {body : Bytes} : (i,body) ∈ log ↔
      body ∈ onBranch i log := by
    simp [onBranch]
  constructor
  · rintro ⟨i,body⟩ member
    rw [entry_iff,kept.ordered i]
    exact List.mem_append_left _ (entry_iff.mp member)
  · intro i body member
    rw [entry_iff,kept.ordered i]
    exact List.mem_append_right _ member

end SqlReview.Agent
