import SqlReview.Review

-- Where the messages of the service are, over whole runs.
namespace SqlReview.Review
open GoText GoBytes Records RedisStore UniqueQueue RedisLists MysqlRows Intake

def Service.places (s : Service) : List Bytes := s.inside ++ s.rows.map Prod.fst ++ s.dropped.map Prod.fst

-- `queued` is what the work list of Redis holds.
structure Kept (cfg : Settings) (queued : List Bytes) (s : Service) : Prop where
  list : s.store.list? cfg.queue = some (queued.map latin)
  conserved : s.received.Perm (queued ++ s.places)
  ordered : s.pushed = s.popped ++ queued
  paced : s.popped.length+s.polls ≤ s.ticks*cfg.number
  known : s.publishing ⊆ s.received

-- The work list is no list or set of NewExplainDb.
def Apart (cfg : Settings) : Prop :=
  ∀ branch,cfg.queue ≠ ExplainDb.branchName branch ∧ cfg.queue ≠ getQueueSet (ExplainDb.branchName branch)

theorem apart_of_name (other : (text "julive:").isPrefixOf cfg.queue = false) : Apart cfg := by
  have names (rest : Text) : cfg.queue ≠ text "julive:" ++ rest := by
    intro same
    rw [same,List.isPrefixOf_iff_prefix.mpr (List.prefix_append _ _)] at other
    cases other
  intro branch
  refine ⟨names branch,?_⟩
  rw [getQueueSet,ExplainDb.branchName,List.append_assoc]
  exact names _

theorem places_count (s : Service) (body : Bytes) : s.places.count body =
    s.pushing.count body+(s.reviews.map Prod.fst).count body+(s.channel.map Prod.fst).count body+
      (s.jobs.map Prod.fst).count body+(s.rows.map Prod.fst).count body+(s.dropped.map Prod.fst).count body := by
  simp only [Service.places,Service.inside,List.count_append]

-- A message that leaves one place comes to another one.
theorem perm_places {s t : Service} {queued later : List Bytes}
    (conserved : s.received.Perm (queued ++ s.places))
    (moved : ∀ body,t.received.count body+(queued.count body+s.places.count body) =
      s.received.count body+(later.count body+t.places.count body)) :
    t.received.Perm (later ++ t.places) := by
  rw [List.perm_iff_count] at conserved ⊢
  intro body
  have before := conserved body
  have balance := moved body
  rw [List.count_append] at before ⊢
  omega

theorem crash_places (s : Service) : s.crash.places.Perm s.places := by
  have labels : (s.inside.map (·,Cause.crashed)).map Prod.fst = s.inside := by
    rw [List.map_map]
    exact List.map_id _
  rw [Service.places,Service.places,Service.inside,Service.crash]
  dsimp only
  rw [List.map_append,labels]
  simp only [List.map_nil,List.append_nil,List.nil_append]
  rw [List.append_assoc,← List.append_assoc]
  exact List.perm_append_comm

theorem crash_kept {s : Service} (kept : Kept cfg queued s) : Kept cfg queued s.crash := by
  refine ⟨kept.list,?_,kept.ordered,?_,?_⟩
  · exact kept.conserved.trans ((crash_places s).symm.append_left queued)
  · exact Nat.le_trans (Nat.le_add_right _ s.polls) kept.paced
  · exact List.nil_subset _

theorem front_kept {s : Service} (kept : Kept cfg queued s) : s.front cfg = queued.head? := by
  rw [Service.front,kept.list]
  cases queued with
  | nil => rfl
  | cons body rest => simp [unlatin_latin]

-- What a poll does to a list that holds `queued`.
inductive Polled (cfg : Settings) (s : Service) : List Bytes → Link → List Bytes → Service → Prop where
  | idle : link = .failed ∨ queued = [] → Polled cfg s queued link queued {s with polls := s.polls-1}
  | taken : body ≠ [] → Polled cfg s (body :: rest) .answered rest {s with
      store := s.store.putList cfg.queue (rest.map latin),polls := s.polls-1,popped := s.popped ++ [body],
      reviews := s.reviews ++ [(body,.explain)]}
  | gone : (link = .answered → body = []) → link ≠ .failed → Polled cfg s (body :: rest) link rest {s with
      store := s.store.putList cfg.queue (rest.map latin),polls := s.polls-1,popped := s.popped ++ [body],
      dropped := s.dropped ++ [(body,if link = .answered then .blank else .unanswered)]}

theorem poll_exact {s : Service} (kept : Kept cfg queued s) (link : Link) :
    ∃ later,Polled cfg s queued link later (s.poll cfg link) := by
  have front := front_kept kept
  by_cases failed : link = .failed
  · rw [Service.poll,if_pos failed]
    exact ⟨queued,.idle (.inl failed)⟩
  · have list := kept.list
    rw [Service.poll,if_neg failed]
    cases queued with
    | nil =>
      have idle : Polled cfg s [] link [] {s with polls := s.polls-1} := .idle (.inr rfl)
      refine ⟨[],?_⟩
      simp only [listPop_nil list,front]
      simpa using idle
    | cons body rest =>
      obtain ⟨resp,store⟩ := listPop_cons list
      refine ⟨rest,?_⟩
      simp only [resp,store,front,unlatin_latin]
      by_cases read : link = .answered ∧ latin body ≠ []
      · rw [if_pos read]
        obtain ⟨rfl,inked⟩ := read
        exact .taken fun blank => inked (congrArg latin blank)
      · rw [if_neg read]
        refine .gone (fun answered => ?_) failed
        by_contra inked
        exact read ⟨answered,fun blank => inked (List.map_eq_nil_iff.mp blank)⟩

theorem polled_kept {s t : Service} (kept : Kept cfg queued s) (running : s.polls ≠ 0)
    (polled : Polled cfg s queued link later t) : Kept cfg later t := by
  have paced := kept.paced
  cases polled with
  | idle _ =>
    exact ⟨kept.list,kept.conserved,kept.ordered,Nat.le_trans (by dsimp only; omega) paced,kept.known⟩
  | taken inked =>
    refine ⟨by simp,perm_places kept.conserved fun other => ?_,by simp [kept.ordered],?_,kept.known⟩
    · rw [places_count,places_count]
      simp [List.count_append,List.count_cons]
      omega
    · simp
      omega
  | gone lost working =>
    refine ⟨by simp,perm_places kept.conserved fun other => ?_,by simp [kept.ordered],?_,kept.known⟩
    · rw [places_count,places_count]
      simp [List.count_append,List.count_cons]
      omega
    · simp
      omega

theorem mark_list (apart : Apart cfg) (work : Work) (link : Link) (store : Store Text) :
    (work.push cfg.md5 link store).list? cfg.queue = store.list? cfg.queue := by
  unfold Work.push
  split
  · rfl
  · exact uniquePush_list _ _ _ (apart work.row.branch).1 (apart work.row.branch).2

theorem step_kept {s t : Service} (apart : Apart cfg) (kept : Kept cfg queued s)
    (step : Step cfg s action t) : ∃ later,Kept cfg later t := by
  cases step with
  | post =>
    refine ⟨queued,kept.list,perm_places kept.conserved fun other => ?_,kept.ordered,kept.paced,?_⟩
    · rw [places_count,places_count]
      simp [List.count_append]
      omega
    · intro body member
      rcases List.mem_append.mp member with old | new
      · exact List.mem_append_left _ (kept.known old)
      · exact List.mem_append_right _ new
  | @push l body r link pushing working fine =>
    have stored := listPush_list kept.list (latin body)
    refine ⟨queued ++ [body],?_,perm_places kept.conserved fun other => ?_,?_,kept.paced,kept.known⟩
    · simp [stored]
    · rw [places_count,places_count]
      simp [pushing,List.count_append,List.count_cons]
      omega
    · simp [kept.ordered]
  | refuse pushing _ =>
    refine ⟨queued,kept.list,perm_places kept.conserved fun other => ?_,kept.ordered,kept.paced,kept.known⟩
    rw [places_count,places_count]
    simp [pushing,List.count_append,List.count_cons]
    omega
  | publish publishing sent =>
    refine ⟨queued,kept.list,kept.conserved,kept.ordered,kept.paced,?_⟩
    intro body member
    apply kept.known
    rw [publishing]
    rcases List.mem_append.mp member with left | right
    · exact List.mem_append_left _ left
    · exact List.mem_append_right _ (List.mem_cons_of_mem _ right)
  | unlisted publishing none => exact ⟨queued,crash_kept kept⟩
  | tick idle =>
    refine ⟨queued,kept.list,kept.conserved,kept.ordered,?_,kept.known⟩
    have paced := kept.paced
    simp only [Nat.add_mul]
    omega
  | poll running =>
    obtain ⟨later,polled⟩ := poll_exact kept _
    exact ⟨later,polled_kept kept running polled⟩
  | explain reviews answered =>
    refine ⟨queued,kept.list,perm_places kept.conserved fun other => ?_,kept.ordered,kept.paced,kept.known⟩
    rw [places_count,places_count]
    simp [reviews]
  | panic reviews answered => exact ⟨queued,crash_kept kept⟩
  | cost reviews =>
    refine ⟨queued,kept.list,perm_places kept.conserved fun other => ?_,kept.ordered,kept.paced,kept.known⟩
    rw [places_count,places_count]
    simp [reviews]
  | send reviews room =>
    refine ⟨queued,kept.list,perm_places kept.conserved fun other => ?_,kept.ordered,kept.paced,kept.known⟩
    rw [places_count,places_count]
    simp [reviews,List.count_append,List.count_cons]
    omega
  | receive channel =>
    refine ⟨queued,kept.list,perm_places kept.conserved fun other => ?_,kept.ordered,kept.paced,kept.known⟩
    rw [places_count,places_count]
    simp [channel,List.count_append,List.count_cons]
    omega
  | @mark l body work r link jobs unmarked =>
    have list := (mark_list apart work link s.store).trans kept.list
    refine ⟨queued,list,perm_places kept.conserved fun other => ?_,kept.ordered,kept.paced,kept.known⟩
    rw [places_count,places_count]
    simp [jobs]
  | insert jobs flagged accepted =>
    refine ⟨queued,kept.list,perm_places kept.conserved fun other => ?_,kept.ordered,kept.paced,kept.known⟩
    rw [places_count,places_count]
    simp [jobs,List.count_append,List.count_cons]
    omega
  | lose jobs flagged =>
    refine ⟨queued,kept.list,perm_places kept.conserved fun other => ?_,kept.ordered,kept.paced,kept.known⟩
    rw [places_count,places_count]
    simp [jobs,List.count_append,List.count_cons]
    omega
  | kill => exact ⟨queued,crash_kept kept⟩

theorem start_kept {store : Store Text} (held : store.list? cfg.queue = some (old.map latin)) :
    Kept cfg old (.start store old) := by
  refine ⟨held,?_,rfl,?_,List.nil_subset _⟩
  · simp [Service.places,Service.inside,Service.start]
  · simp [Service.start]

theorem run_kept {store : Store Text} {s : Service} (apart : Apart cfg)
    (held : store.list? cfg.queue = some (old.map latin))
    (ran : Transitions.run (Service.step cfg) (.start store old) actions = some s) :
    ∃ queued,Kept cfg queued s := by
  refine Transitions.run_invariant (fun s => ∃ queued,Kept cfg queued s) ⟨old,start_kept held⟩ ?_ ran
  rintro s action t ⟨queued,kept⟩ stepped
  exact step_kept apart kept (step_exact stepped)

-- Whatever fails, whoever crashes and however the goroutines interleave: each message that was posted or
-- still in Redis is in one place, or dropped for a cause on record.
theorem messages_conserved {store : Store Text} {s : Service} (apart : Apart cfg)
    (held : store.list? cfg.queue = some (old.map latin))
    (ran : Transitions.run (Service.step cfg) (.start store old) actions = some s) :
    ∃ queued,s.store.list? cfg.queue = some (queued.map latin) ∧
      s.received.Perm (queued ++ s.inside ++ s.rows.map Prod.fst ++ s.dropped.map Prod.fst) := by
  obtain ⟨queued,kept⟩ := run_kept apart held ran
  refine ⟨queued,kept.list,?_⟩
  have conserved := kept.conserved
  rwa [Service.places,← List.append_assoc,← List.append_assoc] at conserved

def prod : Settings := ⟨Routing.prodConf,id,fun _ => 0⟩

theorem prod_apart : Apart prod := apart_of_name (by decide +kernel)

def listing : Bytes := str "\x7b\"arr\":[\x7b\"info\":\"select 1\"\x7d]\x7d"

-- Two messages are posted, one is pushed, and the process is killed before it pushes the other one.
def killedRun : List Action :=
  [.post listing,.post (str "x"),.push 0 .lost,.kill,.tick,.poll .failed,.poll .answered,.post listing]

theorem no_messages : noStore.list? prod.queue = some (([] : List Bytes).map latin) := rfl

theorem killed_run :
    ∃ s : Service,Transitions.run (Service.step prod) (.start noStore []) killedRun = some s :=
  Option.isSome_iff_exists.mp (by decide +kernel)

theorem killed_run_conserves :
    ∃ s : Service,Transitions.run (Service.step prod) (.start noStore []) killedRun = some s ∧
      ∃ queued,s.store.list? prod.queue = some (queued.map latin) ∧
        s.received.Perm (queued ++ s.inside ++ s.rows.map Prod.fst ++ s.dropped.map Prod.fst) := by
  obtain ⟨s,ran⟩ := killed_run
  exact ⟨s,ran,messages_conserved prod_apart no_messages ran⟩

-- From `s` to `t` as long as the timer does not fire.
def Paced (s t : Service) : Prop :=
  s.ticks ≤ t.ticks ∧ (t.ticks = s.ticks → t.popped.length+t.polls ≤ s.popped.length+s.polls)

theorem poll_paced (cfg : Settings) (s : Service) (link : Link) (running : s.polls ≠ 0) :
    Paced s (s.poll cfg link) ∧ (s.poll cfg link).polls < s.polls := by
  have one : (s.front cfg).toList.length ≤ 1 := Option.length_toList_le
  unfold Service.poll
  dsimp only
  split_ifs <;> simp [Paced] <;> omega

theorem step_paced {s t : Service} (step : Step cfg s action t) (few : s.polls ≤ cfg.number) :
    Paced s t ∧ t.polls ≤ cfg.number := by
  have crashed : Paced s s.crash ∧ s.crash.polls ≤ cfg.number :=
    ⟨⟨Nat.le_refl _,fun _ => Nat.add_le_add_left (Nat.zero_le _) _⟩,Nat.zero_le _⟩
  cases step with
  | unlisted _ _ => exact crashed
  | panic _ _ => exact crashed
  | kill => exact crashed
  | tick idle => exact ⟨⟨Nat.le_succ _,fun same => absurd same (Nat.succ_ne_self _)⟩,Nat.le_refl _⟩
  | poll running =>
    obtain ⟨paced,fewer⟩ := poll_paced cfg s _ running
    exact ⟨paced,by omega⟩
  | _ => exact ⟨⟨Nat.le_refl _,fun _ => Nat.le_refl _⟩,few⟩

theorem run_paced {s t : Service} (few : s.polls ≤ cfg.number)
    (ran : Transitions.run (Service.step cfg) s actions = some t) : Paced s t ∧ t.polls ≤ cfg.number := by
  refine Transitions.run_invariant (fun t => Paced s t ∧ t.polls ≤ cfg.number)
    ⟨⟨Nat.le_refl _,fun _ => Nat.le_refl _⟩,few⟩ ?_ ran
  rintro middle action t ⟨⟨before,within⟩,few⟩ stepped
  obtain ⟨⟨after,next⟩,fewer⟩ := step_paced (step_exact stepped) few
  refine ⟨⟨Nat.le_trans before after,fun same => ?_⟩,fewer⟩
  have early := within (by omega)
  have late := next (by omega)
  omega

-- Messages are taken off in the order in which they were pushed, and between two ticks of the timer,
-- wherever the run is cut, never more than ExplainDBNumber of them.
theorem messages_in_order {store : Store Text} {s : Service} (apart : Apart cfg)
    (held : store.list? cfg.queue = some (old.map latin))
    (ran : Transitions.run (Service.step cfg) (.start store old) actions = some s) :
    (∃ queued,s.store.list? cfg.queue = some (queued.map latin) ∧ s.pushed = s.popped ++ queued) ∧
      s.popped.length ≤ s.ticks*cfg.number ∧
      ∀ early late middle,actions = early ++ late →
        Transitions.run (Service.step cfg) (.start store old) early = some middle → middle.ticks = s.ticks →
        s.popped.length ≤ middle.popped.length+cfg.number := by
  obtain ⟨queued,kept⟩ := run_kept apart held ran
  refine ⟨⟨queued,kept.list,kept.ordered⟩,Nat.le_trans (Nat.le_add_right _ _) kept.paced,?_⟩
  rintro early late middle rfl begun same
  rw [Transitions.run_append,begun] at ran
  have few := (run_paced (Nat.zero_le _) begun).2
  have within := (run_paced few ran).1.2 same.symm
  omega

theorem killed_run_in_order :
    ∃ s : Service,Transitions.run (Service.step prod) (.start noStore []) killedRun = some s ∧
      (∃ queued,s.store.list? prod.queue = some (queued.map latin) ∧ s.pushed = s.popped ++ queued) ∧
      s.popped.length ≤ s.ticks*prod.number ∧
      ∀ early late middle,killedRun = early ++ late →
        Transitions.run (Service.step prod) (.start noStore []) early = some middle → middle.ticks = s.ticks →
        s.popped.length ≤ middle.popped.length+prod.number := by
  obtain ⟨s,ran⟩ := killed_run
  exact ⟨s,ran,messages_in_order prod_apart no_messages ran⟩

end SqlReview.Review
