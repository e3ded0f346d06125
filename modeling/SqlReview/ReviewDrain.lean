import SqlReview.ReviewRows

-- The service brings what is left into the table.
namespace SqlReview.Review
open GoText GoBytes Records RedisStore UniqueQueue RedisLists MysqlRows Intake
open InsertStatement (Spliceable)

-- What MySQL answers to the EXPLAIN and to the show status of a message.
structure Mysql where
  first : Bytes → Reply
  second : Bytes → Reply

section
variable (cfg : Settings) (mysql : Mysql)

-- EXPLAIN can be read, and the INSERT needs no escaping.
def Reviewable (body : Bytes) : Prop := ∃ data ∈ explained cfg body (mysql.first body),
  Spliceable (Explain.getScore cfg.cost (explainConst data (mysql.second body)))

instance (body : Bytes) : Decidable (Reviewable cfg mysql body) :=
  inferInstanceAs (Decidable (∃ data ∈ explained cfg body (mysql.first body),
    Spliceable (Explain.getScore cfg.cost (explainConst data (mysql.second body)))))

def Stage.Ready (body : Bytes) : Stage → Prop
  | .explain => Reviewable cfg mysql body
  | .cost _ sql => Spliceable (Explain.getScore cfg.cost (explainConst sql (mysql.second body)))
  | .send scored => Spliceable scored.sql

instance (body : Bytes) : (stage : Stage) → Decidable (stage.Ready cfg mysql body)
  | .explain => inferInstanceAs (Decidable (Reviewable cfg mysql body))
  | .cost _ sql =>
    inferInstanceAs (Decidable
      (Spliceable (Explain.getScore cfg.cost (explainConst sql (mysql.second body)))))
  | .send scored => inferInstanceAs (Decidable (Spliceable scored.sql))

-- Each message that is left, on the list or with a goroutine, can still be stored.
structure Ready (queued : List Bytes) (s : Service) : Prop where
  queued : ∀ body ∈ queued,Reviewable cfg mysql body
  pushing : ∀ body ∈ s.pushing,Reviewable cfg mysql body
  publishing : ∀ body ∈ s.publishing,Listed body
  reviews : ∀ review ∈ s.reviews,review.2.Ready cfg mysql review.1
  channel : ∀ message ∈ s.channel,Spliceable message.2.sql
  jobs : ∀ job ∈ s.jobs,Spliceable job.2.scored.sql

instance (queued : List Bytes) (s : Service) : Decidable (Ready cfg mysql queued s) :=
  decidable_of_iff ((∀ body ∈ queued,Reviewable cfg mysql body) ∧
    (∀ body ∈ s.pushing,Reviewable cfg mysql body) ∧
      (∀ body ∈ s.publishing,Listed body) ∧ (∀ review ∈ s.reviews,review.2.Ready cfg mysql review.1) ∧
      (∀ message ∈ s.channel,Spliceable message.2.sql) ∧ ∀ job ∈ s.jobs,Spliceable job.2.scored.sql)
    ⟨fun own => ⟨own.1,own.2.1,own.2.2.1,own.2.2.2.1,own.2.2.2.2.1,own.2.2.2.2.2⟩,
      fun own => ⟨own.queued,own.pushing,own.publishing,own.reviews,own.channel,own.jobs⟩⟩
end

-- The steps of a service that is left alone: no request, no kill and no failure, and MySQL answers
-- as it does.
def Serves (mysql : Mysql) (s : Service) : Action → Prop
  | .post _ | .kill => False
  | .push _ link | .poll link | .mark _ link => link = .answered
  | .explain i reply => ∀ review ∈ s.reviews[i]?,reply = mysql.first review.1
  | .cost i reply => ∀ review ∈ s.reviews[i]?,reply = mysql.second review.1
  | .insert _ stored => stored.isSome = true
  | .publish _ _ | .tick | .send _ | .receive _ _ => True

-- What such steps leave as it is, and that they add only rows as they are meant.
structure Grown (s t : Service) : Prop where
  received : t.received = s.received
  dropped : t.dropped = s.dropped
  rows : ∃ fresh,t.rows = s.rows ++ fresh ∧ ∀ row ∈ fresh,row.2.stored = [row.2.work.values]

theorem Grown.quiet {s t : Service} (received : t.received = s.received) (dropped : t.dropped = s.dropped)
    (rows : t.rows = s.rows) : Grown s t :=
  ⟨received,dropped,[],rows.trans (List.append_nil _).symm,List.forall_mem_nil _⟩

theorem Grown.trans {s t u : Service} (first : Grown s t) (second : Grown t u) : Grown s u := by
  obtain ⟨early,front,exact⟩ := first.rows
  obtain ⟨late,back,fine⟩ := second.rows
  refine ⟨second.received.trans first.received,second.dropped.trans first.dropped,early ++ late,?_,?_⟩
  · rw [back,front,List.append_assoc]
  · exact List.forall_mem_append.mpr ⟨exact,fine⟩

theorem explained_listed (read : explained cfg body reply = some sql) : Listed body := by
  intro none
  simp [explained,excuteDbSql,none] at read

theorem Reviewable.listed (reviewable : Reviewable cfg mysql body) : Listed body := by
  obtain ⟨data,read,_⟩ := reviewable
  exact explained_listed read

theorem polled_ready {s t : Service} (ready : Ready cfg mysql queued s)
    (polled : Polled cfg s queued .answered later t) : Ready cfg mysql later t ∧ Grown s t := by
  obtain ⟨queuedReady,pushing,publishing,reviews,channel,jobs⟩ := ready
  cases polled with
  | idle _ => exact ⟨⟨queuedReady,pushing,publishing,reviews,channel,jobs⟩,.quiet rfl rfl rfl⟩
  | taken _ =>
    obtain ⟨first,rest⟩ := List.forall_mem_cons.mp queuedReady
    exact ⟨⟨rest,pushing,publishing,mem_snoc reviews first,channel,jobs⟩,.quiet rfl rfl rfl⟩
  | gone blank _ =>
    have first := queuedReady _ List.mem_cons_self
    rw [blank rfl] at first
    exact absurd first.listed blank_unlisted

theorem reviews_ready {s : Service} (ready : Ready cfg mysql queued s)
    (reviews : s.reviews = l ++ (body,old) :: r)
    (keeps : old.Ready cfg mysql body → stage.Ready cfg mysql body) :
    Ready cfg mysql queued {s with reviews := l ++ (body,stage) :: r} := by
  have before := ready.reviews
  rw [reviews] at before
  exact ⟨ready.queued,ready.pushing,ready.publishing,mem_replace before keeps,ready.channel,ready.jobs⟩

-- A service that is left alone loses nothing.
theorem serves_ready {s t : Service} (apart : Apart cfg) (kept : Kept cfg queued s)
    (ready : Ready cfg mysql queued s)
    (serves : Serves mysql s action) (step : Step cfg s action t)
    (held : t.store.list? cfg.queue = some (later.map latin)) : Ready cfg mysql later t ∧ Grown s t := by
  have same (list : t.store.list? cfg.queue = s.store.list? cfg.queue) : later = queued := by
    rw [list,kept.list] at held
    exact (latins_injective (Option.some.inj held)).symm
  have parts := ready
  obtain ⟨waiting,pushing,publishing,reviews,channel,jobs⟩ := parts
  cases step with
  | post => exact absurd serves id
  | @push l body r link place working fine =>
    rw [place] at pushing
    rw [listPush_list kept.list] at held
    have queue : later = queued ++ [body] := latins_injective (by simpa using held.symm)
    have own := pushing body (List.mem_append_right _ List.mem_cons_self)
    rw [queue]
    exact ⟨⟨mem_snoc waiting own,mem_remove pushing,publishing,reviews,channel,jobs⟩,.quiet rfl rfl rfl⟩
  | refuse place refused =>
    cases serves
    have failed := refused (by decide)
    rw [listPush_list kept.list] at failed
    exact absurd rfl failed
  | publish place sent =>
    rw [place] at publishing
    rw [same rfl]
    exact ⟨⟨waiting,pushing,mem_remove publishing,reviews,channel,jobs⟩,.quiet rfl rfl rfl⟩
  | unlisted place none =>
    rw [place] at publishing
    exact absurd none (publishing _ (List.mem_append_right _ List.mem_cons_self))
  | tick idle =>
    rw [same rfl]
    exact ⟨⟨waiting,pushing,publishing,reviews,channel,jobs⟩,.quiet rfl rfl rfl⟩
  | poll running =>
    cases serves
    obtain ⟨others,polled⟩ := poll_exact kept .answered
    have queue := latins_injective (Option.some.inj ((polled_kept kept running polled).list.symm.trans held))
    rw [← queue]
    exact polled_ready ready polled
  | @explain l body r reply sql place answered =>
    cases serves (body,.explain) (by simp [place])
    rw [same rfl]
    refine ⟨reviews_ready ready place ?_,.quiet rfl rfl rfl⟩
    rintro ⟨data,read,spliceable⟩
    cases answered.symm.trans read
    exact spliceable
  | @panic l body r reply place failed =>
    cases serves (body,.explain) (by simp [place])
    rw [place] at reviews
    obtain ⟨data,read,_⟩ := reviews _ (List.mem_append_right _ List.mem_cons_self)
    cases failed.symm.trans read
  | @cost l body r reply first sql place =>
    cases serves (body,.cost first sql) (by simp [place])
    rw [same rfl]
    exact ⟨reviews_ready ready place id,.quiet rfl rfl rfl⟩
  | send place room =>
    rw [place] at reviews
    have own := reviews _ (List.mem_append_right _ List.mem_cons_self)
    rw [same rfl]
    exact ⟨⟨waiting,pushing,publishing,mem_remove reviews,mem_snoc channel own,jobs⟩,.quiet rfl rfl rfl⟩
  | receive place =>
    rw [place,List.forall_mem_cons] at channel
    rw [same rfl]
    exact ⟨⟨waiting,pushing,publishing,reviews,channel.2,mem_snoc jobs channel.1⟩,.quiet rfl rfl rfl⟩
  | mark place unmarked =>
    rw [place] at jobs
    rw [same (mark_list apart _ _ _)]
    exact ⟨⟨waiting,pushing,publishing,reviews,channel,mem_replace jobs id⟩,.quiet rfl rfl rfl⟩
  | insert place flagged accepted =>
    rw [place] at jobs
    have own := jobs _ (List.mem_append_right _ List.mem_cons_self)
    rw [same rfl]
    refine ⟨⟨waiting,pushing,publishing,reviews,channel,mem_remove jobs⟩,rfl,rfl,[_],rfl,?_⟩
    exact List.forall_mem_singleton.mpr ((accepts_spliceable own _).mp accepted)
  | lose place flagged => cases serves
  | kill => exact absurd serves id

-- How many steps the messages are from the table; a tick brings the next poll nearer.
def Stage.distance : Stage → Nat
  | .explain => 6
  | .cost _ _ => 5
  | .send _ => 4

def Work.distance (work : Work) : Nat := if work.flag = none then 2 else 1

def Service.waiting (cfg : Settings) (s : Service) : Nat := ((s.store.list? cfg.queue).map List.length).getD 0

def Service.ahead (cfg : Settings) (s : Service) : Nat :=
  s.publishing.length+8*s.pushing.length+7*s.waiting cfg+(s.reviews.map fun review => review.2.distance).sum+
    3*s.channel.length+(s.jobs.map fun job => job.2.distance).sum

def Service.distance (cfg : Settings) (s : Service) : Nat := 2*s.ahead cfg+if s.polls = 0 then 1 else 0

-- Some goroutine has a step that brings a message nearer to the table.
def Nearer (cfg : Settings) (mysql : Mysql) (s : Service) : Prop :=
  ∃ action t,Serves mysql s action ∧ s.step cfg action = some t ∧ t.distance cfg < s.distance cfg

theorem nearer_ahead {s t : Service} (serves : Serves mysql s action) (stepped : s.step cfg action = some t)
    (polls : t.polls = s.polls) (less : t.ahead cfg < s.ahead cfg) : Nearer cfg mysql s := by
  refine ⟨action,t,serves,stepped,?_⟩
  rw [Service.distance,Service.distance,polls]
  omega

section
variable {cfg : Settings} {mysql : Mysql} {queued : List Bytes} {s : Service}

theorem nearer_jobs (apart : Apart cfg) (ready : Ready cfg mysql queued s) (busy : s.jobs ≠ []) :
    Nearer cfg mysql s := by
  cases jobs : s.jobs with
  | nil => exact absurd jobs busy
  | cons head rest =>
    obtain ⟨body,work⟩ := head
    by_cases unmarked : work.flag = none
    · have serves : Serves mysql s (.mark 0 .answered) := rfl
      have stepped : s.step cfg (.mark 0 .answered) = some {s with
          store := work.push cfg.md5 .answered s.store
          jobs := (body,work.pushed cfg.md5 .answered s.store) :: rest} := by
        simp [Service.step,jobs,unmarked]
      have before : work.distance = 2 := if_pos unmarked
      have after : (work.pushed cfg.md5 .answered s.store).distance = 1 := rfl
      refine nearer_ahead serves stepped rfl ?_
      simp [Service.ahead,Service.waiting,mark_list apart,jobs,before,after]
    · have spliceable : Spliceable work.scored.sql := ready.jobs (body,work) (jobs ▸ List.mem_cons_self)
      have accepted := (accepts_spliceable spliceable [work.values]).mpr rfl
      have serves : Serves mysql s (.insert 0 (some [work.values])) := rfl
      have stepped : s.step cfg (.insert 0 (some [work.values])) = some {s with
          jobs := rest,rows := s.rows ++ [(body,⟨work,[work.values]⟩)]} := by
        simp [Service.step,jobs,unmarked,accepted]
      have before : work.distance = 1 := if_neg unmarked
      refine nearer_ahead serves stepped rfl ?_
      simp [Service.ahead,Service.waiting,jobs,before]

theorem nearer_channel (busy : s.channel ≠ []) : Nearer cfg mysql s := by
  cases channel : s.channel with
  | nil => exact absurd channel busy
  | cons head rest =>
    obtain ⟨body,scored⟩ := head
    let work : Work := ⟨scored,fun _ => true,InsertStatement.noon,none⟩
    have serves : Serves mysql s (.receive (fun _ => true) InsertStatement.noon) := trivial
    have stepped : s.step cfg (.receive (fun _ => true) InsertStatement.noon) = some {s with
        channel := rest,jobs := s.jobs ++ [(body,work)]} := by simp [Service.step,channel,work]
    have after : work.distance = 2 := rfl
    refine nearer_ahead serves stepped rfl ?_
    simp [Service.ahead,Service.waiting,channel,after]
    omega

theorem nearer_reviews (ready : Ready cfg mysql queued s) (room : s.channel = []) (busy : s.reviews ≠ []) :
    Nearer cfg mysql s := by
  cases reviews : s.reviews with
  | nil => exact absurd reviews busy
  | cons head rest =>
    obtain ⟨body,stage⟩ := head
    cases stage with
    | explain =>
      obtain ⟨data,read,_⟩ := ready.reviews (body,.explain) (reviews ▸ List.mem_cons_self)
      have serves : Serves mysql s (.explain 0 (mysql.first body)) := by simp [Serves,reviews]
      have stepped : s.step cfg (.explain 0 (mysql.first body)) = some {s with
          reviews := (body,.cost (mysql.first body) data) :: rest} := by
        simp [Service.step,reviews,Option.mem_def.mp read]
      refine nearer_ahead serves stepped rfl ?_
      simp [Service.ahead,Service.waiting,reviews,Stage.distance]
    | cost first sql =>
      let second := mysql.second body
      let scored := Scored.mk first second (Explain.getScore cfg.cost (explainConst sql second))
      have serves : Serves mysql s (.cost 0 second) := by simp [Serves,reviews,second]
      have stepped : s.step cfg (.cost 0 second) = some {s with reviews := (body,.send scored) :: rest} := by
        simp [Service.step,reviews,scored]
      refine nearer_ahead serves stepped rfl ?_
      simp [Service.ahead,Service.waiting,reviews,Stage.distance]
    | send scored =>
      have serves : Serves mysql s (.send 0) := trivial
      have stepped : s.step cfg (.send 0) = some {s with reviews := rest,channel := [(body,scored)]} := by
        simp [Service.step,reviews,room,capacity]
      refine nearer_ahead serves stepped rfl ?_
      simp [Service.ahead,Service.waiting,reviews,room,Stage.distance]
      omega

theorem nearer_queue (kept : Kept cfg queued s) (ready : Ready cfg mysql queued s) (rounds : 0 < cfg.number)
    (busy : queued ≠ []) : Nearer cfg mysql s := by
  by_cases idle : s.polls = 0
  · have stepped : s.step cfg .tick = some {s with polls := cfg.number,ticks := s.ticks+1} := by
      simp [Service.step,idle]
    refine ⟨.tick,_,trivial,stepped,?_⟩
    simp [Service.distance,Service.ahead,Service.waiting,idle,Nat.ne_of_gt rounds]
  · have serves : Serves mysql s (.poll .answered) := rfl
    have stepped : s.step cfg (.poll .answered) = some (s.poll cfg .answered) := by simp [Service.step,idle]
    obtain ⟨later,polled⟩ := poll_exact kept .answered
    refine ⟨_,_,serves,stepped,?_⟩
    generalize s.poll cfg .answered = t at polled
    cases polled with
    | idle none =>
      rcases none with failed | empty
      · cases failed
      · exact absurd empty busy
    | taken inked =>
      simp [Service.distance,Service.ahead,Service.waiting,kept.list,idle,Stage.distance]
      split <;> omega
    | gone blank _ =>
      have first := ready.queued _ List.mem_cons_self
      rw [blank rfl] at first
      exact absurd first.listed blank_unlisted

theorem nearer_pushing (kept : Kept cfg queued s) (busy : s.pushing ≠ []) : Nearer cfg mysql s := by
  cases pushing : s.pushing with
  | nil => exact absurd pushing busy
  | cons body rest =>
    have answer := listPush_list kept.list (latin body)
    have serves : Serves mysql s (.push 0 .answered) := rfl
    have stepped : s.step cfg (.push 0 .answered) = some {s with
        store := s.store.putList cfg.queue (queued.map latin ++ [latin body]),pushing := rest
        pushed := s.pushed ++ [body]} := by
      simp [Service.step,pushing,answer]
    refine nearer_ahead serves stepped rfl ?_
    simp [Service.ahead,Service.waiting,pushing,kept.list]
    omega

theorem nearer_publishing (ready : Ready cfg mysql queued s) (busy : s.publishing ≠ []) :
    Nearer cfg mysql s := by
  cases publishing : s.publishing with
  | nil => exact absurd publishing busy
  | cons body rest =>
    have listed := ready.publishing body (publishing ▸ List.mem_cons_self)
    obtain ⟨message,sent⟩ := kafkaMessage_done (fun _ => true) listed
    have serves : Serves mysql s (.publish 0 fun _ => true) := trivial
    have stepped : s.step cfg (.publish 0 fun _ => true) = some {s with
        publishing := rest,published := s.published ++ [message]} := by
      simp [Service.step,publishing,sent]
    refine nearer_ahead serves stepped rfl ?_
    simp [Service.ahead,Service.waiting,publishing]

-- Nothing is left to do.
def Rested (cfg : Settings) (s : Service) : Prop :=
  s.publishing = [] ∧ s.store.list? cfg.queue = some [] ∧ s.inside = []

theorem nearer (apart : Apart cfg) (kept : Kept cfg queued s) (ready : Ready cfg mysql queued s)
    (rounds : 0 < cfg.number) : Rested cfg s ∨ Nearer cfg mysql s := by
  by_cases jobs : s.jobs = []
  · by_cases channel : s.channel = []
    · by_cases reviews : s.reviews = []
      · by_cases empty : queued = []
        · by_cases pushing : s.pushing = []
          · by_cases publishing : s.publishing = []
            · refine Or.inl ⟨publishing,by rw [kept.list,empty]; rfl,?_⟩
              simp [Service.inside,jobs,channel,reviews,pushing]
            · exact Or.inr (nearer_publishing ready publishing)
          · exact Or.inr (nearer_pushing kept pushing)
        · exact Or.inr (nearer_queue kept ready rounds empty)
      · exact Or.inr (nearer_reviews ready channel reviews)
    · exact Or.inr (nearer_channel channel)
  · exact Or.inr (nearer_jobs apart ready jobs)
end

-- What a service that is left alone keeps from `s` on, at a distance of `n`.
def Near (cfg : Settings) (mysql : Mysql) (s : Service) (n : Nat) (t : Service) : Prop :=
  ∃ queued,Kept cfg queued t ∧ Ready cfg mysql queued t ∧ Grown s t ∧ t.distance cfg = n

theorem near_progress {s t : Service} (apart : Apart cfg) (rounds : 0 < cfg.number)
    (near : Near cfg mysql s n t) :
    Rested cfg t ∨ ∃ actions u m,Transitions.Runs (Service.step cfg) (Serves mysql) t actions u ∧
      Near cfg mysql s m u ∧ m < n := by
  obtain ⟨queued,kept,ready,grown,rfl⟩ := near
  rcases nearer apart kept ready rounds with rested | ⟨action,u,serves,stepped,less⟩
  · exact Or.inl rested
  · obtain ⟨later,keeps⟩ := step_kept apart kept (step_exact stepped)
    obtain ⟨steady,grows⟩ := serves_ready apart kept ready serves (step_exact stepped) keeps.list
    exact Or.inr ⟨[action],u,_,.single serves stepped,⟨later,keeps,steady,grown.trans grows,rfl⟩,less⟩

-- From wherever a run has led, past failures and crashes included: where every message that is left can be
-- stored, the service alone brings each of them into the table as one row, and loses none.
theorem service_drains {store : Store Text} {s : Service} (apart : Apart cfg)
    (held : store.list? cfg.queue = some (old.map latin))
    (ran : Transitions.run (Service.step cfg) (.start store old) actions = some s)
    (list : s.store.list? cfg.queue = some (queued.map latin)) (ready : Ready cfg mysql queued s)
    (rounds : 0 < cfg.number) :
    ∃ more t fresh,Transitions.Runs (Service.step cfg) (Serves mysql) s more t ∧ Rested cfg t ∧
      t.dropped = s.dropped ∧ t.rows = s.rows ++ fresh ∧ (queued ++ s.inside).Perm (fresh.map Prod.fst) ∧
      ∀ row ∈ fresh,row.2.stored = [row.2.work.values] := by
  obtain ⟨others,kept⟩ := run_kept apart held ran
  cases latins_injective (Option.some.inj (kept.list.symm.trans list))
  obtain ⟨more,t,_,runs,⟨last,keeps,_,grown,_⟩,rested⟩ := Transitions.reaches
    (fun n t near => near_progress apart rounds near) ⟨_,kept,ready,.quiet rfl rfl rfl,rfl⟩
  obtain ⟨fresh,rows,exact⟩ := grown.rows
  refine ⟨more,t,fresh,runs,rested,grown.dropped,rows,?_,exact⟩
  have before := kept.conserved
  have after := keeps.conserved
  have none : last = [] := List.map_eq_nil_iff.mp (Option.some.inj (keeps.list.symm.trans rested.2.1))
  rw [grown.received,none,Service.places,rested.2.2,rows,grown.dropped] at after
  rw [Service.places] at before
  rw [List.perm_iff_count] at before after ⊢
  intro body
  have early := before body
  have late := after body
  simp only [List.count_append,List.map_append,List.count_nil] at early late ⊢
  omega

-- A push that fails, a kill before another one, and a message under way when the run is left.
def lateRun : List Action :=
  [.post lookup,.push 0 .failed,.post lookup,.push 0 .lost,.post lookup,.push 0 .answered,
  .post lookup,.kill,.post lookup,.tick,.poll .failed,.poll .answered,.explain 0 lookupRows]

def lookupMysql : Mysql := ⟨fun _ => lookupRows,fun _ => lookupCost⟩

theorem late_run_drains : ∃ s more t fresh,
    Transitions.run (Service.step prod) (.start noStore []) lateRun = some s ∧
    Transitions.Runs (Service.step prod) (Serves lookupMysql) s more t ∧ Rested prod t ∧
      t.dropped = s.dropped ∧
      t.rows = s.rows ++ fresh ∧ [lookup,lookup,lookup].Perm (fresh.map Prod.fst) ∧
      ∀ row ∈ fresh,row.2.stored = [row.2.work.values] := by
  have ends : (Transitions.run (Service.step prod) (.start noStore []) lateRun).map (fun s =>
      (s.inside,decide (s.store.list? prod.queue = some ([lookup].map latin) ∧
        Ready prod lookupMysql [lookup] s))) =
        some ([lookup,lookup],true) := by decide +kernel
  obtain ⟨s,ran,result⟩ := Option.map_eq_some_iff.mp ends
  obtain ⟨inside,rest⟩ := Prod.mk.inj result
  obtain ⟨list,ready⟩ := of_decide_eq_true rest
  obtain ⟨more,t,fresh,drained⟩ := service_drains prod_apart no_messages ran list ready (by decide +kernel)
  rw [inside] at drained
  exact ⟨s,more,t,fresh,ran,drained⟩

end SqlReview.Review
