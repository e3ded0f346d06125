import SqlReview.ReviewFlow

-- What the rows of the table say, over whole runs.
namespace SqlReview.Review
open GoText GoBytes Records RedisStore UniqueQueue RedisLists MysqlRows Intake
open SqlLiteral (Token)
open InsertStatement (Clock Spliceable)

section
variable (cfg : Settings) (first : Service) (actions : List Action)

-- In the run from `first` the call of the goroutine that has `body` at `stage` was answered.
def Answered (call : Nat → Action) (body : Bytes) (stage : Stage) : Prop :=
  ∃ s i,Transitions.Takes (Service.step cfg) first actions s (call i) ∧ s.reviews[i]? = some (body,stage)

-- What getScore makes of a message from the two replies that the run has had for it.
def Reviewed (body : Bytes) (scored : Scored) : Prop :=
  Answered cfg first actions (.explain · scored.first) body .explain ∧
  ∃ data,Answered cfg first actions (.cost · scored.second) body (.cost scored.first data) ∧
    explained cfg body scored.first = some data ∧
    scored.sql = Explain.getScore cfg.cost (explainConst data scored.second)

def Reached (body : Bytes) : Stage → Prop
  | .explain => True
  | .cost reply sql =>
    Answered cfg first actions (.explain · reply) body .explain ∧ explained cfg body reply = some sql
  | .send scored => Reviewed cfg first actions body scored

structure Traced (s : Service) : Prop where
  reviews : ∀ review ∈ s.reviews,Reached cfg first actions review.1 review.2
  channel : ∀ message ∈ s.channel,Reviewed cfg first actions message.1 message.2
  jobs : ∀ job ∈ s.jobs,Reviewed cfg first actions job.1 job.2.scored ∧ ∀ flag ∈ job.2.flag,flag ≤ 1
  rows : ∀ row ∈ s.rows,Reviewed cfg first actions row.1 row.2.work.scored ∧
    (∃ flag ≤ 1,row.2.work.flag = some flag) ∧ row.2.work.accepts row.2.stored = true
end

theorem mem_replace {P : α → Prop} (all : ∀ x ∈ l ++ old :: r,P x) (new : P old → P fresh) :
    ∀ x ∈ l ++ fresh :: r,P x := by
  intro x member
  rcases List.mem_append.mp member with left | later
  · exact all x (List.mem_append_left _ left)
  · rcases List.mem_cons.mp later with rfl | right
    · exact new (all old (List.mem_append_right _ List.mem_cons_self))
    · exact all x (List.mem_append_right _ (List.mem_cons_of_mem _ right))

theorem mem_remove {P : α → Prop} (all : ∀ x ∈ l ++ old :: r,P x) : ∀ x ∈ l ++ r,P x := by
  intro x member
  rcases List.mem_append.mp member with left | right
  · exact all x (List.mem_append_left _ left)
  · exact all x (List.mem_append_right _ (List.mem_cons_of_mem _ right))

theorem mem_snoc {P : α → Prop} (all : ∀ x ∈ l,P x) (last : P fresh) : ∀ x ∈ l ++ [fresh],P x := by
  intro x member
  rcases List.mem_append.mp member with old | new
  · exact all x old
  · cases List.mem_singleton.mp new
    exact last

theorem crash_traced {s : Service} (traced : Traced cfg first actions s) : Traced cfg first actions s.crash :=
  ⟨List.forall_mem_nil _,List.forall_mem_nil _,List.forall_mem_nil _,traced.rows⟩

theorem pushed_flag (md5 : Text → Text) (work : Work) (link : Link) (store : Store Text) :
    ∀ flag ∈ (work.pushed md5 link store).flag,flag ≤ 1 := by
  intro flag found
  cases Option.some.inj found
  split_ifs <;> decide

theorem step_traced {s t : Service} (traced : Traced cfg first actions s)
    (taken : Transitions.Takes (Service.step cfg) first actions s action)
    (step : Step cfg s action t) : Traced cfg first actions t := by
  cases step with
  | unlisted _ _ => exact crash_traced traced
  | panic _ _ => exact crash_traced traced
  | kill => exact crash_traced traced
  | poll running =>
    unfold Service.poll
    dsimp only
    split
    · exact ⟨traced.reviews,traced.channel,traced.jobs,traced.rows⟩
    · split
      · exact ⟨mem_snoc traced.reviews trivial,traced.channel,traced.jobs,traced.rows⟩
      · exact ⟨traced.reviews,traced.channel,traced.jobs,traced.rows⟩
  | explain reviews answered =>
    have before := traced.reviews
    rw [reviews] at before
    refine ⟨mem_replace before fun _ => ⟨⟨s,_,taken,?_⟩,answered⟩,traced.channel,traced.jobs,traced.rows⟩
    rw [reviews]
    simp
  | cost reviews =>
    have before := traced.reviews
    rw [reviews] at before
    refine ⟨mem_replace before ?_,traced.channel,traced.jobs,traced.rows⟩
    rintro ⟨asked,answered⟩
    refine ⟨asked,_,⟨s,_,taken,?_⟩,answered,rfl⟩
    rw [reviews]
    simp
  | send reviews room =>
    have before := traced.reviews
    rw [reviews] at before
    have own := before _ (List.mem_append_right _ List.mem_cons_self)
    exact ⟨mem_remove before,mem_snoc traced.channel own,traced.jobs,traced.rows⟩
  | receive channel =>
    have before := traced.channel
    rw [channel,List.forall_mem_cons] at before
    refine ⟨traced.reviews,before.2,mem_snoc traced.jobs ⟨before.1,?_⟩,traced.rows⟩
    intro flag found
    cases found
  | mark jobs unmarked =>
    have before := traced.jobs
    rw [jobs] at before
    refine ⟨traced.reviews,traced.channel,mem_replace before ?_,traced.rows⟩
    exact fun own => ⟨own.1,pushed_flag _ _ _ _⟩
  | insert jobs flagged accepted =>
    have before := traced.jobs
    rw [jobs] at before
    obtain ⟨reviewed,small⟩ := before _ (List.mem_append_right _ List.mem_cons_self)
    obtain ⟨flag,marked⟩ := Option.ne_none_iff_exists'.mp flagged
    refine ⟨traced.reviews,traced.channel,mem_remove before,mem_snoc traced.rows ?_⟩
    exact ⟨reviewed,⟨flag,small flag marked,marked⟩,accepted⟩
  | lose jobs flagged =>
    have before := traced.jobs
    rw [jobs] at before
    exact ⟨traced.reviews,traced.channel,mem_remove before,traced.rows⟩
  | _ => exact ⟨traced.reviews,traced.channel,traced.jobs,traced.rows⟩

theorem run_traced {store : Store Text} {s : Service}
    (ran : Transitions.run (Service.step cfg) (.start store old) actions = some s) :
    Traced cfg (.start store old) actions s :=
  (Transitions.runs_of_takes [] rfl ran).invariant (Traced cfg (.start store old) actions)
    ⟨List.forall_mem_nil _,List.forall_mem_nil _,List.forall_mem_nil _,List.forall_mem_nil _⟩
    fun _ _ _ traced taken stepped => step_traced traced taken (step_exact stepped)

-- No row is made up or mixed: an INSERT is that of a message that was received, it carries what getScore
-- makes of the reply to EXPLAIN and of the reply to show status that the run has had for that message, and
-- unless a text of it needs escaping the row that it stores is that one.
theorem rows_are_reviews {store : Store Text} {s : Service} (apart : Apart cfg)
    (held : store.list? cfg.queue = some (old.map latin))
    (ran : Transitions.run (Service.step cfg) (.start store old) actions = some s) :
    ∀ body scored nil clock flag stored,(body,Entry.mk ⟨scored,nil,clock,flag⟩ stored) ∈ s.rows →
      body ∈ s.received ∧ Reviewed cfg (.start store old) actions body scored ∧
      ∃ mark ≤ 1,flag = some mark ∧
        (Spliceable scored.sql → stored = [InsertStatement.values scored.sql nil clock mark]) := by
  obtain ⟨queued,kept⟩ := run_kept apart held ran
  intro body scored nil clock flag stored member
  obtain ⟨reviewed,⟨mark,small,marked⟩,accepted⟩ := (run_traced ran).rows _ member
  cases marked
  refine ⟨?_,reviewed,mark,small,rfl,fun spliceable => ?_⟩
  · refine kept.conserved.mem_iff.mpr (List.mem_append_right _ ?_)
    simp only [Service.places,List.mem_append]
    exact Or.inl (Or.inr (List.mem_map_of_mem member))
  · exact (accepts_spliceable spliceable stored).mp accepted

def lookup : Bytes :=
  str "\x7b\"expl\":\"select a from t where id=?\",\"route\":\"/task/run\",\"branch\":\"master\",\"db\":\"shop\"," ++
    str "\"arr\":[\x7b\"info\":\"select a from t where id=7\"\x7d]\x7d"

def lookupRows : Reply :=
  .rows (explainColumns .varString) [[some (text "1"),some (text "SIMPLE"),some (text "t"),none,
    some (text "const"),some (text "PRIMARY"),some (text "PRIMARY"),some (text "4"),some (text "const"),
    some (text "1"),some (text "100.00"),none]]

def lookupCost : Reply := .rows [⟨text "Variable_name",.varString,false⟩,⟨text "Value",.varString,false⟩]
  [[some (text "Last_query_cost"),some (text "1.199000")]]

def Listed (body : Bytes) : Prop := (decode body).1.arr ≠ []

instance (body : Bytes) : Decidable (Listed body) := inferInstanceAs (Decidable (_ ≠ _))

-- A run in which every message lists a statement, no panic, no kill, no ListPush before its execution and
-- no reply of ListPop is lost, and every INSERT works and needs no escaping. UniquePush may fail.
def Faultless (cfg : Settings) (s : Service) : Action → Prop
  | .post body => Listed body
  | .push _ link => link ≠ .failed
  | .poll link => link ≠ .lost
  | .explain i reply => ∀ review ∈ s.reviews[i]?,(explained cfg review.1 reply).isSome = true
  | .insert i stored => stored.isSome = true ∧ ∀ job ∈ s.jobs[i]?,Spliceable job.2.scored.sql
  | .kill => False
  | _ => True

-- The row of the lookup in the table.
def lookupRow (flag : Text) : List Token := [
  .literal (text "select a from t where id=?"),.literal (text "/task/run"),
  .literal (text "[\x7b\"info\":\"select a from t where id=7\",\"trace\":null,\"route\":\"\"," ++
    text "\"branch\":\"\",\"dsn\":\"\"\x7d]"),
  .literal (text "[\x7b\"id\":1,\"select_type\":\"SIMPLE\",\"table\":\"t\",\"type\":\"const\"," ++
    text "\"possible_keys\":\"PRIMARY\",\"key\":\"PRIMARY\",\"key_len\":\"4\",\"ref\":\"const\",\"rows\":1,\"extra\":\"\"\x7d]"),
  .bare (text "1.199000"),.literal (text "L4"),.bare (text "95"),
  .literal (text "t使用type为：const,扣分为-0,未使用index索引,扣分为-5,"),.literal (text "master"),.literal (text "shop"),
  .bare flag,.literal (text "2019/03/07"),.literal (text "2019/03/07 12:00:00")]

-- The message with its row of EXPLAIN, and with what getScore makes of it.
def lookupRead : ExplainsResult := {
  expl := text "select a from t where id=?",route := text "/task/run",branch := text "master",db := text "shop"
  arr := [⟨text "select a from t where id=7",[],[],[],[]⟩]
  explain := [⟨1,text "SIMPLE",text "t",text "const",text "PRIMARY",text "PRIMARY",text "4",text "const",1,[]⟩]
  lastQueryCost := [],level := [],score := 0,content := []}

def lookupReview : ExplainsResult := {lookupRead with
  lastQueryCost := text "1.199000",level := text "L4",score := 95
  content := text "t使用type为：const,扣分为-0,未使用index索引,扣分为-5,"}

theorem lookup_listed : Listed lookup := by decide +kernel

theorem lookup_explained : explained prod lookup lookupRows = some lookupRead := by decide +kernel

theorem lookup_scored : Explain.getScore prod.cost (explainConst lookupRead lookupCost) = lookupReview := by
  decide +kernel

theorem lookup_spliceable : Spliceable lookupReview := by decide +kernel

-- The flag is one of the thirteen values, so that the others are computed once.
theorem lookup_values (mark : Nat) :
    InsertStatement.values lookupReview (fun _ => true) InsertStatement.noon mark =
      lookupRow (Json.decimal mark) := by
  have first : InsertStatement.values lookupReview (fun _ => true) InsertStatement.noon 0 =
      lookupRow (Json.decimal 0) := by decide +kernel
  have others : InsertStatement.values lookupReview (fun _ => true) InsertStatement.noon mark =
      (InsertStatement.values lookupReview (fun _ => true) InsertStatement.noon 0).set 10
        (.bare (Json.decimal mark)) := rfl
  rw [others,first]
  rfl

def lookupWork : Work := ⟨⟨lookupRows,lookupCost,lookupReview⟩,fun _ => true,InsertStatement.noon,none⟩

-- From the request to the row.
def lookupRun (link : Link) (flag : Text) : List Action := [
  .post lookup,.push 0 .answered,.publish 0 (fun _ => true),.tick,.poll .answered,.explain 0 lookupRows,
  .cost 0 lookupCost,.send 0,.receive (fun _ => true) InsertStatement.noon,.mark 0 link,
  .insert 0 (some [lookupRow flag])]

-- The same statement three times, with a kill after each: the first UniquePush does not reach Redis.
def thriceRun : List Action :=
  lookupRun .failed (text "0") ++ .kill :: lookupRun .answered (text "1") ++ .kill ::
    lookupRun .answered (text "0")

def Service.stored (s : Service) : List (Bytes × List (List Token)) :=
  s.rows.map fun row => (row.1,row.2.stored)

def thriceStored : List (Bytes × List (List Token)) :=
  [(lookup,[lookupRow (text "0")]),(lookup,[lookupRow (text "1")]),(lookup,[lookupRow (text "0")])]

theorem listed_published (nil : List Nat → Bool) (listed : Listed body) :
    ∃ message,kafkaMessage nil body = .done message := by
  rw [kafkaMessage]
  cases arr : (decode body).1.arr with
  | nil => exact absurd arr listed
  | cons first rest => exact ⟨_,rfl⟩

-- A process at rest on a Redis whose list is empty.
structure Idle (s : Service) : Prop where
  inside : s.inside = []
  publishing : s.publishing = []
  polls : s.polls = 0
  list : s.store.list? prod.queue = some []

-- Redis once the lookup was on the list.
def passed (store : Store Text) : Store Text := (store.putList prod.queue [latin lookup]).putList prod.queue []

-- The process has taken the lookup off the list.
structure Fetched (s t : Service) : Prop where
  reviews : t.reviews = [(lookup,.explain)]
  others : t.pushing = [] ∧ t.channel = [] ∧ t.jobs = []
  rows : t.rows = s.rows
  store : t.store = passed s.store

theorem lookup_fetched {s : Service} (idle : Idle s) :
    ∃ t,Transitions.Runs (Service.step prod) (Faultless prod) s [.post lookup,.push 0 .answered,
      .publish 0 (fun _ => true),.tick,.poll .answered] t ∧ Fetched s t := by
  obtain ⟨message,published⟩ := listed_published (fun _ => true) lookup_listed
  obtain ⟨inside,publishing,polls,list⟩ := idle
  simp only [Service.inside,List.append_eq_nil_iff,List.map_eq_nil_iff] at inside
  obtain ⟨⟨⟨pushing,reviews⟩,channel⟩,jobs⟩ := inside
  let posted := {s with pushing := [lookup],publishing := [lookup],received := s.received ++ [lookup]}
  let queued := {posted with
    store := s.store.putList prod.queue [latin lookup],pushing := [],pushed := s.pushed ++ [lookup]}
  let ticked := {queued with
    publishing := [],published := s.published ++ [message],polls := prod.number,ticks := s.ticks+1}
  have waiting : queued.store.list? prod.queue = some [latin lookup] := putList_list _ _ _
  have taken := listPop_cons waiting
  refine ⟨ticked.poll prod .answered,?_,?_⟩
  · refine .cons (t := posted) lookup_listed ?_ (.cons (t := queued) (by simp [Faultless]) ?_ ?_)
    · simp [Service.step,posted,pushing,publishing]
    · simp [Service.step,posted,queued,listPush_list list]
    refine .cons (t := {queued with publishing := [],published := s.published ++ [message]}) trivial ?_ ?_
    · simp [Service.step,posted,queued,published]
    refine .cons (t := ticked) trivial ?_ (.single (by simp [Faultless]) ?_)
    · simp [Service.step,posted,queued,ticked,polls]
    · rw [Service.step,if_neg (show prod.number ≠ 0 by decide)]
  · have arrived : ticked.poll prod .answered = {ticked with
        store := passed s.store,polls := prod.number-1,popped := s.popped ++ [lookup]
        reviews := s.reviews ++ [(lookup,.explain)]} := by
      have some_ : latin lookup ≠ [] := by decide +kernel
      simp [Service.poll,Service.front,ticked,taken,waiting,some_,unlatin_latin,queued,posted,passed]
    rw [arrived,reviews]
    exact ⟨rfl,⟨rfl,channel,jobs⟩,rfl,rfl⟩

-- A lookup that no call but UniquePush fails for becomes a row.
theorem lookup_served (link : Link) (mark : Nat) {s : Service} (idle : Idle s)
    (marks : (lookupWork.pushed prod.md5 link (passed s.store)).flag = some mark) :
    ∃ t,Transitions.Runs (Service.step prod) (Faultless prod) s (lookupRun link (Json.decimal mark)) t ∧
      t.stored = s.stored ++ [(lookup,[lookupRow (Json.decimal mark)])] ∧ t.inside = [] ∧
      t.store = lookupWork.push prod.md5 link (passed s.store) := by
  obtain ⟨t,fetched,reviews,⟨pushing,channel,jobs⟩,rows,store⟩ := lookup_fetched idle
  rw [← store] at marks
  let work := lookupWork.pushed prod.md5 link t.store
  have accepted : work.accepts [lookupRow (Json.decimal mark)] = true := by
    have values : work.values = lookupRow (Json.decimal mark) := by
      rw [← lookup_values mark,Work.values,show work.flag = some mark from marks]
      rfl
    rw [← values]
    exact (accepts_spliceable lookup_spliceable _).mpr rfl
  let scored := lookupWork.scored
  let marked := {t with reviews := [],store := lookupWork.push prod.md5 link t.store}
  refine ⟨{marked with rows := t.rows ++ [(lookup,⟨work,[lookupRow (Json.decimal mark)]⟩)]},
    fetched.append ?_,?_,?_,?_⟩
  · refine .cons (t := {t with reviews := [(lookup,.cost lookupRows lookupRead)]}) ?_ ?_ ?_
    · simp [Faultless,reviews,lookup_explained]
    · simp [Service.step,reviews,lookup_explained]
    refine .cons (t := {t with reviews := [(lookup,.send scored)]}) trivial ?_ ?_
    · simp [Service.step,lookup_scored,scored,lookupWork]
    refine .cons (t := {t with reviews := [],channel := [(lookup,scored)]}) trivial ?_ ?_
    · simp [Service.step,channel,capacity]
    refine .cons (t := {t with reviews := [],jobs := [(lookup,lookupWork)]}) trivial ?_ ?_
    · simp [Service.step,channel,jobs,scored,lookupWork]
    refine .cons (t := {marked with jobs := [(lookup,work)]}) trivial ?_ (.single ?_ ?_)
    · simp [Service.step,marked,work,lookupWork]
    · exact ⟨rfl,by simp [work,Work.pushed,lookupWork,lookup_spliceable]⟩
    · have flagged : work.flag ≠ none := Option.some_ne_none _
      simp [Service.step,accepted,flagged,marked,jobs]
  · simp [Service.stored,rows]
  · simp [Service.inside,marked,pushing,channel,jobs]
  · rw [← store]

theorem start_idle : Idle (.start noStore []) := ⟨rfl,rfl,rfl,no_messages⟩

theorem thrice_run :
    ∃ s : Service,Transitions.run (Service.step prod) (.start noStore []) thriceRun = some s ∧
    s.stored = thriceStored := by
  obtain ⟨s,first,rows,_,store⟩ := lookup_served .failed 0 start_idle rfl
  have rests : Idle s.crash := ⟨rfl,rfl,rfl,by
    change s.store.list? prod.queue = some []
    rw [store]
    decide +kernel⟩
  obtain ⟨t,second,rows',_,store'⟩ := lookup_served .answered 1 rests (by
    change (lookupWork.pushed prod.md5 .answered (passed s.store)).flag = _
    rw [store]
    decide +kernel)
  change t.store = lookupWork.push prod.md5 .answered (passed s.store) at store'
  rw [store] at store'
  have rests' : Idle t.crash := ⟨rfl,rfl,rfl,by
    change t.store.list? prod.queue = some []
    rw [store']
    decide +kernel⟩
  obtain ⟨u,third,rows'',_,_⟩ := lookup_served .answered 0 rests' (by
    change (lookupWork.pushed prod.md5 .answered (passed t.store)).flag = _
    rw [store']
    decide +kernel)
  refine ⟨u,?_,?_⟩
  · have split : thriceRun = lookupRun .failed (Json.decimal (0 : Nat)) ++ .kill ::
        lookupRun .answered (Json.decimal (1 : Nat)) ++ .kill ::
          lookupRun .answered (Json.decimal (0 : Nat)) := rfl
    rw [split,Transitions.run_append,Transitions.run_append,first.run,Option.bind_some,Transitions.run,
      Service.step,Option.bind_some,second.run,Option.bind_some,Transitions.run,Service.step,Option.bind_some]
    exact third.run
  · change t.stored = s.stored ++ _ at rows'
    change u.stored = t.stored ++ _ at rows''
    rw [rows'',rows',rows]
    rfl

theorem thrice_run_reviews :
    ∃ s : Service,Transitions.run (Service.step prod) (.start noStore []) thriceRun = some s ∧
    s.stored = thriceStored ∧
    ∀ body scored nil clock flag stored,(body,Entry.mk ⟨scored,nil,clock,flag⟩ stored) ∈ s.rows →
      body ∈ s.received ∧ Reviewed prod (.start noStore []) thriceRun body scored ∧
      ∃ mark ≤ 1,flag = some mark ∧
        (Spliceable scored.sql → stored = [InsertStatement.values scored.sql nil clock mark]) := by
  obtain ⟨s,ran,rows⟩ := thrice_run
  exact ⟨s,ran,rows,rows_are_reviews prod_apart no_messages ran⟩

theorem blank_unlisted : ¬ Listed [] := by decide

-- What such a run keeps.
structure Clean (s : Service) : Prop where
  dropped : s.dropped = []
  listed : ∀ body ∈ s.received,Listed body
  rows : ∀ row ∈ s.rows,row.2.stored = [row.2.work.values]

theorem poll_clean {s t : Service} (kept : Kept cfg queued s) (clean : Clean s) (answered : link ≠ .lost)
    (polled : Polled cfg s queued link later t) : Clean t := by
  cases polled with
  | idle _ => exact ⟨clean.dropped,clean.listed,clean.rows⟩
  | taken _ => exact ⟨clean.dropped,clean.listed,clean.rows⟩
  | @gone _ body rest lost working =>
    have read : link = .answered := by cases link <;> simp_all
    have here : body ∈ s.received := kept.conserved.mem_iff.mpr (List.mem_append_left _ List.mem_cons_self)
    exact absurd (lost read ▸ clean.listed body here) blank_unlisted

theorem faultless_clean {s t : Service} (kept : Kept cfg queued s) (clean : Clean s)
    (faultless : Faultless cfg s action) (step : Step cfg s action t) : Clean t := by
  cases step with
  | post => exact ⟨clean.dropped,mem_snoc clean.listed faultless,clean.rows⟩
  | refuse pushing refused =>
    have failed := refused faultless
    rw [listPush_list kept.list] at failed
    exact absurd rfl failed
  | @unlisted l body r nil publishing none =>
    have member : body ∈ s.publishing := publishing ▸ List.mem_append_right _ List.mem_cons_self
    exact absurd none (clean.listed body (kept.known member))
  | poll running =>
    obtain ⟨later,polled⟩ := poll_exact kept _
    exact poll_clean kept clean faultless polled
  | @panic l body r reply reviews failed =>
    have answered := faultless (body,.explain) (by simp [reviews])
    rw [failed] at answered
    cases answered
  | @insert l body work r stored jobs flagged accepted =>
    have spliceable : Spliceable work.scored.sql := faultless.2 (body,work) (by simp [jobs])
    exact ⟨clean.dropped,clean.listed,
      mem_snoc clean.rows ((accepts_spliceable spliceable stored).mp accepted)⟩
  | lose jobs flagged => cases faultless.1
  | kill => exact absurd faultless id
  | _ => exact ⟨clean.dropped,clean.listed,clean.rows⟩

-- Each message becomes one row: whenever the list and the goroutines are empty, the rows of the table
-- are those of the messages, each with the values that its INSERT is meant to store.
theorem messages_stored_once {store : Store Text} {s : Service} (apart : Apart cfg)
    (held : store.list? cfg.queue = some (old.map latin)) (listed : ∀ body ∈ old,Listed body)
    (runs : Transitions.Runs (Service.step cfg) (Faultless cfg) (.start store old) actions s)
    (empty : s.store.list? cfg.queue = some []) (idle : s.inside = []) :
    s.received.Perm (s.rows.map Prod.fst) ∧ ∀ row ∈ s.rows,row.2.stored = [row.2.work.values] := by
  obtain ⟨⟨queued,kept⟩,clean⟩ := runs.invariant (fun s => (∃ queued,Kept cfg queued s) ∧ Clean s)
    ⟨⟨old,start_kept held⟩,rfl,listed,List.forall_mem_nil _⟩ (by
      rintro s action t ⟨⟨queued,kept⟩,clean⟩ faultless stepped
      exact ⟨step_kept apart kept (step_exact stepped),faultless_clean kept clean faultless
        (step_exact stepped)⟩)
  have none : queued = [] := List.map_eq_nil_iff.mp (Option.some.inj (kept.list.symm.trans empty))
  have conserved := kept.conserved
  rw [none,Service.places,idle,clean.dropped] at conserved
  exact ⟨by simpa using conserved,clean.rows⟩

theorem lookup_run_once : ∃ s : Service,
    Transitions.run (Service.step prod) (.start noStore []) (lookupRun .answered (text "1")) = some s ∧
    s.stored = [(lookup,[lookupRow (text "1")])] ∧
    s.received.Perm (s.rows.map Prod.fst) ∧ ∀ row ∈ s.rows,row.2.stored = [row.2.work.values] := by
  obtain ⟨s,runs,rows,inside,store⟩ := lookup_served .answered 1 start_idle (by decide +kernel)
  have empty : s.store.list? prod.queue = some [] := by
    rw [store]
    decide +kernel
  exact ⟨s,runs.run,rows,messages_stored_once prod_apart no_messages (List.forall_mem_nil _) runs empty inside⟩

-- The goroutines and the table as NewExplainDb sees them.
def Work.job (work : Work) : ExplainDb.Job := ⟨work.row,if work.flag = none then .push else .insert⟩

def Service.db (s : Service) : ExplainDb.Db :=
  ⟨s.store,s.jobs.map fun job => job.2.job,s.rows.map fun row => row.2.work.row⟩

-- Whatever a push answers, the set loses nothing; and it answers 1 only for a body that is new there.
theorem push_members_grow (q body : Text) (s : Store Text) (key member : Text)
    (found : member ∈ s.members key) :
    member ∈ (uniquePush q body s).store.members key := by
  have added {members : Finset Text} (set : s.set? (getQueueSet q) = some members) :
      member ∈ (s.putSet (getQueueSet q) (insert body members)).members key := by
    rw [putSet_members]
    split
    · rename_i same
      rw [same,Store.members,set] at found
      exact Finset.mem_insert_of_mem found
    · exact found
  refine uniquePush_cases (motive := fun answer => member ∈ answer.store.members key) q body s
    (fun _ => found) (fun _ _ _ => found) (fun members items set _ list => ?_)
      (fun members set _ _ => added set)
  have typed : (s.putSet (getQueueSet q) (insert body members)).list? q = some items :=
    (queueSet_list q s _).trans list
  rw [putList_members typed]
  exact added set

theorem push_accepted (q body : Text) (s : Store Text) (accepted : (uniquePush q body s).resp = 1) :
    body ∉ s.members (getQueueSet q) ∧ body ∈ (uniquePush q body s).store.members (getQueueSet q) := by
  have works : (uniquePush q body s).err = none := by
    revert accepted
    exact uniquePush_cases (motive := fun answer => answer.resp = 1 → answer.err = none) q body s
      (fun _ fails => absurd fails Nat.zero_ne_one) (fun _ _ _ _ => rfl) (fun _ _ _ _ _ _ => rfl)
      (fun _ _ _ _ fails => absurd fails Nat.zero_ne_one)
  exact ⟨(push_accepts q body s works).mp accepted,(push_members q body s works _ _).mpr
    (Or.inr ⟨rfl,rfl,accepted⟩)⟩

-- A pair is marked once at most, and then it is in the set.
def Single (md5 : Text → Text) (s : Service) : Prop := ∀ branch expl,ExplainDb.tally branch expl s.db ≤ 1 ∧
  (ExplainDb.tally branch expl s.db = 1 → ExplainDb.known md5 branch expl s.store)

theorem tally_db (branch expl : Text) (s : Service) : ExplainDb.tally branch expl s.db =
    s.rows.countP (fun row => ExplainDb.marks branch expl row.2.work.row)+
      s.jobs.countP (fun job => ExplainDb.holds branch expl job.2.job) := by
  rw [ExplainDb.tally,Service.db,List.countP_map,List.countP_map]
  rfl

theorem Single.less {s t : Service} (single : Single md5 s)
    (fewer : ∀ branch expl,ExplainDb.tally branch expl t.db ≤ ExplainDb.tally branch expl s.db)
    (grows : ∀ branch expl,ExplainDb.known md5 branch expl s.store →
    ExplainDb.known md5 branch expl t.store) :
    Single md5 t := by
  intro branch expl
  obtain ⟨most,known⟩ := single branch expl
  have less := fewer branch expl
  refine ⟨Nat.le_trans less most,fun one => grows branch expl (known ?_)⟩
  omega

theorem push_grows (md5 : Text → Text) (work : Work) (link : Link) (store : Store Text)
    (known : ExplainDb.known md5 branch expl store) :
    ExplainDb.known md5 branch expl (work.push md5 link store) := by
  unfold Work.push
  split
  · exact known
  · exact push_members_grow _ _ _ _ _ known

theorem holds_unmarked {work : Work} (unmarked : work.flag = none) :
    ExplainDb.holds branch expl work.job = false := by
  simp [ExplainDb.holds,Work.job,unmarked]

-- A goroutine that holds the mark has had its 1 from Redis.
theorem holds_pushed {work : Work}
    (own : ExplainDb.holds branch expl (work.pushed md5 link store).job = true) :
    work.row.branch = branch ∧ work.row.expl = expl ∧ link = .answered ∧
      (work.row.pushed md5 store).resp = 1 := by
  obtain ⟨_,mark⟩ := Bool.and_eq_true_iff.mp own
  obtain ⟨ownBranch,ownExpl,flag⟩ := ExplainDb.marks_iff.mp mark
  refine ⟨ownBranch,ownExpl,?_⟩
  by_contra other
  have zero : (work.pushed md5 link store).row.flag = 0 := by
    rw [Work.row,InsertStatement.row,Work.pushed]
    simp [other]
  exact absurd (zero.symm.trans flag) Nat.zero_ne_one

theorem mark_single {s : Service} (single : Single md5 s) (jobs : s.jobs = l ++ (body,work) :: r)
    (unmarked : work.flag = none) : Single md5 {s with
      store := work.push md5 link s.store,jobs := l ++ (body,work.pushed md5 link s.store) :: r} := by
  intro branch expl
  obtain ⟨most,known⟩ := single branch expl
  have before := tally_db branch expl s
  rw [jobs] at before
  rw [tally_db]
  simp only [List.countP_append,List.countP_cons] at before ⊢
  rw [holds_unmarked unmarked,if_neg Bool.false_ne_true] at before
  by_cases own : ExplainDb.holds branch expl (work.pushed md5 link s.store).job = true
  · obtain ⟨rfl,rfl,rfl,accepted⟩ := holds_pushed own
    obtain ⟨fresh,added⟩ := push_accepted _ _ _ accepted
    have zero : ExplainDb.tally work.row.branch work.row.expl s.db = 0 := by
      by_contra some_
      exact fresh (known (by omega))
    rw [if_pos own]
    exact ⟨by omega,fun _ => added⟩
  · rw [if_neg own]
    exact ⟨by omega,fun one => push_grows md5 work link s.store (known (by omega))⟩

theorem step_single {s t : Service} (kept : Kept cfg queued s) (single : Single cfg.md5 s)
    (step : Step cfg s action t) : Single cfg.md5 t := by
  have crashed : Single cfg.md5 s.crash := by
    refine single.less (fun branch expl => ?_) fun _ _ known => known
    rw [tally_db,tally_db]
    simp [Service.crash]
  cases step with
  | unlisted _ _ => exact crashed
  | panic _ _ => exact crashed
  | kill => exact crashed
  | push pushing working fine =>
    refine single.less (fun _ _ => Nat.le_refl _) fun branch expl known => ?_
    rwa [ExplainDb.known,listPush_members kept.list]
  | poll running =>
    obtain ⟨later,polled⟩ := poll_exact kept _
    generalize s.poll cfg _ = t at polled
    cases polled with
    | idle _ => exact single
    | taken _ | gone _ _ =>
      refine single.less (fun _ _ => Nat.le_refl _) fun branch expl known => ?_
      rwa [ExplainDb.known,putList_members kept.list]
  | receive channel =>
    refine single.less (fun branch expl => Nat.le_of_eq ?_) fun _ _ known => known
    rw [tally_db,tally_db]
    simp [holds_unmarked]
  | mark jobs unmarked => exact mark_single single jobs unmarked
  | @insert l body work r stored jobs flagged accepted =>
    refine single.less (fun branch expl => Nat.le_of_eq ?_) fun _ _ known => known
    rw [tally_db,tally_db,jobs]
    have phase : ExplainDb.holds branch expl work.job = ExplainDb.marks branch expl work.row := by
      simp [ExplainDb.holds,Work.job,flagged]
    simp [List.countP_cons,phase]
    omega
  | lose jobs flagged =>
    refine single.less (fun branch expl => ?_) fun _ _ known => known
    rw [tally_db,tally_db,jobs]
    simp [List.countP_cons]
  | _ => exact single

theorem start_single (md5 : Text → Text) (store : Store Text) (old : List Bytes) :
    Single md5 (.start store old) := by
  intro branch expl
  have none : ExplainDb.tally branch expl (Service.start store old).db = 0 := rfl
  rw [none]
  exact ⟨Nat.zero_le _,fun one => absurd one Nat.zero_ne_one⟩

-- A row of the table that marks a fingerprint of a branch as new.
def marked (branch expl : Text) (row : List Token) : Bool :=
  row[0]? = some (.literal expl) && row[8]? = some (.literal branch) && row[10]? =
    some (.bare (Json.decimal 1))

theorem marked_values {work : Work} (flag : ∃ mark ≤ 1,work.flag = some mark) :
    marked branch expl work.values = ExplainDb.marks branch expl work.row := by
  obtain ⟨mark,small,flagged⟩ := flag
  have decimal : Json.decimal mark = Json.decimal 1 ↔ mark = 1 := by
    interval_cases mark <;> decide
  rw [Bool.eq_iff_iff,ExplainDb.marks_iff]
  simp [marked,Work.values,Work.row,InsertStatement.values,InsertStatement.tokens,InsertStatement.row,
    ExplainDb.Row.of,flagged,decimal]
  tauto

-- The rows of the INSERTs that need no escaping.
def tableOf (rows : List (Bytes × Entry)) : List (List Token) :=
  (rows.filter fun row => Spliceable row.2.work.scored.sql).flatMap fun row => row.2.stored

theorem marked_table {rows : List (Bytes × Entry)} (branch expl : Text)
    (own : ∀ row ∈ rows,(∃ mark ≤ 1,row.2.work.flag = some mark) ∧ row.2.work.accepts row.2.stored = true) :
    (tableOf rows).countP (marked branch expl) ≤
      rows.countP fun row => ExplainDb.marks branch expl row.2.work.row := by
  induction rows with
  | nil => exact Nat.le_refl _
  | cons row rows ih =>
    obtain ⟨⟨flag,accepted⟩,later⟩ := List.forall_mem_cons.mp own
    rw [tableOf,List.countP_cons]
    by_cases spliceable : Spliceable row.2.work.scored.sql
    · have stored := (accepts_spliceable spliceable _).mp accepted
      rw [List.filter_cons_of_pos (by simpa using spliceable),List.flatMap_cons,stored,List.countP_append,
        List.countP_singleton,marked_values flag,Nat.add_comm]
      exact Nat.add_le_add_right (ih later) _
    · rw [List.filter_cons_of_neg (by simpa using spliceable)]
      exact Nat.le_add_right_of_le (ih later)

-- A fingerprint of a branch is marked as new in one row at most, over all failures, crashes and restarts.
theorem marked_at_most_once {store : Store Text} {s : Service} (apart : Apart cfg)
    (held : store.list? cfg.queue = some (old.map latin))
    (ran : Transitions.run (Service.step cfg) (.start store old) actions = some s) (branch expl : Text) :
    (tableOf s.rows).countP (marked branch expl) ≤ 1 := by
  have both := Transitions.run_invariant (fun s => (∃ queued,Kept cfg queued s) ∧ Single cfg.md5 s)
    ⟨⟨old,start_kept held⟩,start_single cfg.md5 store old⟩
    (by
      rintro s action t ⟨⟨queued,kept⟩,single⟩ stepped
      exact ⟨step_kept apart kept (step_exact stepped),step_single kept single (step_exact stepped)⟩) ran
  have most := (both.2 branch expl).1
  rw [tally_db] at most
  have fewer := marked_table branch expl fun row member => ((run_traced ran).rows row member).2
  exact Nat.le_trans fewer (Nat.le_trans (Nat.le_add_right _ _) most)

theorem thrice_run_marked :
    ∃ s : Service,Transitions.run (Service.step prod) (.start noStore []) thriceRun = some s ∧
    s.stored = thriceStored ∧
    (tableOf s.rows).countP (marked (text "master") (text "select a from t where id=?")) ≤ 1 := by
  obtain ⟨s,ran,rows⟩ := thrice_run
  exact ⟨s,ran,rows,marked_at_most_once prod_apart no_messages ran _ _⟩

end SqlReview.Review
