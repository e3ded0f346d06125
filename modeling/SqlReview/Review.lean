import SqlReview.Explain
import SqlReview.InsertStatement
import SqlReview.MysqlRows
import SqlReview.RedisLists

-- prodSQL: handler, NewExplainResult, ExcuteDbSql, getScore and NewExplainDb around one Redis and one MySQL.
namespace SqlReview.Review
open GoText GoBytes Records RedisStore UniqueQueue RedisLists MysqlRows Intake
open SqlLiteral (Token)
open InsertStatement (Clock readInsert sqlStr Spliceable)

-- What the process reads besides its messages: its configuration, NewMd5 and int of ParseFloat.
structure Settings where
  app : Routing.AppConfig Text
  md5 : Text → Text
  cost : Text → Int

def Settings.queue (cfg : Settings) : Text := cfg.app.redisquename

-- How often the loop over i < ExplainDBNumber runs.
def Settings.number (cfg : Settings) : Nat := cfg.app.explainDBNumber.toInt.toNat

-- What getScore sends, kept with the answers to EXPLAIN and to show status that it was made from.
structure Scored where
  first : Reply
  second : Reply
  sql : ExplainsResult

-- The goroutine of one popped message: ExcuteDbSql before and after EXPLAIN, then getScore at the channel.
inductive Stage where
  | explain
  | cost (first : Reply) (sql : ExplainsResult)
  | send (scored : Scored)

-- A goroutine of NewExplainDb: `flag` is there once UniquePush is over.
structure Work where
  scored : Scored
  nil : List Nat → Bool
  clock : Clock
  flag : Option Nat

def Work.row (work : Work) : ExplainDb.Row :=
  InsertStatement.row work.scored.sql work.nil work.clock (work.flag.getD 0)

-- The row that its statement is meant to store.
def Work.values (work : Work) : List Token :=
  InsertStatement.values work.scored.sql work.nil work.clock (work.flag.getD 0)

-- An INSERT that MySQL has executed, and the rows that it has stored for it.
structure Entry where
  work : Work
  stored : List (List Token)

-- Why a message is in no place of the service any more.
inductive Cause where
  | refused | unanswered | blank | crashed | uninserted
  deriving DecidableEq

-- The process, Redis and the table sqlexplain, one entry for each INSERT. Each message is kept with what is
-- made of it; `received`, `pushed`, `popped`, `ticks` and `dropped` are not in the program.
structure Service where
  store : Store Text
  pushing : List Bytes
  publishing : List Bytes
  polls : Nat
  reviews : List (Bytes × Stage)
  channel : List (Bytes × Scored)
  jobs : List (Bytes × Work)
  rows : List (Bytes × Entry)
  published : List Text
  received : List Bytes
  pushed : List Bytes
  popped : List Bytes
  ticks : Nat
  dropped : List (Bytes × Cause)

-- A process that starts on a Redis whose list still holds `old`.
def Service.start (store : Store Text) (old : List Bytes) : Service :=
  ⟨store,[],[],0,[],[],[],[],[],old,old,[],0,[]⟩

-- `stored` is what an Insert stores, and `none` an Insert that fails.
inductive Action where
  | post (body : Bytes)
  | push (i : Nat) (link : Link)
  | publish (i : Nat) (nil : List Nat → Bool)
  | tick
  | poll (link : Link)
  | explain (i : Nat) (reply : Reply)
  | cost (i : Nat) (reply : Reply)
  | send (i : Nat)
  | receive (nil : List Nat → Bool) (clock : Clock)
  | mark (i : Nat) (link : Link)
  | insert (i : Nat) (stored : Option (List (List Token)))
  | kill

def capacity : Nat := 10

-- What the goroutines of the process hold.
def Service.inside (s : Service) : List Bytes :=
  s.pushing ++ s.reviews.map Prod.fst ++ s.channel.map Prod.fst ++ s.jobs.map Prod.fst

-- A panic or a kill: Redis and the table stay, and the process starts again.
def Service.crash (s : Service) : Service := {s with
  pushing := [],publishing := [],polls := 0,reviews := [],channel := [],jobs := [],
  dropped := s.dropped ++ s.inside.map (·,.crashed)}

-- The message that LPOP takes.
def Service.front (cfg : Settings) (s : Service) : Option Bytes :=
  ((s.store.list? cfg.queue).bind List.head?).map unlatin

-- ListPop returns "" for a reply that does not come, and the loop goes on.
def Service.poll (cfg : Settings) (s : Service) (link : Link) : Service :=
  if link = .failed then {s with polls := s.polls-1}
  else
    let answer := listPop cfg.queue s.store
    let gone := (s.front cfg).toList
    let t := {s with store := answer.store,polls := s.polls-1,popped := s.popped ++ gone}
    if link = .answered ∧ answer.resp ≠ [] then
      {t with reviews := s.reviews ++ [(unlatin answer.resp,.explain)]}
    else
      let cause : Cause := if link = .answered then .blank else .unanswered
      {t with dropped := s.dropped ++ gone.map fun body => (body,cause)}

-- ExcuteDbSql up to the rows of EXPLAIN; `none` is a panic.
def explained (cfg : Settings) (body : Bytes) (reply : Reply) : Option ExplainsResult :=
  match excuteDbSql cfg.app (decode body).1 with
  | .done _ => explainData (decode body).1 reply
  | _ => none

-- UniquePush: resp is 0 where no reply comes.
def Work.push (md5 : Text → Text) (work : Work) (link : Link) (store : Store Text) : Store Text :=
  if link = .failed then store else (work.row.pushed md5 store).store

def Work.pushed (md5 : Text → Text) (work : Work) (link : Link) (store : Store Text) : Work :=
  {work with flag := some (if link = .answered ∧ (work.row.pushed md5 store).resp = 1 then 1 else 0)}

def plainToken : Token → Bool
  | .literal _ => true
  | .bare s => SqlLiteral.numeric s

-- The row that MySQL stores for a statement with thirteen strings and numbers, in columns that hold them.
def Work.reads (work : Work) : Option (List Token) :=
  (readInsert (sqlStr work.row)).filter fun tokens => tokens.all plainToken

-- What it stores for any other text is left open.
def Work.accepts (work : Work) (stored : List (List Token)) : Bool :=
  work.reads.all fun tokens => stored = [tokens]

theorem accepts_spliceable {work : Work} (spliceable : Spliceable work.scored.sql)
    (stored : List (List Token)) :
    work.accepts stored = true ↔ stored = [work.values] := by
  have read : work.reads = some work.values := by
    have plain : work.values.all plainToken = true := by
      simp [Work.values,InsertStatement.values,InsertStatement.tokens,plainToken,spliceable.cost,
        InsertStatement.numeric_decimal]
    rw [Work.reads,Work.row,InsertStatement.spliceable_reads _ _ _ _ spliceable]
    exact Option.filter_some_pos plain
  rw [Work.accepts,read,Option.all_some,decide_eq_true_eq]

def Service.step (cfg : Settings) (s : Service) : Action → Option Service
  | .post body => some {s with
      pushing := s.pushing ++ [body],publishing := s.publishing ++ [body],received := s.received ++ [body]}
  | .push i link =>
    match s.pushing[i]? with
    | none => none
    | some body =>
      let answer := listPush cfg.queue (latin body) s.store
      let rest := s.pushing.take i ++ s.pushing.drop (i+1)
      if link ≠ .failed ∧ answer.err = none then
        some {s with store := answer.store,pushing := rest,pushed := s.pushed ++ [body]}
      else some {s with pushing := rest,dropped := s.dropped ++ [(body,.refused)]}
  | .publish i nil =>
    match s.publishing[i]? with
    | none => none
    | some body =>
      match kafkaMessage nil body with
      | .done message => some {s with
          publishing := s.publishing.take i ++ s.publishing.drop (i+1),published := s.published ++ [message]}
      | _ => some s.crash
  | .tick => if s.polls = 0 then some {s with polls := cfg.number,ticks := s.ticks+1} else none
  | .poll link => if s.polls = 0 then none else some (s.poll cfg link)
  | .explain i reply =>
    match s.reviews[i]? with
    | some (body,.explain) =>
      match explained cfg body reply with
      | none => some s.crash
      | some sql =>
        some {s with reviews := s.reviews.take i ++ (body,.cost reply sql) :: s.reviews.drop (i+1)}
    | _ => none
  | .cost i reply =>
    match s.reviews[i]? with
    | some (body,.cost first sql) =>
      let scored := Scored.mk first reply (Explain.getScore cfg.cost (explainConst sql reply))
      some {s with reviews := s.reviews.take i ++ (body,.send scored) :: s.reviews.drop (i+1)}
    | _ => none
  | .send i =>
    match s.reviews[i]? with
    | some (body,.send scored) =>
      if s.channel.length < capacity then
        some {s with
          reviews := s.reviews.take i ++ s.reviews.drop (i+1),channel := s.channel ++ [(body,scored)]}
      else none
    | _ => none
  | .receive nil clock =>
    match s.channel with
    | [] => none
    | (body,scored) :: channel =>
      some {s with channel := channel,jobs := s.jobs ++ [(body,⟨scored,nil,clock,none⟩)]}
  | .mark i link =>
    match s.jobs[i]? with
    | some (body,work) =>
      if work.flag = none then some {s with
        store := work.push cfg.md5 link s.store
        jobs := s.jobs.take i ++ (body,work.pushed cfg.md5 link s.store) :: s.jobs.drop (i+1)}
      else none
    | none => none
  | .insert i stored =>
    match s.jobs[i]? with
    | some (body,work) =>
      if work.flag = none then none
      else
        let rest := s.jobs.take i ++ s.jobs.drop (i+1)
        match stored with
        | none => some {s with jobs := rest,dropped := s.dropped ++ [(body,.uninserted)]}
        | some stored =>
          if work.accepts stored then some {s with
            jobs := rest,rows := s.rows ++ [(body,⟨work,stored⟩)]} else none
    | none => none
  | .kill => some s.crash

-- The transitions one by one.
inductive Step (cfg : Settings) (s : Service) : Action → Service → Prop where
  | post : Step cfg s (.post body) {s with
      pushing := s.pushing ++ [body],publishing := s.publishing ++ [body],received := s.received ++ [body]}
  | push : s.pushing = l ++ body :: r → link ≠ .failed →
    (listPush cfg.queue (latin body) s.store).err = none →
      Step cfg s (.push l.length link) {s with
        store := (listPush cfg.queue (latin body) s.store).store,pushing := l ++ r,
        pushed := s.pushed ++ [body]}
  | refuse : s.pushing = l ++ body :: r →
    (link ≠ .failed → (listPush cfg.queue (latin body) s.store).err ≠ none) →
      Step cfg s (.push l.length link) {s with pushing := l ++ r,dropped := s.dropped ++ [(body,.refused)]}
  | publish : s.publishing = l ++ body :: r → kafkaMessage nil body = .done message →
      Step cfg s (.publish l.length nil) {s with publishing := l ++ r,published := s.published ++ [message]}
  | unlisted : s.publishing = l ++ body :: r → (decode body).1.arr = [] →
    Step cfg s (.publish l.length nil) s.crash
  | tick : s.polls = 0 → Step cfg s .tick {s with polls := cfg.number,ticks := s.ticks+1}
  | poll : s.polls ≠ 0 → Step cfg s (.poll link) (s.poll cfg link)
  | explain : s.reviews = l ++ (body,.explain) :: r → explained cfg body reply = some sql →
      Step cfg s (.explain l.length reply) {s with reviews := l ++ (body,.cost reply sql) :: r}
  | panic : s.reviews = l ++ (body,.explain) :: r → explained cfg body reply = none →
      Step cfg s (.explain l.length reply) s.crash
  | cost : s.reviews = l ++ (body,.cost first sql) :: r → Step cfg s (.cost l.length reply) {s with
      reviews := l ++ (body,.send ⟨first,reply,Explain.getScore cfg.cost (explainConst sql reply)⟩) :: r}
  | send : s.reviews = l ++ (body,.send scored) :: r → s.channel.length < capacity →
      Step cfg s (.send l.length) {s with reviews := l ++ r,channel := s.channel ++ [(body,scored)]}
  | receive : s.channel = (body,scored) :: channel →
      Step cfg s (.receive nil clock) {s with
        channel := channel,jobs := s.jobs ++ [(body,⟨scored,nil,clock,none⟩)]}
  | mark : s.jobs = l ++ (body,work) :: r → work.flag = none → Step cfg s (.mark l.length link) {s with
      store := work.push cfg.md5 link s.store,jobs := l ++ (body,work.pushed cfg.md5 link s.store) :: r}
  | insert : s.jobs = l ++ (body,work) :: r → work.flag ≠ none → work.accepts stored = true →
      Step cfg s (.insert l.length (some stored)) {s with
        jobs := l ++ r,rows := s.rows ++ [(body,⟨work,stored⟩)]}
  | lose : s.jobs = l ++ (body,work) :: r → work.flag ≠ none →
      Step cfg s (.insert l.length none) {s with jobs := l ++ r,dropped := s.dropped ++ [(body,.uninserted)]}
  | kill : Step cfg s .kill s.crash

theorem kafkaMessage_done (nil : List Nat → Bool) (some_ : (decode body).1.arr ≠ []) :
    ∃ message,kafkaMessage nil body = .done message := by
  unfold kafkaMessage
  dsimp only
  split
  · rename_i none
    exact absurd none some_
  · exact ⟨_,rfl⟩

theorem push_exact {s t : Service} (found : s.pushing[i]? = some body)
    (stepped : s.step cfg (.push i link) = some t) : Step cfg s (.push i link) t := by
  obtain ⟨l,r,pushing,rfl,left,right⟩ := Transitions.split_at found
  simp only [Service.step,found,left,right] at stepped
  split at stepped
  · rename_i accepted
    cases Option.some.inj stepped
    exact .push pushing accepted.1 accepted.2
  · rename_i refused
    cases Option.some.inj stepped
    exact .refuse pushing fun working fine => refused ⟨working,fine⟩

theorem publish_exact {s t : Service} (found : s.publishing[i]? = some body)
    (stepped : s.step cfg (.publish i nil) = some t) : Step cfg s (.publish i nil) t := by
  obtain ⟨l,r,publishing,rfl,left,right⟩ := Transitions.split_at found
  simp only [Service.step,found,left,right] at stepped
  by_cases none : (decode body).1.arr = []
  · have crashed : kafkaMessage nil body = .outOfRange := by simp [kafkaMessage,none]
    rw [crashed] at stepped
    cases Option.some.inj stepped
    exact .unlisted publishing none
  · obtain ⟨message,sent⟩ := kafkaMessage_done nil none
    rw [sent] at stepped
    cases Option.some.inj stepped
    exact .publish publishing sent

theorem explain_exact {s t : Service} (found : s.reviews[i]? = some (body,.explain))
    (stepped : s.step cfg (.explain i reply) = some t) : Step cfg s (.explain i reply) t := by
  obtain ⟨l,r,reviews,rfl,left,right⟩ := Transitions.split_at found
  simp only [Service.step,found,left,right] at stepped
  cases answered : explained cfg body reply with
  | none =>
    rw [answered] at stepped
    cases Option.some.inj stepped
    exact .panic reviews answered
  | some sql =>
    rw [answered] at stepped
    cases Option.some.inj stepped
    exact .explain reviews answered

theorem review_exact {s t : Service} (reply : Reply) (found : s.reviews[i]? = some (body,stage)) :
    (s.step cfg (.explain i reply) = some t → Step cfg s (.explain i reply) t) ∧
    (s.step cfg (.cost i reply) = some t → Step cfg s (.cost i reply) t) ∧
    (s.step cfg (.send i) = some t → Step cfg s (.send i) t) := by
  obtain ⟨l,r,reviews,rfl,left,right⟩ := Transitions.split_at found
  cases stage with
  | explain =>
    refine ⟨explain_exact found,fun stepped => ?_,fun stepped => ?_⟩ <;> simp [Service.step,found] at stepped
  | cost first sql =>
    refine ⟨fun stepped => ?_,fun stepped => ?_,fun stepped => ?_⟩ <;>
      simp only [Service.step,found,left,right] at stepped
    · cases stepped
    · cases Option.some.inj stepped
      exact .cost reviews
    · cases stepped
  | send scored =>
    refine ⟨fun stepped => ?_,fun stepped => ?_,fun stepped => ?_⟩ <;>
      simp only [Service.step,found,left,right] at stepped
    · cases stepped
    · cases stepped
    · split at stepped
      · cases Option.some.inj stepped
        exact .send reviews ‹_›
      · cases stepped

theorem mark_exact {s t : Service} (found : s.jobs[i]? = some (body,work))
    (stepped : s.step cfg (.mark i link) = some t) : Step cfg s (.mark i link) t := by
  obtain ⟨l,r,jobs,rfl,left,right⟩ := Transitions.split_at found
  simp only [Service.step,found,left,right] at stepped
  split at stepped
  · cases Option.some.inj stepped
    exact .mark jobs ‹_›
  · cases stepped

theorem insert_exact {s t : Service} (found : s.jobs[i]? = some (body,work))
    (stepped : s.step cfg (.insert i stored) = some t) : Step cfg s (.insert i stored) t := by
  obtain ⟨l,r,jobs,rfl,left,right⟩ := Transitions.split_at found
  simp only [Service.step,found,left,right] at stepped
  split at stepped
  · cases stepped
  · rename_i flagged
    cases stored with
    | none =>
      cases Option.some.inj stepped
      exact .lose jobs flagged
    | some stored =>
      dsimp only at stepped
      split at stepped
      · rename_i accepted
        cases Option.some.inj stepped
        exact .insert jobs flagged accepted
      · cases stepped

theorem step_exact {s t : Service} (stepped : s.step cfg action = some t) : Step cfg s action t := by
  cases action with
  | post body =>
    cases Option.some.inj stepped
    exact .post
  | push i link =>
    cases found : s.pushing[i]? with
    | none => simp [Service.step,found] at stepped
    | some body => exact push_exact found stepped
  | publish i nil =>
    cases found : s.publishing[i]? with
    | none => simp [Service.step,found] at stepped
    | some body => exact publish_exact found stepped
  | tick =>
    simp only [Service.step] at stepped
    split at stepped
    · cases Option.some.inj stepped
      exact .tick ‹_›
    · cases stepped
  | poll link =>
    simp only [Service.step] at stepped
    split at stepped
    · cases stepped
    · cases Option.some.inj stepped
      exact .poll ‹_›
  | explain i reply =>
    cases found : s.reviews[i]? with
    | none => simp [Service.step,found] at stepped
    | some review => exact (review_exact reply found).1 stepped
  | cost i reply =>
    cases found : s.reviews[i]? with
    | none => simp [Service.step,found] at stepped
    | some review => exact (review_exact reply found).2.1 stepped
  | send i =>
    cases found : s.reviews[i]? with
    | none => simp [Service.step,found] at stepped
    | some review => exact (review_exact .failed found).2.2 stepped
  | receive nil clock =>
    simp only [Service.step] at stepped
    split at stepped
    · cases stepped
    · cases Option.some.inj stepped
      exact .receive ‹_›
  | mark i link =>
    cases found : s.jobs[i]? with
    | none => simp [Service.step,found] at stepped
    | some job => exact mark_exact found stepped
  | insert i stored =>
    cases found : s.jobs[i]? with
    | none => simp [Service.step,found] at stepped
    | some job => exact insert_exact found stepped
  | kill =>
    cases Option.some.inj stepped
    exact .kill

end SqlReview.Review
