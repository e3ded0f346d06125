import SqlReview.RespExact
import SqlReview.Transitions

-- redis.conn and the server at the other end of its connection.
namespace SqlReview.RedisConn
open GoBytes Resp ExactReader

-- A server answers each command with one reply.
structure Server (σ : Type) where
  exec : List Bytes → σ → Reply × σ
  fits : ∀ words s,Fits (exec words s).1

def Server.runs (server : Server σ) : σ → List (List Bytes) → List Reply × σ
  | s,[] => ([],s)
  | s,words :: rest =>
    let answer := server.exec words s
    let later := server.runs answer.2 rest
    (answer.1 :: later.1,later.2)

structure Command where
  cmd : Bytes
  args : List Arg
  sized : Sized (commandOf cmd args)

def Command.words (c : Command) : List Bytes := commandOf c.cmd c.args

inductive ConnError where
  | closed
  | read (err : ReadError)

-- A call of Do that still reads. `start` is how many replies were read before it and `asked` how
-- many commands had been written, its own included; the program keeps neither.
structure Task where
  named : Bool
  start : Nat
  asked : Nat
  left : Nat
  replies : List Reply

-- What a call returns, with the replies that it takes: from `start` to its own, from `start` to
-- `stop`, or the one numbered k.
inductive Result where
  | nothing
  | value (start own : Nat) (reply : Reply) (err : Option Bytes)
  | values (start stop : Nat) (replies : List Reply)
  | received (k : Nat) (reply : Reply)
  | failed (err : ConnError)

-- `asked`, `answered`, `taken` and `results` are not in the program: all commands written, all replies
-- of the server, those that were read and what the calls have returned.
structure Link (σ : Type) where
  pending : Nat
  task : Option Task
  err : Option ConnError
  lost : Bool
  toServer : Bytes
  fromServer : Bytes
  server : σ
  asked : List (List Bytes)
  answered : List Reply
  taken : List Reply
  results : List Result

def Link.start (server : σ) : Link σ := ⟨0,none,none,false,[],[],server,[],[],[],[]⟩

inductive Action where
  | send (c : Command)
  | receive
  | call (c : Command)
  | read
  | serve
  -- The connection breaks: m bytes of what is under way still reach the server, n the client.
  | cut (m n : Nat)

def firstError (replies : List Reply) : Option Bytes :=
  replies.findSome? fun reply => match reply with
    | .error s => some s
    | _ => none

-- What Do returns after its last reply.
def Task.result (task : Task) (reply : Reply) : Result :=
  if task.named then .value task.start (task.asked-1) reply (firstError (task.replies ++ [reply]))
  else .values task.start task.asked (task.replies ++ [reply])

-- writeCommand; after an error the connection is closed.
def Link.write (s : Link σ) (c : Command) : Link σ :=
  if s.err.isSome then s
  else {s with
    toServer := if s.lost then s.toServer else s.toServer ++ writeCommand c.cmd c.args
    asked := s.asked ++ [c.words]}

-- c.fatal. An error of the reader other than the end of the stream would leave bytes behind.
def Link.fatal (s : Link σ) (err : ReadError) : Link σ := {s with
  err := s.err.or (some (.read err)),task := none,lost := true,fromServer := []
  results := s.results ++ [.failed (.read err)]}

-- A read waits at the end of the stream until the connection breaks, and a panic ends the process.
def Link.unread (s : Link σ) (err : ReadError) : Option (Link σ) :=
  if (err = .eof ∧ s.lost = false) ∨ err = .makeslice then none else some (s.fatal err)

def wordsOf : Reply → Option (List Bytes)
  | .array items => items.mapM fun item => match item with
    | .bulk p => some p
    | _ => none
  | _ => none

def Link.step (server : Server σ) (s : Link σ) : Action → Option (Link σ)
  | .send c => if s.task.isSome then none else some {s.write c with pending := s.pending+1}
  | .receive =>
    if s.task.isSome then none
    else match readReply s.fromServer with
      | .error err => s.unread err
      | .ok (reply,rest) => some {s with
          fromServer := rest,taken := s.taken ++ [reply],pending := s.pending-1
          results := s.results ++ [.received s.taken.length reply]}
  | .call c =>
    if s.task.isSome then none
    else if c.cmd = [] ∧ s.pending = 0 then some {s with results := s.results ++ [.nothing]}
    else if s.err.isSome then some {s with pending := 0,results := s.results ++ [.failed .closed]}
    else if c.cmd = [] then some {s with
      pending := 0,task := some ⟨false,s.taken.length,s.asked.length,s.pending,[]⟩}
    else some {s.write c with
      pending := 0,task := some ⟨true,s.taken.length,s.asked.length+1,s.pending+1,[]⟩}
  | .read =>
    match s.task with
    | none => none
    | some task =>
      match readReply s.fromServer with
      | .error err => s.unread err
      | .ok (reply,rest) =>
        let t := {s with fromServer := rest,taken := s.taken ++ [reply]}
        if task.left = 1 then some {t with task := none,results := s.results ++ [task.result reply]}
        else some {t with task := some {task with left := task.left-1,replies := task.replies ++ [reply]}}
  | .serve =>
    match readRequest s.toServer with
    | .error _ => none
    | .ok (request,rest) =>
      (wordsOf request).map fun words =>
        let answer := server.exec words s.server
        {s with
          toServer := rest,server := answer.2,answered := s.answered ++ [answer.1]
          fromServer := if s.lost then s.fromServer else s.fromServer ++ answer.1.write}
  | .cut m n =>
    if s.lost then none
      else some {s with lost := true,toServer := s.toServer.take m,fromServer := s.fromServer.take n}

theorem wordsOf_request (words : List Bytes) : wordsOf (request words) = some words := by
  rw [request,wordsOf]
  induction words with
  | nil => rfl
  | cons word words ih => simp [List.mapM_cons,ih]

theorem runs_append (server : Server σ) (s : σ) (front back : List (List Bytes)) :
    server.runs s (front ++ back) =
    ((server.runs s front).1 ++ (server.runs (server.runs s front).2 back).1,
      (server.runs (server.runs s front).2 back).2) := by
  induction front generalizing s with
  | nil => rfl
  | cons words front ih => simp only [List.cons_append,Server.runs,ih]

theorem runs_length (server : Server σ) (s : σ) (commands : List (List Bytes)) :
    (server.runs s commands).1.length = commands.length := by
  induction commands generalizing s with
  | nil => rfl
  | cons words rest ih => simp only [Server.runs,List.length_cons,ih]

-- What a call returns is the answer to its own command, and its error the first one of the answers it takes.
def Right (answers : List Reply) : Result → Prop
  | .value start own reply err =>
    start ≤ own ∧ answers[own]? = some reply ∧ err = firstError ((answers.take (own+1)).drop start)
  | .values start stop replies =>
    start ≤ stop ∧ stop ≤ answers.length ∧ replies = (answers.take stop).drop start
  | .received k reply => answers[k]? = some reply
  | .nothing | .failed _ => True

theorem Right.more (right : Right answers result) (new : List Reply) : Right (answers ++ new) result := by
  cases result with
  | nothing => trivial
  | failed err => trivial
  | value start own reply err =>
    obtain ⟨order,found,first⟩ := right
    obtain ⟨bound,_⟩ := List.getElem?_eq_some_iff.mp found
    refine ⟨order,by rw [List.getElem?_append_left bound,found],?_⟩
    rw [List.take_append_of_le_length bound]
    exact first
  | values start stop replies =>
    obtain ⟨order,bound,block⟩ := right
    refine ⟨order,Nat.le_trans bound (by simp),?_⟩
    rw [List.take_append_of_le_length bound]
    exact block
  | received k reply =>
    obtain ⟨bound,_⟩ := List.getElem?_eq_some_iff.mp right
    exact (List.getElem?_append_left bound).trans right

-- The replies that a call has taken.
def Result.span : Result → Option (Nat × Nat)
  | .value start own _ _ => some (start,own+1)
  | .values start stop _ => some (start,stop)
  | .received k _ => some (k,k+1)
  | .nothing | .failed _ => none

-- Each call goes on where the one before it has ended.
def Tiled : Nat → List Result → Prop
  | _,[] => True
  | n,result :: rest => (∀ span ∈ result.span,span.1 = n) ∧ Tiled ((result.span.map Prod.snd).getD n) rest

def tiles (n : Nat) (results : List Result) : Nat :=
  results.foldl (fun n result => (result.span.map Prod.snd).getD n) n

theorem tiled_snoc (n : Nat) (results : List Result) (last : Result) :
    Tiled n (results ++ [last]) ↔ Tiled n results ∧ ∀ span ∈ last.span,span.1 = tiles n results := by
  induction results generalizing n with
  | nil => simp [Tiled,tiles]
  | cons result results ih => simp [Tiled,tiles,ih,and_assoc]

theorem tiles_snoc (n : Nat) (results : List Result) (last : Result) :
    tiles n (results ++ [last]) = (last.span.map Prod.snd).getD (tiles n results) := by
  rw [tiles,List.foldl_append]
  rfl

-- A stream from which nothing but its end is missing.
def Stream (lost : Bool) (held whole : Bytes) : Prop :=
  ∃ missing,held ++ missing = whole ∧ (lost = false → missing = [])

-- Where a call of Do stands: it has read `task.replies`, and goes on where the last call has ended.
structure Reading (s : Link σ) (task : Task) : Prop where
  waits : 0 < task.left
  pending : s.pending = 0
  asked : task.asked = s.asked.length
  start : task.start = tiles 0 s.results
  taken : ∃ before,s.taken = before ++ task.replies ∧ before.length = task.start

-- `unserved` are the commands on their way and `unread` the replies.
structure Kept (server : Server σ) (first : σ) (unserved : List (List Bytes)) (unread : List Reply)
    (s : Link σ) : Prop where
  sized : ∀ words ∈ unserved,Sized words
  fits : ∀ reply ∈ unread,Fits reply
  served : ∃ done,s.asked = done ++ unserved ∧ server.runs first done = (s.answered,s.server)
  toServer : Stream s.lost s.toServer (unserved.flatMap fun words => (request words).write)
  answered : s.answered = s.taken ++ unread
  fromServer : Stream s.lost s.fromServer (unread.flatMap Reply.write)
  closed : s.err ≠ none → s.lost = true ∧ s.fromServer = [] ∧ s.task = none
  counts : s.err = none → s.asked.length = s.taken.length+s.pending+(s.task.map Task.left).getD 0
  task : ∀ task,s.task = some task → Reading s task
  idle : s.err = none → s.task = none → tiles 0 s.results = s.taken.length
  results : ∀ result ∈ s.results,Right s.answered result
  tiled : Tiled 0 s.results

theorem start_kept (server : Server σ) (first : σ) : Kept server first [] [] (.start first) where
  sized := List.forall_mem_nil _
  fits := List.forall_mem_nil _
  served := ⟨[],rfl,rfl⟩
  toServer := ⟨[],rfl,fun _ => rfl⟩
  answered := rfl
  fromServer := ⟨[],rfl,fun _ => rfl⟩
  closed := fun some_ => absurd rfl some_
  counts := fun _ => rfl
  task := fun task running => absurd running (by simp [Link.start])
  idle := fun _ _ => rfl
  results := List.forall_mem_nil _
  tiled := trivial

-- One more item at the end of a stream.
theorem Stream.more (stream : Stream lost held whole) (new : Bytes) :
    Stream lost (if lost then held else held ++ new) (whole ++ new) := by
  obtain ⟨missing,rfl,all⟩ := stream
  cases lost with
  | true => exact ⟨missing ++ new,by simp,by simp⟩
  | false =>
    cases all rfl
    exact ⟨[],by simp,fun _ => rfl⟩

theorem Stream.cut (stream : Stream lost held whole) (n : Nat) : Stream true (held.take n) whole := by
  obtain ⟨missing,rfl,_⟩ := stream
  exact ⟨held.drop n ++ missing,by rw [← List.append_assoc,List.take_append_drop],by simp⟩

-- The next item of a stream is read whole or not at all, and without it only the end of the stream.
theorem Stream.read {write : α → Bytes} {value : α → Reply}
    (exact_ : ∀ x ∈ left,Exact .eof (readReplyIn room) (write x) (value x))
    (stream : Stream lost held (left.flatMap write)) :
    (∃ x rest more,left = x :: more ∧ readReplyIn room held = .ok (value x,rest) ∧
      Stream lost rest (more.flatMap write)) ∨
    readReplyIn room held = .error .eof ∧ (lost = false → left = []) := by
  obtain ⟨missing,split,all⟩ := stream
  cases left with
  | nil =>
    have empty : held = [] := (List.append_eq_nil_iff.mp split).1
    exact Or.inr ⟨by rw [empty]; rfl,fun _ => rfl⟩
  | cons x left =>
    have first := exact_ x List.mem_cons_self
    rw [List.flatMap_cons] at split
    rcases first.either split with ⟨rest,rfl,more,read⟩ | short
    · exact Or.inl ⟨x,rest,left,rfl,read,missing,more,all⟩
    · refine Or.inr ⟨short,fun found => ?_⟩
      cases all found
      rw [List.append_nil] at split
      have whole := first.whole (left.flatMap write)
      rw [← split,short] at whole
      cases whole

section
variable {server : Server σ} {first : σ} {s t : Link σ} {unserved : List (List Bytes)} {unread : List Reply}

theorem write_kept (kept : Kept server first unserved unread s) (c : Command) (pending : Nat)
    (task : Option Task)
    (counts : s.err = none → s.asked.length+1 = s.taken.length+pending+(task.map Task.left).getD 0)
    (closed : s.err ≠ none → task = none) (resting : task = none → s.task = none)
    (fresh : s.err = none → ∀ t,task = some t →
    Reading {s with pending := pending,asked := s.asked ++ [c.words]} t) :
    ∃ unserved,Kept server first unserved unread {s.write c with pending := pending,task := task} := by
  obtain ⟨sized,fits,⟨done,asked,runs⟩,toServer,answered,fromServer,shut,_,_,idle,results,tiled⟩ := kept
  by_cases broken : s.err ≠ none
  · have same : s.write c = s := if_pos (Option.isSome_iff_ne_none.mpr broken)
    obtain ⟨lost,empty,_⟩ := shut broken
    cases closed broken
    rw [same]
    exact ⟨unserved,sized,fits,⟨done,asked,runs⟩,toServer,answered,fromServer,fun _ => ⟨lost,empty,rfl⟩,
      fun none_ => absurd none_ broken,by simp,fun none_ => absurd none_ broken,results,tiled⟩
  · have fault : s.err = none := not_not.mp broken
    have same : s.write c = {s with
        toServer := if s.lost then s.toServer else s.toServer ++ writeCommand c.cmd c.args
        asked := s.asked ++ [c.words]} := if_neg (by simp [fault])
    rw [same]
    have more : unserved.flatMap (fun words => (request words).write) ++ writeCommand c.cmd c.args =
        (unserved ++ [c.words]).flatMap fun words => (request words).write := by
      rw [List.flatMap_append,writeCommand_request]
      simp [Command.words]
    refine ⟨unserved ++ [c.words],?_,fits,⟨done,by simp [asked],runs⟩,more ▸ toServer.more _,
      answered,fromServer,
      fun broken => absurd fault broken,fun _ => ?_,fun t running => ?_,fun _ none_ =>
        idle fault (resting none_),results,tiled⟩
    · exact List.forall_mem_append.mpr ⟨sized,List.forall_mem_singleton.mpr c.sized⟩
    · have total := counts fault
      simpa using total
    · obtain ⟨waits,zero,own,start,taken⟩ := fresh fault t running
      exact ⟨waits,zero,own,start,taken⟩

-- A result that takes no reply.
theorem Kept.noted (kept : Kept server first unserved unread s) (result : Result)
    (right : Right s.answered result)
    (none_ : result.span = none) : (∀ r ∈ s.results ++ [result],Right s.answered r) ∧
    Tiled 0 (s.results ++ [result]) ∧
      tiles 0 (s.results ++ [result]) = tiles 0 s.results := by
  refine ⟨List.forall_mem_append.mpr ⟨kept.results,List.forall_mem_singleton.mpr right⟩,?_,?_⟩
  · rw [tiled_snoc,none_]
    exact ⟨kept.tiled,by simp⟩
  · rw [tiles_snoc,none_]
    rfl

-- A result that takes the replies up to the last one that was read.
theorem Kept.took (kept : Kept server first unserved unread s) (result : Result)
    (right : Right s.answered result)
    (span : result.span = some (tiles 0 s.results,stop)) : (∀ r ∈ s.results ++ [result],Right s.answered r) ∧
      Tiled 0 (s.results ++ [result]) ∧ tiles 0 (s.results ++ [result]) = stop := by
  refine ⟨List.forall_mem_append.mpr ⟨kept.results,List.forall_mem_singleton.mpr right⟩,?_,?_⟩
  · rw [tiled_snoc,span]
    exact ⟨kept.tiled,by simp⟩
  · rw [tiles_snoc,span]
    rfl

theorem fatal_kept (kept : Kept server first unserved unread s) (err : ReadError) :
    Kept server first unserved unread (s.fatal err) := by
  obtain ⟨results,tiled,_⟩ := kept.noted (.failed (.read err)) trivial rfl
  obtain ⟨sized,fits,served,⟨missing,split,_⟩,answered,⟨late,arrived,_⟩,_⟩ := kept
  have broken : (s.fatal err).err ≠ none := by cases fault : s.err <;> simp [Link.fatal,fault]
  exact ⟨sized,fits,served,⟨missing,split,by simp [Link.fatal]⟩,answered,
    ⟨s.fromServer ++ late,arrived,by simp [Link.fatal]⟩,
    fun _ => ⟨rfl,rfl,rfl⟩,fun none_ => absurd none_ broken,by simp [Link.fatal],fun none_ =>
      absurd none_ broken,results,tiled⟩

theorem unread_kept (kept : Kept server first unserved unread s) (stepped : s.unread err = some t) :
    Kept server first unserved unread t := by
  unfold Link.unread at stepped
  split at stepped
  · cases stepped
  · cases Option.some.inj stepped
    exact fatal_kept kept err

-- A reply that was read is the next one of the server.
theorem read_next (kept : Kept server first unserved unread s)
    (found : readReply s.fromServer = .ok (reply,rest)) :
    ∃ more,unread = reply :: more ∧ Stream s.lost rest (more.flatMap Reply.write) ∧ s.err = none := by
  have open_ : s.err = none := by
    by_contra broken
    obtain ⟨_,empty,_⟩ := kept.closed broken
    rw [empty] at found
    cases found
  unfold readReply at found
  rcases kept.fromServer.read (fun r member => exact_reply (kept.fits r member)) with ⟨r,left,more,
    rfl,read,stream⟩ | ⟨short,_⟩
  · rw [read] at found
    cases found
    exact ⟨more,rfl,stream,open_⟩
  · rw [short] at found
    cases found

theorem receive_kept (kept : Kept server first unserved unread s)
    (stepped : s.step server .receive = some t) :
    ∃ unserved unread,Kept server first unserved unread t := by
  simp only [Link.step] at stepped
  split at stepped
  · cases stepped
  · rename_i busy
    have resting : s.task = none := by simpa using busy
    split at stepped
    · exact ⟨unserved,unread,unread_kept kept stepped⟩
    · rename_i reply rest found
      cases Option.some.inj stepped
      obtain ⟨more,rfl,stream,open_⟩ := read_next kept found
      have right : Right s.answered (.received s.taken.length reply) := by
        rw [Right,kept.answered]
        simp
      have span : (Result.received s.taken.length reply).span =
          some (tiles 0 s.results,s.taken.length+1) := by
        rw [kept.idle open_ resting]
        rfl
      obtain ⟨results,tiled,stop⟩ := kept.took _ right span
      obtain ⟨sized,fits,⟨done,asked,runs⟩,toServer,answered,_,_,counts,_⟩ := kept
      have total := counts open_
      rw [resting] at total
      have bound : s.taken.length < s.asked.length := by
        have length := runs_length server first done
        rw [runs,answered] at length
        rw [asked]
        simp only [List.length_append,List.length_cons] at length ⊢
        omega
      refine ⟨unserved,more,sized,fun r member => fits r (List.mem_cons_of_mem _ member),
        ⟨done,asked,runs⟩,toServer,
        by simp [answered],stream,fun broken => absurd open_ broken,fun _ => ?_,fun task running =>
          ?_,fun _ _ => ?_,results,tiled⟩
      · simp only [resting,List.length_append,List.length_singleton,Option.map_none,
          Option.getD_none] at total ⊢
        omega
      · rw [resting] at running
        cases running
      · simp [stop]

theorem call_kept (kept : Kept server first unserved unread s) (stepped : s.step server (.call c) = some t) :
    ∃ unserved unread,Kept server first unserved unread t := by
  simp only [Link.step] at stepped
  split at stepped
  · cases stepped
  · rename_i busy
    have resting : s.task = none := by simpa using busy
    have still (task : Task) (running : s.task = some task) : False := by
      rw [resting] at running
      cases running
    split at stepped
    · cases Option.some.inj stepped
      obtain ⟨results,tiled,stop⟩ := kept.noted .nothing trivial rfl
      obtain ⟨sized,fits,served,toServer,answered,fromServer,closed,counts,_,idle,_⟩ := kept
      exact ⟨unserved,unread,sized,fits,served,toServer,answered,fromServer,closed,counts,
        fun task running => (still task running).elim,fun open_ none_ =>
          stop.trans (idle open_ none_),results,tiled⟩
    · rename_i something
      split at stepped
      · rename_i broken
        have broken : s.err ≠ none := Option.isSome_iff_ne_none.mp broken
        cases Option.some.inj stepped
        obtain ⟨results,tiled,_⟩ := kept.noted (.failed .closed) trivial rfl
        obtain ⟨sized,fits,served,toServer,answered,fromServer,closed,_⟩ := kept
        exact ⟨unserved,unread,sized,fits,served,toServer,answered,fromServer,closed,fun none_ =>
          absurd none_ broken,
          fun task running => (still task running).elim,fun none_ => absurd none_ broken,results,tiled⟩
      · rename_i open_
        have open_ : s.err = none := by simpa using open_
        have total := kept.counts open_
        rw [resting] at total
        split at stepped
        · rename_i empty
          cases Option.some.inj stepped
          obtain ⟨sized,fits,served,toServer,answered,fromServer,closed,_,_,idle,results,tiled⟩ := kept
          have some_ : 0 < s.pending := Nat.pos_of_ne_zero fun zero => something ⟨empty,zero⟩
          refine ⟨unserved,unread,sized,fits,served,toServer,answered,fromServer,fun broken =>
            absurd open_ broken,
            fun _ => by simpa using total,fun task running => ?_,fun _ none_ =>
              absurd none_ (by simp),results,tiled⟩
          cases Option.some.inj running
          exact ⟨some_,rfl,rfl,(idle open_ resting).symm,s.taken,(List.append_nil _).symm,rfl⟩
        · cases Option.some.inj stepped
          let task : Task := ⟨true,s.taken.length,s.asked.length+1,s.pending+1,[]⟩
          have one : s.asked.length+1 = s.taken.length+0+(s.pending+1) := by
            simp only [Option.map_none,Option.getD_none] at total
            omega
          have fresh (next : Task) (running : some task = some next) :
              Reading {s with pending := 0,asked := s.asked ++ [c.words]} next := by
            cases Option.some.inj running
            exact ⟨Nat.succ_pos _,rfl,by simp [task],(kept.idle open_ resting).symm,s.taken,
              (List.append_nil _).symm,rfl⟩
          obtain ⟨unserved,after⟩ :=
            write_kept kept c 0 (some task) (fun _ => one) (fun broken => absurd open_ broken)
            (fun none_ => absurd none_ (by simp)) fun _ => fresh
          exact ⟨unserved,unread,after⟩

-- What Do returns once its last reply has come.
theorem result_right (kept : Kept server first unserved (reply :: more) s) (reading : Reading s task)
    (last : s.taken.length+1 = s.asked.length) : Right s.answered (task.result reply) ∧
      (task.result reply).span = some (tiles 0 s.results,s.taken.length+1) := by
  obtain ⟨_,_,asked,start,before,taken,length⟩ := reading
  have block : (s.answered.take (s.taken.length+1)).drop task.start = task.replies ++ [reply] := by
    have front : s.answered.take (s.taken.length+1) = before ++ (task.replies ++ [reply]) := by
      rw [kept.answered,← List.append_assoc,← taken]
      simp [List.take_append]
    rw [front,← length,List.drop_left]
  have order : task.start ≤ s.taken.length := by
    rw [taken,List.length_append]
    omega
  have own : task.asked-1 = s.taken.length := by omega
  unfold Task.result
  split
  · rw [own,← start]
    refine ⟨⟨order,by simp [kept.answered],?_⟩,rfl⟩
    rw [block]
  · have stop : task.asked = s.taken.length+1 := by omega
    rw [stop,← start]
    refine ⟨⟨Nat.le_succ_of_le order,by simp [kept.answered],?_⟩,rfl⟩
    rw [block]

theorem read_kept (kept : Kept server first unserved unread s) (stepped : s.step server .read = some t) :
    ∃ unserved unread,Kept server first unserved unread t := by
  simp only [Link.step] at stepped
  split at stepped
  · cases stepped
  · rename_i task running
    split at stepped
    · exact ⟨unserved,unread,unread_kept kept stepped⟩
    · rename_i reply rest found
      obtain ⟨more,rfl,stream,open_⟩ := read_next kept found
      have reading := kept.task task running
      have total := kept.counts open_
      rw [running,reading.pending] at total
      simp only [Option.map_some,Option.getD_some] at total
      have fits := fun r member => kept.fits r (List.mem_cons_of_mem _ member)
      split at stepped
      · rename_i last
        cases Option.some.inj stepped
        obtain ⟨right,span⟩ := result_right kept reading (by omega)
        obtain ⟨results,tiled,stop⟩ := kept.took _ right span
        refine ⟨unserved,more,kept.sized,fits,kept.served,kept.toServer,by simp [kept.answered],stream,
          fun broken => absurd open_ broken,fun _ => ?_,by simp,fun _ _ => by simp [stop],results,tiled⟩
        simp [reading.pending]
        omega
      · rename_i notLast
        cases Option.some.inj stepped
        obtain ⟨waits,zero,asked,start,before,taken,length⟩ := reading
        refine ⟨unserved,more,kept.sized,fits,kept.served,kept.toServer,by simp [kept.answered],stream,
          fun broken => absurd open_ broken,fun _ => ?_,fun next is => ?_,fun _ none_ =>
            absurd none_ (by simp),
          kept.results,kept.tiled⟩
        · simp [zero]
          omega
        · cases Option.some.inj is
          refine ⟨?_,zero,asked,start,before,by simp [taken],length⟩
          change 0 < task.left-1
          omega

theorem serve_kept (kept : Kept server first unserved unread s) (stepped : s.step server .serve = some t) :
    ∃ unserved unread,Kept server first unserved unread t := by
  obtain ⟨sized,fits,⟨done,asked,runs⟩,toServer,answered,fromServer,closed,counts,task,idle,
    results,tiled⟩ := kept
  simp only [Link.step] at stepped
  split at stepped
  · cases stepped
  · rename_i asking rest found
    obtain ⟨words,is,rfl⟩ := Option.map_eq_some_iff.mp stepped
    unfold readRequest at found
    rcases toServer.read (fun words member => exact_reply (request_fits (sized words member))) with
      ⟨_,left,more,rfl,read,stream⟩ | ⟨short,_⟩
    · rw [read] at found
      cases found
      rw [wordsOf_request] at is
      cases Option.some.inj is
      refine ⟨more,unread ++ [(server.exec words s.server).1],fun words member =>
        sized words (List.mem_cons_of_mem _ member),?_,
        ⟨done ++ [words],by simp [asked],?_⟩,stream,by simp [answered],?_,fun broken => ?_,counts,
          fun next running => ?_,idle,
        fun result member => ?_,tiled⟩
      · exact List.forall_mem_append.mpr ⟨fits,List.forall_mem_singleton.mpr (server.fits _ _)⟩
      · rw [runs_append,runs]
        rfl
      · have longer := fromServer.more (server.exec words s.server).1.write
        rw [List.flatMap_append]
        simpa using longer
      · obtain ⟨lost,empty,resting⟩ := closed broken
        exact ⟨lost,by simp [lost,empty],resting⟩
      · obtain ⟨waits,zero,own,start,taken⟩ := task next running
        exact ⟨waits,zero,own,start,taken⟩
      · exact (results result member).more _
    · rw [short] at found
      cases found

theorem step_kept (kept : Kept server first unserved unread s) (stepped : s.step server action = some t) :
    ∃ unserved unread,Kept server first unserved unread t := by
  cases action with
  | send c =>
    simp only [Link.step] at stepped
    split at stepped
    · cases stepped
    · rename_i busy
      have resting : s.task = none := by simpa using busy
      cases Option.some.inj stepped
      have same : {s.write c with pending := s.pending+1} =
          {s.write c with pending := s.pending+1,task := none} := by
        unfold Link.write
        split <;> simp [resting]
      have one (open_ : s.err = none) : s.asked.length+1 = s.taken.length+(s.pending+1)+0 := by
        have total := kept.counts open_
        simp only [resting,Option.map_none,Option.getD_none] at total
        omega
      rw [same]
      obtain ⟨unserved,after⟩ :=
        write_kept kept c (s.pending+1) none one (fun _ => rfl) (fun _ => resting) (by simp)
      exact ⟨unserved,unread,after⟩
  | receive => exact receive_kept kept stepped
  | call c => exact call_kept kept stepped
  | read => exact read_kept kept stepped
  | serve => exact serve_kept kept stepped
  | cut m n =>
    simp only [Link.step] at stepped
    split at stepped
    · cases stepped
    · rename_i found
      cases Option.some.inj stepped
      obtain ⟨sized,fits,served,toServer,answered,fromServer,closed,counts,task,idle,results,tiled⟩ := kept
      refine ⟨unserved,unread,sized,fits,served,toServer.cut m,answered,fromServer.cut n,
        fun broken => ?_,counts,
        fun next running => ?_,idle,results,tiled⟩
      · exact absurd (closed broken).1 found
      · obtain ⟨waits,zero,own,start,taken⟩ := task next running
        exact ⟨waits,zero,own,start,taken⟩
end

theorem run_kept {server : Server σ} {s : Link σ}
    (ran : Transitions.run (Link.step server) (.start first) actions = some s) :
    ∃ unserved unread,Kept server first unserved unread s :=
  Transitions.run_invariant (fun s => ∃ unserved unread,Kept server first unserved unread s)
    ⟨[],[],start_kept server first⟩
    (fun s _ t kept stepped => by
      obtain ⟨unserved,unread,kept⟩ := kept
      exact step_kept kept stepped) ran

-- What Do on `c`, called in `m`, may return: the answer to `c`, those to all commands before it, or
-- nothing where these were taken.
def Returns (m : Link σ) (c : Command) (asked : List (List Bytes)) : Result → Prop
  | .value _ own _ _ => c.cmd ≠ [] ∧ own = m.asked.length ∧ asked[own]? = some c.words
  | .values _ stop _ => c.cmd = [] ∧ stop = m.asked.length
  | .nothing => c.cmd = [] ∧ (m.err = none → tiles 0 m.results = m.asked.length)
  | .received _ _ => False
  | .failed _ => True

theorem Returns.more {m : Link σ} (returns : Returns m c asked result) (new : List (List Bytes)) :
    Returns m c (asked ++ new) result := by
  cases result with
  | value start own reply err =>
    obtain ⟨named,same,found⟩ := returns
    obtain ⟨bound,_⟩ := List.getElem?_eq_some_iff.mp found
    exact ⟨named,same,by rw [List.getElem?_append_left bound,found]⟩
  | _ => exact returns

-- A call of Do while it reads.
def Task.Of (m : Link σ) (c : Command) (asked : List (List Bytes)) (task : Task) : Prop :=
  if task.named then c.cmd ≠ [] ∧ task.asked = m.asked.length+1 ∧ asked[m.asked.length]? = some c.words
  else c.cmd = [] ∧ task.asked = m.asked.length

inductive Calling (m : Link σ) (c : Command) (t : Link σ) : Prop where
  | reading : t.task = some task → task.Of m c t.asked → t.results = m.results → Calling m c t
  | returned : Returns m c t.asked result → t.results = m.results ++ result :: rest → Calling m c t

section
variable {server : Server σ} {m s t : Link σ} {c : Command}

theorem call_calling (kept : Kept server first unserved unread m) (stepped : m.step server (.call c) = some t) :
    Calling m c t := by
  simp only [Link.step] at stepped
  split at stepped
  · cases stepped
  · rename_i busy
    have resting : m.task = none := by simpa using busy
    split at stepped
    · rename_i blank
      cases Option.some.inj stepped
      have nothing : Returns m c m.asked .nothing := by
        refine ⟨blank.1,fun open_ => ?_⟩
        have total := kept.counts open_
        rw [resting,blank.2] at total
        exact (kept.idle open_ resting).trans total.symm
      exact .returned nothing rfl
    · split at stepped
      · cases Option.some.inj stepped
        have failed : Returns m c m.asked (.failed .closed) := trivial
        exact .returned failed rfl
      · rename_i open_
        split at stepped
        · rename_i empty
          cases Option.some.inj stepped
          exact .reading rfl ⟨empty,rfl⟩ rfl
        · rename_i named
          cases Option.some.inj stepped
          have written : m.write c = {m with
              toServer := if m.lost then m.toServer else m.toServer ++ writeCommand c.cmd c.args
              asked := m.asked ++ [c.words]} := if_neg open_
          refine .reading rfl ⟨named,rfl,?_⟩ ?_
          · rw [written]
            simp
          · rw [written]

theorem result_returns (own : Task.Of m c asked task) (reply : Reply) : Returns m c asked (task.result reply) := by
  unfold Task.Of at own
  unfold Task.result
  split at own
  · rename_i named
    obtain ⟨word,same,found⟩ := own
    rw [if_pos named,same]
    exact ⟨word,rfl,found⟩
  · rename_i unnamed
    rw [if_neg unnamed]
    exact own

-- Commands and results are only added to.
def Longer (s t : Link σ) : Prop :=
  (∃ new,t.asked = s.asked ++ new) ∧ ∃ new,t.results = s.results ++ new

theorem Longer.same (asked : t.asked = s.asked) (results : t.results = s.results) : Longer s t :=
  ⟨⟨[],asked.trans (List.append_nil _).symm⟩,[],results.trans (List.append_nil _).symm⟩

theorem Longer.answered (asked : t.asked = s.asked) (results : t.results = s.results ++ [result]) : Longer s t :=
  ⟨⟨[],asked.trans (List.append_nil _).symm⟩,_,results⟩

theorem write_longer (s : Link σ) (c : Command) : Longer s (s.write c) := by
  unfold Link.write
  split
  · exact .same rfl rfl
  · exact ⟨⟨_,rfl⟩,[],(List.append_nil _).symm⟩

theorem unread_longer (stepped : s.unread err = some t) : Longer s t := by
  unfold Link.unread at stepped
  split at stepped
  · cases stepped
  · cases Option.some.inj stepped
    exact .answered rfl rfl

theorem step_longer (stepped : s.step server action = some t) : Longer s t := by
  cases action with
  | send c =>
    simp only [Link.step] at stepped
    split at stepped
    · cases stepped
    · cases Option.some.inj stepped
      exact write_longer s c
  | receive =>
    simp only [Link.step] at stepped
    split at stepped
    · cases stepped
    · split at stepped
      · exact unread_longer stepped
      · cases Option.some.inj stepped
        exact .answered rfl rfl
  | call c =>
    simp only [Link.step] at stepped
    split at stepped
    · cases stepped
    · split at stepped
      · cases Option.some.inj stepped
        exact .answered rfl rfl
      · split at stepped
        · cases Option.some.inj stepped
          exact .answered rfl rfl
        · split at stepped
          · cases Option.some.inj stepped
            exact .same rfl rfl
          · cases Option.some.inj stepped
            exact write_longer s c
  | read =>
    simp only [Link.step] at stepped
    split at stepped
    · cases stepped
    · split at stepped
      · exact unread_longer stepped
      · split at stepped
        · cases Option.some.inj stepped
          exact .answered rfl rfl
        · cases Option.some.inj stepped
          exact .same rfl rfl
  | serve =>
    simp only [Link.step] at stepped
    split at stepped
    · cases stepped
    · obtain ⟨words,_,rfl⟩ := Option.map_eq_some_iff.mp stepped
      exact .same rfl rfl
  | cut m n =>
    simp only [Link.step] at stepped
    split at stepped
    · cases stepped
    · cases Option.some.inj stepped
      exact .same rfl rfl

-- While it reads nothing else is called.
theorem reading_step (running : s.task = some task) (own : task.Of m c s.asked) (results : s.results = m.results)
    (stepped : s.step server action = some t) : Calling m c t := by
  cases action with
  | send _ => simp [Link.step,running] at stepped
  | receive => simp [Link.step,running] at stepped
  | call _ => simp [Link.step,running] at stepped
  | read =>
    simp only [Link.step,running] at stepped
    split at stepped
    · unfold Link.unread at stepped
      split at stepped
      · cases stepped
      · rename_i err _ _
        cases Option.some.inj stepped
        have failed : Returns m c s.asked (.failed (.read err)) := trivial
        exact .returned failed (congrArg (· ++ _) results)
    · rename_i reply rest found
      split at stepped
      · cases Option.some.inj stepped
        exact .returned (result_returns own reply) (congrArg (· ++ _) results)
      · cases Option.some.inj stepped
        exact .reading rfl own results
  | serve =>
    simp only [Link.step] at stepped
    split at stepped
    · cases stepped
    · obtain ⟨words,_,rfl⟩ := Option.map_eq_some_iff.mp stepped
      exact .reading running own results
  | cut _ _ =>
    simp only [Link.step] at stepped
    split at stepped
    · cases stepped
    · cases Option.some.inj stepped
      exact .reading running own results

theorem calling_step (calling : Calling m c s) (stepped : s.step server action = some t) : Calling m c t := by
  cases calling with
  | reading running own results => exact reading_step running own results stepped
  | returned returns results =>
    obtain ⟨⟨new,asked⟩,more,longer⟩ := step_longer stepped
    rw [results,List.append_assoc,List.cons_append] at longer
    exact .returned (asked ▸ returns.more new) longer

-- What a call has returned in the end is what it may return.
theorem call_result (ran : Transitions.run (Link.step server) (.start first) actions = some s)
    (taken : Transitions.Takes (Link.step server) (.start first) actions m (.call c))
    (found : s.results[m.results.length]? = some result) : Returns m c s.asked result := by
  obtain ⟨early,late,rfl,came⟩ := taken
  obtain ⟨unserved,unread,kept⟩ := run_kept came
  rw [Transitions.run_append,came,Option.bind_some,Transitions.run] at ran
  obtain ⟨next,stepped,rest⟩ := Option.bind_eq_some_iff.mp ran
  have calling : Calling m c s :=
    Transitions.run_invariant (Calling m c) (call_calling kept stepped)
      (fun _ _ _ calling stepped => calling_step calling stepped) rest
  cases calling with
  | reading _ _ results =>
    rw [results] at found
    simp at found
  | returned returns results =>
    rw [results,List.getElem?_append_right (Nat.le_refl _),Nat.sub_self] at found
    cases Option.some.inj found
    exact returns

end

-- Over any pipelining, and wherever the connection breaks: the server carries out the commands in order,
-- each one once and none in part, and what a call returns are the server's replies to the right commands:
-- to its own, or to all before it. Each call takes the replies behind those of the call before it.
theorem replies_match {server : Server σ} {s : Link σ}
    (ran : Transitions.run (Link.step server) (.start first) actions = some s) :
    (∃ done later,s.asked = done ++ later ∧ server.runs first done = (s.answered,s.server)) ∧
    (∀ result ∈ s.results,Right (server.runs first s.asked).1 result) ∧ Tiled 0 s.results ∧
    ∀ m c result,Transitions.Takes (Link.step server) (.start first) actions m (.call c) →
      s.results[m.results.length]? = some result → Returns m c s.asked result := by
  obtain ⟨unserved,unread,kept⟩ := run_kept ran
  obtain ⟨done,asked,runs⟩ := kept.served
  refine ⟨⟨done,unserved,asked,runs⟩,fun result member => ?_,kept.tiled,
    fun m c result taken found => call_result ran taken found⟩
  rw [asked,runs_append,runs]
  exact (kept.results result member).more _

-- A server that numbers its answers, the first of which is an error.
def counter : Server Nat where
  exec _ n := (if n = 0 then .error (str "ERR") else .integer (Int64.ofNat n),n+1)
  fits words n := by
    cases n with
    | zero => exact .error (by decide)
    | succ n => exact .integer

theorem incr_sized : Sized (commandOf (str "INCR") [.string (str "n")]) := ⟨by decide,by decide⟩

def incr : Command := ⟨str "INCR",[.string (str "n")],incr_sized⟩

def noCommand : Command := ⟨[],[],⟨by decide,by decide⟩⟩

-- A call behind a command that was only sent takes its error too, Do("") reads what two others are
-- answered, and the connection breaks before the last one is.
def pipelinedRun : List Action :=
  [.send incr,.call incr,.serve,.read,.serve,.read,.send incr,.send incr,.serve,
  .call noCommand,.read,.serve,.read,.send incr,.serve,.receive,.call incr,.cut 9 0,.read]

def Result.shape : Result → List Nat
  | .value start own _ err => [start,own,(err.map List.length).getD 0]
  | .values start stop replies => [start,stop,replies.length]
  | .received k _ => [k]
  | .nothing | .failed _ => []

theorem pipelined_run_matches :
    ∃ s : Link Nat,Transitions.run (Link.step counter) (.start 0) pipelinedRun = some s ∧
    s.results.map Result.shape = [[0,1,3],[2,4,2],[4],[]] ∧
    (∃ done later,s.asked = done ++ later ∧ counter.runs 0 done = (s.answered,s.server)) ∧
    (∀ result ∈ s.results,Right (counter.runs 0 s.asked).1 result) ∧ Tiled 0 s.results ∧
    ∀ m c result,Transitions.Takes (Link.step counter) (.start 0) pipelinedRun m (.call c) →
      s.results[m.results.length]? = some result → Returns m c s.asked result := by
  have ends : (Transitions.run (Link.step counter) (.start 0) pipelinedRun).map
    (fun s => s.results.map Result.shape) =
      some [[0,1,3],[2,4,2],[4],[]] := by decide +kernel
  obtain ⟨s,ran,shapes⟩ := Option.map_eq_some_iff.mp ends
  exact ⟨s,ran,shapes,replies_match ran⟩

-- What a call that still reads waits for is on its way.
theorem waits_for {server : Server σ} {s : Link σ} (kept : Kept server first unserved unread s)
    (open_ : s.err = none) :
    unserved.length+unread.length = s.pending+(s.task.map Task.left).getD 0 := by
  obtain ⟨done,asked,runs⟩ := kept.served
  have total := kept.counts open_
  have length := runs_length server first done
  rw [runs] at length
  rw [asked] at total
  simp only [kept.answered,List.length_append] at length total
  omega

-- A connection on which a call is at most n steps from its end.
structure Near (server : Server σ) (first : σ) (n : Nat) (s : Link σ) : Prop where
  kept : ∃ unserved unread,Kept server first unserved unread s ∧
    n = unserved.length+(s.task.map Task.left).getD 0
  whole : s.lost = false
  open_ : s.err = none

theorem serve_near {server : Server σ} {s : Link σ}
    (kept : Kept server first (words :: unserved) unread s) (whole : s.lost = false)
    (open_ : s.err = none) : ∃ t,s.step server .serve = some t ∧ t.task = s.task ∧
      Near server first (unserved.length+(s.task.map Task.left).getD 0) t := by
  have exact_ : Exact .eof readRequest (request words).write (request words) :=
    exact_reply (request_fits (kept.sized words List.mem_cons_self))
  obtain ⟨missing,split,all⟩ := kept.toServer
  cases all whole
  rw [List.append_nil,List.flatMap_cons] at split
  have read := exact_.whole (unserved.flatMap fun words => (request words).write)
  have stepped : s.step server .serve = some {s with
      toServer := unserved.flatMap fun words => (request words).write,server := (server.exec words s.server).2
      answered := s.answered ++ [(server.exec words s.server).1]
      fromServer := if s.lost then s.fromServer
        else s.fromServer ++ (server.exec words s.server).1.write} := by
    simp only [Link.step,split,read,wordsOf_request,Option.map_some]
  obtain ⟨later,more,after⟩ := serve_kept kept stepped
  refine ⟨_,stepped,rfl,⟨later,more,after,?_⟩,whole,open_⟩
  have before := waits_for kept open_
  have now := waits_for after open_
  have answered := kept.answered
  have answers := after.answered
  simp only [answered,List.append_assoc,List.append_cancel_left_eq] at answers
  rw [← answers] at now
  simp only [List.length_cons,List.length_append,List.length_nil] at before now ⊢
  omega

theorem read_near {server : Server σ} {s : Link σ}
    (kept : Kept server first unserved (reply :: unread) s) (running : s.task = some task)
    (whole : s.lost = false) (open_ : s.err = none) : ∃ t,s.step server .read = some t ∧
      Near server first (unserved.length+(task.left-1)) t := by
  have exact_ : Exact .eof readReply reply.write reply := exact_reply (kept.fits reply List.mem_cons_self)
  obtain ⟨missing,split,all⟩ := kept.fromServer
  cases all whole
  rw [List.append_nil,List.flatMap_cons] at split
  have read := exact_.whole (unread.flatMap Reply.write)
  obtain ⟨t,stepped,asked,lost,fault,left⟩ : ∃ t,s.step server .read = some t ∧
    t.answered = s.answered ∧ t.lost = s.lost ∧ t.err = s.err ∧
      (t.task.map Task.left).getD 0 = task.left-1 ∧ t.pending = s.pending ∧
        t.taken.length = s.taken.length+1 := by
    simp only [Link.step,running,split,read]
    split
    · rename_i last
      exact ⟨_,rfl,rfl,rfl,rfl,by simp [last],rfl,by simp⟩
    · exact ⟨_,rfl,rfl,rfl,rfl,rfl,rfl,by simp⟩
  obtain ⟨later,more,after⟩ := read_kept kept stepped
  obtain ⟨left,pending,taken⟩ := left
  refine ⟨t,stepped,⟨later,more,after,?_⟩,lost.trans whole,fault.trans open_⟩
  have before := waits_for kept open_
  have now := waits_for after (fault.trans open_)
  have answers := congrArg List.length (after.answered.symm.trans (asked.trans kept.answered))
  obtain ⟨some_,_⟩ := kept.task task running
  rw [running] at before
  simp only [List.length_append,List.length_cons,Option.map_some,Option.getD_some] at answers before
  rw [left] at now ⊢
  omega

theorem Near.progress {server : Server σ} {s : Link σ} (near : Near server first n s) : s.task = none ∨
    ∃ more t m,Transitions.Runs (Link.step server) (fun _ _ => True) s more t ∧
      Near server first m t ∧ m < n := by
  obtain ⟨⟨unserved,unread,kept,rfl⟩,whole,open_⟩ := near
  cases running : s.task with
  | none => exact Or.inl rfl
  | some task =>
    right
    obtain ⟨some_,_⟩ := kept.task task running
    cases unread with
    | cons reply unread =>
      obtain ⟨t,stepped,near⟩ := read_near kept running whole open_
      refine ⟨[.read],t,_,.single trivial stepped,near,?_⟩
      simp only [Option.map_some,Option.getD_some]
      omega
    | nil =>
      have waits := waits_for kept open_
      rw [running] at waits
      cases unserved with
      | nil =>
        simp only [List.length_nil,Option.map_some,Option.getD_some] at waits
        omega
      | cons words unserved =>
        obtain ⟨t,stepped,same,near⟩ := serve_near kept whole open_
        rw [running] at near
        refine ⟨[.serve],t,_,.single trivial stepped,near,?_⟩
        simp only [List.length_cons]
        omega

-- While the connection holds a call comes to its end, at the latest when the server has answered all.
theorem call_returns {server : Server σ} {s : Link σ}
    (ran : Transitions.run (Link.step server) (.start first) actions = some s)
    (whole : s.lost = false) : ∃ more t,Transitions.run (Link.step server) s more = some t ∧
    t.task = none ∧ t.err = none := by
  obtain ⟨unserved,unread,kept⟩ := run_kept ran
  have open_ : s.err = none := by
    by_contra broken
    exact absurd (whole.symm.trans (kept.closed broken).1) Bool.false_ne_true
  have here : Near server first (unserved.length+(s.task.map Task.left).getD 0) s :=
    ⟨⟨unserved,unread,kept,rfl⟩,whole,open_⟩
  obtain ⟨more,t,_,reached,near,ended⟩ := Transitions.reaches (fun _ _ => Near.progress) here
  exact ⟨more,t,reached.run,ended,near.open_⟩

theorem pipelined_call_returns :
    ∃ s : Link Nat,Transitions.run (Link.step counter) (.start 0) (pipelinedRun.take 4) = some s ∧
      s.lost = false ∧
    ∃ more t,Transitions.run (Link.step counter) s more = some t ∧ t.task = none ∧ t.err = none := by
  have ends : (Transitions.run (Link.step counter) (.start 0) (pipelinedRun.take 4)).map
      (fun s => s.lost) = some false := by
    decide +kernel
  obtain ⟨s,ran,whole⟩ := Option.map_eq_some_iff.mp ends
  exact ⟨s,ran,whole,call_returns ran whole⟩

-- A connection as the pool hands it out.
structure Quiet (s : Link σ) : Prop where
  pending : s.pending = 0
  task : s.task = none
  err : s.err = none
  lost : s.lost = false
  toServer : s.toServer = []
  fromServer : s.fromServer = []

theorem start_quiet (server : σ) : Quiet (.start server) := ⟨rfl,rfl,rfl,rfl,rfl,rfl⟩

-- Do from its call to its return.
def exchange (c : Command) : List Action := [.call c,.serve,.read]

-- On such a connection it is one command of the server and its reply.
theorem quiet_call (server : Server σ) {s : Link σ} (quiet : Quiet s) (c : Command) (named : c.cmd ≠ []) :
    let answer := server.exec c.words s.server
    ∃ t,Transitions.run (Link.step server) s (exchange c) = some t ∧ Quiet t ∧
      t.asked = s.asked ++ [c.words] ∧
      t.server = answer.2 ∧
      t.results = s.results ++ [.value s.taken.length s.asked.length answer.1 (firstError [answer.1])] := by
  intro answer
  obtain ⟨pending,task,err,lost,toServer,fromServer⟩ := quiet
  have asking : readRequest (writeCommand c.cmd c.args) = .ok (request c.words,[]) := by
    have whole := (exact_reply (request_fits c.sized)).whole []
    rwa [List.append_nil,← writeCommand_request] at whole
  have answering : readReply (server.exec c.words s.server).1.write =
      .ok ((server.exec c.words s.server).1,[]) := by
    have whole := (exact_reply (server.fits c.words s.server)).whole []
    rwa [List.append_nil] at whole
  let after : Link σ := {s with
    pending := 0,task := none,toServer := [],fromServer := [],server := answer.2,asked := s.asked ++ [c.words]
    answered := s.answered ++ [answer.1],taken := s.taken ++ [answer.1]
    results := s.results ++ [.value s.taken.length s.asked.length answer.1 (firstError [answer.1])]}
  refine ⟨after,?_,⟨rfl,rfl,err,lost,rfl,rfl⟩,rfl,rfl,rfl⟩
  simp [after,exchange,Transitions.run,Link.step,Link.write,Task.result,pending,task,err,lost,
    toServer,fromServer,named,
    asking,answering,wordsOf_request,answer]

end SqlReview.RedisConn
