import SqlReview.FingerprintQuotes
import SqlReview.Intake
import SqlReview.RedisLists
import SqlReview.Sampling

-- testSQL: dispatch, checkBranch and sendData, ExcuteUnique, and behind them the calls of importToRedis
-- and NewExplainData.
namespace SqlReview.Agent
open GoText GoBytes Records RedisStore UniqueQueue RedisLists Intake

structure Settings where
  app : Routing.AppConfig Text
  md5 : Text → Text
  env : Fingerprint.Env

def Settings.sampling (cfg : Settings) : Sampling.Settings := ⟨cfg.md5,cfg.app.redisSampling.toInt⟩

def Settings.branches (cfg : Settings) : Nat := cfg.app.branchActive.toInt.toNat

-- "SQL_" + strconv.Itoa(i)
def branch (i : Nat) : Text := text "SQL_" ++ Nat.toDigits 10 i

-- JsonDecode on bytes; its error is only logged.
def jsonDecode (data : Bytes) : SqlInfo := (Json.unmarshal Wire.sqlInfo (document data)).1

def replaceFound (s old new : Text) : Text := if index s old = none then s else replaceAll s old new

-- "\\u003c" is the escape as six characters, "<" is the sign.
def sampleInfo (info : Text) : Text :=
  replaceFound
    (replaceFound (replaceFound (replaceFound info (text "\\u003c") (text "<")) (text "\\u003e") (text ">"))
      (text "<") (text "<"))
    (text ">") (text ">")

-- What ExcuteUnique comes to: a panic of Fingerprint, which no recover has been deferred for, or the
-- arguments of importToRedis, if any. Fingerprint may cut a character, so the line has one for each byte.
inductive Outcome where
  | outOfRange
  | nothing
  | call (line : Text) (sql : SqlInfo)
  deriving DecidableEq

def excuteUnique (cfg : Settings) (sql : SqlInfo) : Outcome :=
  let sqlStr := FingerprintQuotes.sqlStr (utf8 sql.info)
  if sqlStr = [] then .nothing
  else match Fingerprint.fingerprint cfg.env sqlStr with
    | none => .outOfRange
    | some fingerprint => .call (latin (GoSpace.trimSpace fingerprint)) {sql with info := sampleInfo sql.info}

-- Why a message that was popped is not given to importToRedis.
inductive Cause where
  | unanswered | blank | unstated | unprinted | crashed
  deriving DecidableEq

-- Redis and the sampling, the goroutines of sendData by their branch, those of checkBranch by the branches
-- they have yet to count, and those of ExcuteUnique. `pushed`, `popped`, `handed` and `dropped` are not in
-- the program.
structure Process where
  system : Sampling.System
  workers : List Nat
  checks : List (List Nat)
  excutes : List (Bytes × SqlInfo)
  pushed : List (Nat × Bytes)
  popped : List (Nat × Bytes)
  handed : List (Bytes × Text × SqlInfo)
  dropped : List (Bytes × Cause)

-- A process on a Redis whose lists hold `old`; dispatch("ALL") has started one sendData for each branch.
def Process.start (cfg : Settings) (store : Store Text) (old : List (Nat × Bytes)) : Process :=
  ⟨{Sampling.System.start with store := store},List.range cfg.branches,[],[],old,[],[],[]⟩

-- `push` is the application under test.
inductive Action where
  | push (i : Nat) (body : Bytes)
  | check
  | count (k : Nat) (link : Link)
  | pop (k : Nat) (link : Link)
  | excute (k : Nat)
  | sample (action : Sampling.Action)
  | kill

def Process.store (s : Process) : Store Text := s.system.store

-- A panic or a kill: what Redis holds stays, and the process starts again.
def Process.crash (cfg : Settings) (s : Process) : Process := {s with
  system := {s.system with calls := [],channel := [],entries := fun _ => none,flushing := none}
  workers := List.range cfg.branches,checks := [],excutes := []
  dropped := s.dropped ++ s.excutes.map fun job => (job.1,.crashed)}

def Process.front (s : Process) (i : Nat) : Option Bytes :=
  ((s.store.list? (branch i)).bind List.head?).map unlatin

-- One round of the loop of sendData, which ends where ListPop returns ""; `rest` are the other goroutines.
def Process.pop (s : Process) (i : Nat) (link : Link) (rest : List Nat) : Process :=
  if link = .failed then {s with workers := rest}
  else
    let answer := listPop (branch i) s.store
    let gone := (s.front i).toList
    let t := {s with system := {s.system with store := answer.store},popped := s.popped ++ gone.map (i,·)}
    if link = .answered ∧ answer.resp ≠ [] then
      {t with excutes := s.excutes ++ [(unlatin answer.resp,jsonDecode (unlatin answer.resp))]}
    else {t with
      workers := rest
      dropped := s.dropped ++ gone.map fun body => (body,if link = .answered then .blank else .unanswered)}

-- ListCount returns 0 where no reply comes.
def Process.counted (s : Process) (i : Nat) (link : Link) : List Nat :=
  if link = .answered ∧ (listCount (branch i) s.store).resp ≠ 0 then s.workers ++ [i] else s.workers

-- importToRedis returns at once for an empty line.
def Process.excute (cfg : Settings) (s : Process) (body : Bytes) (sql : SqlInfo)
    (rest : List (Bytes × SqlInfo)) : Process :=
  match excuteUnique cfg sql with
  | .outOfRange => s.crash cfg
  | .nothing => {s with excutes := rest,dropped := s.dropped ++ [(body,.unstated)]}
  | .call line sql =>
    match s.system.step cfg.sampling (.start line sql) with
    | none => {s with excutes := rest,dropped := s.dropped ++ [(body,.unprinted)]}
    | some system => {s with system := system,excutes := rest,handed := s.handed ++ [(body,line,sql)]}

def Process.step (cfg : Settings) (s : Process) : Action → Option Process
  | .push i body => some {s with
      system := {s.system with store := (listPush (branch i) (latin body) s.store).store}
      pushed := s.pushed ++ [(i,body)]}
  | .check => some {s with checks := s.checks ++ [List.range cfg.branches]}
  | .count k link =>
    match s.checks[k]? with
    | none => none
    | some [] => some {s with checks := s.checks.take k ++ s.checks.drop (k+1)}
    | some (i :: rest) => some {s with
        checks := s.checks.take k ++ rest :: s.checks.drop (k+1),workers := s.counted i link}
  | .pop k link =>
    match s.workers[k]? with
    | none => none
    | some i => some (s.pop i link (s.workers.take k ++ s.workers.drop (k+1)))
  | .excute k =>
    match s.excutes[k]? with
    | none => none
    | some (body,sql) => some (s.excute cfg body sql (s.excutes.take k ++ s.excutes.drop (k+1)))
  | .sample (.start _ _) => none
  | .sample action => (s.system.step cfg.sampling action).map fun system => {s with system := system}
  | .kill => some (s.crash cfg)

-- The transitions one by one.
inductive Step (cfg : Settings) (s : Process) : Action → Process → Prop where
  | push : Step cfg s (.push i body) {s with
      system := {s.system with store := (listPush (branch i) (latin body) s.store).store}
      pushed := s.pushed ++ [(i,body)]}
  | check : Step cfg s .check {s with checks := s.checks ++ [List.range cfg.branches]}
  | checked : s.checks = l ++ [] :: r → Step cfg s (.count l.length link) {s with checks := l ++ r}
  | count : s.checks = l ++ (i :: rest) :: r → Step cfg s (.count l.length link) {s with
      checks := l ++ rest :: r,workers := s.counted i link}
  | pop : s.workers = l ++ i :: r → Step cfg s (.pop l.length link) (s.pop i link (l ++ r))
  | panic : s.excutes = l ++ (body,sql) :: r → excuteUnique cfg sql = .outOfRange →
      Step cfg s (.excute l.length) (s.crash cfg)
  | unstated : s.excutes = l ++ (body,sql) :: r → excuteUnique cfg sql = .nothing →
      Step cfg s (.excute l.length) {s with excutes := l ++ r,dropped := s.dropped ++ [(body,.unstated)]}
  | unprinted : s.excutes = l ++ (body,sql) :: r → excuteUnique cfg sql = .call [] sample →
      Step cfg s (.excute l.length) {s with excutes := l ++ r,dropped := s.dropped ++ [(body,.unprinted)]}
  | hand : s.excutes = l ++ (body,sql) :: r → excuteUnique cfg sql = .call line sample → line ≠ [] →
      Step cfg s (.excute l.length) {s with
        system := {s.system with calls := s.system.calls ++ [⟨Sampling.unescape line,sample,.push⟩]}
        excutes := l ++ r,handed := s.handed ++ [(body,line,sample)]}
  | sample : (∀ line sql,action ≠ .start line sql) → Sampling.Step cfg.sampling s.system action system →
      Step cfg s (.sample action) {s with system := system}
  | kill : Step cfg s .kill (s.crash cfg)

theorem excute_exact {s : Process} (excutes : s.excutes = l ++ (body,sql) :: r) :
    Step cfg s (.excute l.length) (s.excute cfg body sql (l ++ r)) := by
  unfold Process.excute
  cases outcome : excuteUnique cfg sql with
  | outOfRange => exact .panic excutes outcome
  | nothing => exact .unstated excutes outcome
  | call line sample =>
    by_cases empty : line = []
    · subst empty
      exact .unprinted excutes outcome
    · simp only [Sampling.System.step,if_neg empty]
      exact .hand excutes outcome empty

theorem step_exact {s t : Process} (stepped : s.step cfg action = some t) : Step cfg s action t := by
  cases action with
  | push i body =>
    cases Option.some.inj stepped
    exact .push
  | check =>
    cases Option.some.inj stepped
    exact .check
  | count k link =>
    simp only [Process.step] at stepped
    split at stepped
    · cases stepped
    · rename_i found
      obtain ⟨l,r,checks,rfl,left,right⟩ := Transitions.split_at found
      rw [left,right] at stepped
      cases Option.some.inj stepped
      exact .checked checks
    · rename_i i rest found
      obtain ⟨l,r,checks,rfl,left,right⟩ := Transitions.split_at found
      rw [left,right] at stepped
      cases Option.some.inj stepped
      exact .count checks
  | pop k link =>
    simp only [Process.step] at stepped
    split at stepped
    · cases stepped
    · rename_i i found
      obtain ⟨l,r,workers,rfl,left,right⟩ := Transitions.split_at found
      rw [left,right] at stepped
      cases Option.some.inj stepped
      exact .pop workers
  | excute k =>
    simp only [Process.step] at stepped
    split at stepped
    · cases stepped
    · rename_i body sql found
      obtain ⟨l,r,excutes,rfl,left,right⟩ := Transitions.split_at found
      rw [left,right] at stepped
      cases Option.some.inj stepped
      exact excute_exact excutes
  | sample action =>
    cases action with
    | start line sql => cases stepped
    | _ =>
      obtain ⟨system,advanced,rfl⟩ := Option.map_eq_some_iff.mp stepped
      exact .sample (by simp) (Sampling.step_exact advanced)
  | kill =>
    cases Option.some.inj stepped
    exact .kill

end SqlReview.Agent
