import SqlReview.Intake
import SqlReview.RedisConn
import SqlReview.RedisLists
import SqlReview.Sampling

-- redis.Script and the calls of the application, down to the bytes on the connection.
namespace SqlReview.RedisScripts
open GoBytes GoText RedisStore Resp RedisConn Intake

-- The texts SCRIPT_LIST_PUSH to SCRIPT_LIST_POP, SCRIPT_PUSH and SCRIPT_POP.
inductive Script where
  | listPush | get | set | del | listCount | listPop | push | pop
  deriving DecidableEq

def Script.all : List Script := [.listPush,.get,.set,.del,.listCount,.listPop,.push,.pop]

def Script.src : Script → Bytes
  | .listPush => str "\nlocal q = KEYS[1]\nreturn redis.call(\"RPUSH\", q, ARGV[1])\n"
  | .get => str "\nlocal q = KEYS[1]\nreturn redis.call(\"GET\", q)\n"
  | .set => str "\nlocal q = KEYS[1]\nreturn redis.call(\"SET\", q, ARGV[1])\n"
  | .del => str "\nlocal q = KEYS[1]\nreturn redis.call(\"DEL\", q)\n"
  | .listCount => str "\nlocal q = KEYS[1]\nreturn redis.call(\"LLEN\", q)\n"
  | .listPop =>
    str "\nlocal q = KEYS[1]\nlocal v = redis.call(\"LPOP\", q)\nif v ~= \"\"\nthen\n\treturn v\nend\nreturn 0\n"
  | .push =>
    str "\nlocal q = KEYS[1]\nlocal q_set = KEYS[1] .. \"_set\"\nlocal v = redis.call(\"SADD\", q_set, ARGV[1])\n" ++
      str "if v == 1\nthen\n\treturn redis.call(\"RPUSH\", q, ARGV[1]) and 1\nelse\n\treturn 0\nend\n"
  | .pop =>
    str "\nlocal q = KEYS[1]\nlocal q_set = KEYS[1] .. \"_set\"\nlocal v = redis.call(\"LPOP\", q)\n" ++
      str "if v ~= \"\"\nthen\n\tredis.call(\"SREM\", q_set, v)\nend\nreturn v\n"

-- KEYS[1] or ARGV[1]; nil is no argument of a command.
def word : List Bytes → RedisStore.Command Text Text
  | [] => throw .badArgument
  | w :: _ => pure (latin w)

def numberReply (n : Nat) : Reply := .integer (Int64.ofNat n)

-- No text of Redis is longer than what the other side can make room for.
def textReply (t : Text) : Reply :=
  if (unlatin t).length ≤ maxAlloc then .bulk (unlatin t)
    else .error (str "ERR string exceeds maximum allowed size")

-- nil is false in Lua, which differs from "".
def popReply : Option Text → Reply
  | none => .null
  | some v => if v ≠ [] then textReply v else numberReply 0

-- What a script makes of its keys and arguments, as a reply.
def Script.eval (keys args : List Bytes) : Script → RedisStore.Command Text Reply
  | .listPush => do return numberReply (← rpush (← word keys) (← word args))
  | .get => do return ((← RedisStore.get (← word keys)).map textReply).getD .null
  | .set => do
    let _ ← RedisStore.set (← word keys) (← word args)
    return .status (str "OK")
  | .del => do return numberReply (← RedisStore.del (← word keys))
  | .listCount => do return numberReply (← llen (← word keys))
  | .listPop => do return popReply (← lpop (← word keys))
  | .push => do return numberReply (← UniqueQueue.scriptPush (← word keys) (← word args))
  | .pop => do return ((← UniqueQueue.scriptPop (← word keys)).map textReply).getD .null

-- What Redis is free to choose: the texts of its errors. No error of a script starts like that of
-- EVALSHA for a script that is not there.
structure Redis where
  sha1 : Bytes → Bytes
  digest : ∀ data,(sha1 data).length = 40
  apart : ∀ a b : Script,sha1 a.src = sha1 b.src → a = b
  message : Fault → Bytes
  plain : ∀ fault,byte '\n' ∉ message fault
  own : ∀ fault,(str "NOSCRIPT ").isPrefixOf (message fault) = false

structure Data where
  store : Store Text
  loaded : Script → Bool

def Redis.run (redis : Redis) (script : Script) (keys args : List Bytes) (data : Data) : Reply × Data :=
  let loaded := fun other => data.loaded other || decide (other = script)
  match script.eval keys args data.store with
  | .ok reply store => (reply,⟨store,loaded⟩)
  | .error fault store => (.error (redis.message fault),⟨store,loaded⟩)

def noScript : Bytes := str "NOSCRIPT No matching script. Please use EVAL."

def Redis.exec (redis : Redis) (words : List Bytes) (data : Data) : Reply × Data :=
  match words with
  | cmd :: spec :: count :: rest =>
    let n := (GoNumber.parseInt count).1.toNat
    if cmd = str "EVALSHA" then
      match Script.all.find? fun script => data.loaded script && decide (redis.sha1 script.src = spec) with
      | none => (.error noScript,data)
      | some script => redis.run script (rest.take n) (rest.drop n) data
    else if cmd = str "EVAL" then
      match Script.all.find? fun script => decide (script.src = spec) with
      | none => (.error (str "ERR Error compiling script"),data)
      | some script => redis.run script (rest.take n) (rest.drop n) data
    else (.error (str "ERR unknown command"),data)
  | _ => (.error (str "ERR unknown command"),data)

-- Script.args
def scriptArgs (keyCount : Int64) (spec : Bytes) (keysAndArgs : List Arg) : List Arg :=
  if keyCount < 0 then .string spec :: keysAndArgs else .string spec :: .int keyCount :: keysAndArgs

-- Do on a connection without pending replies.
def ask (redis : Redis) (cmd : Bytes) (args : List Arg) (data : Data) : (Reply × Option Bytes) × Data :=
  let answer := redis.exec (commandOf cmd args) data
  ((answer.1,firstError [answer.1]),answer.2)

-- Script.Do
def Script.perform (redis : Redis) (script : Script) (keysAndArgs : List Arg) (data : Data) :
    (Reply × Option Bytes) × Data :=
  let first := ask redis (str "EVALSHA") (scriptArgs 1 (redis.sha1 script.src) keysAndArgs) data
  match first.1.2 with
  | none => first
  | some err =>
    if (str "NOSCRIPT ").isPrefixOf err then ask redis (str "EVAL")
      (scriptArgs 1 script.src keysAndArgs) first.2 else first

section Once
-- A reply that fits the protocol and is not mistaken for the one to a script that is not there.
structure Proper (reply : Reply) : Prop where
  fits : Fits reply
  own : ∀ err,reply = .error err → (str "NOSCRIPT ").isPrefixOf err = false

theorem number_proper (n : Nat) : Proper (numberReply n) := ⟨.integer,by simp [numberReply]⟩

theorem null_proper : Proper .null := ⟨.null,by simp⟩

theorem textReply_proper (t : Text) : Proper (textReply t) := by
  unfold textReply
  split
  · rename_i short
    have counts : Counts (some maxAlloc) 1 (unlatin t).length :=
      ⟨Nat.lt_of_le_of_lt short (by decide),by simpa using short⟩
    exact ⟨.bulk counts,by simp⟩
  · refine ⟨.error (by decide),fun err same => ?_⟩
    cases Reply.error.inj same
    decide

theorem optional_proper (t : Option Text) : Proper ((t.map textReply).getD .null) := by
  cases t with
  | none => exact null_proper
  | some t => exact textReply_proper t

theorem popReply_proper (v : Option Text) : Proper (popReply v) := by
  cases v with
  | none => exact null_proper
  | some v =>
    simp only [popReply]
    split
    · exact textReply_proper v
    · exact number_proper 0

def Answers (command : RedisStore.Command Text Reply) : Prop :=
  ∀ s reply t,command s = .ok reply t → Proper reply

theorem Answers.pure (proper : Proper reply) : Answers (pure reply) := by
  intro s other t ends
  cases ends
  exact proper

theorem Answers.bind {command : RedisStore.Command Text α}
    {next : α → RedisStore.Command Text Reply} (later : ∀ x,Answers (next x)) :
    Answers (command >>= next) := by
  intro s reply t ends
  change EStateM.bind command next s = _ at ends
  unfold EStateM.bind at ends
  split at ends
  · exact later _ _ _ _ ends
  · cases ends

theorem eval_answers (keys args : List Bytes) (script : Script) : Answers (script.eval keys args) := by
  cases script with
  | listPush => exact .bind fun q => .bind fun v => .bind fun n => .pure (number_proper n)
  | get => exact .bind fun q => .bind fun t => .pure (optional_proper t)
  | set => exact .bind fun q => .bind fun v => .bind fun _ => .pure ⟨.status (by decide),by simp⟩
  | del => exact .bind fun q => .bind fun n => .pure (number_proper n)
  | listCount => exact .bind fun q => .bind fun n => .pure (number_proper n)
  | listPop => exact .bind fun q => .bind fun v => .pure (popReply_proper v)
  | push => exact .bind fun q => .bind fun v => .bind fun n => .pure (number_proper n)
  | pop => exact .bind fun q => .bind fun t => .pure (optional_proper t)

theorem run_proper (redis : Redis) (script : Script) (keys args : List Bytes) (data : Data) :
    Proper (redis.run script keys args data).1 := by
  unfold Redis.run
  dsimp only
  split
  · rename_i ends
    exact eval_answers keys args script _ _ _ ends
  · refine ⟨.error (redis.plain _),fun err same => ?_⟩
    cases Reply.error.inj same
    exact redis.own _

theorem exec_fits (redis : Redis) (words : List Bytes) (data : Data) : Fits (redis.exec words data).1 := by
  unfold Redis.exec
  split
  · dsimp only
    split
    · split
      · exact .error (by decide)
      · exact (run_proper redis _ _ _ _).fits
    · split
      · split
        · exact .error (by decide)
        · exact (run_proper redis _ _ _ _).fits
      · exact .error (by decide)
  · exact .error (by decide)

def Redis.server (redis : Redis) : Server Data := ⟨redis.exec,exec_fits redis⟩

theorem all_scripts (script : Script) : script ∈ Script.all := by cases script <;> decide

theorem src_injective (a b : Script) (same : a.src = b.src) : a = b := by
  have distinct : (Script.all.map Script.src).Nodup := by decide +kernel
  exact List.inj_on_of_nodup_map distinct (all_scripts a) (all_scripts b) same

theorem find_script {p : Script → Bool} (found : p script = true)
    (only : ∀ other,p other = true → other = script) :
    Script.all.find? p = some script := by
  cases searched : Script.all.find? p with
  | none =>
    have missed := List.find?_eq_none.mp searched script (all_scripts script)
    exact absurd found missed
  | some other => rw [only other (List.find?_some searched)]

theorem scriptWords (cmd spec q : Bytes) (args : List Bytes) :
    commandOf cmd (scriptArgs 1 spec (.string q :: args.map .string)) = cmd :: spec :: str "1" ::
      q :: args := by
  have one : GoNumber.itoa (1 : Int64).toInt = str "1" := by decide
  have texts : (args.map Arg.string).map (Arg.text true) = args := by
    rw [List.map_map]
    exact List.map_id' args
  rw [scriptArgs,if_neg (by decide),commandOf]
  simp only [List.map_cons,Arg.text,one,texts]

theorem exec_eval (redis : Redis) (script : Script) (q : Bytes) (args : List Bytes) (data : Data) :
    redis.exec (str "EVAL" :: script.src :: str "1" :: q :: args) data = redis.run script [q] args data := by
  have count : (GoNumber.parseInt (str "1")).1.toNat = 1 := by decide
  have found : Script.all.find? (fun other => decide (other.src = script.src)) = some script :=
    find_script (decide_eq_true rfl) fun other same => src_injective _ _ (of_decide_eq_true same)
  simp only [Redis.exec,count,found]
  rw [if_neg (by decide),if_pos trivial]
  rfl

theorem exec_evalsha (redis : Redis) (script : Script) (q : Bytes) (args : List Bytes) (data : Data) :
    redis.exec (str "EVALSHA" :: redis.sha1 script.src :: str "1" :: q :: args) data =
      if data.loaded script then redis.run script [q] args data else (.error noScript,data) := by
  have count : (GoNumber.parseInt (str "1")).1.toNat = 1 := by decide
  simp only [Redis.exec,count]
  rw [if_pos trivial]
  have only (other : Script)
      (same : (data.loaded other && decide (redis.sha1 other.src = redis.sha1 script.src)) =
      true) : other = script :=
    redis.apart _ _ (of_decide_eq_true (Bool.and_eq_true_iff.mp same).2)
  cases loaded : data.loaded script with
  | true =>
    rw [find_script (by simp [loaded]) only]
    rfl
  | false =>
    have none_ : Script.all.find? (fun other => data.loaded other &&
        decide (redis.sha1 other.src = redis.sha1 script.src)) = none := by
      refine List.find?_eq_none.mpr fun other _ same => ?_
      cases only other same
      rw [loaded] at same
      cases same
    rw [none_]
    rfl

-- Script.Do runs the script once, whether or not the server has it.
theorem perform_once (redis : Redis) (script : Script) (q : Bytes) (args : List Bytes) (data : Data) :
    script.perform redis (.string q :: args.map .string) data =
      (((redis.run script [q] args data).1,firstError [(redis.run script [q] args data).1]),
      (redis.run script [q] args data).2) := by
  have proper := run_proper redis script [q] args data
  simp only [Script.perform,ask,scriptWords,exec_evalsha,exec_eval]
  cases loaded : data.loaded script with
  | false =>
    have missing : (str "NOSCRIPT ").isPrefixOf noScript = true := by decide
    simp only [Bool.false_eq_true,if_false,firstError,List.findSome?_cons,missing,if_true]
  | true =>
    simp only [if_true]
    cases reply : (redis.run script [q] args data).1 with
    | error err => simp [firstError,proper.own err reply]
    | _ => simp [firstError]
end Once

inductive CallError where
  | redis (message : Bytes)
  | number (err : GoNumber.NumError)
  | errNil
  | unexpected (message : Text)
  deriving DecidableEq

-- redis.Int
def intOf : Reply × Option Bytes → Int × Option CallError
  | (_,some err) => (0,some (.redis err))
  | (.integer n,none) => (n.toInt,none)
  | (.bulk p,none) => ((GoNumber.parseInt p).1,(GoNumber.parseInt p).2.map .number)
  | (.null,none) => (0,some .errNil)
  | (.error err,none) => (0,some (.redis err))
  | (.status _,none) => (0,some (.unexpected (text "redigo: unexpected type for Int, got type string")))
  | (.array _,none) =>
    (0,some (.unexpected (text "redigo: unexpected type for Int, got type []interface \x7b\x7d")))

-- redis.String
def stringOf : Reply × Option Bytes → Bytes × Option CallError
  | (_,some err) => ([],some (.redis err))
  | (.bulk p,none) => (p,none)
  | (.status s,none) => (s,none)
  | (.null,none) => ([],some .errNil)
  | (.error err,none) => ([],some (.redis err))
  | (.integer _,none) => ([],some (.unexpected (text "redigo: unexpected type for String, got type int64")))
  | (.array _,none) =>
    ([],some (.unexpected (text "redigo: unexpected type for String, got type []interface \x7b\x7d")))

def hideNil (answer : α × Option CallError) : α × Option CallError :=
  if answer.2 = some .errNil then (answer.1,none) else answer

def callInt (redis : Redis) (script : Script) (q : Bytes) (args : List Bytes) (data : Data) :
    (Int × Option CallError) × Data :=
  let answer := script.perform redis (.string q :: args.map .string) data
  (hideNil (intOf answer.1),answer.2)

def callString (redis : Redis) (script : Script) (q : Bytes) (args : List Bytes) (data : Data) :
    (Bytes × Option CallError) × Data :=
  let answer := script.perform redis (.string q :: args.map .string) data
  (hideNil (stringOf answer.1),answer.2)

def listPush (redis : Redis) (q body : Bytes) := callInt redis .listPush q [body]
def listPop (redis : Redis) (q : Bytes) := callString redis .listPop q []
def listCount (redis : Redis) (q : Bytes) := callInt redis .listCount q []
def getKey (redis : Redis) (q : Bytes) := callString redis .get q []
def delKey (redis : Redis) (q : Bytes) := callString redis .del q []
def setKey (redis : Redis) (q body : Bytes) := callInt redis .set q [body]
def uniquePush (redis : Redis) (q body : Bytes) := callInt redis .push q [body]
def uniquePop (redis : Redis) (q : Bytes) := callString redis .pop q []

section Calls
variable {redis : Redis} {data : Data} {script : Script} {q : Bytes} {args : List Bytes}

theorem ran_ok {command : RedisStore.Command Text α} {next : α → RedisStore.Command Text β}
    (ends : command s = .ok x t) :
    (command >>= next) s = next x t := by
  change EStateM.bind command next s = _
  unfold EStateM.bind
  rw [ends]

theorem ran_fault {command : RedisStore.Command Text α} {next : α → RedisStore.Command Text β}
    (ends : command s = .error fault t) :
    (command >>= next) s = .error fault t := by
  change EStateM.bind command next s = _
  unfold EStateM.bind
  rw [ends]

theorem callInt_ok (redis : Redis) (ends : script.eval [q] args data.store = .ok reply store) :
    (callInt redis script q args data).1 = hideNil (intOf (reply,firstError [reply])) ∧
      (callInt redis script q args data).2.store = store := by
  simp only [callInt,perform_once,Redis.run,ends,and_self]

theorem callInt_fault (redis : Redis) (ends : script.eval [q] args data.store = .error fault store) :
    (callInt redis script q args data).1 = (0,some (.redis (redis.message fault))) ∧
      (callInt redis script q args data).2.store = store := by
  simp only [callInt,perform_once,Redis.run,ends,and_true]
  rfl

theorem callString_ok (redis : Redis) (ends : script.eval [q] args data.store = .ok reply store) :
    (callString redis script q args data).1 = hideNil (stringOf (reply,firstError [reply])) ∧
    (callString redis script q args data).2.store = store := by
  simp only [callString,perform_once,Redis.run,ends,and_self]

theorem callString_fault (redis : Redis) (ends : script.eval [q] args data.store = .error fault store) :
    (callString redis script q args data).1 = ([],some (.redis (redis.message fault))) ∧
    (callString redis script q args data).2.store = store := by
  simp only [callString,perform_once,Redis.run,ends,and_true]
  rfl

-- Results with the same texts and errors, and the same store.
def SameInt (redis : Redis) (result : (Int × Option CallError) × Data)
    (answer : UniqueQueue.Answer Nat) : Prop :=
  result.1 = ((answer.resp : Int),answer.err.map fun fault => .redis (redis.message fault)) ∧
    result.2.store = answer.store

def errorOf (redis : Redis) : RedisLists.ReplyError → CallError
  | .fault fault => .redis (redis.message fault)
  | .notString => .unexpected (text "redigo: unexpected type for String, got type int64")

def SameText (redis : Redis) (result : (Bytes × Option CallError) × Data)
    (answer : RedisLists.Popped) : Prop :=
  latin result.1.1 = answer.resp ∧ result.1.2 = answer.err.map (errorOf redis) ∧ result.2.store = answer.store

-- A call that answers with the number of a command.
def numberAnswer (command : RedisStore.Command Text Nat) (s : Store Text) : UniqueQueue.Answer Nat :=
  match command s with
  | .ok resp s => ⟨resp,none,s⟩
  | .error fault s => ⟨0,some fault,s⟩

theorem callInt_number (redis : Redis) {command : RedisStore.Command Text Nat}
    (small : (numberAnswer command data.store).resp < 2^63)
    (evals : script.eval [q] args data.store = (command >>= fun n => pure (numberReply n)) data.store) :
    SameInt redis (callInt redis script q args data) (numberAnswer command data.store) := by
  unfold numberAnswer at small ⊢
  cases ends : command data.store with
  | ok n s =>
    rw [ends] at small
    have value : (Int64.ofNat n).toInt = n := Int64.toInt_ofNat_of_lt small
    have read : hideNil (intOf (numberReply n,firstError [numberReply n])) = ((n : Int),none) := by
      simp [numberReply,firstError,intOf,hideNil,value]
    obtain ⟨answer,store⟩ := callInt_ok redis (evals.trans (ran_ok ends))
    exact ⟨answer.trans read,store⟩
  | error fault s => exact callInt_fault redis (evals.trans (ran_fault ends))

-- A text that came over a connection.
def Sent (t : Text) : Prop := ∃ bytes,t = latin bytes ∧ bytes.length ≤ maxAlloc

-- A call that answers with a text, or with nil.
def textAnswer (command : RedisStore.Command Text (Option Text)) (s : Store Text) : RedisLists.Popped :=
  match command s with
  | .ok resp s => ⟨resp.getD [],none,s⟩
  | .error fault s => ⟨[],some (.fault fault),s⟩

theorem sent_read (sent : Sent t) :
    ∃ bytes,t = latin bytes ∧ hideNil (stringOf (textReply t,firstError [textReply t])) = (bytes,none) := by
  obtain ⟨bytes,rfl,small⟩ := sent
  refine ⟨bytes,rfl,?_⟩
  rw [textReply,unlatin_latin,if_pos small]
  rfl

theorem callString_text (redis : Redis) {command : RedisStore.Command Text (Option Text)}
    (sent : ∀ t s,command data.store = .ok (some t) s → Sent t)
    (evals : script.eval [q] args data.store =
    (command >>= fun t => pure ((t.map textReply).getD .null)) data.store) :
    SameText redis (callString redis script q args data) (textAnswer command data.store) := by
  unfold textAnswer
  cases ends : command data.store with
  | ok found s =>
    obtain ⟨answer,store⟩ := callString_ok redis (evals.trans (ran_ok ends))
    cases found with
    | none =>
      rw [SameText,answer]
      exact ⟨rfl,rfl,store⟩
    | some t =>
      obtain ⟨bytes,rfl,read⟩ := sent_read (sent t s ends)
      rw [SameText,answer]
      change latin (hideNil
        (stringOf (textReply (latin bytes),firstError [textReply (latin bytes)]))).1 = _ ∧ _
      rw [read]
      exact ⟨rfl,congrArg Prod.snd read,store⟩
  | error fault s =>
    obtain ⟨answer,store⟩ := callString_fault redis (evals.trans (ran_fault ends))
    rw [SameText,answer]
    exact ⟨rfl,rfl,store⟩

-- LPOP of a list whose items were sent.
theorem lpop_sent {key : Text} {store : Store Text}
    (sent : ∀ items,store.list? key = some items → ∀ item ∈ items,Sent item)
    (ends : lpop key store = .ok (some t) s) : Sent t := by
  unfold lpop at ends
  split at ends
  · cases ends
  · cases ends
  · rename_i item items held
    cases ends
    exact sent _ held _ List.mem_cons_self

theorem listPop_same (redis : Redis) (sent : ∀ items,data.store.list? (latin q) = some items →
    ∀ item ∈ items,Sent item) :
    SameText redis (listPop redis q data) (RedisLists.listPop (latin q) data.store) := by
  unfold RedisLists.listPop
  cases ends : lpop (latin q) data.store with
  | ok found s =>
    have evals : Script.listPop.eval [q] [] data.store = .ok (popReply found) s :=
      (ran_ok rfl).trans (ran_ok ends)
    obtain ⟨answer,store⟩ := callString_ok redis evals
    rw [SameText,listPop,answer]
    cases found with
    | none => exact ⟨rfl,rfl,store⟩
    | some v =>
      cases v with
      | nil => exact ⟨rfl,rfl,store⟩
      | cons c v =>
        obtain ⟨bytes,same,read⟩ := sent_read (lpop_sent sent ends)
        have reply : popReply (some (c :: v)) = textReply (c :: v) := by simp [popReply]
        rw [reply,read]
        exact ⟨same.symm,rfl,store⟩
  | error fault s =>
    have evals : Script.listPop.eval [q] [] data.store = .error fault s := (ran_ok rfl).trans (ran_fault ends)
    obtain ⟨answer,store⟩ := callString_fault redis evals
    rw [SameText,listPop,answer]
    exact ⟨rfl,rfl,store⟩

-- What the calls of the application are given: texts that fit into a reply, and lists that can be counted.
structure Usual (s : Store Text) : Prop where
  counts : ∀ key items,s.list? key = some items → items.length+1 < 2^63
  items : ∀ key items,s.list? key = some items → ∀ item ∈ items,Sent item
  strings : ∀ key t,s key = some (.string t) → Sent t

theorem listPush_same (redis : Redis) (usual : Usual data.store) (body : Bytes) :
    SameInt redis (listPush redis q body data) (RedisLists.listPush (latin q) (latin body) data.store) := by
  have same : RedisLists.listPush (latin q) (latin body) data.store =
      numberAnswer (rpush (latin q) (latin body)) data.store :=
    rfl
  have zero : 0 < 2^63 := by decide
  rw [same]
  refine callInt_number redis ?_ ((ran_ok rfl).trans (ran_ok rfl))
  unfold numberAnswer rpush
  cases held : data.store.list? (latin q) with
  | none => exact zero
  | some items => exact usual.counts _ _ held

theorem listCount_same (redis : Redis) (usual : Usual data.store) :
    SameInt redis (listCount redis q data) (RedisLists.listCount (latin q) data.store) := by
  have same : RedisLists.listCount (latin q) data.store = numberAnswer (llen (latin q)) data.store := rfl
  have zero : 0 < 2^63 := by decide
  rw [same]
  refine callInt_number redis ?_ (ran_ok rfl)
  unfold numberAnswer llen
  cases held : data.store.list? (latin q) with
  | none => exact zero
  | some items => exact Nat.lt_of_succ_lt (usual.counts _ _ held)

theorem uniquePush_same (redis : Redis) (body : Bytes) :
    SameInt redis (uniquePush redis q body data)
      (UniqueQueue.uniquePush (latin q) (latin body) data.store) := by
  have same : UniqueQueue.uniquePush (latin q) (latin body) data.store =
      numberAnswer (UniqueQueue.scriptPush (latin q) (latin body)) data.store :=
    rfl
  have zero : 0 < 2^63 := by decide
  have one : 1 < 2^63 := by decide
  have small : (UniqueQueue.uniquePush (latin q) (latin body) data.store).resp < 2^63 :=
    UniqueQueue.uniquePush_cases (motive := fun answer => answer.resp < 2^63) _ _ _ (fun _ => zero)
      (fun _ _ _ => zero)
      (fun _ _ _ _ _ => one) (fun _ _ _ _ => zero)
  rw [same] at small ⊢
  exact callInt_number redis small ((ran_ok rfl).trans (ran_ok rfl))

theorem scriptPop_sent {key : Text} {store : Store Text}
    (sent : ∀ items,store.list? key = some items → ∀ item ∈ items,Sent item)
    (ends : UniqueQueue.scriptPop key store = .ok (some t) s) : Sent t := by
  cases popped : lpop key store with
  | error fault s =>
    rw [UniqueQueue.scriptPop,ran_fault popped] at ends
    cases ends
  | ok v left =>
    rw [UniqueQueue.scriptPop,ran_ok popped] at ends
    cases v with
    | none => cases ends
    | some body =>
      have own : t = body := by
        cases body with
        | nil =>
          cases ends
          rfl
        | cons c body =>
          cases removed : srem (UniqueQueue.getQueueSet key) (c :: body) left with
          | ok n after =>
            have whole := (ran_ok removed).symm.trans ends
            cases whole
            rfl
          | error fault after =>
            have whole := (ran_fault removed).symm.trans ends
            cases whole
      rw [own]
      exact lpop_sent sent popped

theorem uniquePop_same (redis : Redis) (usual : Usual data.store) :
    latin (uniquePop redis q data).1.1 = (UniqueQueue.uniquePop (latin q) data.store).resp ∧
    (uniquePop redis q data).1.2 = (UniqueQueue.uniquePop (latin q) data.store).err.map
      (fun fault => .redis (redis.message fault)) ∧
    (uniquePop redis q data).2.store = (UniqueQueue.uniquePop (latin q) data.store).store := by
  have evals : Script.pop.eval [q] [] data.store =
      (UniqueQueue.scriptPop (latin q) >>= fun t =>
        pure ((t.map textReply).getD .null)) data.store := ran_ok rfl
  obtain ⟨resp,err,store⟩ := callString_text redis (fun t s ends => scriptPop_sent (usual.items _) ends) evals
  unfold textAnswer at resp err store
  unfold UniqueQueue.uniquePop
  cases ends : UniqueQueue.scriptPop (latin q) data.store with
  | ok found s =>
    rw [ends] at resp err store
    exact ⟨resp,err,store⟩
  | error fault s =>
    rw [ends] at resp err store
    exact ⟨resp,err,store⟩

theorem getKey_same (redis : Redis) (usual : Usual data.store) :
    latin (getKey redis q data).1.1 = Sampling.getKey (latin q) data.store ∧
    (getKey redis q data).2.store = data.store := by
  have sent (t : Text) (s : Store Text) (ends : RedisStore.get (latin q) data.store =
      .ok (some t) s) : Sent t := by
    unfold RedisStore.get at ends
    split at ends
    · cases ends
    · rename_i held
      cases ends
      exact usual.strings _ _ held
    · cases ends
  have evals : Script.get.eval [q] [] data.store =
      (RedisStore.get (latin q) >>= fun t => pure ((t.map textReply).getD .null)) data.store := ran_ok rfl
  obtain ⟨resp,_,store⟩ := callString_text redis sent evals
  unfold textAnswer at resp store
  unfold Sampling.getKey
  cases ends : RedisStore.get (latin q) data.store with
  | ok found s =>
    rw [ends] at resp store
    refine ⟨resp,store.trans ?_⟩
    unfold RedisStore.get at ends
    split at ends <;> cases ends <;> rfl
  | error fault s =>
    rw [ends] at resp store
    refine ⟨resp,store.trans ?_⟩
    unfold RedisStore.get at ends
    split at ends <;> cases ends
    rfl

-- SetKey and DelKey ask for a number where the reply is "OK", and for a text where it is a number.
theorem setKey_same (redis : Redis) (body : Bytes) :
    (setKey redis q body data).2.store = Sampling.setKey (latin q) (latin body) data.store ∧
    (setKey redis q body data).1 =
      (0,some (.unexpected (text "redigo: unexpected type for Int, got type string"))) := by
  have evals : Script.set.eval [q] [body] data.store =
      .ok (.status (str "OK")) (Sampling.setKey (latin q) (latin body) data.store) :=
    (ran_ok rfl).trans ((ran_ok rfl).trans (ran_ok rfl))
  obtain ⟨answer,store⟩ := callInt_ok redis evals
  exact ⟨store,answer⟩

theorem delKey_same (redis : Redis) : (delKey redis q data).2.store = Sampling.delKey (latin q) data.store ∧
    (delKey redis q data).1 =
      ([],some (.unexpected (text "redigo: unexpected type for String, got type int64"))) := by
  have evals : Script.del.eval [q] [] data.store =
      .ok (numberReply (if (data.store (latin q)).isSome then 1 else 0))
        (Sampling.delKey (latin q) data.store) := (ran_ok rfl).trans (ran_ok rfl)
  obtain ⟨answer,store⟩ := callString_ok redis evals
  exact ⟨store,answer⟩

end Calls

-- Arguments of a size that a command can have.
structure Short (q : Bytes) (args : List Bytes) : Prop where
  key : q.length < 2^63
  each : ∀ arg ∈ args,arg.length < 2^63
  count : args.length+4 < 2^63

theorem Short.sized {cmd spec : Bytes} (short : Short q args) (first : cmd.length < 2^63)
    (second : spec.length < 2^63) :
    Sized (commandOf cmd (scriptArgs 1 spec (.string q :: args.map .string))) := by
  rw [scriptWords]
  refine ⟨short.count,?_⟩
  simp only [List.forall_mem_cons]
  exact ⟨first,second,by decide,short.key,short.each⟩

theorem src_short (script : Script) : script.src.length < 2^63 := by cases script <;> decide +kernel

-- The error that Script.Do looks for.
def unknown : Option Result → Bool
  | some (.value _ _ _ (some err)) => (str "NOSCRIPT ").isPrefixOf err
  | _ => false

theorem Proper.known (proper : Proper reply) (start k : Nat) :
    unknown (some (.value start k reply (firstError [reply]))) = false := by
  cases reply with
  | error err => exact proper.own err rfl
  | _ => rfl

section
variable (redis : Redis) (script : Script) (short : Short q args)

-- Its two commands.
def evalsha : RedisConn.Command :=
  ⟨str "EVALSHA",scriptArgs 1 (redis.sha1 script.src) (.string q :: args.map .string),
    short.sized (by decide) (by
    rw [redis.digest]
    decide)⟩

def eval : RedisConn.Command :=
  ⟨str "EVAL",scriptArgs 1 script.src (.string q :: args.map .string),
    short.sized (by decide) (src_short script)⟩

-- Script.Do over a connection.
def doOver (s : Link Data) : Option (Link Data) :=
  (Transitions.run (Link.step redis.server) s (exchange (evalsha redis script short))).bind fun t =>
    if unknown t.results.getLast? then Transitions.run (Link.step redis.server) t
      (exchange (eval script short))
    else some t

theorem evalsha_exec (data : Data) : redis.server.exec (evalsha redis script short).words data =
    if data.loaded script then redis.run script [q] args data else (.error noScript,data) :=
  (congrArg (redis.exec · data) (scriptWords _ _ _ _)).trans (exec_evalsha redis script q args data)

theorem eval_exec (data : Data) : redis.server.exec (eval script short).words data =
    redis.run script [q] args data :=
  (congrArg (redis.exec · data) (scriptWords _ _ _ _)).trans (exec_eval redis script q args data)

theorem run_loads (data : Data) : (redis.run script [q] args data).2.loaded script = true := by
  unfold Redis.run
  dsimp only
  split <;> simp

-- It asks for the script by its digest and, only where the server does not have it, sends it. The script runs
-- once, and Do returns the reply of that run, as it does on the server alone.
theorem script_over_link {s : Link Data} (quiet : Quiet s) :
    let answer := redis.run script [q] args s.server
    ∃ t start own,doOver redis script short s = some t ∧ Quiet t ∧
      t.asked = s.asked ++ (if s.server.loaded script then [(evalsha redis script short).words]
        else [(evalsha redis script short).words,(eval script short).words]) ∧
      t.server = answer.2 ∧ t.server.loaded script = true ∧
      t.results.getLast? = some (.value start own answer.1 (firstError [answer.1])) ∧
      script.perform redis (.string q :: args.map .string) s.server =
        ((answer.1,firstError [answer.1]),answer.2) := by
  intro answer
  have loads : answer.2.loaded script = true := run_loads redis script s.server
  have once := perform_once redis script q args s.server
  obtain ⟨t,ran,after,asked,server,results⟩ :=
    quiet_call redis.server quiet (evalsha redis script short) (show str "EVALSHA" ≠ [] by decide)
  have last := congrArg List.getLast? results
  rw [List.getLast?_concat] at last
  rw [evalsha_exec] at server last
  unfold doOver
  rw [ran,Option.bind_some]
  cases loaded : s.server.loaded script with
  | true =>
    rw [loaded,if_pos rfl] at server last
    have known : unknown t.results.getLast? = false := by
      rw [last]
      exact (run_proper redis script [q] args s.server).known _ _
    rw [known]
    exact ⟨t,_,_,rfl,after,asked,server,server ▸ loads,last,once⟩
  | false =>
    rw [loaded,if_neg Bool.false_ne_true] at server last
    have missing : unknown t.results.getLast? = true := by
      rw [last]
      rfl
    obtain ⟨u,more,quiet,both,served,results⟩ :=
      quiet_call redis.server after (eval script short) (show str "EVAL" ≠ [] by decide)
    have reply := congrArg List.getLast? results
    rw [List.getLast?_concat] at reply
    rw [eval_exec,server] at served reply
    rw [missing]
    refine ⟨u,_,_,more,quiet,?_,served,served ▸ loads,reply,once⟩
    rw [both,asked,List.append_assoc]
    rfl
end

-- A digest that tells the scripts apart: their last forty bytes.
def lastBytes (data : Bytes) : Bytes := (data.reverse ++ List.replicate 40 0).take 40

theorem lastBytes_apart (a b : Script) (same : lastBytes a.src = lastBytes b.src) : a = b := by
  have distinct : (Script.all.map fun script => lastBytes script.src).Nodup := by decide +kernel
  exact List.inj_on_of_nodup_map distinct (all_scripts a) (all_scripts b) same

theorem lastBytes_length (data : Bytes) : (lastBytes data).length = 40 := by simp [lastBytes]

def wrongType : Bytes := str "WRONGTYPE Operation against a key holding the wrong kind of value"

def sample : Redis :=
  ⟨lastBytes,lastBytes_length,lastBytes_apart,fun _ => wrongType,fun _ => by decide,fun _ => by decide⟩

def blank : Data := ⟨UniqueQueue.noStore,fun _ => false⟩

theorem push_short : Short (str "q") [str "body"] := ⟨by decide,by decide,by decide⟩

-- A push to a server that has no script yet.
theorem push_over_link : Quiet (Link.start blank) ∧
    let answer := sample.run .push [str "q"] [str "body"] blank
    ∃ t start own,doOver sample .push push_short (.start blank) = some t ∧ Quiet t ∧
      t.asked = [[str "EVALSHA",sample.sha1 Script.push.src,str "1",str "q",str "body"],
        [str "EVAL",Script.push.src,str "1",str "q",str "body"]] ∧
      t.server = answer.2 ∧ t.server.loaded .push = true ∧
      t.results.getLast? = some (.value start own answer.1 (firstError [answer.1])) ∧
      Script.push.perform sample (.string (str "q") :: [str "body"].map .string) blank =
        ((answer.1,firstError [answer.1]),answer.2) :=
  ⟨start_quiet blank,script_over_link sample .push push_short (start_quiet blank)⟩

-- The calls of the application over a connection do to Redis what the model of its queues and keys says, and
-- return the same texts, numbers and errors.
theorem calls_refine (redis : Redis) {data : Data} (usual : Usual data.store) (q body : Bytes) :
    SameInt redis (listPush redis q body data) (RedisLists.listPush (latin q) (latin body) data.store) ∧
    SameText redis (listPop redis q data) (RedisLists.listPop (latin q) data.store) ∧
    SameInt redis (listCount redis q data) (RedisLists.listCount (latin q) data.store) ∧
    SameInt redis (uniquePush redis q body data) (UniqueQueue.uniquePush (latin q) (latin body) data.store) ∧
    (latin (uniquePop redis q data).1.1 = (UniqueQueue.uniquePop (latin q) data.store).resp ∧
      (uniquePop redis q data).2.store = (UniqueQueue.uniquePop (latin q) data.store).store) ∧
    (latin (getKey redis q data).1.1 = Sampling.getKey (latin q) data.store ∧
      (getKey redis q data).2.store = data.store) ∧
    (setKey redis q body data).2.store = Sampling.setKey (latin q) (latin body) data.store ∧
    (delKey redis q data).2.store = Sampling.delKey (latin q) data.store := by
  obtain ⟨resp,_,store⟩ := uniquePop_same (q := q) redis usual
  exact ⟨listPush_same redis usual body,listPop_same redis (usual.items _),
    listCount_same redis usual,uniquePush_same redis body,⟨resp,store⟩,
    getKey_same redis usual,(setKey_same redis body).1,(delKey_same redis).1⟩

-- A list of two texts and a key that holds one.
def stocked : Data where
  store key := if key = text "q" then some (.list [text "a",text "b"])
    else if key = text "k" then some (.string (text "1")) else none
  loaded := fun _ => true

theorem stocked_list (held : stocked.store.list? key = some items) :
    items = [] ∨ items = [text "a",text "b"] := by
  unfold Store.list? stocked at held
  by_cases queue : key = text "q"
  · simp only [if_pos queue] at held
    exact Or.inr (Option.some.inj held).symm
  · by_cases single : key = text "k"
    · simp only [if_neg queue,if_pos single] at held
      cases held
    · simp only [if_neg queue,if_neg single] at held
      exact Or.inl (Option.some.inj held).symm

theorem stocked_usual : Usual stocked.store := by
  have letters : Sent (text "a") ∧ Sent (text "b") ∧ Sent (text "1") :=
    ⟨⟨str "a",by decide,by decide⟩,⟨str "b",by decide,by decide⟩,⟨str "1",by decide,by decide⟩⟩
  refine ⟨fun key items held => ?_,fun key items held => ?_,fun key t held => ?_⟩
  · rcases stocked_list held with rfl | rfl <;> decide
  · rcases stocked_list held with rfl | rfl
    · exact List.forall_mem_nil _
    · simp only [List.forall_mem_cons]
      exact ⟨letters.1,letters.2.1,List.forall_mem_nil _⟩
  · unfold stocked at held
    dsimp only at held
    split at held
    · cases held
    · split at held
      · cases Option.some.inj held
        exact letters.2.2
      · cases held

-- All calls at the list, and GetKey and DelKey also at the key.
theorem stocked_calls_refine : Usual stocked.store ∧
    SameInt sample (listPush sample (str "q") (str "c") stocked)
      (RedisLists.listPush (latin (str "q")) (latin (str "c")) stocked.store) ∧
    SameText sample (listPop sample (str "q") stocked) (RedisLists.listPop (latin (str "q")) stocked.store) ∧
    SameInt sample (listCount sample (str "q") stocked)
      (RedisLists.listCount (latin (str "q")) stocked.store) ∧
    SameInt sample (uniquePush sample (str "q") (str "c") stocked)
      (UniqueQueue.uniquePush (latin (str "q")) (latin (str "c")) stocked.store) ∧
    (latin (uniquePop sample (str "q") stocked).1.1 =
      (UniqueQueue.uniquePop (latin (str "q")) stocked.store).resp ∧
      (uniquePop sample (str "q") stocked).2.store =
      (UniqueQueue.uniquePop (latin (str "q")) stocked.store).store) ∧
    (latin (getKey sample (str "q") stocked).1.1 = Sampling.getKey (latin (str "q")) stocked.store ∧
      (getKey sample (str "q") stocked).2.store = stocked.store) ∧
    (setKey sample (str "q") (str "c") stocked).2.store = Sampling.setKey (latin (str "q"))
      (latin (str "c")) stocked.store ∧
    (delKey sample (str "q") stocked).2.store = Sampling.delKey (latin (str "q")) stocked.store ∧
    (latin (getKey sample (str "k") stocked).1.1 = Sampling.getKey (latin (str "k")) stocked.store ∧
      (getKey sample (str "k") stocked).2.store = stocked.store) ∧
    (delKey sample (str "k") stocked).2.store = Sampling.delKey (latin (str "k")) stocked.store := by
  obtain ⟨push,pop,count,uniquePush,uniquePop,get,set,del⟩ :=
    calls_refine sample stocked_usual (str "q") (str "c")
  obtain ⟨_,_,_,_,_,getOne,_,delOne⟩ := calls_refine sample stocked_usual (str "k") (str "c")
  exact ⟨stocked_usual,push,pop,count,uniquePush,uniquePop,get,set,del,getOne,delOne⟩

end SqlReview.RedisScripts
