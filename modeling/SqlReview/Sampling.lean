import SqlReview.Collector
import SqlReview.UniqueQueue

namespace SqlReview.Sampling
open GoText Records RedisStore UniqueQueue Collector

-- What the processes read besides their messages: NewMd5 and appconfig.RedisSampling.
structure Settings where
  md5 : Text → Text
  sampling : Int

-- The residue of > and < in a fingerprint.
def unescape (line : Text) : Text :=
  replaceAll (replaceAll line (text "u003e") (text ">")) (text "u003c") (text "<")

-- sql.Dsn[pos+7 : pos+end]
def dbname (dsn : Text) : Text :=
  match index dsn (text "dbname=") with
  | none => []
  | some pos =>
    match index (dsn.drop pos) (text "]") with
    | none => []
    | some fin => (dsn.drop (pos+7)).take (fin-7)

-- The slice of dbname is in range: "dbname=" has no "]".
theorem dbname_range {dsn : Text} (start : index dsn (text "dbname=") = some pos)
    (stop : index (dsn.drop pos) (text "]") = some fin) :
    7 ≤ fin := by
  have front := index_prefix start
  have back := index_prefix stop
  obtain ⟨rest,same⟩ := List.isPrefixOf_iff_prefix.mp front
  rw [← same] at back
  by_contra early
  have cases : fin = 0 ∨ fin = 1 ∨ fin = 2 ∨ fin = 3 ∨ fin = 4 ∨ fin = 5 ∨ fin = 6 := by omega
  rcases cases with rfl | rfl | rfl | rfl | rfl | rfl | rfl <;> simp [text] at back

-- Where a call of importToRedis stands.
inductive Phase where
  | push | set | get | send
  deriving DecidableEq,Repr

structure Call where
  line : Text
  sql : SqlInfo
  phase : Phase

def Call.message (c : Call) : ExplainsResult where
  expl := c.line
  arr := [c.sql]
  explain := []
  lastQueryCost := []
  level := []
  score := 0
  content := []
  branch := c.sql.branch
  db := dbname c.sql.dsn
  route := c.sql.route

def queueOf (branch : Text) : Text := text "julive_" ++ branch

def setKey (key body : Text) (s : Store Text) : Store Text := leaves (RedisStore.set key body) s
def delKey (key : Text) (s : Store Text) : Store Text := leaves (del key) s

-- GetKey: a failing or empty GET gives "".
def getKey (key : Text) (s : Store Text) : Text :=
  match get key s with
  | .ok resp _ => resp.getD []
  | .error _ _ => []

-- Redis, the calls of importToRedis, the channel SqlExplain and the collector NewExplainData;
-- `flushing` is a message that found its entry full, until the key is deleted and the batch posted.
-- `accepted` records branch and fingerprint of each UniquePush that returned 1, `posted` what
-- curlURL was given.
structure System where
  store : Store Text
  calls : List Call
  channel : List ExplainsResult
  entries : Entries
  flushing : Option ExplainsResult
  accepted : List (Text × Text)
  posted : List ExplainsResult

def System.start : System := ⟨fun _ => none,[],[],fun _ => none,none,[],[]⟩

inductive Action where
  | start (line : Text) (sql : SqlInfo)
  | call (i : Nat)
  | receive
  | flush

-- make(chan ExplainsResult, 10)
def capacity : Nat := 10

def Call.pushed (c : Call) (s : Store Text) : Answer Nat := uniquePush (queueOf c.sql.branch) c.line s

-- What one call does next; the list is what stays of it.
def System.advance (cfg : Settings) (s : System) (c : Call) : Option (System × List Call) :=
  match c.phase with
  | .push =>
    let answer := c.pushed s.store
    if answer.resp = 1 then
      some ({s with store := answer.store,accepted := s.accepted ++ [(c.sql.branch,c.line)]},
        [{c with phase := .set}])
    else some ({s with store := answer.store},[{c with phase := .get}])
  | .set => some ({s with store := setKey (cfg.md5 c.line) (text "1") s.store},[{c with phase := .get}])
  | .get => some (s,if getKey (cfg.md5 c.line) s.store ≠ [] then [{c with phase := .send}] else [])
  | .send =>
    if s.channel.length < capacity then some ({s with channel := s.channel ++ [c.message]},[]) else none

def System.step (cfg : Settings) (s : System) : Action → Option System
  | .start line sql =>
    if line = [] then none else some {s with calls := s.calls ++ [⟨unescape line,sql,.push⟩]}
  | .call i =>
    match s.calls[i]? with
    | none => none
    | some c =>
      (s.advance cfg c).map fun (t,rest) => {t with calls := s.calls.take i ++ (rest ++ s.calls.drop (i+1))}
  | .receive =>
    match s.flushing,s.channel with
    | none,message :: channel =>
      match collect cfg.md5 cfg.sampling s.entries message with
      | none => none
      | some (entries,none) => some {s with channel := channel,entries := entries}
      | some (_,some _) => some {s with channel := channel,flushing := some message}
    | _,_ => none
  | .flush =>
    match s.flushing with
    | none => none
    | some message =>
      match collect cfg.md5 cfg.sampling s.entries message with
      | some (entries,some batch) => some {s with
          store := delKey (cfg.md5 message.expl) s.store,entries := entries,flushing := none,
          posted := s.posted ++ [batch]}
      | _ => none

-- The transitions one by one.
inductive Step (cfg : Settings) (s : System) : Action → System → Prop where
  | start : line ≠ [] → Step cfg s (.start line sql) {s with calls := s.calls ++ [⟨unescape line,sql,.push⟩]}
  | accepted : s.calls = l ++ c :: r → c.phase = .push → (c.pushed s.store).resp = 1 →
      Step cfg s (.call l.length) {s with
        store := (c.pushed s.store).store,accepted := s.accepted ++ [(c.sql.branch,c.line)],
        calls := l ++ {c with phase := .set} :: r}
  | refused : s.calls = l ++ c :: r → c.phase = .push → (c.pushed s.store).resp ≠ 1 →
      Step cfg s (.call l.length) {s with store := (c.pushed s.store).store,calls := l ++ {c with
        phase := .get} :: r}
  | set : s.calls = l ++ c :: r → c.phase = .set →
      Step cfg s (.call l.length) {s with
        store := setKey (cfg.md5 c.line) (text "1") s.store,calls := l ++ {c with phase := .get} :: r}
  | sampled : s.calls = l ++ c :: r → c.phase = .get → getKey (cfg.md5 c.line) s.store ≠ [] →
      Step cfg s (.call l.length) {s with calls := l ++ {c with phase := .send} :: r}
  | passed : s.calls = l ++ c :: r → c.phase = .get → getKey (cfg.md5 c.line) s.store = [] →
      Step cfg s (.call l.length) {s with calls := l ++ r}
  | send : s.calls = l ++ c :: r → c.phase = .send → s.channel.length < capacity →
      Step cfg s (.call l.length) {s with channel := s.channel ++ [c.message],calls := l ++ r}
  | keep : s.flushing = none → s.channel = message :: channel →
      collect cfg.md5 cfg.sampling s.entries message = some (entries,none) →
      Step cfg s .receive {s with channel := channel,entries := entries}
  | fill : s.flushing = none → s.channel = message :: channel →
      collect cfg.md5 cfg.sampling s.entries message = some (entries,some batch) →
      Step cfg s .receive {s with channel := channel,flushing := some message}
  | flush : s.flushing = some message →
    collect cfg.md5 cfg.sampling s.entries message = some (entries,some batch) →
      Step cfg s .flush {s with
        store := delKey (cfg.md5 message.expl) s.store,entries := entries,flushing := none,
        posted := s.posted ++ [batch]}

theorem call_exact {s t : System} (found : s.calls[i]? = some c)
    (advanced : (s.advance cfg c).map
    (fun (t,rest) => {t with calls := s.calls.take i ++ (rest ++ s.calls.drop (i+1))}) = some t) :
    Step cfg s (.call i) t := by
  obtain ⟨l,r,calls,rfl,left,right⟩ := Transitions.split_at found
  rw [left,right] at advanced
  unfold System.advance at advanced
  cases phase : c.phase with
  | push =>
    simp only [phase] at advanced
    split at advanced
    · cases Option.some.inj advanced
      exact .accepted calls phase ‹_›
    · cases Option.some.inj advanced
      exact .refused calls phase ‹_›
  | set =>
    simp only [phase] at advanced
    cases Option.some.inj advanced
    exact .set calls phase
  | get =>
    simp only [phase] at advanced
    cases Option.some.inj advanced
    by_cases empty : getKey (cfg.md5 c.line) s.store = []
    · rw [if_neg (not_not.mpr empty)]
      exact .passed calls phase empty
    · rw [if_pos empty]
      exact .sampled calls phase empty
  | send =>
    simp only [phase] at advanced
    split at advanced
    · cases Option.some.inj advanced
      exact .send calls phase ‹_›
    · cases advanced

theorem step_exact {s t : System} (stepped : s.step cfg action = some t) : Step cfg s action t := by
  cases action with
  | start line sql =>
    simp only [System.step] at stepped
    split at stepped
    · cases stepped
    · cases Option.some.inj stepped
      exact .start ‹_›
  | call i =>
    simp only [System.step] at stepped
    split at stepped
    · cases stepped
    · exact call_exact ‹_› stepped
  | receive =>
    simp only [System.step] at stepped
    split at stepped
    · rename_i idle channel
      split at stepped
      · cases stepped
      · cases Option.some.inj stepped
        exact .keep idle channel ‹_›
      · cases Option.some.inj stepped
        exact .fill idle channel ‹_›
    · cases stepped
  | flush =>
    simp only [System.step] at stepped
    split at stepped
    · cases stepped
    · split at stepped
      · cases Option.some.inj stepped
        exact .flush ‹_› ‹_›
      · cases stepped

end SqlReview.Sampling
