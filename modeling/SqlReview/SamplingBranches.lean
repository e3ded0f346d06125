import SqlReview.SamplingReports

namespace SqlReview.Sampling
open GoText Records RedisStore UniqueQueue Collector

-- The dedup set of a branch.
def dedup (branch : Text) (s : System) : Finset Text := s.store.members (getQueueSet (queueOf branch))

-- Why the fingerprint f of a branch is not lost: its key is set, a call is about to set it, or
-- a batch of the branch was posted.
inductive Accounted (cfg : Settings) (branch f : Text) (s : System) : Prop where
  | key : s.store (cfg.md5 f) = some (.string body) → body ≠ [] → Accounted cfg branch f s
  | setting : c ∈ s.calls → c.phase = .set → c.line = f → Accounted cfg branch f s
  | posted : batch ∈ s.posted → batch.branch = branch → batch.expl = f → Accounted cfg branch f s

-- No push fails, and when the key of f is deleted every other branch that had f accepted has a
-- batch of its own or a call that will set the key again.
def Answered (cfg : Settings) (s : System) : Action → Prop
  | .call i => ∀ c ∈ s.calls[i]?, c.phase = .push → (c.pushed s.store).err = none
  | .flush => ∀ message ∈ s.flushing, ∀ batch ∈ s.entries (cfg.md5 message.expl), ∀ push ∈ s.accepted,
      push.2 = message.expl → push.1 ≠ batch.branch →
      (∃ c ∈ s.calls, c.phase = .set ∧ c.line = message.expl) ∨
        ∃ old ∈ s.posted, old.branch = push.1 ∧ old.expl = message.expl
  | _ => True

structure Tracked (cfg : Settings) (s : System) : Prop where
  accepted : ∀ branch, ∀ f ∈ dedup branch s, (branch,f) ∈ s.accepted
  accounted : ∀ push ∈ s.accepted, Accounted cfg push.1 push.2 s

-- A call that was not about to set a key goes on.
theorem Accounted.after_call {s t : System} (before : Accounted cfg branch f s)
    (calls : s.calls = l ++ c :: r) (new : List Call)
    (after : t.calls = l ++ (new ++ r)) (idle : c.phase ≠ .set)
    (key : ∀ body, s.store (cfg.md5 f) = some (.string body) → t.store (cfg.md5 f) = some (.string body))
    (posted : t.posted = s.posted) : Accounted cfg branch f t := by
  cases before with
  | key held some => exact .key (key _ held) some
  | setting found set line =>
    rw [calls] at found
    rcases List.mem_append.mp found with left | found
    · exact .setting (after ▸ List.mem_append_left _ left) set line
    · rcases List.mem_cons.mp found with rfl | right
      · exact absurd set idle
      · exact .setting (after ▸ List.mem_append_right _ (List.mem_append_right _ right)) set line
  | posted found same expl => exact .posted (posted ▸ found) same expl

theorem accepted_tracked {s : System} (tracked : Tracked cfg s) (works : (c.pushed s.store).err = none)
    (calls : s.calls = l ++ c :: r) (phase : c.phase = .push) :
    Tracked cfg {s with
      store := (c.pushed s.store).store,accepted := s.accepted ++ [(c.sql.branch,c.line)],calls := l ++ {c with phase := .set} :: r} := by
  refine ⟨fun branch f found => ?_,fun push found => ?_⟩
  · rcases (push_members _ _ _ works _ _).mp found with old | ⟨same,rfl,_⟩
    · exact List.mem_append_left _ (tracked.accepted branch f old)
    · rw [queueSet_injective _ same]
      exact List.mem_append_right _ (List.mem_singleton.mpr rfl)
  · rcases List.mem_append.mp found with old | new
    · exact (tracked.accounted push old).after_call calls [{c with phase := .set}] rfl (by simp [phase])
        (fun body held => (push_string _ _ _ _ _).mpr held) rfl
    · rw [List.mem_singleton.mp new]
      exact .setting (List.mem_append_right _ List.mem_cons_self) rfl rfl

theorem set_tracked {s : System} (collisionFree : Function.Injective cfg.md5) (tracked : Tracked cfg s)
    (calls : s.calls = l ++ c :: r) :
    Tracked cfg {s with store := setKey (cfg.md5 c.line) (text "1") s.store,calls := l ++ {c with
      phase := .get} :: r} := by
  refine ⟨fun branch f found => tracked.accepted branch f
    (update_members (fun _ => by simp) _ found),fun push found => ?_⟩
  by_cases same : push.2 = c.line
  · have held : setKey (cfg.md5 c.line) (text "1") s.store (cfg.md5 push.2) = some (.string (text "1")) := by
      rw [same]
      exact Function.update_self ..
    exact .key held (by decide)
  · cases tracked.accounted push found with
    | key held some =>
      refine .key ?_ some
      exact (Function.update_of_ne (fun equal => same (collisionFree equal)) _ _).trans held
    | setting found set line =>
      rw [calls] at found
      rcases List.mem_append.mp found with left | found
      · exact .setting (List.mem_append_left _ left) set line
      · rcases List.mem_cons.mp found with rfl | right
        · exact absurd line.symm same
        · exact .setting (List.mem_append_right _ (List.mem_cons_of_mem _ right)) set line
    | posted found branch expl => exact .posted found branch expl

theorem flush_tracked {s : System} (collisionFree : Function.Injective cfg.md5)
    (named : Named cfg s) (tracked : Tracked cfg s)
    (answered : Answered cfg s .flush) (flushing : s.flushing = some message)
    (collected : collect cfg.md5 cfg.sampling s.entries message = some (entries,some batch)) :
    Tracked cfg {s with
      store := delKey (cfg.md5 message.expl) s.store,entries := entries,flushing := none,posted := s.posted ++ [batch]} := by
  obtain ⟨held,rfl⟩ := collect_posts collected
  have expl : batch.expl = message.expl := collisionFree (named _ batch held)
  refine ⟨fun branch f found => tracked.accepted branch f
    (update_members (fun _ => by simp) _ found),fun push found => ?_⟩
  by_cases same : push.2 = message.expl
  · rw [same]
    by_cases own : push.1 = batch.branch
    · exact .posted (List.mem_append_right _ (List.mem_singleton.mpr rfl)) own.symm expl
    · rcases answered message flushing batch held push found same own with ⟨c,calling,set,
        line⟩ | ⟨old,was,branch,line⟩
      · exact .setting calling set line
      · exact .posted (List.mem_append_left _ was) branch line
  · cases tracked.accounted push found with
    | key held some =>
      refine .key ?_ some
      exact (Function.update_of_ne (fun equal => same (collisionFree equal)) _ _).trans held
    | setting found set line => exact .setting found set line
    | posted found branch line => exact .posted (List.mem_append_left _ found) branch line

theorem step_tracked {s t : System} (collisionFree : Function.Injective cfg.md5)
    (named : Named cfg s) (tracked : Tracked cfg s)
    (answered : Answered cfg s action) (step : Step cfg s action t) : Tracked cfg t := by
  have at_ {l r : List Call} {c : Call} (calls : s.calls = l ++ c :: r) : c ∈ s.calls[l.length]? := by simp [calls]
  cases step with
  | start _ =>
    refine ⟨tracked.accepted,fun push found => ?_⟩
    cases tracked.accounted push found with
    | key held some => exact .key held some
    | setting calling set line => exact .setting (List.mem_append_left _ calling) set line
    | posted was branch line => exact .posted was branch line
  | accepted calls phase _ => exact accepted_tracked tracked (answered _ (at_ calls) phase) calls phase
  | @refused _ c _ calls phase refuse =>
    refine ⟨fun branch f found => ?_,fun push found => ?_⟩
    · rcases (push_members _ _ _ (answered c (at_ calls) phase) _ _).mp found with old | ⟨_,_,one⟩
      · exact tracked.accepted branch f old
      · exact absurd one refuse
    · exact (tracked.accounted push found).after_call calls [{c with phase := .get}] rfl (by simp [phase])
        (fun body held => (push_string _ _ _ _ _).mpr held) rfl
  | set calls _ => exact set_tracked collisionFree tracked calls
  | @sampled _ c _ calls phase _ =>
    exact ⟨tracked.accepted,fun push found => (tracked.accounted push found).after_call calls [{c with phase := .send}] rfl
      (by simp [phase]) (fun _ held => held) rfl⟩
  | passed calls phase _ =>
    exact ⟨tracked.accepted,fun push found => (tracked.accounted push found).after_call calls [] rfl
      (by simp [phase]) (fun _ held => held) rfl⟩
  | send calls phase _ =>
    exact ⟨tracked.accepted,fun push found => (tracked.accounted push found).after_call calls [] rfl
      (by simp [phase]) (fun _ held => held) rfl⟩
  | keep | fill =>
    refine ⟨tracked.accepted,fun push found => ?_⟩
    cases tracked.accounted push found with
    | key held some => exact .key held some
    | setting calling set line => exact .setting calling set line
    | posted was branch line => exact .posted was branch line
  | flush flushing collected => exact flush_tracked collisionFree named tracked answered flushing collected

-- Once no call is in progress, every fingerprint of a branch is still sampled or was reported for it.
theorem no_orphans (cfg : Settings) (collisionFree : Function.Injective cfg.md5)
    (runs : Transitions.Runs (System.step cfg) (Answered cfg) System.start actions s)
    (idle : s.calls = []) (branch f : Text)
    (known : f ∈ dedup branch s) : (∃ body, body ≠ [] ∧ s.store (cfg.md5 f) = some (.string body)) ∨
      ∃ batch ∈ s.posted, batch.branch = branch ∧ batch.expl = f := by
  have start : Named cfg .start ∧ Tracked cfg .start :=
    ⟨nofun,fun _ _ found => absurd found (Finset.notMem_empty _),nofun⟩
  have inv := runs.invariant (fun s => Named cfg s ∧ Tracked cfg s) start fun _ _ _ inv answered stepped =>
    ⟨step_named inv.1 (step_exact stepped),step_tracked collisionFree inv.1 inv.2 answered
      (step_exact stepped)⟩
  cases inv.2.accounted _ (inv.2.accepted branch f known) with
  | key held some => exact .inl ⟨_,some,held⟩
  | setting calling _ _ => rw [idle] at calling; cases calling
  | posted was same line => exact .inr ⟨_,was,same,line⟩

instance (cfg : Settings) (s : System) : (action : Action) → Decidable (Answered cfg s action)
  | .call i =>
    inferInstanceAs (Decidable (∀ c ∈ s.calls[i]?, c.phase = .push → (c.pushed s.store).err = none))
  | .flush =>
    inferInstanceAs (Decidable (∀ message ∈ s.flushing, ∀ batch ∈ s.entries (cfg.md5 message.expl),
      ∀ push ∈ s.accepted,
      push.2 = message.expl → push.1 ≠ batch.branch →
      (∃ c ∈ s.calls, c.phase = .set ∧ c.line = message.expl) ∨
        ∃ old ∈ s.posted, old.branch = push.1 ∧ old.expl = message.expl))
  | .start _ _ | .receive => .isTrue trivial

-- The second branch pushes the fingerprint after the first one was reported, and samples it afresh.
def branchRun : List Action := drainedRun ++ [.start (text "f") (query "c" "3")] ++ accepts ++ [.receive]

theorem later_branch_sampled : ∃ s, Transitions.run (System.step ⟨id,1⟩) System.start branchRun =
    some s ∧ s.calls = [] ∧
    text "f" ∈ dedup (text "c") s ∧ ((∃ body, body ≠ [] ∧ s.store (text "f") = some (.string body)) ∨
      ∃ batch ∈ s.posted, batch.branch = text "c" ∧ batch.expl = text "f") :=
  ⟨_,rfl,rfl,by decide +kernel,no_orphans ⟨id,1⟩ Function.injective_id
    (Transitions.runs_of_run System.start branchRun rfl (by decide +kernel)) rfl (text "c")
      (text "f") (by decide +kernel)⟩

-- Two branches share the key and the entry of a fingerprint, and the batch names the first one.
theorem second_branch_orphaned : ∃ s, Transitions.run (System.step ⟨id,1⟩) System.start
    ([.start (text "f") (query "b" "1"),.start (text "f") (query "c" "2")] ++ accepts ++ accepts ++
      [.receive,.receive,.flush]) = some s ∧
    s.calls = [] ∧ s.channel = [] ∧ text "f" ∈ dedup (text "c") s ∧ (s.store (text "f")).isNone ∧
    ∀ batch ∈ s.posted, batch.branch ≠ text "c" :=
  ⟨_,rfl,by decide +kernel,by decide +kernel,by decide +kernel,by decide +kernel,by decide +kernel⟩

-- A batch reports its samples under its own branch and database.
def Homogeneous (batch : ExplainsResult) : Prop :=
  ∀ sample ∈ batch.arr, sample.branch = batch.branch ∧ dbname sample.dsn = batch.db

-- A sample is added only to an entry of its branch and database.
def Matching (cfg : Settings) (s : System) : Action → Prop
  | .receive =>
    ∀ message ∈ s.channel.head?, ∀ entry ∈ s.entries (cfg.md5 message.expl), full cfg.sampling entry = false →
      (∀ sample ∈ message.arr, (entry.arr.any fun sqlTmp => sample.info = sqlTmp.info) = false →
        message.branch = entry.branch ∧ message.db = entry.db)
  | _ => True

structure Uniform (s : System) : Prop where
  channel : ∀ message ∈ s.channel, Homogeneous message
  entries : ∀ key, ∀ entry ∈ s.entries key, Homogeneous entry
  posted : ∀ batch ∈ s.posted, Homogeneous batch

theorem message_homogeneous (c : Call) : Homogeneous c.message := by
  intro sample found
  rw [List.mem_singleton.mp found]
  exact ⟨rfl,rfl⟩

theorem step_uniform {s t : System} (uniform : Uniform s) (matching : Matching cfg s action)
    (step : Step cfg s action t) : Uniform t := by
  cases step with
  | start | accepted | refused | set | sampled | passed =>
    exact ⟨uniform.channel,uniform.entries,uniform.posted⟩
  | @send _ c _ _ _ _ =>
    refine ⟨fun message found => ?_,uniform.entries,uniform.posted⟩
    rcases List.mem_append.mp found with old | new
    · exact uniform.channel message old
    · rw [List.mem_singleton.mp new]
      exact message_homogeneous c
  | @keep message channel _ _ front collected =>
    obtain ⟨entry,rfl,origin⟩ := collect_keeps collected
    have mine := uniform.channel message (front ▸ List.mem_cons_self)
    refine ⟨fun other found => uniform.channel other (front ▸ List.mem_cons_of_mem _ found),
      KeyedFold.update_keeps _ uniform.entries fun batch found => ?_,uniform.posted⟩
    cases Option.some.inj found
    rcases origin with ⟨_,rfl⟩ | held | ⟨old,sample,held,room,given,fresh,rfl⟩
    · exact mine
    · exact uniform.entries _ entry held
    · obtain ⟨branch,db⟩ := matching message (by simp [front]) old held room sample given fresh
      intro other found
      rcases List.mem_append.mp found with before | new
      · exact uniform.entries _ old held other before
      · rw [List.mem_singleton.mp new]
        obtain ⟨sameBranch,sameDb⟩ := mine sample given
        exact ⟨sameBranch.trans branch,sameDb.trans db⟩
  | fill _ front _ =>
    exact ⟨fun other found => uniform.channel other (front ▸ List.mem_cons_of_mem _ found),
      uniform.entries,uniform.posted⟩
  | @flush message _ batch _ collected =>
    obtain ⟨held,rfl⟩ := collect_posts collected
    refine ⟨uniform.channel,KeyedFold.update_keeps _ uniform.entries nofun,fun other found => ?_⟩
    rcases List.mem_append.mp found with old | new
    · exact uniform.posted other old
    · rw [List.mem_singleton.mp new]
      exact uniform.entries _ batch held

theorem batches_homogeneous (cfg : Settings)
    (runs : Transitions.Runs (System.step cfg) (Matching cfg) System.start actions s) :
    ∀ batch ∈ s.posted, Homogeneous batch := by
  have start : Uniform .start := ⟨nofun,nofun,nofun⟩
  have inv :=
    runs.invariant Uniform start fun _ _ _ uniform matching stepped => step_uniform uniform matching
      (step_exact stepped)
  exact inv.posted

instance (cfg : Settings) (s : System) : (action : Action) → Decidable (Matching cfg s action)
  | .receive =>
    inferInstanceAs (Decidable (∀ message ∈ s.channel.head?, ∀ entry ∈ s.entries (cfg.md5 message.expl),
      full cfg.sampling entry = false →
        (∀ sample ∈ message.arr, (entry.arr.any fun sqlTmp => sample.info = sqlTmp.info) = false →
        message.branch = entry.branch ∧ message.db = entry.db)))
  | .start _ _ | .call _ | .flush => .isTrue trivial

def pairRun : List Action :=
  [.start (text "f") (query "b" "1"),.start (text "f") (query "b" "2"),.start (text "f") (query "b" "3")] ++
    accepts ++ refuses ++ refuses ++ [.receive,.receive,.receive,.flush]

theorem one_branch_homogeneous : ∃ s, Transitions.run (System.step ⟨id,2⟩) System.start pairRun = some s ∧
    s.posted.map (fun batch => batch.arr.length) = [2] ∧ ∀ batch ∈ s.posted, Homogeneous batch :=
  ⟨_,rfl,by decide +kernel,batches_homogeneous ⟨id,2⟩
    (Transitions.runs_of_run System.start pairRun rfl (by decide +kernel))⟩

-- The sample of the second branch goes into the open batch of the first one.
theorem branches_mixed : ∃ s, Transitions.run (System.step ⟨id,2⟩) System.start
    ([.start (text "f") (query "b" "1"),.start (text "f") (query "c" "2"),
      .start (text "f") (query "b" "3")] ++
      accepts ++ accepts ++ refuses ++ [.receive,.receive,.receive,.flush]) = some s ∧
    ∃ batch ∈ s.posted, ∃ sample ∈ batch.arr, sample.branch ≠ batch.branch ∧ dbname sample.dsn ≠ batch.db :=
  ⟨_,rfl,by decide +kernel⟩

end SqlReview.Sampling
