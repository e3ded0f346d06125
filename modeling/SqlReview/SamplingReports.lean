import SqlReview.Sampling

namespace SqlReview.Sampling
open GoText Records RedisStore UniqueQueue Collector

theorem setKey_store (key body : Text) (s : Store Text) :
    setKey key body s = Function.update s key (some (.string body)) :=
  rfl
theorem delKey_store (key : Text) (s : Store Text) : delKey key s = Function.update s key none := rfl

theorem getKey_string {s : Store Text} (some : getKey key s ≠ []) :
    ∃ body, body ≠ [] ∧ s key = Option.some (.string body) := by
  unfold getKey RedisStore.get at some
  cases held : s key with
  | none => simp [held] at some
  | some value =>
    cases value with
    | string body => exact ⟨body,by simpa [held] using some,rfl⟩
    | list items => simp [held] at some
    | set members => simp [held] at some

-- Every entry, and so every batch, has the fingerprint whose md5 it is kept under.
def Named (cfg : Settings) (s : System) : Prop := ∀ key, ∀ entry ∈ s.entries key, cfg.md5 entry.expl = key

theorem step_named {s t : System} (named : Named cfg s) (step : Step cfg s action t) : Named cfg t := by
  cases step with
  | start | accepted | refused | set | sampled | passed | send | fill => exact named
  | keep _ _ collected =>
    obtain ⟨entry,rfl,from_⟩ := collect_keeps collected
    refine KeyedFold.update_keeps _ named fun batch found => ?_
    cases Option.some.inj found
    rcases from_ with ⟨_,rfl⟩ | held | ⟨old,sample,held,_,_,_,rfl⟩
    · rfl
    · exact named _ entry held
    · exact named _ old held
  | flush _ collected =>
    obtain ⟨_,rfl⟩ := collect_posts collected
    exact KeyedFold.update_keeps _ named nofun

-- A sample for f may still arrive: its key is set, a message is under way, or an entry is open.
inductive Live (cfg : Settings) (f : Text) (s : System) : Prop where
  | key : s.store (cfg.md5 f) = some (.string body) → Live cfg f s
  | sending : c ∈ s.calls → c.phase = .send → c.line = f → Live cfg f s
  | sent : message ∈ s.channel → message.expl = f → Live cfg f s
  | entry : s.entries (cfg.md5 f) = some entry → Live cfg f s

def posts (f : Text) (s : System) : Nat := s.posted.countP fun batch => batch.expl = f
def isSetting (f : Text) (c : Call) : Bool := c.phase = .set && c.line = f
def setting (f : Text) (s : System) : Nat := s.calls.countP (isSetting f)
def pushes (f : Text) (s : System) : Nat := s.accepted.countP fun push => push.2 = f

-- Each batch, and each call that is to set the key, has a push of its own; so has the batch
-- that a live fingerprint may still give.
structure Covered (cfg : Settings) (f : Text) (s : System) : Prop where
  sets : posts f s+setting f s ≤ pushes f s
  live : Live cfg f s → posts f s+setting f s+1 ≤ pushes f s

-- When the collector deletes the key of f no message for f is under way.
def Drained (s : System) : Action → Prop
  | .flush => ∀ message ∈ s.flushing, (∀ c ∈ s.calls, c.phase = .send → c.line ≠ message.expl) ∧
      ∀ other ∈ s.channel, other.expl ≠ message.expl
  | _ => True

theorem setting_splice (f : Text) {s t : System} (before : s.calls = l ++ c :: r) (new : List Call)
    (after : t.calls = l ++ (new ++ r)) :
    setting f t+[c].countP (isSetting f) = setting f s+new.countP (isSetting f) := by
  rw [setting,setting,before,after]
  simp only [List.countP_append,List.countP_cons,List.countP_nil]
  omega

theorem setting_le (f : Text) {s t : System} (before : s.calls = l ++ c :: r) (new : List Call)
    (after : t.calls = l ++ (new ++ r))
    (none : ∀ x ∈ new, x.phase ≠ .set) : setting f t ≤ setting f s := by
  have count := setting_splice f before new after
  have zero : new.countP (isSetting f) = 0 :=
    List.countP_eq_zero.mpr fun x found => by simp [isSetting,none x found]
  omega

-- What a call leaves behind is live only if it was before, unless it sets the key.
theorem Live.before_call {s t : System} (alive : Live cfg f t) (before : s.calls = l ++ c :: r)
    (new : List Call)
    (after : t.calls = l ++ (new ++ r)) (silent : ∀ x ∈ new, x.phase = .send → x.line = f → Live cfg f s)
    (key : ∀ body, t.store (cfg.md5 f) = some (.string body) → s.store (cfg.md5 f) = some (.string body))
    (channel : t.channel = s.channel) (entries : t.entries = s.entries) : Live cfg f s := by
  cases alive with
  | key held => exact .key (key _ held)
  | @sending x found send same =>
    rw [after] at found
    rcases List.mem_append.mp found with left | found
    · exact .sending (before ▸ List.mem_append_left _ left) send same
    · rcases List.mem_append.mp found with mine | right
      · exact silent x mine send same
      · exact .sending (before ▸ List.mem_append_right _ (List.mem_cons_of_mem _ right)) send same
  | sent found same => exact .sent (channel ▸ found) same
  | entry held => exact .entry (entries ▸ held)

-- A step that neither posts nor accepts, and that makes no fingerprint live.
theorem Covered.quiet {s t : System} (covered : Covered cfg f s) (posted : t.posted = s.posted)
    (accepted : t.accepted = s.accepted)
    (sets : setting f t ≤ setting f s) (back : Live cfg f t → Live cfg f s) : Covered cfg f t := by
  have posts : posts f t = posts f s := by rw [posts,posted,posts]
  have pushes : pushes f t = pushes f s := by rw [pushes,accepted,pushes]
  refine ⟨?_,fun alive => ?_⟩
  · have before := covered.sets
    omega
  · have before := covered.live (back alive)
    omega

theorem accepted_covered {s : System} (covered : Covered cfg f s) (calls : s.calls = l ++ c :: r) (phase : c.phase = .push) :
    Covered cfg f {s with
      store := (c.pushed s.store).store,accepted := s.accepted ++ [(c.sql.branch,c.line)],calls := l ++ {c with phase := .set} :: r} := by
  have count := setting_splice f calls [{c with phase := .set}] (t := {s with
    store := (c.pushed s.store).store,accepted := s.accepted ++ [(c.sql.branch,c.line)],
    calls := l ++ {c with phase := .set} :: r}) rfl
  have pushed : pushes f {s with
      store := (c.pushed s.store).store,accepted := s.accepted ++ [(c.sql.branch,c.line)],
      calls := l ++ {c with phase := .set} :: r} =
      pushes f s+[{c with phase := .set}].countP (isSetting f) := by
    simp [pushes,isSetting,List.countP_cons]
  have idle : [c].countP (isSetting f) = 0 := by simp [isSetting,phase]
  refine ⟨?_,fun alive => ?_⟩
  · have before := covered.sets
    rw [pushed]
    change posts f s+_ ≤ _
    omega
  · have before := covered.live (alive.before_call calls [{c with phase := .set}] rfl (by simp)
      (fun body held => (push_string _ _ _ _ _).mp held) rfl rfl)
    rw [pushed]
    change posts f s+_+1 ≤ _
    omega

theorem set_covered {s : System} (collisionFree : Function.Injective cfg.md5) (covered : Covered cfg f s)
    (calls : s.calls = l ++ c :: r) (phase : c.phase = .set) :
    Covered cfg f {s with store := setKey (cfg.md5 c.line) (text "1") s.store,calls := l ++ {c with
      phase := .get} :: r} := by
  have count := setting_splice f calls [{c with phase := .get}] (t := {s with
    store := setKey (cfg.md5 c.line) (text "1") s.store,calls := l ++ {c with phase := .get} :: r}) rfl
  have gone : [{c with phase := Phase.get}].countP (isSetting f) = 0 := by simp [isSetting]
  have before := covered.sets
  by_cases same : c.line = f
  · have one : [c].countP (isSetting f) = 1 := by simp [isSetting,phase,same]
    refine ⟨?_,fun _ => ?_⟩
    · change posts f s+_ ≤ pushes f s
      omega
    · change posts f s+_+1 ≤ pushes f s
      omega
  · refine covered.quiet rfl rfl (by omega) fun alive => ?_
    refine alive.before_call calls [{c with phase := .get}] rfl (by simp) (fun body held => ?_) rfl rfl
    change setKey (cfg.md5 c.line) (text "1") s.store (cfg.md5 f) = _ at held
    rwa [setKey_store,Function.update_of_ne fun equal => same (collisionFree equal).symm] at held

theorem send_live {s : System} (calls : s.calls = l ++ c :: r) (phase : c.phase = .send)
    (alive : Live cfg f {s with channel := s.channel ++ [c.message],calls := l ++ r}) : Live cfg f s := by
  have mine : c ∈ s.calls := calls ▸ List.mem_append_right _ List.mem_cons_self
  cases alive with
  | key held => exact .key held
  | sending found send same =>
    rcases List.mem_append.mp found with left | right
    · exact .sending (calls ▸ List.mem_append_left _ left) send same
    · exact .sending (calls ▸ List.mem_append_right _ (List.mem_cons_of_mem _ right)) send same
  | sent found same =>
    rcases List.mem_append.mp found with found | new
    · exact .sent found same
    · rw [List.mem_singleton.mp new] at same
      exact .sending mine phase same
  | entry held => exact .entry held

theorem keep_live {s : System} (collisionFree : Function.Injective cfg.md5)
    (front : s.channel = message :: channel)
    (collected : collect cfg.md5 cfg.sampling s.entries message = some (entries,none))
    (alive : Live cfg f {s with channel := channel,entries := entries}) : Live cfg f s := by
  obtain ⟨entry,rfl,_⟩ := collect_keeps collected
  cases alive with
  | key held => exact .key held
  | sending found send same => exact .sending found send same
  | sent found same => exact .sent (front ▸ List.mem_cons_of_mem _ found) same
  | entry held =>
    by_cases same : message.expl = f
    · exact .sent (front ▸ List.mem_cons_self) same
    · change Function.update s.entries (cfg.md5 message.expl) (some entry) (cfg.md5 f) = _ at held
      rw [Function.update_of_ne fun equal => same (collisionFree equal).symm] at held
      exact .entry held

theorem flush_covered {s : System} (collisionFree : Function.Injective cfg.md5)
    (named : Named cfg s) (covered : Covered cfg f s)
    (drained : Drained s .flush) (flushing : s.flushing = some message)
    (collected : collect cfg.md5 cfg.sampling s.entries message = some (entries,some batch)) :
    Covered cfg f {s with
      store := delKey (cfg.md5 message.expl) s.store,entries := entries,flushing := none,posted := s.posted ++ [batch]} := by
  obtain ⟨held,rfl⟩ := collect_posts collected
  have expl : batch.expl = message.expl := collisionFree (named _ batch held)
  by_cases same : message.expl = f
  · subst same
    obtain ⟨calls,channel⟩ := drained message flushing
    have before := covered.live (.entry held)
    refine ⟨?_,fun alive => ?_⟩
    · simp only [posts,List.countP_append,List.countP_cons,List.countP_nil,expl,decide_true,if_true]
      change posts message.expl s+(0+1)+setting message.expl s ≤ pushes message.expl s
      omega
    · cases alive with
      | key held =>
        change delKey (cfg.md5 message.expl) s.store (cfg.md5 message.expl) = _ at held
        rw [delKey_store,Function.update_self] at held
        cases held
      | sending found send line => exact absurd line (calls _ found send)
      | sent found line => exact absurd line (channel _ found)
      | entry held =>
        change Function.update s.entries (cfg.md5 message.expl) none (cfg.md5 message.expl) = _ at held
        rw [Function.update_self] at held
        cases held
  · have apart : cfg.md5 f ≠ cfg.md5 message.expl := fun equal => same (collisionFree equal).symm
    have back : Live cfg f {s with
        store := delKey (cfg.md5 message.expl) s.store,entries := Function.update s.entries (cfg.md5 message.expl) none,flushing := none,posted := s.posted ++ [batch]} → Live cfg f s := by
      intro alive
      cases alive with
      | key held =>
        change delKey (cfg.md5 message.expl) s.store (cfg.md5 f) = _ at held
        rw [delKey_store,Function.update_of_ne apart] at held
        exact .key held
      | sending found send line => exact .sending found send line
      | sent found line => exact .sent found line
      | entry held =>
        change Function.update s.entries (cfg.md5 message.expl) none (cfg.md5 f) = _ at held
        rw [Function.update_of_ne apart] at held
        exact .entry held
    have count : (s.posted ++ [batch]).countP (fun batch => batch.expl = f) = posts f s := by
      simp [posts,expl,same]
    refine ⟨?_,fun alive => ?_⟩
    · have before := covered.sets
      change List.countP _ (s.posted ++ [batch])+setting f s ≤ pushes f s
      omega
    · have before := covered.live (back alive)
      change List.countP _ (s.posted ++ [batch])+setting f s+1 ≤ pushes f s
      omega

theorem step_covered {s t : System} (collisionFree : Function.Injective cfg.md5) (named : Named cfg s) (covered : Covered cfg f s)
    (drained : Drained s action) (step : Step cfg s action t) : Covered cfg f t := by
  cases step with
  | start _ =>
    refine covered.quiet rfl rfl (by simp [setting,isSetting]) fun alive => ?_
    cases alive with
    | key held => exact .key held
    | sending found send same =>
      rcases List.mem_append.mp found with found | new
      · exact .sending found send same
      · rw [List.mem_singleton.mp new] at send
        cases send
    | sent found same => exact .sent found same
    | entry held => exact .entry held
  | accepted calls phase _ => exact accepted_covered covered calls phase
  | @refused _ c _ calls phase _ =>
    refine covered.quiet rfl rfl (setting_le f calls [{c with phase := .get}] rfl (by simp)) fun alive => ?_
    exact alive.before_call calls [{c with phase := .get}] rfl (by simp)
      (fun body held => (push_string _ _ _ _ _).mp held) rfl rfl
  | set calls phase => exact set_covered collisionFree covered calls phase
  | @sampled _ c _ calls phase some =>
    obtain ⟨body,_,held⟩ := getKey_string some
    refine covered.quiet rfl rfl (setting_le f calls [{c with phase := .send}] rfl (by simp)) fun alive => ?_
    refine alive.before_call calls [{c with phase := .send}] rfl ?_ (fun _ held => held) rfl rfl
    intro x found _ same
    rw [List.mem_singleton.mp found] at same
    exact .key (same ▸ held)
  | passed calls _ _ =>
    refine covered.quiet rfl rfl (setting_le f calls [] rfl nofun) fun alive => ?_
    exact alive.before_call calls [] rfl nofun (fun _ held => held) rfl rfl
  | send calls phase _ => exact covered.quiet rfl rfl (setting_le f calls [] rfl nofun) (send_live calls phase)
  | keep _ front collected => exact covered.quiet rfl rfl (Nat.le_refl _) (keep_live collisionFree front collected)
  | fill _ front _ =>
    refine covered.quiet rfl rfl (Nat.le_refl _) fun alive => ?_
    cases alive with
    | key held => exact .key held
    | sending found send same => exact .sending found send same
    | sent found same => exact .sent (front ▸ List.mem_cons_of_mem _ found) same
    | entry held => exact .entry held
  | flush flushing collected => exact flush_covered collisionFree named covered drained flushing collected

-- Whatever the interleaving, no more batches are posted for a fingerprint than pushes were accepted.
theorem posts_le_pushes (cfg : Settings) (collisionFree : Function.Injective cfg.md5)
    (runs : Transitions.Runs (System.step cfg) Drained System.start actions s) (f : Text) :
    posts f s ≤ pushes f s := by
  have start : Named cfg .start ∧ Covered cfg f .start := by
    refine ⟨nofun,Nat.le_refl _,fun alive => ?_⟩
    cases alive <;> contradiction
  have inv := runs.invariant (fun s => Named cfg s ∧ Covered cfg f s) start fun _ _ _ inv drained stepped =>
    ⟨step_named inv.1 (step_exact stepped),step_covered collisionFree inv.1 inv.2 drained
      (step_exact stepped)⟩
  exact Nat.le_trans (Nat.le_add_right _ _) inv.2.sets

instance (s : System) : (action : Action) → Decidable (Drained s action)
  | .flush =>
    inferInstanceAs (Decidable (∀ message ∈ s.flushing,
      (∀ c ∈ s.calls, c.phase = .send → c.line ≠ message.expl) ∧
      ∀ other ∈ s.channel, other.expl ≠ message.expl))
  | .start _ _ | .call _ | .receive => .isTrue trivial

def query (branch info : String) : SqlInfo :=
  ⟨text info,[],[],text branch,text ("mysql:[dbname=" ++ branch ++ "]")⟩

-- The steps of the first call: UniquePush, SetKey, GetKey, send. A call whose push is refused has no SetKey.
def accepts : List Action := [.call 0,.call 0,.call 0,.call 0]
def refuses : List Action := [.call 0,.call 0,.call 0]

def drainedRun : List Action :=
  [.start (text "f") (query "b" "1"),.start (text "f") (query "b" "2")] ++ accepts ++ refuses ++
    [.receive,.receive,.flush]

theorem drained_run_reports_once :
    ∃ s, Transitions.run (System.step ⟨id,1⟩) System.start drainedRun = some s ∧
    posts (text "f") s = 1 ∧ posts (text "f") s ≤ pushes (text "f") s :=
  ⟨_,rfl,by decide +kernel,posts_le_pushes ⟨id,1⟩ Function.injective_id
    (Transitions.runs_of_run System.start drainedRun rfl (by decide +kernel)) (text "f")⟩

-- Four samples of one fingerprint pass the key before the collector deletes it.
theorem crowded_run_reports_twice : ∃ s, Transitions.run (System.step ⟨id,1⟩) System.start
    ([.start (text "f") (query "b" "1"),.start (text "f") (query "b" "2"),.start (text "f") (query "b" "3"),
      .start (text "f") (query "b" "4")] ++ accepts ++ refuses ++ refuses ++ refuses ++
      [.receive,.receive,.flush,.receive,.receive,.flush]) = some s ∧
    posts (text "f") s = 2 ∧ pushes (text "f") s = 1 :=
  ⟨_,rfl,by decide +kernel⟩

end SqlReview.Sampling
