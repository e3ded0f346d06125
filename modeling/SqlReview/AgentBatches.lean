import SqlReview.AgentFlow
import SqlReview.SamplingReports

-- What the batches that testSQL posts are made of, over whole runs.
namespace SqlReview.Agent
open GoText GoBytes Records RedisStore UniqueQueue RedisLists Intake Collector

-- A statement that some importToRedis was given, under the fingerprint it was given with.
def Stems (handed : List (Bytes × Text × SqlInfo)) (expl : Text) (sql : SqlInfo) : Prop :=
  ∃ entry ∈ handed,Sampling.unescape entry.2.1 = expl ∧ entry.2.2 = sql

def Gathered (handed : List (Bytes × Text × SqlInfo)) (result : ExplainsResult) : Prop :=
  ∀ sample ∈ result.arr,Stems handed result.expl sample

structure Traced (handed : List (Bytes × Text × SqlInfo)) (s : Sampling.System) : Prop where
  calls : ∀ c ∈ s.calls,Stems handed c.line c.sql
  channel : ∀ message ∈ s.channel,Gathered handed message
  flushing : ∀ message ∈ s.flushing,Gathered handed message
  entries : ∀ key,∀ entry ∈ s.entries key,Gathered handed entry
  posted : ∀ batch ∈ s.posted,Gathered handed batch

theorem Stems.more (stems : Stems handed expl sql) (new : List (Bytes × Text × SqlInfo)) :
    Stems (handed ++ new) expl sql := by
  obtain ⟨entry,member,same⟩ := stems
  exact ⟨entry,List.mem_append_left _ member,same⟩

theorem Traced.more {s : Sampling.System} (traced : Traced handed s)
    (new : List (Bytes × Text × SqlInfo)) : Traced (handed ++ new) s :=
  ⟨fun c member => (traced.calls c member).more new,fun message member sample inside =>
    (traced.channel message member sample inside).more new,
    fun message member sample inside => (traced.flushing message member sample inside).more new,
    fun key entry member sample inside => (traced.entries key entry member sample inside).more new,
    fun batch member sample inside => (traced.posted batch member sample inside).more new⟩

theorem calls_replace {s : Sampling.System} (traced : Traced handed s)
    (calls : s.calls = l ++ c :: r) (new : List Sampling.Call)
    (same : ∀ d ∈ new,d.line = c.line ∧ d.sql = c.sql) : ∀ d ∈ l ++ (new ++ r),Stems handed d.line d.sql := by
  have before := traced.calls
  rw [calls,List.forall_mem_append,List.forall_mem_cons] at before
  obtain ⟨left,own,right⟩ := before
  refine List.forall_mem_append.mpr ⟨left,List.forall_mem_append.mpr ⟨fun d member => ?_,right⟩⟩
  obtain ⟨line,sql⟩ := same d member
  rwa [line,sql]

-- The collector puts a sample only to an entry of its own fingerprint.
theorem keep_traced {s : Sampling.System} (collisionFree : Function.Injective cfg.md5)
    (named : Sampling.Named cfg s) (traced : Traced handed s)
    (own : Gathered handed message) (collected : collect cfg.md5 cfg.sampling s.entries message =
    some (entries,none)) :
    ∀ key,∀ entry ∈ entries key,Gathered handed entry := by
  obtain ⟨entry,rfl,came⟩ := collect_keeps collected
  intro key other found
  by_cases same : key = cfg.md5 message.expl
  · rw [same,Function.update_self] at found
    cases Option.some.inj found
    rcases came with ⟨_,rfl⟩ | held | ⟨old,sample,held,_,inside,_,rfl⟩
    · exact own
    · exact traced.entries _ _ held
    · have expl : old.expl = message.expl := collisionFree (named _ old held)
      intro one member
      rcases List.mem_append.mp member with before | new
      · exact traced.entries _ _ held one before
      · cases List.mem_singleton.mp new
        change Stems handed old.expl _
        rw [expl]
        exact own _ inside
  · rw [Function.update_of_ne same] at found
    exact traced.entries key other found

theorem sampling_traced {s t : Sampling.System} (collisionFree : Function.Injective cfg.md5)
    (named : Sampling.Named cfg s) (traced : Traced handed s)
    (quiet : ∀ line sql,action ≠ .start line sql) (step : Sampling.Step cfg s action t) :
    Traced handed t := by
  cases step with
  | start => exact absurd rfl (quiet _ _)
  | accepted calls phase _ | refused calls phase _ | set calls phase | sampled calls phase _ =>
    exact ⟨calls_replace traced calls [_] (List.forall_mem_singleton.mpr ⟨rfl,rfl⟩),traced.channel,
      traced.flushing,traced.entries,traced.posted⟩
  | passed calls phase _ =>
    exact ⟨calls_replace traced calls [] (List.forall_mem_nil _),traced.channel,traced.flushing,
      traced.entries,traced.posted⟩
  | send calls phase _ =>
    have own := traced.calls _ (calls ▸ List.mem_append_right _ List.mem_cons_self)
    refine ⟨calls_replace traced calls [] (List.forall_mem_nil _),?_,traced.flushing,traced.entries,
      traced.posted⟩
    refine List.forall_mem_append.mpr ⟨traced.channel,List.forall_mem_singleton.mpr ?_⟩
    exact List.forall_mem_singleton.mpr own
  | keep idle channel collected =>
    have before := traced.channel
    rw [channel,List.forall_mem_cons] at before
    exact ⟨traced.calls,before.2,traced.flushing,
      keep_traced collisionFree named traced before.1 collected,traced.posted⟩
  | fill idle channel collected =>
    have before := traced.channel
    rw [channel,List.forall_mem_cons] at before
    exact ⟨traced.calls,before.2,fun message found => Option.some.inj found ▸ before.1,
      traced.entries,traced.posted⟩
  | @flush message entries batch flushing collected =>
    obtain ⟨held,rfl⟩ := collect_posts collected
    refine ⟨traced.calls,traced.channel,by simp,fun key entry found => ?_,?_⟩
    · change entry ∈ Function.update s.entries (cfg.md5 message.expl) none key at found
      by_cases same : key = cfg.md5 message.expl
      · rw [same,Function.update_self] at found
        cases found
      · rw [Function.update_of_ne same] at found
        exact traced.entries key entry found
    · exact List.forall_mem_append.mpr ⟨traced.posted,List.forall_mem_singleton.mpr (traced.entries _ _ held)⟩

structure Sampled (cfg : Settings) (s : Process) : Prop where
  named : Sampling.Named cfg.sampling s.system
  traced : Traced s.handed s.system

theorem crash_sampled {s : Process} (sampled : Sampled cfg s) : Sampled cfg (s.crash cfg) :=
  ⟨fun _ _ found => absurd found (by simp [Process.crash]),List.forall_mem_nil _,
    List.forall_mem_nil _,by simp [Process.crash],
    by simp [Process.crash],sampled.traced.posted⟩

theorem pop_sampled {s : Process} (sampled : Sampled cfg s) (i : Nat) (link : Link) (rest : List Nat) :
    Sampled cfg (s.pop i link rest) := by
  obtain ⟨named,traced⟩ := sampled
  unfold Process.pop
  dsimp only
  split
  · exact ⟨named,traced⟩
  · split <;> exact ⟨named,traced.calls,traced.channel,traced.flushing,traced.entries,traced.posted⟩

theorem step_sampled {s t : Process} (collisionFree : Function.Injective cfg.md5)
    (sampled : Sampled cfg s) (step : Step cfg s action t) :
    Sampled cfg t := by
  obtain ⟨named,traced⟩ := sampled
  cases step with
  | panic _ _ => exact crash_sampled ⟨named,traced⟩
  | kill => exact crash_sampled ⟨named,traced⟩
  | pop workers => exact pop_sampled ⟨named,traced⟩ _ _ _
  | hand excutes outcome printed =>
    obtain ⟨calls,channel,flushing,entries,posted⟩ := traced.more [(_,_,_)]
    refine ⟨named,List.forall_mem_append.mpr ⟨calls,List.forall_mem_singleton.mpr ?_⟩,channel,
      flushing,entries,posted⟩
    exact ⟨_,List.mem_append_right _ List.mem_cons_self,rfl,rfl⟩
  | sample quiet advanced =>
    exact ⟨Sampling.step_named named advanced,sampling_traced collisionFree named traced quiet advanced⟩
  | push => exact ⟨named,traced.calls,traced.channel,traced.flushing,traced.entries,traced.posted⟩
  | _ => exact ⟨named,traced⟩

-- Each sample of a posted batch is a statement that was read from a branch of dispatch, and the batch
-- carries that statement's own fingerprint.
theorem batches_stem {store : Store Text} {s : Process} (apart : Apart cfg)
    (collisionFree : Function.Injective cfg.md5)
    (held : ∀ i,store.list? (branch i) = some ((onBranch i old).map latin))
    (ran : Transitions.run (Process.step cfg) (.start cfg store old) actions = some s) :
    ∀ batch ∈ s.system.posted,∀ sample ∈ batch.arr,∃ i body line,i < cfg.branches ∧
      (i,body) ∈ s.popped ∧ (i,body) ∈ s.pushed ∧
      excuteUnique cfg (jsonDecode body) = .call line sample ∧ Sampling.unescape line = batch.expl := by
  obtain ⟨queued,kept⟩ := run_kept apart held ran
  have served : Served cfg s := run_served ran
  have given : Given cfg s := run_given ran
  have sampled : Sampled cfg s := Transitions.run_invariant (Sampled cfg)
    ⟨by simp [Sampling.Named,Process.start,Sampling.System.start],List.forall_mem_nil _,List.forall_mem_nil _,
      by simp [Process.start,Sampling.System.start],by simp [Process.start,Sampling.System.start],
        List.forall_mem_nil _⟩
    (fun _ _ _ sampled stepped => step_sampled collisionFree sampled (step_exact stepped)) ran
  intro batch posted sample inside
  obtain ⟨entry,handed,expl,rfl⟩ := sampled.traced.posted batch posted sample inside
  have popped : entry.1 ∈ s.popped.map Prod.snd :=
    kept.conserved.mem_iff.mpr (List.mem_append_left _ (List.mem_append_right _ (List.mem_map_of_mem handed)))
  obtain ⟨⟨i,body⟩,read,same⟩ := List.mem_map.mp popped
  refine ⟨i,body,entry.2.1,served.popped _ read,read,kept.read.1 _ read,?_,expl⟩
  rw [show body = entry.1 from same]
  exact (given.handed entry handed).1

theorem trial_injective : Function.Injective trial.md5 := fun _ _ same => (List.cons.inj same).2

-- The second sample of a statement finds the batch of the first one full.
def postedRun : List Action :=
  [.push 0 stated,.push 0 stated,.pop 0 .answered,.pop 0 .answered,.excute 0,.excute 0] ++
    List.replicate 7 (.sample (.call 0)) ++ [.sample .receive,.sample .receive,.sample .flush]

theorem posted_run_stems :
    ∃ s : Process,Transitions.run (Process.step trial) (.start trial noStore []) postedRun = some s ∧
    s.system.posted.length = 1 ∧
    ∀ batch ∈ s.system.posted,∀ sample ∈ batch.arr,∃ i body line,i < trial.branches ∧
      (i,body) ∈ s.popped ∧ (i,body) ∈ s.pushed ∧
      excuteUnique trial (jsonDecode body) = .call line sample ∧ Sampling.unescape line = batch.expl := by
  have ends : (Transitions.run (Process.step trial) (.start trial noStore []) postedRun).map
      (fun s => s.system.posted.length) = some 1 := by
    decide +kernel
  obtain ⟨s,ran,one⟩ := Option.map_eq_some_iff.mp ends
  exact ⟨s,ran,one,batches_stem trial_apart trial_injective no_lists ran⟩

end SqlReview.Agent
