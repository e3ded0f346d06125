import SqlReview.RedisPool

-- What holds of a pool after any number of sections of get, put and Close, in any order.
namespace SqlReview.RedisPool
open DoublyLinked

def Thread.conn : Thread → Option Nat
  | .prune pc _ _ | .test pc | .discard pc | .held pc | .put pc _ | .drop pc => some pc
  | _ => none

-- Whether p.active counts a connection for the caller.
def Thread.counted : Thread → Nat
  | .get _ | .wait _ | .lock | .failed _ => 0
  | _ => 1

-- Whether it has a token to give back.
def Thread.token : Thread → Nat
  | .get _ | .wait _ | .failed _ => 0
  | _ => 1

def conns (threads : List Thread) : List Nat := threads.filterMap Thread.conn

def counted (threads : List Thread) : Nat := (threads.map Thread.counted).sum

def tokens (threads : List Thread) : Nat := (threads.map Thread.token).sum

section
variable (l r : List Thread) (thread : Thread)

@[simp] theorem conns_append : conns (l ++ r) = conns l ++ conns r := List.filterMap_append

@[simp] theorem conns_cons : conns (thread :: r) = thread.conn.toList ++ conns r := by
  rw [conns,List.filterMap_cons]
  cases thread.conn <;> rfl

@[simp] theorem counted_append : counted (l ++ r) = counted l+counted r := by simp [counted]

@[simp] theorem counted_cons : counted (thread :: r) = thread.counted+counted r := by simp [counted]

@[simp] theorem tokens_append : tokens (l ++ r) = tokens l+tokens r := by simp [tokens]

@[simp] theorem tokens_cons : tokens (thread :: r) = thread.token+tokens r := by simp [tokens]
end

theorem counted_le (threads : List Thread) : counted threads ≤ tokens threads := by
  induction threads with
  | nil => exact Nat.le_refl _
  | cons thread rest ih =>
    have own : thread.counted ≤ thread.token := by cases thread <;> simp [Thread.counted,Thread.token]
    rw [counted_cons,tokens_cons]
    omega

-- While the pool is open its tokens are in the channel or with the callers; before the first get that
-- may wait there is no channel.
structure Shared (cfg : Settings) (ch : Option Nat) (closed : Bool) (threads : List Thread) : Prop where
  total : cfg.waits = true → closed = false →
    (ch.getD cfg.maxActive.toNat : Int)+tokens threads = cfg.maxActive
  unused : cfg.waits = false → ch = none
  waiting : ∀ ctx,.wait ctx ∈ threads → ch ≠ none

-- `items` are the idle connections, `swept` those that Close has yet to close.
structure Sound (cfg : Settings) (items swept : List Nat) (p : Pool) (threads : List Thread) : Prop where
  list : Holds p.heap p.idle items
  rest : ∃ before,Segment p.heap before swept none
  placed : (items ++ (swept ++ (conns threads ++ p.shut))).Perm (List.range p.fresh)
  active : p.active = items.length+counted threads
  limit : 0 < cfg.maxActive → p.active ≤ cfg.maxActive
  few : (items.length : Int) ≤ max cfg.maxIdle 0
  closed : p.closed = true → items = []
  running : p.closed = false → swept = []
  shared : Shared cfg p.ch p.closed threads

def Fine (cfg : Settings) (swept : List Nat) (l r : List Thread) : Outcome → Prop
  | .blocked => True
  | .fault _ => False
  | .goes p next => ∃ items,Sound cfg items swept p (l ++ (next.toList ++ r))

section
variable {cfg : Settings} {items swept : List Nat} {p : Pool} {l r threads : List Thread} {old : Thread}

theorem Sound.apart (sound : Sound cfg items swept p threads) :
    (items ++ (swept ++ (conns threads ++ p.shut))).Nodup ∧
      ∀ pc ∈ items ++ (swept ++ (conns threads ++ p.shut)),pc < p.fresh :=
  ⟨sound.placed.nodup_iff.mpr List.nodup_range,fun _ member =>
    List.mem_range.mp (sound.placed.mem_iff.mp member)⟩

theorem Shared.onward (shared : Shared cfg ch closed (l ++ old :: r)) (new : List Thread)
    (token : cfg.waits = true → closed = false → tokens new = old.token) (quiet : ∀ ctx,.wait ctx ∉ new) :
    Shared cfg ch closed (l ++ (new ++ r)) := by
  refine ⟨fun waits opened => ?_,shared.unused,fun ctx member => shared.waiting ctx ?_⟩
  · simpa [token waits opened] using shared.total waits opened
  · simp only [List.mem_append,List.mem_cons] at member ⊢
    rcases member with left | own | right
    · exact Or.inl left
    · exact absurd own (quiet ctx)
    · exact Or.inr (Or.inr right)

-- A caller moves on with what it has.
theorem Sound.onward (sound : Sound cfg items swept p (l ++ old :: r)) (new : List Thread)
    (conn : conns new = old.conn.toList)
    (same : counted new = old.counted) (token : cfg.waits = true → p.closed = false → tokens new = old.token)
    (quiet : ∀ ctx,.wait ctx ∉ new) : Sound cfg items swept p (l ++ (new ++ r)) := by
  obtain ⟨list,rest,placed,active,limit,few,closed,running,shared⟩ := sound
  refine ⟨list,rest,?_,?_,limit,few,closed,running,shared.onward new token quiet⟩
  · simpa [conn] using placed
  · rw [active]
    simp [same]

-- It closes its connection and keeps its token.
theorem Sound.dropped (sound : Sound cfg items swept p (l ++ old :: r)) (conn : old.conn = some pc)
    (own : old.counted = 1)
    (token : old.token = 1) : Sound cfg items swept (p.dropped pc) (l ++ .lock :: r) := by
  obtain ⟨list,rest,placed,active,limit,few,closed,running,shared⟩ := sound
  refine ⟨list,rest,?_,?_,fun bound => ?_,few,closed,running,
    shared.onward [.lock] (fun _ _ => token.symm) (by simp)⟩
  · refine List.perm_iff_count.mpr fun k => ?_
    have before := placed.count_eq k
    simp only [conns_append,conns_cons,conn,Option.toList_some,List.count_append,Pool.dropped] at before ⊢
    rw [← before]
    simp [Thread.conn]
    omega
  · simp only [Pool.dropped,active,counted_append,counted_cons,own]
    simp [Thread.counted]
    omega
  · have before := limit bound
    simp only [Pool.dropped]
    omega

-- The channel has room for a token that is given back.
theorem release_fine (sound : Sound cfg items swept p (l ++ .lock :: r)) (next : Option Thread)
    (conn : conns next.toList = [])
    (own : counted next.toList = 0) (token : tokens next.toList = 0) (quiet : ∀ ctx,.wait ctx ∉ next.toList) :
    Fine cfg swept l r (release cfg p next) := by
  obtain ⟨list,rest,placed,active,limit,few,closed,running,shared⟩ := sound
  have placed : (items ++ (swept ++ (conns (l ++ (next.toList ++ r)) ++ p.shut))).Perm
      (List.range p.fresh) := by
    simpa [conn,Thread.conn] using placed
  have active : p.active = items.length+counted (l ++ (next.toList ++ r)) := by
    rw [active]
    simp [own,Thread.counted]
  have total (waits : cfg.waits = true) (opened : p.closed = false) :
      (p.ch.getD cfg.maxActive.toNat : Int)+(tokens (l ++ (next.toList ++ r))+1) = cfg.maxActive := by
    have before := shared.total waits opened
    simp only [tokens_append,tokens_cons,token,Thread.token] at before ⊢
    omega
  unfold release
  cases channel : p.ch with
  | none =>
    refine ⟨items,list,rest,placed,active,limit,few,closed,running,
      shared.onward _ (fun waits opened => ?_) quiet⟩
    -- No token is missing before the channel is made.
    have before := total waits opened
    rw [channel] at before
    simp only [Option.getD_none] at before
    omega
  | some n =>
    simp only
    cases shut : p.closed with
    | true =>
      refine ⟨items,list,rest,placed,active,limit,few,closed,running,
        shared.onward _ (fun _ opened => ?_) quiet⟩
      rw [shut] at opened
      cases opened
    | false =>
      have waits : cfg.waits = true := by
        by_contra unwaited
        rw [shared.unused (Bool.eq_false_of_not_eq_true unwaited)] at channel
        cases channel
      have before := total waits shut
      rw [channel,Option.getD_some] at before
      rw [if_neg Bool.false_ne_true,if_pos (by omega)]
      refine ⟨items,list,rest,placed,active,limit,few,fun shut => absurd shut Bool.false_ne_true,
        fun _ => running shut,fun _ _ => ?_,
        fun unwaited => ?_,fun _ _ => by simp⟩
      · rw [Option.getD_some]
        omega
      · rw [waits] at unwaited
        cases unwaited

-- A caller takes one of the idle connections.
theorem Sound.taken (sound : Sound cfg items swept p (l ++ .lock :: r))
    (list : Holds heap idle left) (outside : Outside p.heap heap items)
    (one : items.Perm (pc :: left)) (new : Thread) (conn : new.conn = some pc)
    (own : new.counted = 1) (token : new.token = 1)
    (quiet : ∀ ctx,.wait ctx ∉ [new]) :
    Sound cfg left swept {p with heap := heap,idle := idle} (l ++ new :: r) := by
  have apart := sound.apart.1
  obtain ⟨_,⟨before,rest⟩,placed,active,limit,few,closed,running,shared⟩ := sound
  have length := one.length_eq
  rw [List.length_cons] at length
  refine ⟨list,⟨before,outside.segment ?_ rest⟩,?_,?_,limit,?_,fun shut => ?_,running,
    shared.onward [new] (fun _ _ => ?_) quiet⟩
  · exact fun _ inside other => List.disjoint_of_nodup_append apart inside (List.mem_append_left _ other)
  · refine List.perm_iff_count.mpr fun k => ?_
    have counts := placed.count_eq k
    have moved := one.count_eq k
    simp only [conns_append,conns_cons,conn,List.count_append,List.count_cons,Option.toList_some,
      List.count_nil] at counts moved ⊢
    rw [← counts]
    simp only [Thread.conn,Option.toList_none,List.count_nil]
    omega
  · simp only [active,length,counted_append,counted_cons,own]
    simp only [Thread.counted]
    omega
  · omega
  · have empty := one.symm.subset List.mem_cons_self
    rw [closed shut] at empty
    cases empty
  · rw [tokens_cons,token]
    rfl

theorem borrow_fine (sound : Sound cfg items swept p (l ++ .lock :: r)) :
    Fine cfg swept l r (borrow cfg p) := by
  unfold borrow
  cases items with
  | cons pc items =>
    have front : p.idle.front = some pc := sound.list.front
    obtain ⟨heap,idle,popped,list,outside⟩ := popFront_holds sound.list
    simp only [front,popped]
    exact ⟨items,sound.taken list outside (List.Perm.refl _) (.test pc) rfl rfl rfl (by simp)⟩
  | nil =>
    have front : p.idle.front = none := sound.list.front
    simp only [front]
    split
    · rename_i shut
      refine ⟨[],sound.onward [.failed .closed] rfl rfl (fun _ opened => ?_) (by simp)⟩
      rw [shut] at opened
      cases opened
    · rename_i opened
      split
      · rename_i exhausted
        refine ⟨[],sound.onward [.failed .exhausted] rfl rfl (fun waits _ => ?_) (by simp)⟩
        simp only [Settings.waits,Bool.and_eq_true,Bool.not_eq_true'] at exhausted waits
        rw [exhausted.1.1] at waits
        exact absurd waits.1 Bool.false_ne_true
      · rename_i room
        obtain ⟨list,rest,placed,active,limit,few,closed,running,shared⟩ := sound
        refine ⟨[],list,rest,?_,?_,fun bound => ?_,few,closed,running,
          shared.onward [.dial] (fun _ _ => rfl) (by simp)⟩
        · simpa [Thread.conn] using placed
        · simp only [active,counted_append,counted_cons,Option.toList_some,List.singleton_append,
            Thread.counted]
          omega
        · -- Each of the other callers counts once at most, and with a channel each one has a token.
          cases waits : cfg.wait with
          | false =>
            simp only [waits,Bool.not_false,Bool.true_and,bound,decide_true,decide_eq_true_eq] at room
            change p.active+1 ≤ _
            omega
          | true =>
            have before :=
              shared.total (by simp [Settings.waits,waits,bound]) (Bool.eq_false_of_not_eq_true opened)
            have left := counted_le l
            have right := counted_le r
            simp only [active,tokens_append,tokens_cons,counted_append,counted_cons,Thread.counted,
              Thread.token,List.length_nil] at before ⊢
            omega

theorem prune_fine (sound : Sound cfg items swept p (l ++ .lock :: r)) :
    Fine cfg swept l r (prune cfg now p i n) := by
  unfold prune
  rcases List.eq_nil_or_concat items with rfl | ⟨items,pc,rfl⟩
  · have back : p.idle.back = none := sound.list.back
    simp only [back]
    exact borrow_fine sound
  · rw [List.concat_eq_append] at sound
    have back : p.idle.back = some pc := by rw [sound.list.back,List.getLast?_concat]
    simp only [back]
    split
    · obtain ⟨heap,idle,popped,list,outside⟩ := popBack_holds sound.list
      rw [popped]
      exact ⟨items,sound.taken list outside (List.perm_append_singleton pc items)
        (.prune pc i n) rfl rfl rfl (by simp)⟩
    · exact borrow_fine sound

-- put with the pool open: the connection goes to the front, and one too many comes off the back.
theorem put_fine (sound : Sound cfg items swept p (l ++ .put pc force :: r)) (opened : p.closed = false) :
    Fine cfg swept l r (put cfg now p pc) := by
  obtain ⟨nodup,_⟩ := sound.apart
  obtain ⟨list,_,placed,active,limit,few,closed,running,shared⟩ := sound
  have new : pc ∉ items := by
    intro member
    refine List.disjoint_of_nodup_append nodup member ?_
    simp [Thread.conn]
  have stamped : Holds (setData p.heap pc {(p.heap pc).data with t := now}) p.idle items :=
    ⟨list.count,list.front,list.back,list.chain.setData _ _,list.nodup⟩
  obtain ⟨heap,idle,pushed,list,_⟩ := pushFront_holds stamped new
  have shut (closed : p.closed = true) (items : List Nat) : items = [] := by
    rw [opened] at closed
    cases closed
  cases running opened
  unfold put
  rw [pushed]
  simp only
  split
  · -- The last one may be the connection itself.
    obtain ⟨others,last,split⟩ : ∃ others last,pc :: items = others ++ [last] :=
      ⟨_,_,(List.dropLast_append_getLast (List.cons_ne_nil pc items)).symm⟩
    rw [split] at list
    have back : idle.back = some last := by rw [list.back,List.getLast?_concat]
    obtain ⟨heap,idle,popped,list,_⟩ := popBack_holds list
    have same : others.length = items.length := by simpa using (congrArg List.length split).symm
    simp only [back,popped]
    refine ⟨others,list,⟨none,trivial⟩,?_,?_,limit,same ▸ few,fun closed => shut closed _,fun _ => rfl,
      shared.onward [.drop last] (fun _ _ => rfl) (by simp)⟩
    · refine List.perm_iff_count.mpr fun k => ?_
      have counts := placed.count_eq k
      have moved := congrArg (List.count k) split
      simp only [conns_append,conns_cons,List.count_append,List.count_cons,Thread.conn,
        Option.toList_some,List.count_nil,
        List.singleton_append] at counts moved ⊢
      rw [← counts]
      omega
    · simp only [active,same,counted_append,counted_cons,Option.toList_some,List.singleton_append,
        Thread.counted]
  · have count := list.count
    have put : Sound cfg (pc :: items) [] {p with heap := heap,idle := idle} (l ++ .lock :: r) := by
      refine ⟨list,⟨none,trivial⟩,?_,?_,limit,?_,fun closed => shut closed _,fun _ => rfl,
        shared.onward [.lock] (fun _ _ => rfl) (by simp)⟩
      · refine List.perm_iff_count.mpr fun k => ?_
        have counts := placed.count_eq k
        simp only [conns_append,conns_cons,List.count_append,List.count_cons,Thread.conn,
          Option.toList_some,Option.toList_none,
          List.count_nil] at counts ⊢
        rw [← counts]
        omega
      · simp only [active,List.length_cons,counted_append,counted_cons,Thread.counted]
        omega
      · omega
    exact release_fine put none rfl rfl rfl (by simp)

theorem lazyInit_eq (cfg : Settings) (p : Pool) :
    lazyInit cfg p = {p with ch := some (p.ch.getD (if p.closed then 0 else cfg.maxActive.toNat))} := by
  obtain ⟨closed,active,ch,heap,idle,fresh,shut⟩ := p
  cases ch <;> rfl

theorem get_fine (sound : Sound cfg items swept p (l ++ .get ctx :: r)) :
    Fine cfg swept l r (advance cfg now ok p (.get ctx)) := by
  simp only [advance]
  split
  · rename_i waits
    obtain ⟨list,rest,placed,active,limit,few,closed,running,shared⟩ := sound
    rw [lazyInit_eq]
    refine ⟨items,list,rest,?_,?_,limit,few,closed,running,fun waits opened => ?_,fun unwaited =>
      ?_,fun _ _ => by simp⟩
    · simpa [Thread.conn] using placed
    · rw [active]
      simp [Thread.counted]
    · have opened : p.closed = false := opened
      simpa [opened,Thread.token] using shared.total waits opened
    · rw [waits] at unwaited
      cases unwaited
  · rename_i unwaited
    exact ⟨items,sound.onward [.lock] rfl rfl (fun waits => absurd waits unwaited) (by simp)⟩

theorem receive_fine (sound : Sound cfg items swept p (l ++ .wait ctx :: r)) :
    Fine cfg swept l r (receive p) := by
  unfold receive
  cases channel : p.ch with
  | none => trivial
  | some n =>
    cases n with
    | zero =>
      cases shut : p.closed with
      | false => trivial
      | true =>
        refine ⟨items,sound.onward [.lock] rfl rfl (fun _ opened => ?_) (by simp)⟩
        rw [shut] at opened
        cases opened
    | succ n =>
      obtain ⟨list,rest,placed,active,limit,few,closed,running,shared⟩ := sound
      refine ⟨items,list,rest,?_,?_,limit,few,closed,running,fun waits opened => ?_,fun unwaited =>
        ?_,fun _ _ => by simp⟩
      · simpa [Thread.conn] using placed
      · rw [active]
        simp [Thread.counted]
      · have before := shared.total waits opened
        rw [channel] at before
        simp only [tokens_append,tokens_cons,Option.getD_some,Option.toList_some,
          List.singleton_append,Thread.token] at before ⊢
        omega
      · rw [shared.unused unwaited] at channel
        cases channel

theorem dial_fine (sound : Sound cfg items swept p (l ++ .dial :: r)) :
    Fine cfg swept l r (advance cfg now ok p .dial) := by
  simp only [advance]
  split
  · obtain ⟨_,old⟩ := sound.apart
    obtain ⟨list,⟨before,rest⟩,placed,active,limit,few,closed,running,shared⟩ := sound
    have new : p.fresh ∉ items ∧ p.fresh ∉ swept := by
      constructor <;> intro member
      · exact absurd (old p.fresh (List.mem_append_left _ member)) (Nat.lt_irrefl _)
      · exact absurd (old p.fresh (List.mem_append_right _ (List.mem_append_left _ member))) (Nat.lt_irrefl _)
    refine ⟨items,⟨list.count,list.front,list.back,list.chain.update new.1 _,list.nodup⟩,
      ⟨before,rest.update new.2 _⟩,?_,?_,limit,few,
      closed,running,shared.onward [.held p.fresh] (fun _ _ => rfl) (by simp)⟩
    · refine List.perm_iff_count.mpr fun k => ?_
      have counts := placed.count_eq k
      simp only [conns_append,conns_cons,List.count_append,Thread.conn,Option.toList_some,
        Option.toList_none,List.count_nil,
        List.singleton_append,List.range_succ] at counts ⊢
      rw [← counts]
      simp only [List.count_cons,List.count_nil]
      omega
    · rw [active]
      simp [Thread.counted]
  · exact ⟨items,sound.onward [.undial] rfl rfl (fun _ _ => rfl) (by simp)⟩

theorem undial_sound (sound : Sound cfg items swept p (l ++ .undial :: r)) :
    Sound cfg items swept {p with active := p.active-1} (l ++ .lock :: r) := by
  obtain ⟨list,rest,placed,active,limit,few,closed,running,shared⟩ := sound
  refine ⟨list,rest,?_,?_,fun bound => ?_,few,closed,running,shared.onward [.lock] (fun _ _ => rfl) (by simp)⟩
  · simpa [Thread.conn] using placed
  · simp only [active,counted_append,counted_cons,Thread.counted]
    omega
  · have before := limit bound
    change p.active-1 ≤ _
    omega

theorem advance_fine (sound : Sound cfg items swept p (l ++ thread :: r)) (now : Int) (ok : Bool) :
    Fine cfg swept l r (advance cfg now ok p thread) := by
  cases thread with
  | get ctx => exact get_fine sound
  | wait ctx => exact receive_fine sound
  | lock => exact prune_fine sound
  | prune pc i n => exact prune_fine (sound.dropped rfl rfl rfl)
  | test pc =>
    simp only [advance]
    split
    · exact ⟨items,sound.onward [.held pc] rfl rfl (fun _ _ => rfl) (by simp)⟩
    · exact ⟨items,sound.onward [.discard pc] rfl rfl (fun _ _ => rfl) (by simp)⟩
  | discard pc => exact borrow_fine (sound.dropped rfl rfl rfl)
  | dial => exact dial_fine sound
  | undial => exact release_fine (undial_sound sound) _ rfl rfl rfl (by simp)
  | held pc => exact ⟨items,sound.onward [.put pc (!ok)] rfl rfl (fun _ _ => rfl) (by simp)⟩
  | put pc force =>
    simp only [advance]
    split
    · rename_i opened
      simp only [Bool.and_eq_true,Bool.not_eq_true'] at opened
      exact put_fine sound opened.1
    · exact ⟨items,sound.onward [.drop pc] rfl rfl (fun _ _ => rfl) (by simp)⟩
  | drop pc => exact release_fine (sound.dropped rfl rfl rfl) none rfl rfl rfl (by simp)
  | failed err => exact ⟨items,sound.onward [] rfl rfl (fun _ _ => rfl) (by simp)⟩

end

def Safe (cfg : Settings) (s : System) : Prop :=
  s.fault = none ∧ ∃ items swept,s.sweep = swept.head? ∧ Sound cfg items swept s.pool s.threads

theorem start_safe (cfg : Settings) : Safe cfg .start := by
  refine ⟨rfl,[],[],rfl,⟨rfl,rfl,rfl,trivial,List.nodup_nil⟩,⟨none,trivial⟩,List.Perm.refl _,rfl,
    Int.le_of_lt,?_,fun _ => rfl,fun _ => rfl,?_,
    fun _ => rfl,by simp [System.start]⟩
  · exact Int.le_max_right _ _
  · intro waits _
    simp only [Settings.waits,Bool.and_eq_true,decide_eq_true_eq] at waits
    simp [System.start,tokens]
    omega

theorem close_safe {s : System} (safe : Safe cfg s) (stepped : s.step cfg .close = some t) : Safe cfg t := by
  simp only [System.step] at stepped
  split at stepped
  · cases Option.some.inj stepped
    exact safe
  · rename_i opened
    cases Option.some.inj stepped
    obtain ⟨fault,items,swept,_,list,rest,placed,active,limit,few,closed,running,shared⟩ := safe
    cases running (Bool.eq_false_of_not_eq_true opened)
    refine ⟨fault,[],items,list.front,⟨rfl,rfl,rfl,trivial,List.nodup_nil⟩,⟨none,list.chain⟩,placed,
      ?_,fun bound => ?_,?_,fun _ => rfl,
      by simp,by simp,shared.unused,shared.waiting⟩
    · have count := list.count
      simp only [active,List.length_nil]
      omega
    · have count := list.count
      have before := limit bound
      change s.pool.active-s.pool.idle.count ≤ _
      omega
    · exact Int.le_max_right _ _

theorem sweep_safe {s : System} (safe : Safe cfg s) (stepped : s.step cfg .sweep = some t) : Safe cfg t := by
  obtain ⟨fault,items,swept,sweep,list,⟨before,rest⟩,placed,active,limit,few,closed,running,shared⟩ := safe
  cases swept with
  | nil => simp [System.step,sweep] at stepped
  | cons pc swept =>
    simp only [System.step,sweep,List.head?_cons,Option.map_some] at stepped
    cases Option.some.inj stepped
    obtain ⟨_,next,rest⟩ := rest
    refine ⟨fault,items,swept,?_,list,⟨_,rest⟩,?_,active,limit,few,closed,fun opened => ?_,shared⟩
    · simpa using next
    · refine List.perm_iff_count.mpr fun k => ?_
      have counts := placed.count_eq k
      simp only [List.count_append,List.count_cons,List.count_nil] at counts ⊢
      rw [← counts]
      omega
    · exact absurd (running opened) (List.cons_ne_nil _ _)

theorem cancel_safe {s : System} (safe : Safe cfg s) (stepped : s.step cfg (.cancel i) = some t) :
    Safe cfg t := by
  obtain ⟨fault,items,swept,sweep,sound⟩ := safe
  simp only [System.step] at stepped
  split at stepped
  · rename_i found
    obtain ⟨l,r,threads,rfl,left,right⟩ := Transitions.split_at found
    rw [left,right] at stepped
    cases Option.some.inj stepped
    rw [threads] at sound
    exact ⟨fault,items,swept,sweep,sound.onward [.failed .context] rfl rfl (fun _ _ => rfl) (by simp)⟩
  · cases stepped

theorem get_safe {s : System} (safe : Safe cfg s) (ctx : Bool) :
    Safe cfg {s with threads := s.threads ++ [.get ctx]} := by
  obtain ⟨fault,items,swept,sweep,list,rest,placed,active,limit,few,closed,running,shared⟩ := safe
  refine ⟨fault,items,swept,sweep,list,rest,?_,?_,limit,few,closed,running,fun waits opened => ?_,
    shared.unused,fun ctx member => ?_⟩
  · simpa [show conns [.get ctx] = [] from rfl] using placed
  · rw [active]
    simp [counted,Thread.counted]
  · simpa [tokens,Thread.token] using shared.total waits opened
  · simp only [List.mem_append,List.mem_singleton,reduceCtorEq,or_false] at member
    exact shared.waiting ctx member

theorem step_safe {s t : System} (safe : Safe cfg s) (stepped : s.step cfg action = some t) : Safe cfg t := by
  cases action with
  | get ctx =>
    cases Option.some.inj stepped
    exact get_safe safe ctx
  | advance i now ok =>
    obtain ⟨fault,items,swept,sweep,sound⟩ := safe
    simp only [System.step] at stepped
    split at stepped
    · cases stepped
    · rename_i thread found
      obtain ⟨l,r,threads,rfl,left,right⟩ := Transitions.split_at found
      rw [threads] at sound
      have fine := advance_fine sound now ok
      rw [left,right] at stepped
      cases outcome : advance cfg now ok s.pool thread with
      | blocked =>
        rw [outcome] at stepped
        cases stepped
      | fault why =>
        rw [outcome] at fine
        exact absurd fine id
      | goes p next =>
        rw [outcome] at stepped fine
        cases Option.some.inj stepped
        obtain ⟨items,sound⟩ := fine
        exact ⟨fault,items,swept,sweep,sound⟩
  | cancel i => exact cancel_safe safe stepped
  | close => exact close_safe safe stepped
  | sweep => exact sweep_safe safe stepped

theorem run_safe {s : System} (ran : Transitions.run (System.step cfg) .start actions = some s) :
    Safe cfg s :=
  Transitions.run_invariant (Safe cfg) (start_safe cfg) (fun _ _ _ safe stepped => step_safe safe stepped) ran

-- No nil pointer is followed and no send waits with p.mu held; p.active counts the idle connections and
-- those of the callers, within MaxActive; and no token is lost or made up.
theorem pool_accounts {s : System} (ran : Transitions.run (System.step cfg) .start actions = some s) :
    s.fault = none ∧ s.pool.active = s.pool.idle.count+counted s.threads ∧
      (0 < cfg.maxActive → s.pool.active ≤ cfg.maxActive) ∧
    0 ≤ s.pool.idle.count ∧ s.pool.idle.count ≤ max cfg.maxIdle 0 ∧
    (cfg.waits = true → s.pool.closed = false →
      (s.pool.ch.getD cfg.maxActive.toNat : Int)+tokens s.threads = cfg.maxActive) := by
  obtain ⟨fault,items,swept,_,sound⟩ := run_safe ran
  have count := sound.list.count
  have few := sound.few
  refine ⟨fault,?_,sound.limit,?_,?_,sound.shared.total⟩
  · rw [count]
    exact sound.active
  · omega
  · omega

-- One connection at most, for which callers wait.
def single : Settings := ⟨false,1,1,0,true,0⟩

-- The second caller waits for the connection of the first one, and has it when the pool is closed.
def turnsRun : List Action :=
  [.get false,.get false,.advance 0 0 true,.advance 1 0 true] ++ List.replicate 5 (.advance 0 0 true) ++
    List.replicate 3 (.advance 0 0 true) ++ [.close]

theorem turns_run : ∃ s : System,Transitions.run (System.step single) .start turnsRun = some s ∧
    conns s.threads = [0] := by
  have ends : (Transitions.run (System.step single) .start turnsRun).map
      (fun s => conns s.threads) = some [0] := by
    decide +kernel
  exact Option.map_eq_some_iff.mp ends

theorem turns_run_accounts : ∃ s : System,Transitions.run (System.step single) .start turnsRun =
    some s ∧ conns s.threads = [0] ∧
    s.fault = none ∧ s.pool.active = s.pool.idle.count+counted s.threads ∧
      (0 < single.maxActive → s.pool.active ≤ single.maxActive) ∧
    0 ≤ s.pool.idle.count ∧ s.pool.idle.count ≤ max single.maxIdle 0 ∧
    (single.waits = true → s.pool.closed = false →
      (s.pool.ch.getD single.maxActive.toNat : Int)+tokens s.threads = single.maxActive) := by
  obtain ⟨s,ran,conn⟩ := turns_run
  exact ⟨s,ran,conn,pool_accounts ran⟩

-- Each connection that was ever dialled is in one place: on the idle list, with one caller, before the loop
-- of Close, or closed.
theorem pool_exclusive {s : System} (ran : Transitions.run (System.step cfg) .start actions = some s) :
    ∃ items swept,Holds s.pool.heap s.pool.idle items ∧ s.sweep = swept.head? ∧
      (items ++ (swept ++ (conns s.threads ++ s.pool.shut))).Perm (List.range s.pool.fresh) := by
  obtain ⟨_,items,swept,sweep,sound⟩ := run_safe ran
  exact ⟨items,swept,sound.list,sweep,sound.placed⟩

theorem turns_run_exclusive : ∃ s : System,Transitions.run (System.step single) .start turnsRun =
    some s ∧ conns s.threads = [0] ∧
    ∃ items swept,Holds s.pool.heap s.pool.idle items ∧ s.sweep = swept.head? ∧
      (items ++ (swept ++ (conns s.threads ++ s.pool.shut))).Perm (List.range s.pool.fresh) := by
  obtain ⟨s,ran,conn⟩ := turns_run
  exact ⟨s,ran,conn,pool_exclusive ran⟩

-- How many sections a caller may still go through, where an idle connection stands for two more.
def Thread.rank : Thread → Nat
  | .get _ => 9
  | .wait _ => 8
  | .lock | .test _ => 7
  | .prune _ _ _ | .discard _ => 6
  | .dial => 5
  | .held _ => 4
  | .put _ _ => 3
  | .undial => 2
  | .drop _ | .failed _ => 1

def ranks (threads : List Thread) : Nat := (threads.map Thread.rank).sum

def work (s : System) : Int := 2*s.pool.idle.count+ranks s.threads

-- The sections that are left after one.
def Lowers (bound : Int) : Outcome → Prop
  | .goes p next => 2*p.idle.count+ranks next.toList < bound
  | _ => True

theorem popFront_count (popped : popFront h l = some (g,m)) : m.count = l.count-1 := by
  unfold popFront at popped
  split at popped
  · cases popped
  · split at popped
    · cases Option.some.inj popped
      rfl
    · split at popped
      · cases popped
      · cases Option.some.inj popped
        rfl

theorem popBack_count (popped : popBack h l = some (g,m)) : m.count = l.count-1 := by
  unfold popBack at popped
  split at popped
  · cases popped
  · split at popped
    · cases Option.some.inj popped
      rfl
    · split at popped
      · cases popped
      · cases Option.some.inj popped
        rfl

theorem pushFront_count (pushed : pushFront h l pc = some (g,m)) : m.count = l.count+1 := by
  simp only [pushFront] at pushed
  split at pushed
  · cases Option.some.inj pushed
    rfl
  · split at pushed
    · cases pushed
    · cases Option.some.inj pushed
      rfl

theorem borrow_lowers (p : Pool) (enough : 2*p.idle.count+5 < bound) : Lowers bound (borrow cfg p) := by
  unfold borrow
  split
  · split
    · trivial
    · rename_i popped
      have count := popFront_count popped
      simp [Lowers,ranks,Thread.rank]
      omega
  · split
    · simp [Lowers,ranks,Thread.rank]
      omega
    · split
      · simp [Lowers,ranks,Thread.rank]
        omega
      · simp [Lowers,ranks,Thread.rank]
        omega

theorem prune_lowers (p : Pool) (enough : 2*p.idle.count+5 < bound) : Lowers bound (prune cfg now p i n) := by
  unfold prune
  split
  · split
    · split
      · trivial
      · rename_i popped
        have count := popBack_count popped
        simp [Lowers,ranks,Thread.rank]
        omega
    · exact borrow_lowers p enough
  · exact borrow_lowers p enough

theorem release_lowers (p : Pool) (next : Option Thread) (enough : 2*p.idle.count+ranks next.toList < bound) :
    Lowers bound (release cfg p next) := by
  unfold release
  split
  · exact enough
  · split
    · exact enough
    · split
      · exact enough
      · trivial

theorem put_lowers (p : Pool) (enough : 2*p.idle.count+2 < bound) : Lowers bound (put cfg now p pc) := by
  unfold put
  split
  · trivial
  · rename_i pushed
    have more := pushFront_count pushed
    split
    · split
      · rename_i popped
        have count := popBack_count popped
        simp [Lowers,ranks,Thread.rank]
        omega
      · trivial
    · refine release_lowers _ none ?_
      simp [ranks]
      omega

theorem advance_lowers (cfg : Settings) (now : Int) (ok : Bool) (p : Pool) (thread : Thread) :
    Lowers (2*p.idle.count+thread.rank) (advance cfg now ok p thread) := by
  cases thread with
  | get ctx =>
    simp only [advance]
    split
    · rw [lazyInit_eq]
      simp [Lowers,ranks,Thread.rank]
    · simp [Lowers,ranks,Thread.rank]
  | wait ctx =>
    simp only [advance,receive]
    split
    · trivial
    · split
      · simp [Lowers,ranks,Thread.rank]
      · trivial
    · simp [Lowers,ranks,Thread.rank]
  | lock => exact prune_lowers p (by simp [Thread.rank])
  | prune pc i n => exact prune_lowers _ (by simp [Thread.rank,Pool.dropped])
  | test pc =>
    simp only [advance]
    split <;> simp [Lowers,ranks,Thread.rank]
  | discard pc => exact borrow_lowers _ (by simp [Thread.rank,Pool.dropped])
  | dial =>
    simp only [advance]
    split <;> simp [Lowers,ranks,Thread.rank]
  | undial => exact release_lowers _ _ (by simp [ranks,Thread.rank])
  | held pc => simp [advance,Lowers,ranks,Thread.rank]
  | put pc force =>
    simp only [advance]
    split
    · exact put_lowers p (by simp [Thread.rank])
    · simp [Lowers,ranks,Thread.rank]
  | drop pc => exact release_lowers _ _ (by simp [ranks,Thread.rank,Pool.dropped])
  | failed err => simp [advance,Lowers,ranks,Thread.rank]

theorem ranks_replace (l r new : List Thread) (old : Thread) :
    ranks (l ++ (new ++ r))+old.rank = ranks (l ++ old :: r)+ranks new := by
  simp [ranks]
  omega

def Action.isAdvance : Action → Bool
  | .advance _ _ _ => true
  | _ => false

def Action.isGet : Action → Bool
  | .get _ => true
  | _ => false

-- Only a new caller brings work, nine sections at most; every section that runs is one less.
theorem step_work {s t : System} (safe : Safe cfg s) (stepped : s.step cfg action = some t) :
    work t+(if action.isAdvance then 1 else 0) ≤ work s+(if action.isGet then 9 else 0) := by
  cases action with
  | get ctx =>
    cases Option.some.inj stepped
    simp [work,ranks,Action.isAdvance,Action.isGet,Thread.rank]
    omega
  | advance i now ok =>
    obtain ⟨_,items,swept,_,sound⟩ := safe
    simp only [System.step] at stepped
    split at stepped
    · cases stepped
    · rename_i thread found
      obtain ⟨l,r,threads,rfl,left,right⟩ := Transitions.split_at found
      rw [threads] at sound
      have fine := advance_fine sound now ok
      have lowers := advance_lowers cfg now ok s.pool thread
      rw [left,right] at stepped
      cases outcome : advance cfg now ok s.pool thread with
      | blocked =>
        rw [outcome] at stepped
        cases stepped
      | fault why =>
        rw [outcome] at fine
        exact absurd fine id
      | goes p next =>
        rw [outcome] at stepped lowers
        cases Option.some.inj stepped
        have replaced := ranks_replace l r next.toList thread
        simp only [Lowers,work,threads,Action.isAdvance,Action.isGet] at lowers ⊢
        simp only [if_true,Bool.false_eq_true,if_false]
        omega
  | cancel i =>
    simp only [System.step] at stepped
    split at stepped
    · rename_i found
      obtain ⟨l,r,threads,rfl,left,right⟩ := Transitions.split_at found
      rw [left,right] at stepped
      cases Option.some.inj stepped
      have replaced := ranks_replace l r [.failed .context] (.wait true)
      simp only [work,threads,Action.isAdvance,Action.isGet]
      simp [ranks,Thread.rank] at replaced ⊢
    · cases stepped
  | close =>
    obtain ⟨_,items,_,_,sound⟩ := safe
    have count := sound.list.count
    simp only [System.step] at stepped
    split at stepped
    · cases Option.some.inj stepped
      simp [Action.isAdvance,Action.isGet]
    · cases Option.some.inj stepped
      simp [work,Action.isAdvance,Action.isGet]
      omega
  | sweep =>
    obtain ⟨pc,_,rfl⟩ := Option.map_eq_some_iff.mp stepped
    simp [work,Action.isAdvance,Action.isGet]

theorem run_work {s t : System} (safe : Safe cfg s)
    (ran : Transitions.run (System.step cfg) s actions = some t) :
    work t+actions.countP Action.isAdvance ≤ work s+9*actions.countP Action.isGet := by
  induction actions generalizing s with
  | nil =>
    cases Option.some.inj ran
    simp
  | cons action rest ih =>
    obtain ⟨next,stepped,ran⟩ := Option.bind_eq_some_iff.mp ran
    have one := step_work safe stepped
    have later := ih (step_safe safe stepped) ran
    simp only [List.countP_cons]
    split at one <;> split at one <;> simp_all <;> omega

theorem blocked_waits (blocked : advance cfg now ok p thread = .blocked) : ∃ ctx,thread = .wait ctx := by
  have borrowing (p : Pool) : borrow cfg p ≠ .blocked := by
    unfold borrow
    split <;> (try split) <;> (try split) <;> simp
  have pruning (p : Pool) (i n : Int) : prune cfg now p i n ≠ .blocked := by
    unfold prune
    split <;> (try split) <;> (try split) <;> first | exact borrowing p | simp
  have releasing (p : Pool) (next : Option Thread) : release cfg p next ≠ .blocked := by
    unfold release
    split <;> (try split) <;> (try split) <;> simp
  cases thread with
  | wait ctx => exact ⟨ctx,rfl⟩
  | lock => exact absurd blocked (pruning _ _ _)
  | prune pc i n => exact absurd blocked (pruning _ _ _)
  | discard pc => exact absurd blocked (borrowing _)
  | undial => exact absurd blocked (releasing _ _)
  | drop pc => exact absurd blocked (releasing _ _)
  | put pc force =>
    simp only [advance] at blocked
    split at blocked
    · unfold put at blocked
      split at blocked
      · cases blocked
      · split at blocked
        · split at blocked <;> cases blocked
        · exact absurd blocked (releasing _ _)
    · cases blocked
  | get ctx =>
    simp only [advance] at blocked
    split at blocked <;> cases blocked
  | dial =>
    simp only [advance] at blocked
    split at blocked <;> cases blocked
  | test pc => cases blocked
  | held pc => cases blocked
  | failed err => cases blocked

-- Where every caller waits, no token is missing.
theorem all_waiting (all : ∀ thread ∈ threads,∃ ctx,thread = Thread.wait ctx) : tokens threads = 0 := by
  induction threads with
  | nil => rfl
  | cons thread rest ih =>
    obtain ⟨⟨ctx,rfl⟩,later⟩ := List.forall_mem_cons.mp all
    rw [tokens_cons,ih later]
    rfl

theorem some_advances {s : System} (safe : Safe cfg s) (busy : s.threads ≠ []) (now : Int) (ok : Bool) :
    ∃ thread ∈ s.threads,advance cfg now ok s.pool thread ≠ .blocked := by
  by_contra none_
  have stuck (thread : Thread) (member : thread ∈ s.threads) : advance cfg now ok s.pool thread =
      .blocked := by
    by_contra free
    exact none_ ⟨thread,member,free⟩
  obtain ⟨_,items,swept,_,sound⟩ := safe
  have zero := all_waiting fun thread member => blocked_waits (stuck thread member)
  obtain ⟨first,rest,threads⟩ := List.exists_cons_of_ne_nil busy
  have member : first ∈ s.threads := threads ▸ List.mem_cons_self
  obtain ⟨ctx,rfl⟩ := blocked_waits (stuck first member)
  have blocked : receive s.pool = .blocked := stuck _ member
  have waits : cfg.waits = true := by
    by_contra unwaited
    exact sound.shared.waiting ctx member (sound.shared.unused (Bool.eq_false_of_not_eq_true unwaited))
  unfold receive at blocked
  split at blocked
  · rename_i unmade
    exact sound.shared.waiting ctx member unmade
  · rename_i empty
    split at blocked
    · cases blocked
    · rename_i opened
      have total := sound.shared.total waits (Bool.eq_false_of_not_eq_true opened)
      rw [empty,zero] at total
      simp only [Settings.waits,Bool.and_eq_true,decide_eq_true_eq] at waits
      simp only [Option.getD_some] at total
      omega
  · cases blocked

-- Whatever Dial, TestOnBorrow and the clock say, and whoever closes the pool: no schedule keeps the callers
-- busy for more than nine sections each, and as long as one has not returned some caller can go on. So every
-- get and every put returns, if connections that are handed out are closed.
theorem pool_terminates {s : System} (ran : Transitions.run (System.step cfg) .start actions = some s) :
    actions.countP Action.isAdvance ≤ 9*actions.countP Action.isGet ∧
    (s.threads ≠ [] → ∀ now ok,∃ i t,s.step cfg (.advance i now ok) = some t ∧ t.fault = none) := by
  have safe := run_safe ran
  constructor
  · have bound := run_work (start_safe cfg) ran
    obtain ⟨_,items,swept,_,sound⟩ := safe
    have count := sound.list.count
    have blank : work .start = 0 := rfl
    simp only [work] at bound blank
    omega
  · intro busy now ok
    obtain ⟨thread,member,free⟩ := some_advances safe busy now ok
    obtain ⟨i,found⟩ := List.getElem?_of_mem member
    cases stepped : s.step cfg (.advance i now ok) with
    | none =>
      simp only [System.step,found] at stepped
      cases outcome : advance cfg now ok s.pool thread with
      | blocked => exact absurd outcome free
      | fault why =>
        rw [outcome] at stepped
        cases stepped
      | goes p next =>
        rw [outcome] at stepped
        cases stepped
    | some t => exact ⟨i,t,stepped,(step_safe safe stepped).1⟩

theorem turns_run_terminates : ∃ s : System,Transitions.run (System.step single) .start turnsRun =
    some s ∧ conns s.threads = [0] ∧
    turnsRun.countP Action.isAdvance ≤ 9*turnsRun.countP Action.isGet ∧
    (s.threads ≠ [] → ∀ now ok,∃ i t,s.step single (.advance i now ok) = some t ∧ t.fault = none) := by
  obtain ⟨s,ran,conn⟩ := turns_run
  exact ⟨s,ran,conn,pool_terminates ran⟩

end SqlReview.RedisPool
