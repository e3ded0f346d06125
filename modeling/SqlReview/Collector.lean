import SqlReview.KeyedFold
import SqlReview.Records

namespace SqlReview.Collector
open GoText Records

-- SqlExplainArr, by the md5 of the fingerprint.
abbrev Entries := Text → Option ExplainsResult

-- The entry that a message finds full: it is posted, and its key deleted.
def full (sampling : Int) (entry : ExplainsResult) : Bool := !decide ((entry.arr.length : Int) < sampling)

-- A message for an entry that is not full; `none` is the panic of sqldata.Arr[0].
def addSample (entry sqldata : ExplainsResult) : Option ExplainsResult :=
  match sqldata.arr with
  | [] => none
  | sample :: _ =>
    if entry.arr.any fun sqlTmp => sample.info = sqlTmp.info then some entry
    else some {entry with arr := entry.arr ++ [sample]}

-- One round of the loop of NewExplainData, with the batch that is handed to curlURL.
def collect (md5 : Text → Text) (sampling : Int) (entries : Entries) (sqldata : ExplainsResult) :
    Option (Entries × Option ExplainsResult) :=
  match entries (md5 sqldata.expl) with
  | some entry =>
    if full sampling entry then some (Function.update entries (md5 sqldata.expl) none,some entry)
    else (addSample entry sqldata).map fun entry =>
      (Function.update entries (md5 sqldata.expl) (some entry),none)
  | none => some (Function.update entries (md5 sqldata.expl) (some sqldata),none)

def collectAll (md5 : Text → Text) (sampling : Int) :
    Entries → List ExplainsResult → Option (Entries × List ExplainsResult)
  | entries,[] => some (entries,[])
  | entries,sqldata :: rest => do
    let (entries,posted) ← collect md5 sampling entries sqldata
    let (entries,later) ← collectAll md5 sampling entries rest
    return (entries,posted.toList ++ later)

theorem collect_posts {entries : Entries}
    (collected : collect md5 sampling entries message = some (next,some batch)) :
    entries (md5 message.expl) = some batch ∧ next = Function.update entries (md5 message.expl) none := by
  unfold collect at collected
  split at collected
  · rename_i held
    split at collected
    · cases Option.some.inj collected
      exact ⟨held,rfl⟩
    · obtain ⟨_,_,same⟩ := Option.map_eq_some_iff.mp collected
      cases same
  · cases Option.some.inj collected

-- A message that posts nothing opens an entry, repeats the Info of a sample, or adds its sample.
theorem collect_keeps {entries : Entries}
    (collected : collect md5 sampling entries message = some (next,none)) :
    ∃ entry, next = Function.update entries (md5 message.expl) (some entry) ∧
      ((entries (md5 message.expl) = none ∧ entry = message) ∨ entries (md5 message.expl) = some entry ∨
        ∃ old sample, entries (md5 message.expl) = some old ∧ full sampling old = false ∧
        sample ∈ message.arr ∧
          (old.arr.any fun sqlTmp => sample.info = sqlTmp.info) = false ∧
          entry = {old with arr := old.arr ++ [sample]}) := by
  unfold collect at collected
  split at collected
  · rename_i old held
    split at collected
    · cases collected
    · rename_i room
      obtain ⟨entry,added,same⟩ := Option.map_eq_some_iff.mp collected
      cases same
      unfold addSample at added
      split at added
      · cases added
      · rename_i sample _ arr
        split at added
        · cases Option.some.inj added
          exact ⟨old,rfl,.inr (.inl held)⟩
        · rename_i fresh
          cases Option.some.inj added
          exact ⟨_,rfl,.inr (.inr ⟨old,sample,held,Bool.not_eq_true _ ▸ room,
            by rw [arr]; exact List.mem_cons_self,
            Bool.not_eq_true _ ▸ fresh,rfl⟩)⟩
  · cases Option.some.inj collected
    exact ⟨message,rfl,.inl ⟨‹_›,rfl⟩⟩

-- What the collector is for, one fingerprint at a time: a batch is opened by a message, takes
-- samples with new Info until it has `size` of them, and is posted by the message after that.
def reference (size : Nat) : Option ExplainsResult → ExplainsResult →
    Option ExplainsResult × Option ExplainsResult
  | none,message => (some message,none)
  | some batch,message =>
    if batch.arr.length = size then (none,some batch)
    else if message.arr.map SqlInfo.info ⊆ batch.arr.map SqlInfo.info then (some batch,none)
    else (some {batch with arr := batch.arr ++ message.arr},none)

def batchSize (sampling : Int) : Nat := (max 1 sampling).toNat

-- A batch between its first sample and its last one.
structure Growing (size : Nat) (batch : ExplainsResult) : Prop where
  started : batch.arr ≠ []
  fits : batch.arr.length ≤ size
  distinct : (batch.arr.map SqlInfo.info).Nodup

theorem batchSize_pos (sampling : Int) : 1 ≤ batchSize sampling := by
  unfold batchSize
  omega

theorem batchSize_eq (sampling : Int) : (batchSize sampling : Int) = max 1 sampling := by
  unfold batchSize
  omega

theorem single_growing (sampling : Int) {message : ExplainsResult} (single : message.arr = [sample]) :
    Growing (batchSize sampling) message where
  started := by simp [single]
  fits := by simpa [single] using batchSize_pos sampling
  distinct := by simp [single]

theorem full_iff (growing : Growing (batchSize sampling) batch) :
    full sampling batch = true ↔ batch.arr.length = batchSize sampling := by
  have fits := growing.fits
  have started := List.length_pos_iff.mpr growing.started
  have size := batchSize_eq sampling
  simp only [full,Bool.not_eq_true',decide_eq_false_iff_not]
  omega

theorem known_iff (batch message : ExplainsResult) (single : message.arr = [sample]) :
    batch.arr.any (fun sqlTmp => sample.info = sqlTmp.info) = true ↔
      message.arr.map SqlInfo.info ⊆ batch.arr.map SqlInfo.info := by
  rw [single,List.map_singleton,List.cons_subset,List.any_eq_true,List.mem_map]
  constructor
  · rintro ⟨other,found,same⟩
    exact ⟨⟨other,found,(of_decide_eq_true same).symm⟩,List.nil_subset _⟩
  · rintro ⟨⟨other,found,same⟩,_⟩
    exact ⟨other,found,decide_eq_true same.symm⟩

theorem reference_growing (size : Nat) {slot : Option ExplainsResult}
    (growing : ∀ batch ∈ slot, Growing size batch)
    (fresh : Growing size message) (single : message.arr = [sample]) :
    (∀ batch ∈ (reference size slot message).1,Growing size batch) ∧
    ∀ batch ∈ (reference size slot message).2,Growing size batch ∧ batch.arr.length = size := by
  cases slot with
  | none =>
    refine ⟨fun batch found => ?_,nofun⟩
    cases Option.some.inj found
    exact fresh
  | some old =>
    have grows := growing old rfl
    unfold reference
    dsimp only
    split
    · rename_i whole
      refine ⟨nofun,fun batch found => ?_⟩
      cases Option.some.inj found
      exact ⟨grows,whole⟩
    · split
      · exact ⟨growing,nofun⟩
      · rename_i room new
        refine ⟨fun batch found => ?_,nofun⟩
        cases Option.some.inj found
        refine ⟨by simp [single],?_,?_⟩
        · have fits := grows.fits
          simp only [single,List.length_append,List.length_singleton]
          omega
        · rw [List.map_append,List.nodup_append]
          refine ⟨grows.distinct,fresh.distinct,?_⟩
          intro info found other added same
          rw [single,List.map_singleton,List.mem_singleton] at added
          rw [single,List.map_singleton] at new
          refine new (List.cons_subset.mpr ⟨?_,List.nil_subset _⟩)
          rwa [← added,← same]

-- In the states that occur the code does what the reference says.
theorem collect_reference (md5 : Text → Text) (sampling : Int) {entries : Entries}
    (growing : ∀ batch ∈ entries (md5 message.expl), Growing (batchSize sampling) batch)
    (single : message.arr = [sample]) :
    collect md5 sampling entries message = some
      (Function.update entries (md5 message.expl)
      (reference (batchSize sampling) (entries (md5 message.expl)) message).1,
        (reference (batchSize sampling) (entries (md5 message.expl)) message).2) := by
  unfold collect
  cases held : entries (md5 message.expl) with
  | none => rfl
  | some old =>
    have isFull := full_iff (growing old held)
    have known := known_iff old message single
    unfold reference
    dsimp only
    by_cases whole : old.arr.length = batchSize sampling
    · rw [if_pos (isFull.mpr whole),if_pos whole]
    · rw [if_neg (mt isFull.mp whole),if_neg whole,addSample,single]
      rw [single] at known
      dsimp only
      by_cases repeated : List.map SqlInfo.info [sample] ⊆ old.arr.map SqlInfo.info
      · rw [if_pos (known.mpr repeated),if_pos repeated]
        rfl
      · rw [if_neg (mt known.mp repeated),if_neg repeated]
        rfl

theorem collectAll_keyed (md5 : Text → Text) (sampling : Int) (entries : Entries)
    (messages : List ExplainsResult)
    (growing : ∀ key, ∀ batch ∈ entries key, Growing (batchSize sampling) batch)
    (single : ∀ m ∈ messages, ∃ sample, m.arr = [sample]) :
    collectAll md5 sampling entries messages =
      some ((KeyedFold.keyedRun (md5 ·.expl) (reference (batchSize sampling)) entries messages).1,
        (KeyedFold.keyedRun (md5 ·.expl)
        (reference (batchSize sampling)) entries messages).2.map Prod.snd) := by
  induction messages generalizing entries with
  | nil => rfl
  | cons message rest ih =>
    obtain ⟨sample,one⟩ := single message (by simp)
    have once := collect_reference md5 sampling (growing (md5 message.expl)) one
    obtain ⟨grows,_⟩ :=
      reference_growing (batchSize sampling) (growing (md5 message.expl)) (single_growing sampling one) one
    have later :=
      ih _ (KeyedFold.update_keeps (md5 message.expl) growing grows) fun m found => single m (by simp [found])
    unfold collectAll
    rw [once]
    dsimp only [Option.bind_eq_bind,Option.bind_some]
    rw [later]
    simp [KeyedFold.keyedRun,Function.comp_def]

theorem reference_expl (md5 : Text → Text) (size : Nat) {held : Option ExplainsResult}
    (named : ∀ batch ∈ held, md5 batch.expl = md5 message.expl) :
    (∀ batch ∈ (reference size held message).1, md5 batch.expl = md5 message.expl) ∧
      ∀ batch ∈ (reference size held message).2, md5 batch.expl = md5 message.expl := by
  cases held with
  | none =>
    refine ⟨fun batch found => ?_,nofun⟩
    cases Option.some.inj found
    rfl
  | some old =>
    have same := named old rfl
    unfold reference
    dsimp only
    split
    · exact ⟨nofun,named⟩
    · split
      · exact ⟨named,nofun⟩
      · refine ⟨fun batch found => ?_,nofun⟩
        cases Option.some.inj found
        exact same

-- An entry of the map, and a batch that is posted from it.
structure Held (md5 : Text → Text) (size : Nat) (key : Text) (batch : ExplainsResult) : Prop where
  growing : Growing size batch
  expl : md5 batch.expl = key

structure Posted (md5 : Text → Text) (size : Nat) (key : Text) (batch : ExplainsResult) :
    Prop extends Held md5 size key batch where
  whole : batch.arr.length = size

-- The samples of a slot, posted and still open, are in the order the messages brought them.
def samples (held : Option ExplainsResult) : List SqlInfo := held.elim [] ExplainsResult.arr

theorem reference_samples (size : Nat) (held : Option ExplainsResult) (message : ExplainsResult) :
    (samples (reference size held message).2 ++ samples (reference size held message).1).Sublist
      (samples held ++ message.arr) := by
  cases held with
  | none => exact List.Sublist.refl _
  | some old =>
    unfold reference
    dsimp only
    split
    · exact List.Sublist.append (List.Sublist.refl _) (List.nil_sublist _)
    · split
      · exact List.sublist_append_left _ _
      · exact List.Sublist.refl _

theorem slotRun_samples (size : Nat) (held : Option ExplainsResult) (messages : List ExplainsResult) :
    ((KeyedFold.slotRun (reference size) held messages).2.flatMap ExplainsResult.arr ++
      samples (KeyedFold.slotRun (reference size) held messages).1).Sublist
      (samples held ++ messages.flatMap ExplainsResult.arr) := by
  induction messages generalizing held with
  | nil => simp [KeyedFold.slotRun]
  | cons message rest ih =>
    have once := reference_samples size held message
    have later := ih (reference size held message).1
    have posted : (reference size held message).2.toList.flatMap ExplainsResult.arr =
        samples (reference size held message).2 := by
      cases (reference size held message).2 <;> simp [samples]
    unfold KeyedFold.slotRun
    dsimp only
    rw [List.flatMap_append,posted,List.flatMap_cons,List.append_assoc]
    have tail := List.Sublist.append (List.Sublist.refl (samples (reference size held message).2)) later
    have head := List.Sublist.append once (List.Sublist.refl (rest.flatMap ExplainsResult.arr))
    rw [List.append_assoc,List.append_assoc] at head
    exact tail.trans head

-- The batches posted under the key of a fingerprint are those with that fingerprint.
theorem outputs_expl (md5 : Text → Text) (collisionFree : Function.Injective md5) (f : Text)
    {outputs : List (Text × ExplainsResult)}
    (named : ∀ out ∈ outputs, md5 out.2.expl = out.1) :
    (outputs.map Prod.snd).filter (·.expl = f) = KeyedFold.outputsAt (md5 f) outputs := by
  rw [List.filter_map,KeyedFold.outputsAt]
  congr 1
  refine List.filter_congr fun out found => ?_
  have key := named out found
  simp only [Function.comp_apply,← key,decide_eq_decide]
  exact collisionFree.eq_iff.symm

-- The batches and the open entry of a fingerprint are those of the reference, fed with the
-- messages for that fingerprint alone.
theorem collector_meets_reference (md5 : Text → Text) (collisionFree : Function.Injective md5)
    (sampling : Int)
    (messages : List ExplainsResult) (single : ∀ m ∈ messages, ∃ sample, m.arr = [sample]) :
    ∃ entries posted, collectAll md5 sampling (fun _ => none) messages = some (entries,posted) ∧
      (∀ f, (entries (md5 f),posted.filter (·.expl = f)) =
        KeyedFold.slotRun (reference (batchSize sampling)) none (messages.filter (·.expl = f))) ∧
      (∀ batch ∈ posted, (batch.arr.length : Int) = max 1 sampling ∧ (batch.arr.map SqlInfo.info).Nodup) ∧
      ∀ f, ((posted.filter (·.expl = f)).flatMap ExplainsResult.arr).Sublist
        ((messages.filter (·.expl = f)).flatMap ExplainsResult.arr) := by
  have ran := collectAll_keyed md5 sampling (fun _ => none) messages nofun single
  have outputs :=
    KeyedFold.keyedRun_keeps (Held md5 (batchSize sampling)) (Posted md5 (batchSize sampling)) (md5 ·.expl)
    (reference (batchSize sampling)) messages (m := fun _ => none) nofun fun message found held inv => by
      obtain ⟨sample,one⟩ := single message found
      obtain ⟨grows,whole⟩ :=
        reference_growing (batchSize sampling) (fun batch at_ => (inv batch at_).growing)
        (single_growing sampling one) one
      obtain ⟨kept,posted⟩ := reference_expl md5 (batchSize sampling) fun batch at_ => (inv batch at_).expl
      exact ⟨fun batch at_ => ⟨grows batch at_,kept batch at_⟩,fun batch at_ =>
        ⟨⟨(whole batch at_).1,posted batch at_⟩,(whole batch at_).2⟩⟩
  have slots :=
    fun f => KeyedFold.keyedRun_slot (md5 ·.expl) (reference (batchSize sampling)) (md5 f)
      (fun _ => none) messages
  have perFingerprint
    (f : Text) : ((KeyedFold.keyedRun (md5 ·.expl) (reference (batchSize sampling))
    (fun _ => none) messages).1 (md5 f),
      ((KeyedFold.keyedRun (md5 ·.expl) (reference (batchSize sampling))
        (fun _ => none) messages).2.map Prod.snd).filter (·.expl = f)) =
        KeyedFold.slotRun (reference (batchSize sampling)) none (messages.filter (·.expl = f)) := by
    rw [outputs_expl md5 collisionFree f fun out found => (outputs out found).expl,slots f]
    congr 1
    refine List.filter_congr fun message _ => ?_
    rw [decide_eq_decide]
    exact collisionFree.eq_iff
  refine ⟨_,_,ran,perFingerprint,?_,?_⟩
  · intro batch found
    obtain ⟨out,given,rfl⟩ := List.mem_map.mp found
    have posted := outputs out given
    refine ⟨?_,posted.growing.distinct⟩
    rw [posted.whole,batchSize_eq]
  · intro f
    have order := slotRun_samples (batchSize sampling) none (messages.filter (·.expl = f))
    rw [← perFingerprint f] at order
    exact (List.sublist_append_left _ _).trans order

def sampled (expl info : String) : ExplainsResult :=
  ⟨text expl,[⟨text info,[],[],[],[]⟩],[],[],[],0,[],[],[],[]⟩

theorem crossing_messages_collected :
    ∃ entries posted, collectAll id 2 (fun _ => none) [sampled "f" "1",sampled "g" "2",
      sampled "f" "3",sampled "f" "3"] =
      some (entries,posted) ∧ posted.length = 1 ∧ ∀ batch ∈ posted, (batch.arr.length : Int) = 2 := by
  obtain ⟨entries,posted,ran,_,whole,_⟩ := collector_meets_reference id Function.injective_id 2
    [sampled "f" "1",sampled "g" "2",sampled "f" "3",sampled "f" "3"] (by simp [sampled])
  refine ⟨entries,posted,ran,?_,fun batch found => (whole batch found).1⟩
  have count : (collectAll id 2 (fun _ => none) [sampled "f" "1",sampled "g" "2",sampled "f" "3",
    sampled "f" "3"]).map
      (·.2.length) = some 1 := by decide +kernel
  rw [ran] at count
  exact Option.some.inj count

end SqlReview.Collector
