import Mathlib.Data.List.Nodup
import Mathlib.Logic.Function.Basic

-- Nodes with a link forward and one back, in a heap.
namespace SqlReview.DoublyLinked

structure Node (κ α : Type) where
  data : α
  next : Option κ
  prev : Option κ

variable {κ α : Type} {h g : κ → Node κ α} {items : List κ}

-- The nodes of `items` one after the other, `before` in front of the first and `after` behind the last.
def Segment (h : κ → Node κ α) : Option κ → List κ → Option κ → Prop
  | _,[],_ => True
  | before,k :: rest,after =>
    (h k).prev = before ∧ (h k).next = rest.head?.or after ∧ Segment h (some k) rest after

theorem segment_append {before after : Option κ} {front back : List κ} :
    Segment h before (front ++ back) after ↔
    Segment h before front (back.head?.or after) ∧ Segment h (front.getLast?.or before) back after := by
  induction front generalizing before with
  | nil => simp [Segment]
  | cons k front ih =>
    have last : (k :: front).getLast?.or before = front.getLast?.or (some k) := by
      cases front with
      | nil => rfl
      | cons l front => simp [List.getLast?_cons]
    have first : (front ++ back).head?.or after = front.head?.or (back.head?.or after) := by
      cases front <;> simp
    rw [List.cons_append,Segment,Segment,ih,last,first]
    simp only [and_assoc]

-- A segment is about its own nodes and about their links only.
theorem Segment.frame {before after : Option κ} (segment : Segment h before items after)
    (same : ∀ k ∈ items, (g k).next = (h k).next ∧ (g k).prev = (h k).prev) :
    Segment g before items after := by
  induction items generalizing before with
  | nil => trivial
  | cons k items ih =>
    obtain ⟨⟨next,prev⟩,later⟩ := List.forall_mem_cons.mp same
    obtain ⟨back,forth,rest⟩ := segment
    exact ⟨prev.trans back,next.trans forth,ih rest later⟩

variable [DecidableEq κ]

def setData (h : κ → Node κ α) (k : κ) (data : α) : κ → Node κ α :=
  Function.update h k {h k with data := data}

def setNext (h : κ → Node κ α) (k : κ) (link : Option κ) : κ → Node κ α :=
  Function.update h k {h k with next := link}

def setPrev (h : κ → Node κ α) (k : κ) (link : Option κ) : κ → Node κ α :=
  Function.update h k {h k with prev := link}

theorem Segment.update {before after : Option κ} (segment : Segment h before items after)
    (outside : k ∉ items) (node : Node κ α) :
    Segment (Function.update h k node) before items after := by
  refine segment.frame fun l member => ?_
  have other : l ≠ k := by
    rintro rfl
    exact outside member
  rw [Function.update_of_ne other]
  exact ⟨rfl,rfl⟩

theorem Segment.setData {before after : Option κ} (segment : Segment h before items after) (k : κ)
    (data : α) :
    Segment (setData h k data) before items after := by
  refine segment.frame fun l _ => ?_
  by_cases same : l = k
  · subst same
    simp [DoublyLinked.setData]
  · simp [DoublyLinked.setData,Function.update_of_ne same]

-- What stands in front of the first node, and behind the last one, is a matter of one link.
theorem Segment.setPrev {before after : Option κ} (segment : Segment h before (k :: items) after)
    (apart : k ∉ items)
    (link : Option κ) : Segment (setPrev h k link) link (k :: items) after := by
  obtain ⟨_,forth,rest⟩ := segment
  refine ⟨?_,?_,rest.update apart _⟩
  · simp [DoublyLinked.setPrev]
  · simpa [DoublyLinked.setPrev] using forth

theorem Segment.setNext {before after : Option κ} (segment : Segment h before (items ++ [k]) after)
    (apart : k ∉ items)
    (link : Option κ) : Segment (setNext h k link) before (items ++ [k]) link := by
  obtain ⟨front,back,_,_⟩ := segment_append.mp segment
  refine segment_append.mpr ⟨front.update apart _,?_,?_,trivial⟩
  · simpa [DoublyLinked.setNext] using back
  · simp [DoublyLinked.setNext]

end SqlReview.DoublyLinked
