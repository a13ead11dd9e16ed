import Ece344Lab.Library.Linked
import Ece344Lab.Library.Partition

/-!
# Queues held in linked lists

Every place has a head pointer, its queue is the list from there on, and no node stands in two
lists. The updates of heads and `next` pointers that take the first node, unlink a node, empty a
list and append one list to another are stated here with what they do to the queues.
-/
namespace Ece344Lab.Library

variable {ι α : Type}

/-- The queues `L` are the lists from the heads on. -/
structure Linked (next : α → Option α) (head : ι → Option α) (L : Queues ι α) : Prop where
  chain : ∀ i, IsChain next (head i) (L i)
  partitioned : Partitioned L

namespace Linked

variable [DecidableEq ι] {next : α → Option α} {head : ι → Option α}
  {L : Queues ι α} {i : ι} {z : α} {l : List α}

/-- The first node leaves its list; its own pointer is still there. -/
theorem pop (h : Linked next head L) (hi : L i = z :: l) :
    Linked next (Function.update head i (next z)) (Function.update L i l) where
  chain k := by
    by_cases hk : k = i
    · subst hk
      rw [Function.update_self, Function.update_self]
      exact (IsChain.cons_iff.1 (hi ▸ h.chain k)).2
    · rw [Function.update_of_ne hk, Function.update_of_ne hk]
      exact h.chain k
  partitioned := h.partitioned.shrink (by rw [hi]; exact List.sublist_cons_self z l)

/-- A popped node stands nowhere. -/
theorem notMem_pop (h : Linked next head L) (hi : L i = z :: l) (k : ι) :
    z ∉ Function.update L i l k := by
  by_cases hk : k = i
  · subst hk
    rw [Function.update_self]
    exact (List.nodup_cons.1 (hi ▸ h.partitioned.nodup k)).1
  · rw [Function.update_of_ne hk]
    exact h.partitioned.notMem (by rw [hi]; exact List.mem_cons_self) (Ne.symm hk)

theorem clear (h : Linked next head L) (i : ι) :
    Linked next (Function.update head i none) (Function.update L i []) where
  chain k := by
    by_cases hk : k = i
    · subst hk
      rw [Function.update_self, Function.update_self, IsChain.nil_iff]
    · rw [Function.update_of_ne hk, Function.update_of_ne hk]
      exact h.chain k
  partitioned := h.partitioned.shrink (List.nil_sublist _)

theorem notMem_clear (h : Linked next head L) (hz : z ∈ L i) (k : ι) :
    z ∉ Function.update L i [] k := by
  by_cases hk : k = i
  · subst hk
    rw [Function.update_self]
    exact List.not_mem_nil
  · rw [Function.update_of_ne hk]
    exact h.partitioned.notMem hz (Ne.symm hk)

/-- A list of nodes that stand nowhere becomes the list of an empty place. -/
theorem put (h : Linked next head L) (hi : L i = []) {p : Option α} (hl : IsChain next p l)
    (nodup : l.Nodup) (new : ∀ k, ∀ a ∈ l, a ∉ L k) :
    Linked next (Function.update head i p) (Function.update L i l) where
  chain k := by
    by_cases hk : k = i
    · subst hk
      rwa [Function.update_self, Function.update_self]
    · rw [Function.update_of_ne hk, Function.update_of_ne hk]
      exact h.chain k
  partitioned := by
    have h := h.partitioned.append nodup new i
    rwa [hi, List.nil_append] at h

variable [DecidableEq α]

omit [DecidableEq ι] in
/-- The pointer of a node that stands nowhere may be set. -/
theorem frame (h : Linked next head L) (hz : ∀ k, z ∉ L k) (v : Option α) :
    Linked (Function.update next z v) head L :=
  ⟨fun k => (h.chain k).frame (hz k) v, h.partitioned⟩

/-- A list of nodes that stand nowhere is appended behind the last node of a place. -/
theorem append {p : α} (h : Linked next head L) (hi : L i = l ++ [z]) {ys : List α}
    (hys : IsChain next (some p) ys) (nodup : ys.Nodup) (new : ∀ k, ∀ a ∈ ys, a ∉ L k) :
    Linked (Function.update next z (some p)) head (Function.update L i (L i ++ ys)) where
  chain k := by
    have hz : z ∈ L i := by rw [hi]; exact List.mem_append_right l (List.mem_singleton_self z)
    by_cases hk : k = i
    · subst hk
      have hl : z ∉ l := by
        intro hzl
        have nodup := h.partitioned.nodup k
        rw [hi, List.nodup_append] at nodup
        exact nodup.2.2 z hzl z (List.mem_singleton_self z) rfl
      rw [Function.update_self, hi]
      exact (hi ▸ h.chain k).join hl hys fun hm => new k z hm hz
    · rw [Function.update_of_ne hk]
      exact (h.chain k).frame (h.partitioned.notMem hz (Ne.symm hk)) _
  partitioned := h.partitioned.append nodup new i

/-- A node behind the first is unlinked. -/
theorem unlink {y : α} {r : List α} (h : Linked next head L) (hi : L i = l ++ y :: z :: r) :
    Linked (Function.update next y (next z)) head (Function.update L i (l ++ y :: r)) where
  chain k := by
    have hy : y ∈ L i := by rw [hi]; exact List.mem_append_right l List.mem_cons_self
    by_cases hk : k = i
    · subst hk
      have nodup := h.partitioned.nodup k
      rw [hi, List.nodup_append, List.nodup_cons, List.mem_cons, not_or] at nodup
      rw [Function.update_self]
      exact (hi ▸ h.chain k).unlink (fun hl => nodup.2.2 y hl y List.mem_cons_self rfl)
        nodup.2.1.1.2
    · rw [Function.update_of_ne hk]
      exact (h.chain k).frame (h.partitioned.notMem hy (Ne.symm hk)) _
  partitioned := h.partitioned.shrink (by
    rw [hi]
    exact (List.Sublist.refl l).append ((List.sublist_cons_self z r).cons_cons y))

end Linked

end Ece344Lab.Library
