import Mathlib.Logic.Function.Basic
import Mathlib.Data.List.Perm.Basic
import Mathlib.Data.List.Nodup

/-!
# Places and their queues

Every item stands in at most one place, at one position of the queue there. Items leave a queue,
and items that stand nowhere enter at the end of one; each of these keeps the partition.
-/
namespace Ece344Lab.Library

variable {ι α : Type}

/-- The queue of every place. -/
abbrev Queues (ι α : Type) := ι → List α

/-- No item stands twice in a queue, or in two queues. -/
structure Partitioned (L : Queues ι α) : Prop where
  nodup : ∀ i, (L i).Nodup
  unique : ∀ i j a, a ∈ L i → a ∈ L j → i = j

namespace Partitioned

variable {L : Queues ι α} {i j : ι} {a : α}

theorem notMem (h : Partitioned L) (ha : a ∈ L i) (hne : i ≠ j) : a ∉ L j :=
  fun hj => hne (h.unique i j a ha hj)

variable [DecidableEq ι]

/-- A queue may be replaced by one with fewer items. -/
theorem shrink (h : Partitioned L) {l : List α} (sub : l.Sublist (L i)) :
    Partitioned (Function.update L i l) where
  nodup k := by
    by_cases hk : k = i
    · subst hk
      rw [Function.update_self]
      exact sub.nodup (h.nodup k)
    · rw [Function.update_of_ne hk]
      exact h.nodup k
  unique k m b hb hb' := by
    have old : ∀ k, b ∈ Function.update L i l k → b ∈ L k := by
      intro k hb
      by_cases hk : k = i
      · subst hk
        rw [Function.update_self] at hb
        exact sub.subset hb
      · rwa [Function.update_of_ne hk] at hb
    exact h.unique k m b (old k hb) (old m hb')

/-- Items that stand nowhere may be added to the end of a queue. -/
theorem append (h : Partitioned L) {l : List α} (nodup : l.Nodup) (new : ∀ k, ∀ a ∈ l, a ∉ L k)
    (i : ι) : Partitioned (Function.update L i (L i ++ l)) where
  nodup k := by
    by_cases hk : k = i
    · subst hk
      rw [Function.update_self]
      refine List.nodup_append.2 ⟨h.nodup k, nodup, fun b hb c hc heq => ?_⟩
      exact new k c hc (heq ▸ hb)
    · rw [Function.update_of_ne hk]
      exact h.nodup k
  unique k m b hb hb' := by
    have old : ∀ k, b ∈ Function.update L i (L i ++ l) k → b ∈ L k ∨ b ∈ l ∧ k = i := by
      intro k hb
      by_cases hk : k = i
      · subst hk
        rw [Function.update_self, List.mem_append] at hb
        exact hb.imp_right fun hb => ⟨hb, rfl⟩
      · rw [Function.update_of_ne hk] at hb
        exact .inl hb
    obtain hk | ⟨hka, hki⟩ := old k hb <;> obtain hm | ⟨hma, hmi⟩ := old m hb'
    · exact h.unique k m b hk hm
    · exact absurd hk (new k b hma)
    · exact absurd hm (new m b hka)
    · rw [hki, hmi]

end Partitioned

end Ece344Lab.Library
