import Mathlib.Data.List.Nodup
import Mathlib.Logic.Function.Basic

/-!
# Finite maps kept in slots

A list of slots, each live or dead, stores the map of its live ones. A slot that dies stays
where it is, and may come to life again with another key.
-/
namespace Ece344Lab.Library

/-- How a slot is read. -/
structure SlotView (ρ κ ν : Type) where
  live : ρ → Bool
  key : ρ → κ
  val : ρ → ν

namespace SlotView

variable {ρ κ ν : Type} (V : SlotView ρ κ ν)

/-- The keys of the live slots. -/
def keys (l : List ρ) : List κ := (l.filter V.live).map V.key

/-- The slots store the map `M`, and no two live ones have the same key. -/
structure Maps (l : List ρ) (M : κ → Option ν) : Prop where
  nodup : (V.keys l).Nodup
  get : ∀ k v, M k = some v ↔ ∃ r ∈ l, V.live r = true ∧ V.key r = k ∧ V.val r = v

variable {V} {pre post l : List ρ} {r : ρ} {M : κ → Option ν} {k : κ}

theorem keys_dead (h : V.live r = false) : V.keys (pre ++ r :: post) = V.keys (pre ++ post) := by
  simp [keys, h]

theorem keys_live (h : V.live r = true) :
    V.keys (pre ++ r :: post) = V.keys pre ++ V.key r :: V.keys post := by
  simp [keys, h]

theorem keys_append : V.keys (pre ++ post) = V.keys pre ++ V.keys post := by
  simp [keys]

theorem mem_keys : k ∈ V.keys l ↔ ∃ r ∈ l, V.live r = true ∧ V.key r = k := by
  simp only [keys, List.mem_map, List.mem_filter, and_assoc]

theorem Maps.nil : V.Maps [] fun _ => none where
  nodup := List.nodup_nil
  get _ _ := by simp

theorem Maps.eq_some (h : V.Maps l M) (hr : r ∈ l) (hlive : V.live r = true) :
    M (V.key r) = some (V.val r) := (h.get _ _).mpr ⟨r, hr, hlive, rfl, rfl⟩

theorem Maps.eq_none (h : V.Maps l M) (hk : ∀ r ∈ l, ¬ (V.live r = true ∧ V.key r = k)) :
    M k = none := by
  cases hM : M k with
  | none => rfl
  | some v =>
    obtain ⟨r, hr, hlive, hkey, -⟩ := (h.get k v).mp hM
    exact absurd ⟨hlive, hkey⟩ (hk r hr)

theorem mem_middle {x : ρ} : x ∈ pre ++ r :: post ↔ x = r ∨ x ∈ pre ++ post := by
  rw [List.perm_middle.mem_iff, List.mem_cons]

/-- Dead slots do not count. -/
theorem maps_dead (hr : V.live r = false) : V.Maps (pre ++ r :: post) M ↔ V.Maps (pre ++ post) M := by
  have hmem : ∀ k v, (∃ x ∈ pre ++ r :: post, V.live x = true ∧ V.key x = k ∧ V.val x = v) ↔
      ∃ x ∈ pre ++ post, V.live x = true ∧ V.key x = k ∧ V.val x = v := by
    intro k v
    constructor
    · rintro ⟨x, hx, hlive, hrest⟩
      rcases mem_middle.mp hx with rfl | hx
      · rw [hr] at hlive
        cases hlive
      · exact ⟨x, hx, hlive, hrest⟩
    · exact fun ⟨x, hx, hrest⟩ => ⟨x, mem_middle.mpr (Or.inr hx), hrest⟩
  constructor
  · exact fun h => ⟨keys_dead hr ▸ h.nodup, fun k v => (h.get k v).trans (hmem k v)⟩
  · exact fun h => ⟨(keys_dead hr).symm ▸ h.nodup, fun k v => (h.get k v).trans (hmem k v).symm⟩

variable [DecidableEq κ]

/-- A live slot with a new key, wherever it stands. -/
theorem Maps.insert (h : V.Maps (pre ++ post) M) (hr : V.live r = true)
    (hnew : M (V.key r) = none) :
    V.Maps (pre ++ r :: post) (Function.update M (V.key r) (some (V.val r))) := by
  have hother : ∀ x ∈ pre ++ post, V.live x = true → V.key x ≠ V.key r := by
    intro x hx hlive hkey
    have hx' := h.eq_some hx hlive
    rw [hkey, hnew] at hx'
    cases hx'
  refine ⟨?_, fun k v => ?_⟩
  · rw [keys_live hr, List.nodup_middle, ← keys_append]
    refine List.nodup_cons.mpr ⟨fun hmem => ?_, h.nodup⟩
    obtain ⟨x, hx, hlive, hkey⟩ := mem_keys.mp hmem
    exact hother x hx hlive hkey
  · by_cases hk : k = V.key r
    · subst hk
      rw [Function.update_self]
      constructor
      · exact fun hv => ⟨r, mem_middle.mpr (Or.inl rfl), hr, rfl, Option.some.inj hv⟩
      · rintro ⟨x, hx, hlive, hkey, rfl⟩
        rcases mem_middle.mp hx with rfl | hx
        · rfl
        · exact absurd hkey (hother x hx hlive)
    · rw [Function.update_of_ne hk, h.get]
      constructor
      · exact fun ⟨x, hx, hrest⟩ => ⟨x, mem_middle.mpr (Or.inr hx), hrest⟩
      · rintro ⟨x, hx, hlive, hkey, hval⟩
        rcases mem_middle.mp hx with rfl | hx
        · exact absurd hkey.symm hk
        · exact ⟨x, hx, hlive, hkey, hval⟩

/-- A live slot that goes away takes its key with it. -/
theorem Maps.erase (h : V.Maps (pre ++ r :: post) M) (hr : V.live r = true) :
    V.Maps (pre ++ post) (Function.update M (V.key r) none) := by
  have hnodup := h.nodup
  rw [keys_live hr, List.nodup_middle, ← keys_append] at hnodup
  obtain ⟨hnot, hrest⟩ := List.nodup_cons.mp hnodup
  refine ⟨hrest, fun k v => ?_⟩
  by_cases hk : k = V.key r
  · subst hk
    rw [Function.update_self]
    constructor
    · intro hv
      cases hv
    · exact fun ⟨x, hx, hlive, hkey, _⟩ => absurd (mem_keys.mpr ⟨x, hx, hlive, hkey⟩) hnot
  · rw [Function.update_of_ne hk, h.get]
    constructor
    · rintro ⟨x, hx, hlive, hkey, hval⟩
      rcases mem_middle.mp hx with rfl | hx
      · exact absurd hkey.symm hk
      · exact ⟨x, hx, hlive, hkey, hval⟩
    · exact fun ⟨x, hx, hrest⟩ => ⟨x, mem_middle.mpr (Or.inr hx), hrest⟩

end SlotView

end Ece344Lab.Library
