import Mathlib.Data.Finset.Card
import Mathlib.Tactic.Convert

/-!
# Resources held in slots

A pool of resources of which some are in use, and slots that each hold one
resource or none. `Holds` says that the slots and the pool agree: no resource is
held twice, and the resources in use are the ones held. Slots are grouped by an
owner; `share` is what one owner holds.
-/
namespace Ece344Lab.Library

variable {κ ι β : Type}

/-- `ptr a` is the resource in slot `a`, or 0 if the slot is empty. -/
structure Holds [Zero β] (ptr : κ → β) (inUse : Finset β) : Prop where
  inj : ∀ {a b : κ}, ptr a ≠ 0 → ptr a = ptr b → a = b
  mem_iff : ∀ p, p ∈ inUse ↔ p ≠ 0 ∧ ∃ a, ptr a = p

open Classical in
/-- The resources in use that the slots of owner `n` hold. -/
noncomputable def share (owner : κ → ι) (ptr : κ → β) (inUse : Finset β) (n : ι) : Finset β :=
  inUse.filter fun p => ∃ a, owner a = n ∧ ptr a = p

theorem mem_share {owner : κ → ι} {ptr : κ → β} {inUse : Finset β} (n : ι) (p : β) :
    p ∈ share owner ptr inUse n ↔ p ∈ inUse ∧ ∃ a, owner a = n ∧ ptr a = p := by
  simp [share]

namespace Holds

variable [Zero β] {ptr : κ → β} {inUse : Finset β}

theorem ne_zero_of_mem (h : Holds ptr inUse) {p : β} (hp : p ∈ inUse) : p ≠ 0 :=
  ((h.mem_iff p).mp hp).1

theorem mem (h : Holds ptr inUse) {a : κ} (ha : ptr a ≠ 0) : ptr a ∈ inUse :=
  (h.mem_iff _).mpr ⟨ha, a, rfl⟩

theorem empty : Holds (fun _ : κ => (0 : β)) ∅ :=
  ⟨fun ha => absurd rfl ha, fun p => by
    simp only [Finset.notMem_empty, false_iff, not_and]
    rintro hp ⟨_, rfl⟩
    exact hp rfl⟩

theorem congr (h : Holds ptr inUse) {ptr' : κ → β} (he : ∀ a, ptr' a = ptr a) : Holds ptr' inUse := by
  rwa [show ptr' = ptr from funext he]

variable [DecidableEq κ] [DecidableEq β]

/-- Putting an unused resource into an empty slot. -/
theorem take (h : Holds ptr inUse) {a : κ} {p : β} (ha : ptr a = 0) (hp : p ∉ inUse) (hp0 : p ≠ 0) :
    Holds (Function.update ptr a p) (insert p inUse) := by
  have hheld : ∀ b, ptr b ≠ p := fun b hb => hp ((h.mem_iff p).mpr ⟨hp0, b, hb⟩)
  constructor
  · intro b c hb hbc
    rw [Function.update_apply] at hb hbc
    rw [Function.update_apply] at hbc
    split at hbc <;> split at hbc
    · simp_all
    · exact absurd hbc.symm (hheld c)
    · exact absurd hbc (hheld b)
    · rename_i hba _
      rw [if_neg hba] at hb
      exact h.inj hb hbc
  · intro q
    rw [Finset.mem_insert, h.mem_iff]
    constructor
    · rintro (rfl | ⟨hq, b, rfl⟩)
      · exact ⟨hp0, a, by simp⟩
      · refine ⟨hq, b, Function.update_of_ne ?_ _ _⟩
        rintro rfl
        exact hq ha
    · rintro ⟨hq, b, hb⟩
      rw [Function.update_apply] at hb
      split at hb
      · exact Or.inl hb.symm
      · exact Or.inr ⟨hq, b, hb⟩

/-- Taking a resource out of its slot. -/
theorem release (h : Holds ptr inUse) {a : κ} (ha : ptr a ≠ 0) :
    Holds (Function.update ptr a 0) (inUse.erase (ptr a)) := by
  constructor
  · intro b c hb hbc
    rw [Function.update_apply] at hb hbc
    rw [Function.update_apply] at hbc
    split at hbc
    · rename_i hba
      rw [if_pos hba] at hb
      exact absurd rfl hb
    · rename_i hba
      rw [if_neg hba] at hb
      split at hbc
      · exact absurd hbc hb
      · exact h.inj hb hbc
  · intro q
    rw [Finset.mem_erase, h.mem_iff]
    constructor
    · rintro ⟨hqa, hq, b, rfl⟩
      refine ⟨hq, b, Function.update_of_ne ?_ _ _⟩
      rintro rfl
      exact hqa rfl
    · rintro ⟨hq, b, hb⟩
      rw [Function.update_apply] at hb
      split at hb
      · exact absurd hb.symm hq
      · rename_i hba
        refine ⟨fun hqa => hba ?_, hq, b, hb⟩
        exact h.inj (by rw [hb]; exact hq) (by rw [hb, hqa])

end Holds

section Share

variable [Zero β] {owner : κ → ι} {ptr : κ → β} {inUse : Finset β}

theorem mem_share_of_ptr (h : Holds ptr inUse) {a : κ} (ha : ptr a ≠ 0) :
    ptr a ∈ share owner ptr inUse (owner a) :=
  (mem_share _ _).mpr ⟨h.mem ha, a, rfl, rfl⟩

/-- An owner whose slots are all empty holds nothing. -/
theorem share_eq_empty {n : ι} (h : Holds ptr inUse) (hn : ∀ a, owner a = n → ptr a = 0) :
    share owner ptr inUse n = ∅ := by
  ext q
  simp only [mem_share, Finset.notMem_empty, iff_false]
  rintro ⟨hq, b, hb, rfl⟩
  exact h.ne_zero_of_mem hq (hn b hb)

variable [DecidableEq κ] [DecidableEq β]

theorem share_take_same (h : Holds ptr inUse) {a : κ} {p : β} (ha : ptr a = 0) (hp : p ∉ inUse) :
    share owner (Function.update ptr a p) (insert p inUse) (owner a) =
      insert p (share owner ptr inUse (owner a)) := by
  ext q
  simp only [mem_share, Finset.mem_insert]
  constructor
  · rintro ⟨rfl | hq, b, hb, hbq⟩
    · exact Or.inl rfl
    · rcases eq_or_ne b a with rfl | hba
      · exact Or.inl (by simpa using hbq.symm)
      · exact Or.inr ⟨hq, b, hb, by rwa [Function.update_of_ne hba] at hbq⟩
  · rintro (rfl | ⟨hq, b, hb, hbq⟩)
    · exact ⟨Or.inl rfl, a, rfl, by simp⟩
    · refine ⟨Or.inr hq, b, hb, ?_⟩
      rw [Function.update_of_ne, hbq]
      rintro rfl
      exact h.ne_zero_of_mem hq (hbq.symm.trans ha)

theorem share_take_other (h : Holds ptr inUse) {a : κ} {p : β} {n : ι}
    (hp : p ∉ inUse) (hp0 : p ≠ 0) (hn : owner a ≠ n) :
    share owner (Function.update ptr a p) (insert p inUse) n = share owner ptr inUse n := by
  ext q
  simp only [mem_share, Finset.mem_insert]
  constructor
  · rintro ⟨hq, b, hb, hbq⟩
    have hba : b ≠ a := fun he => hn (he ▸ hb)
    rw [Function.update_of_ne hba] at hbq
    refine ⟨hq.resolve_left ?_, b, hb, hbq⟩
    rintro rfl
    exact hp ((h.mem_iff _).mpr ⟨hp0, b, hbq⟩)
  · rintro ⟨hq, b, hb, hbq⟩
    have hba : b ≠ a := fun he => hn (he ▸ hb)
    exact ⟨Or.inr hq, b, hb, by rwa [Function.update_of_ne hba]⟩

theorem share_release_same (h : Holds ptr inUse) (a : κ) :
    share owner (Function.update ptr a 0) (inUse.erase (ptr a)) (owner a) =
      (share owner ptr inUse (owner a)).erase (ptr a) := by
  ext q
  simp only [mem_share, Finset.mem_erase]
  constructor
  · rintro ⟨⟨hqa, hq⟩, b, hb, hbq⟩
    refine ⟨hqa, hq, b, hb, ?_⟩
    rwa [Function.update_of_ne] at hbq
    rintro rfl
    rw [Function.update_self] at hbq
    exact h.ne_zero_of_mem hq hbq.symm
  · rintro ⟨hqa, hq, b, hb, hbq⟩
    refine ⟨⟨hqa, hq⟩, b, hb, ?_⟩
    rwa [Function.update_of_ne]
    rintro rfl
    exact hqa hbq.symm

theorem share_release_other (h : Holds ptr inUse) {a : κ} {n : ι} (ha : ptr a ≠ 0)
    (hn : owner a ≠ n) :
    share owner (Function.update ptr a 0) (inUse.erase (ptr a)) n = share owner ptr inUse n := by
  ext q
  simp only [mem_share, Finset.mem_erase]
  constructor
  · rintro ⟨⟨-, hq⟩, b, hb, hbq⟩
    have hba : b ≠ a := fun he => hn (he ▸ hb)
    exact ⟨hq, b, hb, by rwa [Function.update_of_ne hba] at hbq⟩
  · rintro ⟨hq, b, hb, hbq⟩
    have hba : b ≠ a := fun he => hn (he ▸ hb)
    refine ⟨⟨?_, hq⟩, b, hb, by rwa [Function.update_of_ne hba]⟩
    rintro rfl
    exact hba (h.inj ha hbq.symm).symm

end Share

section Accounts

/-- The slots hold the pool, `count n` is the number of resources that owner `n` holds and
`total` the number of all resources in use. -/
structure Accounts [Zero β] (owner : κ → ι) (ptr : κ → β) (inUse : Finset β) (count : ι → ℤ)
    (total : ℕ) : Prop where
  holds : Holds ptr inUse
  count : ∀ n, count n = (share owner ptr inUse n).card
  total : total = inUse.card

/-- The slots after each of the listed resources has been put into its slot. -/
def setAll [DecidableEq κ] (ptr : κ → β) (l : List (κ × β)) : κ → β :=
  l.foldl (fun f a => Function.update f a.1 a.2) ptr

variable [DecidableEq κ]

@[simp] theorem setAll_nil (ptr : κ → β) : setAll ptr [] = ptr := rfl

@[simp] theorem setAll_cons (ptr : κ → β) (a : κ × β) (l : List (κ × β)) :
    setAll ptr (a :: l) = setAll (Function.update ptr a.1 a.2) l := rfl

theorem setAll_of_notMem {ptr : κ → β} {l : List (κ × β)} {b : κ} (h : b ∉ l.map Prod.fst) :
    setAll ptr l b = ptr b := by
  induction l generalizing ptr with
  | nil => rfl
  | cons a l ih =>
    rw [List.map_cons, List.mem_cons, not_or] at h
    rw [setAll_cons, ih h.2, Function.update_of_ne h.1]

theorem setAll_of_mem {ptr : κ → β} {l : List (κ × β)} (hn : (l.map Prod.fst).Nodup)
    {a : κ × β} (ha : a ∈ l) : setAll ptr l a.1 = a.2 := by
  induction l generalizing ptr with
  | nil => cases ha
  | cons b l ih =>
    rw [List.map_cons, List.nodup_cons] at hn
    rw [setAll_cons]
    rcases List.mem_cons.mp ha with rfl | ha
    · rw [setAll_of_notMem hn.1, Function.update_self]
    · exact ih hn.2 ha

/-- Slots of one owner among the slots of all. -/
theorem setAll_pair [DecidableEq ι] (f : ι × κ → β) (n : ι) (l : List (κ × β)) (m : ι) (k : κ) :
    setAll f (l.map fun a => ((n, a.1), a.2)) (m, k) =
      if m = n then setAll (fun k => f (n, k)) l k else f (m, k) := by
  induction l generalizing f with
  | nil =>
    by_cases hm : m = n
    · subst hm
      simp
    · simp [hm]
  | cons a l ih =>
    rw [List.map_cons, setAll_cons, ih, setAll_cons]
    by_cases hm : m = n
    · subst hm
      simp only [if_true]
      congr 1
      funext k'
      simp only [Function.update_apply, Prod.mk.injEq, true_and]
    · rw [if_neg hm, if_neg hm, Function.update_of_ne]
      simp [hm]

variable [Zero β] [DecidableEq β] [DecidableEq ι] {owner : κ → ι} {ptr : κ → β} {inUse : Finset β}
  {count : ι → ℤ} {total : ℕ}

theorem Accounts.take (h : Accounts owner ptr inUse count total) {a : κ} {p : β} (ha : ptr a = 0)
    (hp : p ∉ inUse) (hp0 : p ≠ 0) :
    Accounts owner (Function.update ptr a p) (insert p inUse)
      (Function.update count (owner a) (count (owner a) + 1)) (total + 1) where
  holds := h.holds.take ha hp hp0
  count n := by
    rcases eq_or_ne n (owner a) with rfl | hn
    · have hnew : p ∉ share owner ptr inUse (owner a) := fun hm => hp ((mem_share _ _).mp hm).1
      rw [Function.update_self, share_take_same h.holds ha hp, Finset.card_insert_of_notMem hnew,
        h.count]
      push_cast
      rfl
    · rw [Function.update_of_ne hn, share_take_other h.holds hp hp0 hn.symm, h.count]
  total := by rw [Finset.card_insert_of_notMem hp, h.total]

theorem Accounts.release (h : Accounts owner ptr inUse count total) {a : κ} (ha : ptr a ≠ 0) :
    Accounts owner (Function.update ptr a 0) (inUse.erase (ptr a))
      (Function.update count (owner a) (count (owner a) - 1)) (total - 1) where
  holds := h.holds.release ha
  count n := by
    rcases eq_or_ne n (owner a) with rfl | hn
    · have hmem : ptr a ∈ share owner ptr inUse (owner a) := mem_share_of_ptr h.holds ha
      rw [Function.update_self, share_release_same h.holds, Finset.card_erase_of_mem hmem, h.count]
      have hpos := Finset.card_pos.mpr ⟨_, hmem⟩
      omega
    · rw [Function.update_of_ne hn, share_release_other h.holds ha hn.symm, h.count]
  total := by rw [Finset.card_erase_of_mem (h.holds.mem ha), h.total]

omit [DecidableEq κ] in
/-- One owner gives back all that it holds. -/
theorem Accounts.releaseAll (h : Accounts owner ptr inUse count total) (n : ι) :
    Accounts owner (fun a => if owner a = n then 0 else ptr a)
      (inUse \ share owner ptr inUse n) (Function.update count n 0)
      (inUse \ share owner ptr inUse n).card := by
  have hslot : ∀ a, (if owner a = n then 0 else ptr a) ≠ 0 → owner a ≠ n ∧ ptr a ≠ 0 := by
    intro a ha
    split_ifs at ha with hn
    · exact absurd rfl ha
    · exact ⟨hn, ha⟩
  have holds : Holds (fun a => if owner a = n then 0 else ptr a)
      (inUse \ share owner ptr inUse n) := by
    refine ⟨fun {a b} ha hab => ?_, fun p => ?_⟩
    · obtain ⟨hown, hne⟩ := hslot a ha
      have hb := hslot b (hab ▸ ha)
      rw [if_neg hown, if_neg hb.1] at hab
      exact h.holds.inj hne hab
    · rw [Finset.mem_sdiff, mem_share, h.holds.mem_iff]
      constructor
      · rintro ⟨⟨hp, a, rfl⟩, hno⟩
        have hown : owner a ≠ n := fun hown => hno ⟨⟨hp, a, rfl⟩, a, hown, rfl⟩
        exact ⟨hp, a, if_neg hown⟩
      · rintro ⟨hp, a, rfl⟩
        obtain ⟨hown, hne⟩ := hslot a hp
        rw [if_neg hown]
        refine ⟨⟨hne, a, rfl⟩, ?_⟩
        rintro ⟨-, b, hb, heq⟩
        exact hown (h.holds.inj hne heq.symm ▸ hb)
  refine ⟨holds, fun m => ?_, rfl⟩
  rcases eq_or_ne m n with rfl | hm
  · rw [Function.update_self, share_eq_empty holds fun a ha => if_pos ha]
    rfl
  · rw [Function.update_of_ne hm, h.count]
    congr 2
    ext p
    simp only [mem_share, Finset.mem_sdiff]
    constructor
    · rintro ⟨hp, a, rfl, rfl⟩
      refine ⟨⟨hp, ?_⟩, a, rfl, if_neg hm⟩
      rintro ⟨-, b, rfl, heq⟩
      exact hm (congrArg owner (h.holds.inj (h.holds.ne_zero_of_mem hp) heq.symm))
    · rintro ⟨⟨hp, -⟩, a, ha, rfl⟩
      exact ⟨hp, a, ha, (if_neg (ha.symm ▸ hm)).symm⟩

/-- Taking several unused resources for empty slots of one owner. -/
theorem Accounts.takeAll (h : Accounts owner ptr inUse count total) (n : ι) (l : List (κ × β))
    (howner : ∀ a ∈ l, owner a.1 = n) (hempty : ∀ a ∈ l, ptr a.1 = 0)
    (hnew : ∀ a ∈ l, a.2 ∉ inUse ∧ a.2 ≠ 0) (hslots : (l.map Prod.fst).Nodup)
    (hps : (l.map Prod.snd).Nodup) :
    Accounts owner (setAll ptr l) ((l.map Prod.snd).toFinset ∪ inUse)
      (Function.update count n (count n + l.length)) (total + l.length) := by
  induction l generalizing ptr inUse count total with
  | nil => simpa using h
  | cons a l ih =>
    rw [List.map_cons, List.nodup_cons] at hslots hps
    have hown := howner a (by simp)
    have hnewa := hnew a (by simp)
    have hstep := ih (h.take (hempty a (by simp)) hnewa.1 hnewa.2)
      (fun b hb => howner b (List.mem_cons_of_mem _ hb))
      (fun b hb => by
        rw [Function.update_of_ne, hempty b (List.mem_cons_of_mem _ hb)]
        rintro he
        exact hslots.1 (he ▸ List.mem_map_of_mem hb))
      (fun b hb => by
        refine ⟨?_, (hnew b (List.mem_cons_of_mem _ hb)).2⟩
        rw [Finset.mem_insert, not_or]
        refine ⟨?_, (hnew b (List.mem_cons_of_mem _ hb)).1⟩
        rintro he
        exact hps.1 (he ▸ List.mem_map_of_mem hb))
      hslots.2 hps.2
    rw [setAll_cons]
    rw [hown] at hstep
    convert hstep using 1
    · simp
    · rw [Function.update_self, Function.update_idem]
      congr 1
      push_cast [List.length_cons]
      omega
    · simp only [List.length_cons]
      omega

end Accounts

end Ece344Lab.Library
