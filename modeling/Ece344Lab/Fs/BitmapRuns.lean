import Ece344Lab.Fs.Allocator
import Ece344Lab.Library.Runs
import Mathlib.Data.Nat.Count

/-!
# Bitmaps over whole runs

From `bitmap_create` on, the padding bits of the last byte stay set, whatever is allocated, marked
and unmarked. So `bitmap_alloc` stops at no assertion, and the number of set bits is the number of
bits that were set less those that were cleared.
-/
namespace Ece344Lab.Fs

open Library (System)

/-- The loop of `bitmap_nr_allocated`, with the rounds left. -/
def nrAllocatedFrom (b : Bitmap) : Nat → Nat → Int → Int
  | 0, _, nr => nr
  | n + 1, i, nr => nrAllocatedFrom b n (i + 1) (if bitmapIsset b i then nr + 1 else nr)

def bitmapNrAllocated (b : Bitmap) : Int := nrAllocatedFrom b b.nbits 0 0

/-- A call on the bitmap: what `bitmap_alloc` returned, or the index that was marked or unmarked. -/
inductive BitmapCall
  | alloc (ret : Int)
  | mark (index : Nat)
  | unmark (index : Nat)

/-- The call has set a bit. -/
def BitmapCall.sets : BitmapCall → Bool
  | alloc ret => ret = 0
  | mark _ => true
  | unmark _ => false

/-- The call has cleared a bit. -/
def BitmapCall.clears : BitmapCall → Bool
  | alloc _ => false
  | mark _ => false
  | unmark _ => true

/-- The calls that the callers make: a clear bit is marked and a set one unmarked. -/
inductive BitmapStep (b : Bitmap) : BitmapCall → Bitmap → Prop
  | alloc {ret : Int} {index : Nat} {b' : Bitmap} (h : bitmapAlloc b = .ok (ret, index, b')) :
    BitmapStep b (.alloc ret) b'
  | mark {index : Nat} {b' : Bitmap} (lt : index < b.nbits) (clear : bitmapIsset b index = false)
    (h : bitmapMark b index = .ok b') : BitmapStep b (.mark index) b'
  | unmark {index : Nat} {b' : Bitmap} (lt : index < b.nbits) (set : bitmapIsset b index = true)
    (h : bitmapUnmark b index = .ok b') : BitmapStep b (.unmark index) b'

/-- A bitmap from `bitmap_create(nbits)` on. -/
def bitmapSystem (nbits : Nat) : System Bitmap BitmapCall where
  start b := b = bitmapCreate nbits
  step := BitmapStep

section Create

variable {b : Bitmap}

@[simp] theorem padWord_nbits (b : Bitmap) (ix n j : Nat) : (padWord b ix n j).nbits = b.nbits := by
  induction n generalizing b j with
  | zero => rfl
  | succ n ih => rw [padWord, ih, Bitmap.setBit_nbits]

theorem isset_padWord (b : Bitmap) (ix n j i : Nat) :
    (padWord b ix n j).isset i =
      (b.isset i || decide (ix * bitsPerWord + j ≤ i ∧ i < ix * bitsPerWord + j + n)) := by
  induction n generalizing b j with
  | zero =>
    have hnone : ¬(ix * bitsPerWord + j ≤ i ∧ i < ix * bitsPerWord + j + 0) := by omega
    rw [padWord, decide_eq_false hnone, Bool.or_false]
  | succ n ih =>
    rw [padWord, ih, Bitmap.isset_setBit, Bool.or_assoc, ← Bool.decide_or]
    congr 2
    rw [eq_iff_iff]
    omega

@[simp] theorem bitmapCreate_nbits (nbits : Nat) : (bitmapCreate nbits).nbits = nbits := by
  unfold bitmapCreate
  dsimp only
  split_ifs with hpad
  · rw [padWord_nbits]
  · rfl

/-- `bitmap_create` sets the padding bits and no other. -/
theorem isset_bitmapCreate_iff (nbits i : Nat) : (bitmapCreate nbits).isset i = true ↔
    nbits ≤ i ∧ i < 8 * (bitmapCreate nbits).words := by
  have hzero : ∀ i, Bitmap.isset { nbits := nbits, v := fun _ => 0 } i = false := fun i => by
    simp [Bitmap.isset]
  rw [Bitmap.words, bitmapCreate_nbits]
  unfold bitmapCreate
  dsimp only
  split_ifs with hpad
  · rw [isset_padWord, hzero, Bool.false_or, decide_eq_true_iff]
    simp only [Bitmap.words, bitsPerWord] at hpad ⊢
    omega
  · simp only [Bitmap.words, bitsPerWord] at hpad
    rw [hzero]
    refine iff_of_false (by decide) fun h => ?_
    simp only [bitsPerWord] at h
    omega

theorem paddingSet_bitmapCreate (nbits : Nat) : (bitmapCreate nbits).PaddingSet := by
  intro i hi hlt
  rw [bitmapCreate_nbits] at hi
  exact (isset_bitmapCreate_iff nbits i).2 ⟨hi, hlt⟩

end Create

section Calls

variable {b b' : Bitmap} {index nbits : Nat} {call : BitmapCall} {calls : List BitmapCall}

theorem PaddingSet_setBit (h : b.PaddingSet) (i : Nat) : (b.setBit i).PaddingSet := by
  intro j hj hlt
  rw [Bitmap.isset_setBit, h j hj hlt, Bool.true_or]

theorem PaddingSet_clearBit {i : Nat} (h : b.PaddingSet) (hi : i < b.nbits) :
    (b.clearBit i).PaddingSet := by
  intro j hj hlt
  rw [Bitmap.clearBit_nbits] at hj
  rw [Bitmap.isset_clearBit, h j hj hlt, Bool.true_and, decide_eq_false (by omega)]
  rfl

theorem bitmapMark_ok {i : Nat} (hi : i < b.nbits) (hc : b.isset i = false) :
    bitmapMark b i = .ok (b.setBit i) := by
  rw [bitmapMark, assertC_pos hi, assertC_pos (by rw [Bitmap.bitmapIsset_eq, hc]; decide)]
  rfl

theorem nrAllocatedFrom_eq (b : Bitmap) (n i : Nat) (nr : Int) :
    nrAllocatedFrom b n i nr = nr + Nat.count (fun k => b.isset (i + k)) n := by
  induction n generalizing i nr with
  | zero => rw [nrAllocatedFrom, Nat.count_zero, Nat.cast_zero, Int.add_zero]
  | succ n ih =>
    have hshift : (fun k => b.isset (i + 1 + k) = true) =
        fun k => b.isset (i + (k + 1)) = true := by
      funext k
      rw [Nat.add_right_comm, Nat.add_assoc]
    rw [nrAllocatedFrom, ih, Nat.count_succ', Bitmap.bitmapIsset_eq]
    simp only [hshift, Nat.add_zero]
    cases b.isset i with
    | true =>
      rw [if_pos rfl, if_pos rfl, Nat.cast_add, Nat.cast_one, Int.add_assoc, Int.add_comm 1]
    | false =>
      rw [if_neg Bool.false_ne_true, if_neg Bool.false_ne_true, Nat.add_zero]

/-- `bitmap_nr_allocated` counts the set bits. -/
theorem bitmapNrAllocated_eq (b : Bitmap) : bitmapNrAllocated b = (setBits b).card := by
  rw [bitmapNrAllocated, nrAllocatedFrom_eq, Int.zero_add, Nat.count_eq_card_filter_range]
  simp only [Nat.zero_add]
  rfl

/-- What a call keeps, and what it does to the number of set bits. -/
theorem BitmapStep.keeps (h : BitmapStep b call b') (padding : b.PaddingSet) :
    b'.nbits = b.nbits ∧ b'.PaddingSet ∧
      ((setBits b').card : Int) = (setBits b).card + call.sets.toNat - call.clears.toNat := by
  have hset : ∀ k < b.nbits, b.isset k = false →
      ((setBits (b.setBit k)).card : Int) = (setBits b).card + 1 := by
    intro k hk hclear
    have hnew : k ∉ setBits b := by simp [mem_setBits, hclear]
    rw [setBits_setBit hk, Finset.card_insert_of_notMem hnew, Nat.cast_add, Nat.cast_one]
  cases h with
  | @alloc ret index _ h =>
    obtain ⟨r, hr, result⟩ := bitmapAlloc_result padding
    obtain rfl := Except.ok.inj (hr.symm.trans h)
    cases result with
    | found k lt clear least =>
      refine ⟨rfl, PaddingSet_setBit padding _, ?_⟩
      rw [hset _ lt clear]
      rfl
    | full hall => exact ⟨rfl, padding, by simp [BitmapCall.sets, BitmapCall.clears]⟩
  | mark lt clear h =>
    rw [Bitmap.bitmapIsset_eq] at clear
    rw [bitmapMark_ok lt clear] at h
    cases h
    refine ⟨rfl, PaddingSet_setBit padding _, ?_⟩
    rw [hset _ lt clear]
    rfl
  | unmark lt set h =>
    rw [Bitmap.bitmapIsset_eq] at set
    rw [bitmapUnmark_ok lt set] at h
    cases h
    refine ⟨rfl, PaddingSet_clearBit padding lt, ?_⟩
    have hmem := (mem_setBits b _).2 ⟨lt, set⟩
    have hpos := Finset.card_pos.2 ⟨_, hmem⟩
    rw [setBits_clearBit, Finset.card_erase_of_mem hmem]
    simp only [BitmapCall.sets, BitmapCall.clears, Bool.toNat_true, Bool.toNat_false]
    omega

/-- What holds after the calls of a run. -/
structure BitmapAfter (nbits : Nat) (calls : List BitmapCall) (b : Bitmap) : Prop where
  nbits_eq : b.nbits = nbits
  padding : b.PaddingSet
  count : ((setBits b).card : Int) =
    calls.countP BitmapCall.sets - calls.countP BitmapCall.clears

theorem bitmapAfter_create (nbits : Nat) : BitmapAfter nbits [] (bitmapCreate nbits) where
  nbits_eq := bitmapCreate_nbits nbits
  padding := paddingSet_bitmapCreate nbits
  count := by
    have hnone : setBits (bitmapCreate nbits) = ∅ := by
      apply Finset.eq_empty_of_forall_notMem
      intro k hk
      obtain ⟨hlt, hset⟩ := (mem_setBits _ k).1 hk
      rw [bitmapCreate_nbits] at hlt
      exact absurd ((isset_bitmapCreate_iff nbits k).1 hset).1 (by omega)
    rw [hnone]
    rfl

theorem BitmapAfter.step (h : BitmapAfter nbits calls b) (step : BitmapStep b call b') :
    BitmapAfter nbits (calls ++ [call]) b' := by
  obtain ⟨hnbits, padding, hcard⟩ := step.keeps h.padding
  refine ⟨hnbits.trans h.nbits_eq, padding, ?_⟩
  rw [hcard, h.count, List.countP_append, List.countP_append, List.countP_singleton,
    List.countP_singleton]
  cases call.sets <;> cases call.clears <;> simp <;> omega

theorem bitmapAfter_run (run : (bitmapSystem nbits).Run calls b) : BitmapAfter nbits calls b := by
  apply run.invariant (I := BitmapAfter nbits)
  · rintro s rfl
    exact bitmapAfter_create nbits
  · exact fun calls s call s' h step => h.step step

/-- `bitmap_alloc` on a bitmap with its padding. -/
theorem bitmapAlloc_spec (padding : b.PaddingSet) : ∃ ret index b',
    bitmapAlloc b = .ok (ret, index, b') ∧
      (ret = -ENOSPC ↔ ∀ i < b.nbits, bitmapIsset b i = true) ∧
      (ret = -ENOSPC ∧ b' = b ∨
        ret = 0 ∧ IsLeast {i | i < b.nbits ∧ bitmapIsset b i = false} index ∧
          ∀ i, bitmapIsset b' i = (bitmapIsset b i || decide (i = index))) := by
  simp only [Bitmap.bitmapIsset_eq]
  obtain ⟨r, hr, result⟩ := bitmapAlloc_result padding
  cases result with
  | found k lt clear least =>
    refine ⟨0, k, _, hr, iff_of_false (by decide) fun hall => ?_, .inr ⟨rfl, ⟨⟨lt, clear⟩, ?_⟩,
      Bitmap.isset_setBit b k⟩⟩
    · rw [hall k lt] at clear
      cases clear
    · rintro i ⟨-, hi⟩
      by_contra hlt
      rw [least i (not_le.1 hlt)] at hi
      cases hi
  | full hall => exact ⟨-ENOSPC, 0, b, hr, iff_of_true rfl hall, .inl ⟨rfl, rfl⟩⟩

/-- In every run from `bitmap_create` on no call stops at an assertion, `bitmap_alloc` sets the
least clear bit and fails exactly when there is none, the padding bits stay set, and
`bitmap_nr_allocated` is the number of bits that were set less those that were cleared. -/
theorem bitmap_contract (hnbits : nbits < 2 ^ 31) (run : (bitmapSystem nbits).Run calls b) :
    b.nbits = nbits ∧ b.PaddingSet ∧
      (∃ ret index b', bitmapAlloc b = .ok (ret, index, b') ∧
        (ret = -ENOSPC ↔ ∀ i < nbits, bitmapIsset b i = true) ∧
        (ret = -ENOSPC ∧ b' = b ∨
          ret = 0 ∧ IsLeast {i | i < nbits ∧ bitmapIsset b i = false} index ∧
            ∀ i, bitmapIsset b' i = (bitmapIsset b i || decide (i = index)))) ∧
      (∀ index < nbits, bitmapIsset b index = false → ∃ b', bitmapMark b index = .ok b' ∧
        ∀ i, bitmapIsset b' i = (bitmapIsset b i || decide (i = index))) ∧
      (∀ index < nbits, bitmapIsset b index = true → ∃ b', bitmapUnmark b index = .ok b' ∧
        ∀ i, bitmapIsset b' i = (bitmapIsset b i && !decide (i = index))) ∧
      bitmapNrAllocated b = calls.countP BitmapCall.sets - calls.countP BitmapCall.clears ∧
      bitmapNrAllocated b < 2 ^ 31 := by
  obtain ⟨rfl, padding, hcount⟩ := bitmapAfter_run run
  refine ⟨rfl, padding, bitmapAlloc_spec padding, fun index lt clear => ?_,
    fun index lt set => ?_, ?_, ?_⟩
  · rw [Bitmap.bitmapIsset_eq] at clear
    refine ⟨_, bitmapMark_ok lt clear, fun i => ?_⟩
    rw [Bitmap.bitmapIsset_eq, Bitmap.bitmapIsset_eq, Bitmap.isset_setBit]
  · rw [Bitmap.bitmapIsset_eq] at set
    refine ⟨_, bitmapUnmark_ok lt set, fun i => ?_⟩
    rw [Bitmap.bitmapIsset_eq, Bitmap.bitmapIsset_eq, Bitmap.isset_clearBit]
  · rw [bitmapNrAllocated_eq, hcount]
  · rw [bitmapNrAllocated_eq]
    have hle : (setBits b).card ≤ (Finset.range b.nbits).card :=
      Finset.card_le_card (Finset.filter_subset _ _)
    rw [Finset.card_range] at hle
    omega

/-- Ten bits, the first one allocated. -/
theorem bitmap_contract_ten : ∃ b, (bitmapSystem 10).Run [.alloc 0] b ∧ b.PaddingSet ∧
    bitmapNrAllocated b = 1 := by
  have halloc : bitmapAlloc (bitmapCreate 10) = .ok (0, 0, (bitmapCreate 10).setBit 0) := rfl
  have run : (bitmapSystem 10).Run [.alloc 0] ((bitmapCreate 10).setBit 0) :=
    System.Run.next (.start rfl) (.alloc halloc)
  obtain ⟨-, padding, -, -, -, hnr, -⟩ := bitmap_contract (by decide) run
  exact ⟨_, run, padding, hnr⟩

end Calls

end Ece344Lab.Fs
