import Mathlib.Data.Nat.Bitwise
import Mathlib.Tactic.IntervalCases
import Ece344Lab.Fs.Block

/-!
# Fixed-size bitmaps

`bitmap.h` and `bitmap.c`. `isset` is the meaning of a bitmap: every operation is
described by what it does to the set of its set bits.
-/
namespace Ece344Lab.Fs

abbrev bitsPerWord : Nat := 8
abbrev wordAllbits : UInt8 := 0xff

/-- `struct bitmap`: the number of bits and the bytes that hold them. -/
structure Bitmap where
  nbits : Nat
  v : Nat → UInt8

/-- `((WORD_TYPE) 1) << offset` -/
def mask (offset : Nat) : UInt8 := 1 <<< UInt8.ofNat offset

namespace Bitmap

/-- The number of bytes, `DIVROUNDUP(nbits, BITS_PER_WORD)`. -/
def words (b : Bitmap) : Nat := (b.nbits + bitsPerWord - 1) / bitsPerWord

/-- `b->v[ix] |= mask` for the bit `index`. -/
def setBit (b : Bitmap) (index : Nat) : Bitmap :=
  let ix := index / bitsPerWord
  { b with v := Function.update b.v ix (b.v ix ||| mask (index % bitsPerWord)) }

/-- `b->v[ix] &= ~mask` for the bit `index`. -/
def clearBit (b : Bitmap) (index : Nat) : Bitmap :=
  let ix := index / bitsPerWord
  { b with v := Function.update b.v ix (b.v ix &&& ~~~ mask (index % bitsPerWord)) }

/-- Bit `index` of the bitmap. -/
def isset (b : Bitmap) (index : Nat) : Bool := (b.v (index / 8)).toNat.testBit (index % 8)

/-- The unused bits of the last byte are set, so that no search finds them. -/
def PaddingSet (b : Bitmap) : Prop :=
  ∀ i, b.nbits ≤ i → i < 8 * b.words → b.isset i = true

end Bitmap

/-- The padding loop of `bitmap_create`: sets bits `j, j + 1, …` of byte `ix`. -/
def padWord (b : Bitmap) (ix : Nat) : Nat → Nat → Bitmap
  | 0, _ => b
  | n + 1, j => padWord (b.setBit (ix * bitsPerWord + j)) ix n (j + 1)

def bitmapCreate (nbits : Nat) : Bitmap :=
  let b : Bitmap := { nbits := nbits, v := fun _ => 0 }
  let words := b.words
  -- mark any leftover bits at the end in use
  if nbits / bitsPerWord < words then
    let ix := words - 1
    let overbits := nbits - ix * bitsPerWord
    padWord b ix (bitsPerWord - overbits) overbits
  else b

/-- `bitmap_getdata`, read in blocks: block `k` of the raw bytes. -/
def bitmapGetdata (b : Bitmap) (k : Nat) : Block := Block.ofFn fun j => b.v (k * blockSize + j)

/-- The inner loop of `bitmap_alloc`: the first clear bit of a byte from `offset` on. -/
def firstClear (w : UInt8) : Nat → Nat → Option Nat
  | 0, _ => none
  | n + 1, offset => if w &&& mask offset = 0 then some offset else firstClear w n (offset + 1)

/-- The outer loop of `bitmap_alloc` over the bytes from `ix` on. The result is the
return value, `*index` and the bitmap. -/
def bitmapScan (b : Bitmap) : Nat → Nat → Except Halt (Int × Nat × Bitmap)
  | 0, _ => .ok (-ENOSPC, 0, b)
  | n + 1, ix =>
    if b.v ix ≠ wordAllbits then
      match firstClear (b.v ix) bitsPerWord 0 with
      | some offset => do
        let index := ix * bitsPerWord + offset
        assertC .bitmapAllocInRange (index < b.nbits)
        return (0, index, b.setBit index)
      | none => .error (.assertion .bitmapAllocByteHasClearBit)
    else bitmapScan b n (ix + 1)

def bitmapAlloc (b : Bitmap) : Except Halt (Int × Nat × Bitmap) := bitmapScan b b.words 0

def bitmapIsset (b : Bitmap) (index : Nat) : Bool :=
  b.v (index / bitsPerWord) &&& mask (index % bitsPerWord) ≠ 0

def bitmapMark (b : Bitmap) (index : Nat) : Except Halt Bitmap := do
  assertC .bitmapMarkInRange (index < b.nbits)
  assertC .bitmapMarkClear (¬ bitmapIsset b index)
  return b.setBit index

def bitmapUnmark (b : Bitmap) (index : Nat) : Except Halt Bitmap := do
  assertC .bitmapUnmarkInRange (index < b.nbits)
  assertC .bitmapUnmarkSet (bitmapIsset b index)
  return b.clearBit index

theorem mask_toNat {offset : Nat} (h : offset < 8) : (mask offset).toNat = 2 ^ offset := by
  interval_cases offset <;> rfl

theorem and_mask_eq_zero (w : UInt8) {offset : Nat} (h : offset < 8) :
    w &&& mask offset = 0 ↔ w.toNat.testBit offset = false := by
  rw [← UInt8.toNat_inj, UInt8.toNat_and, mask_toNat h, Nat.and_two_pow]
  cases w.toNat.testBit offset <;> simp

theorem testBit_or_mask (w : UInt8) {offset : Nat} (h : offset < 8) (i : Nat) :
    (w ||| mask offset).toNat.testBit i = (w.toNat.testBit i || decide (offset = i)) := by
  rw [UInt8.toNat_or, mask_toNat h, Nat.testBit_or, Nat.testBit_two_pow]

theorem testBit_andNot_mask (w : UInt8) {offset i : Nat} (h : offset < 8) (hi : i < 8) :
    (w &&& ~~~ mask offset).toNat.testBit i = (w.toNat.testBit i && !decide (offset = i)) := by
  have hnot : (~~~ mask offset).toNat = 2 ^ 8 - (2 ^ offset + 1) := by
    interval_cases offset <;> rfl
  have hlt : 2 ^ offset < 2 ^ 8 := Nat.pow_lt_pow_right (by omega) h
  rw [UInt8.toNat_and, hnot, Nat.testBit_and, Nat.testBit_two_pow_sub_succ hlt,
    Nat.testBit_two_pow]
  simp [hi]

/-- A byte is full exactly when its eight bits are set. -/
theorem eq_allbits_iff (w : UInt8) :
    w = wordAllbits ↔ ∀ i, i < 8 → w.toNat.testBit i = true := by
  constructor
  · rintro rfl i hi
    interval_cases i <;> rfl
  · intro h
    rw [← UInt8.toNat_inj]
    apply Nat.eq_of_testBit_eq
    intro i
    by_cases hi : i < 8
    · rw [h i hi]
      interval_cases i <;> rfl
    · have h8 : 2 ^ 8 ≤ 2 ^ i := Nat.pow_le_pow_right (by omega) (by omega)
      rw [Nat.testBit_lt_two_pow (lt_of_lt_of_le w.toNat_lt h8),
        Nat.testBit_lt_two_pow (lt_of_lt_of_le wordAllbits.toNat_lt h8)]

namespace Bitmap

theorem bitmapIsset_eq (b : Bitmap) (i : Nat) : bitmapIsset b i = b.isset i := by
  have h8 : i % 8 < 8 := Nat.mod_lt _ (by decide)
  rw [bitmapIsset, isset, decide_not]
  cases hb : (b.v (i / 8)).toNat.testBit (i % 8)
  · simp [(and_mask_eq_zero _ h8).mpr hb]
  · have hne : b.v (i / 8) &&& mask (i % 8) ≠ 0 := fun h => by
      rw [and_mask_eq_zero _ h8, hb] at h
      cases h
    simp [hne]

@[simp] theorem setBit_nbits (b : Bitmap) (i : Nat) : (b.setBit i).nbits = b.nbits := rfl

@[simp] theorem clearBit_nbits (b : Bitmap) (i : Nat) : (b.clearBit i).nbits = b.nbits := rfl

@[simp] theorem setBit_words (b : Bitmap) (i : Nat) : (b.setBit i).words = b.words := rfl

@[simp] theorem clearBit_words (b : Bitmap) (i : Nat) : (b.clearBit i).words = b.words := rfl

theorem isset_setBit (b : Bitmap) (i j : Nat) :
    (b.setBit i).isset j = (b.isset j || decide (j = i)) := by
  have hi8 : i % 8 < 8 := Nat.mod_lt _ (by decide)
  unfold isset setBit
  by_cases hw : j / 8 = i / 8
  · simp only [hw, Function.update_self, testBit_or_mask _ hi8]
    congr 1
    rw [decide_eq_decide]
    omega
  · have hne : j ≠ i := fun h => hw (by rw [h])
    simp [Function.update_of_ne hw, hne]

theorem isset_clearBit (b : Bitmap) (i j : Nat) :
    (b.clearBit i).isset j = (b.isset j && !decide (j = i)) := by
  have hi8 : i % 8 < 8 := Nat.mod_lt _ (by decide)
  have hj8 : j % 8 < 8 := Nat.mod_lt _ (by decide)
  unfold isset clearBit
  by_cases hw : j / 8 = i / 8
  · simp only [hw, Function.update_self, testBit_andNot_mask _ hi8 hj8]
    congr 2
    rw [decide_eq_decide]
    omega
  · have hne : j ≠ i := fun h => hw (by rw [h])
    simp [Function.update_of_ne hw, hne]

/-- Two bitmaps of one size with the same bits are equal. -/
theorem ext_isset {a b : Bitmap} (hn : a.nbits = b.nbits) (h : ∀ i, a.isset i = b.isset i) :
    a = b := by
  have hv : a.v = b.v := by
    funext ix
    rw [← UInt8.toNat_inj]
    apply Nat.eq_of_testBit_eq
    intro i
    by_cases hi : i < 8
    · have hq : (ix * 8 + i) / 8 = ix := by omega
      have hr : (ix * 8 + i) % 8 = i := by omega
      have hb := h (ix * 8 + i)
      unfold isset at hb
      rwa [hq, hr] at hb
    · have h8 : 2 ^ 8 ≤ 2 ^ i := Nat.pow_le_pow_right (by omega) (by omega)
      rw [Nat.testBit_lt_two_pow (lt_of_lt_of_le (a.v ix).toNat_lt h8),
        Nat.testBit_lt_two_pow (lt_of_lt_of_le (b.v ix).toNat_lt h8)]
  cases a
  cases b
  simp_all

theorem clearBit_setBit {b : Bitmap} {i : Nat} (h : b.isset i = false) :
    (b.setBit i).clearBit i = b := by
  refine ext_isset (by simp) fun j => ?_
  rw [isset_clearBit, isset_setBit]
  by_cases hj : j = i
  · simp [hj, h]
  · simp [hj]

end Bitmap

theorem firstClear_some {w : UInt8} {n offset k : Nat} (hn : offset + n ≤ 8)
    (h : firstClear w n offset = some k) :
    offset ≤ k ∧ k < offset + n ∧ w.toNat.testBit k = false ∧
      ∀ j, offset ≤ j → j < k → w.toNat.testBit j = true := by
  induction n generalizing offset with
  | zero => simp [firstClear] at h
  | succ n ih =>
    rw [firstClear] at h
    split at h
    · rename_i hz
      obtain rfl := Option.some.inj h
      exact ⟨le_refl _, by omega, (and_mask_eq_zero w (by omega)).mp hz, fun j _ _ => by omega⟩
    · rename_i hz
      obtain ⟨hlo, hhi, hclear, hset⟩ := ih (by omega) h
      refine ⟨by omega, by omega, hclear, fun j hj hjk => ?_⟩
      rcases Nat.eq_or_lt_of_le hj with rfl | hlt
      · rw [and_mask_eq_zero w (by omega)] at hz
        simpa using hz
      · exact hset j hlt hjk

theorem firstClear_none {w : UInt8} {n offset : Nat} (hn : offset + n ≤ 8)
    (h : firstClear w n offset = none) :
    ∀ j, offset ≤ j → j < offset + n → w.toNat.testBit j = true := by
  induction n generalizing offset with
  | zero => intro j _ _; omega
  | succ n ih =>
    rw [firstClear] at h
    split at h
    · cases h
    · rename_i hz
      intro j hj hjk
      rcases Nat.eq_or_lt_of_le hj with rfl | hlt
      · rw [and_mask_eq_zero w (by omega)] at hz
        simpa using hz
      · exact ih (by omega) h j hlt (by omega)

/-- The two ways a search ends: with the least clear bit, or with none in range. -/
inductive AllocResult (b : Bitmap) : Int × Nat × Bitmap → Prop
  | found (k : Nat) (lt : k < b.nbits) (clear : b.isset k = false)
      (least : ∀ j, j < k → b.isset j = true) : AllocResult b (0, k, b.setBit k)
  | full (set : ∀ j, j < b.nbits → b.isset j = true) : AllocResult b (-ENOSPC, 0, b)

theorem bitmapScan_result {b : Bitmap} (hp : b.PaddingSet) {n ix : Nat} (hn : ix + n = b.words)
    (hset : ∀ j, j < 8 * ix → b.isset j = true) :
    ∃ r, bitmapScan b n ix = .ok r ∧ AllocResult b r := by
  induction n generalizing ix with
  | zero =>
    refine ⟨_, rfl, .full fun j hj => hset j ?_⟩
    simp only [Bitmap.words, bitsPerWord] at hn
    omega
  | succ n ih =>
    rw [bitmapScan]
    by_cases hfull : b.v ix = wordAllbits
    · rw [if_neg (not_not.mpr hfull)]
      apply ih (by omega)
      intro j hj
      by_cases hj' : j < 8 * ix
      · exact hset j hj'
      · have hq : j / 8 = ix := by omega
        rw [Bitmap.isset, hq]
        exact (eq_allbits_iff _).mp hfull _ (Nat.mod_lt _ (by decide))
    · rw [if_pos hfull]
      cases hc : firstClear (b.v ix) bitsPerWord 0 with
      | none =>
        refine absurd ((eq_allbits_iff _).mpr fun i hi => ?_) hfull
        exact firstClear_none (by decide) hc i (Nat.zero_le _) (by simpa using hi)
      | some k =>
        obtain ⟨-, hk, hclear, hbelow⟩ := firstClear_some (by decide) hc
        have hk8 : k < 8 := by simpa using hk
        have hq : (ix * 8 + k) / 8 = ix := by omega
        have hr : (ix * 8 + k) % 8 = k := by omega
        have hclear' : b.isset (ix * 8 + k) = false := by rw [Bitmap.isset, hq, hr, hclear]
        have hlt : ix * 8 + k < b.nbits := by
          by_contra hge
          rw [hp _ (by omega) (by omega)] at hclear'
          cases hclear'
        refine ⟨_, ?_, .found (ix * 8 + k) hlt hclear' fun j hj => ?_⟩
        · simp only [assertC, if_pos hlt]
          rfl
        · by_cases hj' : j < 8 * ix
          · exact hset j hj'
          · have hjq : j / 8 = ix := by omega
            rw [Bitmap.isset, hjq]
            exact hbelow _ (Nat.zero_le _) (by omega)

/-- `bitmap_alloc` stops at no assertion, and returns the least clear bit or `-ENOSPC`. -/
theorem bitmapAlloc_result {b : Bitmap} (hp : b.PaddingSet) :
    ∃ r, bitmapAlloc b = .ok r ∧ AllocResult b r :=
  bitmapScan_result hp (Nat.zero_add _) fun _ hj => by omega

theorem bitmapUnmark_ok {b : Bitmap} {i : Nat} (hi : i < b.nbits) (hs : b.isset i = true) :
    bitmapUnmark b i = .ok (b.clearBit i) := by
  simp [bitmapUnmark, assertC, hi, Bitmap.bitmapIsset_eq, hs, bind, Except.bind, pure, Except.pure]

end Ece344Lab.Fs
