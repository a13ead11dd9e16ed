import Ece344Lab.Fs.Stored

/-!
# Reading back what was written

`testfs_write_data` writes its head, its whole blocks and its tail in stretches
that compose, and `testfs_read_data` copies the stored bytes, whatever the
alignment of the two ranges is.
-/
namespace Ece344Lab.Fs

open Ece344Lab.Library

theorem toOffT_of_lt {n : Nat} (h : n < 2 ^ 63) : toOffT n = n := by
  unfold toOffT
  apply Int.bmod_eq_of_le_mul_two <;> omega

theorem addOff_of_lt {a b : Nat} (ha : a + b < 2 ^ 63) (hb : b < 2 ^ 63) :
    addOff a (toOffT b) = .ok ((a + b : ℕ) : ℤ) := by
  rw [addOff, toOffT_of_lt hb, if_pos (by omega), Nat.cast_add]

theorem toSizeT_natCast {n : Nat} (h : n < 2 ^ 64) : toSizeT n = n := by
  unfold toSizeT
  omega

theorem toInt_natCast {n : Nat} (h : n < 2 ^ 31) : toInt n = n :=
  toInt_of_lt (by omega) (by omega)

theorem tdiv_blockSize (n : Nat) : (n : ℤ).tdiv blockSize = ((n / 8192 : ℕ) : ℤ) := by
  simp only [blockSize, Int.ofNat_tdiv]

theorem tmod_blockSize (n : Nat) : (n : ℤ).tmod blockSize = ((n % 8192 : ℕ) : ℤ) := by
  simp only [blockSize, Int.ofNat_tmod]

/-- The inode after a successful write of `size` bytes at `start`. -/
def InodeSt.grow (st : InodeSt) (start size : Nat) : InodeSt :=
  { st with
    ino.din.iSize := if 0 < size then max st.ino.din.iSize (start + size : ℕ) else st.ino.din.iSize
    ino.dirty := true }

theorem growSize_run (st : InodeSt) {start size : Nat} (hend : start + size < 2 ^ 63) :
    (growSize start size).run st = .ok ⟨(), st.grow start size, []⟩ := by
  by_cases hsize : 0 < size
  · rw [growSize, if_pos hsize, Program.reads_bind, addOff_of_lt hend (by omega),
      Program.except_ok_bind, setDin_bind, InodeSt.grow, if_pos hsize]
    rfl
  · rw [growSize, if_neg hsize, InodeSt.grow, if_neg hsize]
    rfl

theorem bufIndex_big {i : Nat} (ix : Int) (hi : 2 ^ 31 ≤ 8192 * i) :
    bufIndex i ix = .error .undefined := by
  rw [bufIndex, if_neg (by simp only [blockSize, intMax]; omega)]

theorem copyBlock_bufIndex (buf : Nat → UInt8) (block : Block) {i ix n : Nat}
    (hi : 8192 * i < 2 ^ 31) (hix : ix ≤ 8192 * i) (hn : n ≤ 8192) :
    (do
      let pos ← bufIndex i ix
      copyBlock block 0 buf pos n) =
      .ok (block.copyIn 0 (fun k => buf (8192 * i - ix + k)) n) := by
  have hpos : ((8192 : ℕ) * (i : ℤ) - ix).toNat = 8192 * i - ix := by omega
  rw [bufIndex, if_pos (by simp only [blockSize, intMax]; omega), Program.except_ok_bind, copyBlock,
    if_pos (by simp only [blockSize]; omega)]
  simp only [blockSize, hpos, Int.toNat_natCast, Int.toNat_zero]

/-- Filling a block and writing it. -/
theorem wp_store {α : Type} {st : InodeSt} {f : Except Halt Block} {b : Block} {ret : Int}
    {k : Unit → InodeM α} {Q : α → InodeSt → List Event → Prop} {E : Halt → Prop}
    (hf : f = .ok b) (hret : 0 ≤ ret) :
    Program.wp (Program.reads (fun _ => f) >>= fun b => writeBlock ret b >>= k) st Q E ↔
      Program.wp (k ()) (st.write ret.toNat b) Q E := by
  rw [Program.wp_bind, Program.wp_ok (Program.reads_run hf), Program.wp_bind,
    Program.wp_ok (writeBlock_run hret b)]
  rfl

theorem wp_reads_error {α β : Type} {st : InodeSt} {f : Except Halt β} {e : Halt}
    {k : β → InodeM α} {Q : α → InodeSt → List Event → Prop} {E : Halt → Prop}
    (hf : f = .error e) (he : E e) : Program.wp (Program.reads (fun _ => f) >>= k) st Q E := by
  rw [Program.wp_bind, Program.wp_error (Program.reads_run_error hf)]
  exact he

section Write

variable {D : Nat → Dinode} {start size : Nat}

/-- The bytes that a block of the write gets. -/
theorem get_copyIn_buf {buf : Nat → UInt8} {block : Block} {l i ix n : Nat} (hl : l = start / 8192 + i)
    (hix : ix = start % 8192) (hi : 0 < i) {k : Nat} (hk : k < n) (hn : n ≤ 8192) :
    (block.copyIn 0 (fun k => buf (8192 * i - ix + k)) n).get k = buf (8192 * l + k - start) := by
  rw [Block.get_copyIn _ _ _ _ (by omega), if_pos ⟨Nat.zero_le _, by omega⟩]
  congr 1
  omega

/-- The block of number `i` behind the head of a write gets its bytes. -/
theorem Mapped.wrote_rest {st st₁ : InodeSt} {i : Nat} {p : Int} (buf : Nat → UInt8) (n : Nat)
    (h : Mapped D st st₁ (start / 8192 + i) p) (hi : 0 < i) (hn : n ≤ 8192) :
    Wrote D st (st₁.write p.toNat ((page st.ino.din st.sb.dev.blocks (start / 8192 + i)).copyIn 0
      (fun k => buf (8192 * i - start % 8192 + k)) n)) (8192 * (start / 8192 + i))
      (8192 * (start / 8192 + i) + n) (fun off => buf (off - start)) :=
  h.wrote _ 0 n (fun off => buf (off - start)) (by norm_num) (by omega)
    (fun k _ hk => get_copyIn_buf rfl rfl hi (by omega) hn)
    (fun k hk hout => by rw [Block.get_copyIn _ _ _ _ hk, if_neg hout])

/-- The whole blocks of a write from number `i` on, and its tail. -/
theorem wp_writeRest (D : Nat → Dinode) (buf : Nat → UInt8) (hend : start + size ≤ maxFileSize)
    (n : Nat) :
    ∀ (i rem : Nat) (st : InodeSt), Own (st.inodes D) st.sb → 0 < i → 0 < rem →
      8192 * (start / 8192 + i) + rem = start + size → rem ≤ 8192 * n →
      Program.wp (writeRest buf start (start / 8192 : ℕ) (start % 8192 : ℕ) size n i rem) st
        (fun ret st' _ => 0 ≤ ret → ret = toInt size ∧ ∃ st₁,
          Wrote D st st₁ (8192 * (start / 8192 + i)) (start + size) (fun off => buf (off - start)) ∧
          st' = st₁.grow start size)
        (fun e => e = .exitFread ∨ 2 ^ 30 < size) := by
  induction n with
  | zero =>
    intro i rem st _ _ hrem _ hfuel
    omega
  | succ n ih =>
    intro i rem st ho hi hrem hsum hfuel
    simp only [maxFileSize] at hend
    have hint : toInt (((start / 8192 : ℕ) : ℤ) + i) = ((start / 8192 + i : ℕ) : ℤ) := by
      rw [← Nat.cast_add, toInt_natCast]
      omega
    rw [writeRest, hint, Program.wp_bind]
    refine (wp_testfsAllocateBlock ho _).mono (fun a st₁ log ha => ?_) fun _ => Or.inl
    obtain ⟨ret, block⟩ := a
    obtain ⟨rfl, hmapped⟩ := ha
    dsimp only at hmapped ⊢
    by_cases hneg : ret < 0
    · simp only [hneg, if_true]
      split <;> simp [setDin, setDirty, Program.wp_bind] <;> omega
    have hm := hmapped (by omega)
    have hret : 0 ≤ ret := by omega
    by_cases hidx : 8192 * i < 2 ^ 31
    swap
    · -- the product `BLOCK_SIZE * i` overflows
      have herr : ∀ m : ℤ, (do
          let pos ← bufIndex i (start % 8192 : ℕ)
          copyBlock (page st.ino.din st.sb.dev.blocks (start / 8192 + i)) 0 buf pos m) =
          .error .undefined := fun m => by
        rw [bufIndex_big _ (by omega), Program.except_error_bind]
      have hhuge : 2 ^ 30 < size := by omega
      rw [if_neg hneg, if_neg hneg]
      split
      · exact wp_reads_error (herr _) (Or.inr hhuge)
      · exact wp_reads_error (herr _) (Or.inr hhuge)
    have hix : start % 8192 ≤ 8192 * i := by omega
    by_cases hbig : (rem : ℤ) > blockSize
    · have hlt : 8192 < rem := by
        simp only [blockSize] at hbig
        omega
      have hcopy := copyBlock_bufIndex buf (page st.ino.din st.sb.dev.blocks (start / 8192 + i))
        hidx hix (le_refl 8192)
      have hw := hm.wrote_rest buf 8192 hi (le_refl _)
      have hstep := ih (i + 1) (rem - 8192) _ hw.keeps.own (Nat.succ_pos i) (by omega) (by omega)
        (by omega)
      have hcast : ((rem - 8192 : ℕ) : ℤ) = (rem : ℤ) - blockSize := by
        simp only [blockSize]
        omega
      have hmid : 8192 * (start / 8192 + i) + 8192 = 8192 * (start / 8192 + (i + 1)) := by omega
      rw [hcast] at hstep
      rw [hmid] at hw
      rw [if_pos hbig, if_neg hneg, wp_store hcopy hret]
      refine hstep.imp fun ret' st' _ hpost hret' => ?_
      obtain ⟨hsize, st₂, hw₂, hst⟩ := hpost hret'
      exact ⟨hsize, st₂, hw.trans hw₂ (by omega) (by omega) (by omega), hst⟩
    · have hle : rem ≤ 8192 := by
        simp only [blockSize] at hbig
        omega
      have hcopy := copyBlock_bufIndex buf (page st.ino.din st.sb.dev.blocks (start / 8192 + i))
        hidx hix hle
      have hw := hm.wrote_rest buf rem hi hle
      have hlast : 8192 * (start / 8192 + i) + rem = start + size := by omega
      rw [hlast] at hw
      rw [if_neg hbig, if_neg hneg, wp_store hcopy hret, Program.wp_bind,
        Program.wp_ok (growSize_run _ (by omega)), Program.wp_pure]
      exact fun _ => ⟨rfl, _, hw, rfl⟩

/-- The block of the head of a write, or of a write within one block. -/
theorem Mapped.wrote_head {st st₁ : InodeSt} {p : Int} (buf : Nat → UInt8)
    (n : Nat) (h : Mapped D st st₁ (start / 8192) p) (hn : start % 8192 + n ≤ 8192) :
    Wrote D st (st₁.write p.toNat ((page st.ino.din st.sb.dev.blocks (start / 8192)).copyIn
      (start % 8192) (fun k => buf (0 + k)) n)) start (start + n) (fun off => buf (off - start)) := by
  have hw := h.wrote ((page st.ino.din st.sb.dev.blocks (start / 8192)).copyIn (start % 8192)
      (fun k => buf (0 + k)) n) (start % 8192) n (fun off => buf (off - start))
      (Nat.mod_lt _ (by norm_num))
    hn
    (fun k hlo hhi => by
      rw [Block.get_copyIn _ _ _ _ (by omega), if_pos ⟨hlo, hhi⟩]
      congr 1
      omega)
    (fun k hk hout => by rw [Block.get_copyIn _ _ _ _ hk, if_neg hout])
  have hstart : 8192 * (start / 8192) + start % 8192 = start := by omega
  rwa [hstart] at hw

theorem copyBlock_head (buf : Nat → UInt8) (block : Block) {ix n : Nat} (hn : ix + n ≤ 8192) :
    copyBlock block ix buf 0 n = .ok (block.copyIn ix (fun k => buf (0 + k)) n) := by
  rw [copyBlock, if_pos (by simp only [blockSize]; omega)]
  simp only [Int.toNat_natCast, Int.toNat_zero]

/-- `testfs_write_data` within the block that its `int` block number names. -/
theorem testfsWriteData_one (buf : Nat → UInt8) {l : Nat} (hl : toInt ((start / 8192 : ℕ) : ℤ) = l)
    (hle : start % 8192 + size ≤ 8192) :
    testfsWriteData buf start size = testfsAllocateBlock l >>= fun a =>
      if a.1 < 0 then pure a.1
      else Program.reads (fun _ => copyBlock a.2 (start % 8192 : ℕ) buf 0 size) >>= fun block =>
        writeBlock a.1 block >>= fun _ => growSize start size >>= fun _ => pure (toInt size) := by
  have hsum : toSizeT (((start % 8192 : ℕ) : ℤ) + size) = start % 8192 + size := by
    rw [← Nat.cast_add, toSizeT_natCast (by omega)]
  have hsmall : ¬ start % 8192 + size > blockSize := not_lt.mpr hle
  rw [testfsWriteData]
  simp only [tdiv_blockSize, tmod_blockSize, hl, hsum]
  rw [if_neg hsmall]

/-- `testfs_write_data` over several blocks: the head, then the rest. -/
theorem testfsWriteData_many (buf : Nat → UInt8) {l : Nat} (hl : toInt ((start / 8192 : ℕ) : ℤ) = l)
    (hlt : 8192 < start % 8192 + size) (hsize : start % 8192 + size < 2 ^ 64) {n : Nat}
    (hn : n = size / 8192 + 1) :
    testfsWriteData buf start size = testfsAllocateBlock l >>= fun a =>
      if a.1 < 0 then pure a.1
      else Program.reads (fun _ => copyBlock a.2 (start % 8192 : ℕ) buf 0
          (8192 - start % 8192 : ℕ)) >>= fun block =>
        writeBlock a.1 block >>= fun _ => writeRest buf start (start / 8192 : ℕ) (start % 8192 : ℕ)
          size n 1 (size - (8192 - start % 8192) : ℕ) := by
  have hsum : toSizeT (((start % 8192 : ℕ) : ℤ) + size) = start % 8192 + size := by
    rw [← Nat.cast_add, toSizeT_natCast hsize]
  have hbig : start % 8192 + size > blockSize := hlt
  have hhead : ((blockSize : ℤ) - ((start % 8192 : ℕ) : ℤ)) = ((8192 - start % 8192 : ℕ) : ℤ) := by
    simp only [blockSize]
    omega
  have hrest : (size : ℤ) - ((8192 - start % 8192 : ℕ) : ℤ) =
      ((size - (8192 - start % 8192) : ℕ) : ℤ) := by omega
  have hfuel : size / blockSize + 1 = n := hn.symm
  rw [testfsWriteData]
  simp only [tdiv_blockSize, tmod_blockSize, hl, hsum, hhead, hrest, hfuel]
  rw [if_pos hbig]

/-- `testfs_write_data`. -/
theorem wp_testfsWriteData {st : InodeSt} (buf : Nat → UInt8) (ho : Own (st.inodes D) st.sb)
    (hend : start + size ≤ maxFileSize) :
    Program.wp (testfsWriteData buf start size) st
      (fun ret st' _ => 0 ≤ ret → ret = toInt size ∧ ∃ st₁,
        Wrote D st st₁ start (start + size) (fun off => buf (off - start)) ∧
        st' = st₁.grow start size)
      (fun e => e = .exitFread ∨ 2 ^ 30 < size) := by
  have hend' := hend
  simp only [maxFileSize] at hend'
  have hint : toInt ((start / 8192 : ℕ) : ℤ) = ((start / 8192 : ℕ) : ℤ) :=
    toInt_natCast (by omega)
  rcases Nat.lt_or_ge 8192 (start % 8192 + size) with hlt | hle
  · obtain ⟨n, hn⟩ : ∃ n, n = size / 8192 + 1 := ⟨_, rfl⟩
    rw [testfsWriteData_many buf hint hlt (by omega) hn, Program.wp_bind]
    refine (wp_testfsAllocateBlock ho _).mono (fun a st₁ log ha => ?_) fun _ => Or.inl
    obtain ⟨ret, block⟩ := a
    obtain ⟨rfl, hmapped⟩ := ha
    dsimp only at hmapped ⊢
    by_cases hneg : ret < 0
    · rw [if_pos hneg, Program.wp_pure]
      omega
    have hret : 0 ≤ ret := by omega
    have hw := (hmapped hret).wrote_head buf (8192 - start % 8192) (by omega)
    have hmid : start + (8192 - start % 8192) = 8192 * (start / 8192 + 1) := by omega
    rw [hmid] at hw
    rw [if_neg hneg, wp_store (copyBlock_head buf _ (by omega)) hret]
    have hstep := wp_writeRest D buf hend n 1 (size - (8192 - start % 8192)) _
      hw.keeps.own one_pos (by omega) (by omega) (by omega)
    refine hstep.imp fun ret' st' _ hpost hret' => ?_
    obtain ⟨hsize', st₂, hw₂, hst⟩ := hpost hret'
    exact ⟨hsize', st₂, hw.trans hw₂ (by omega) (by omega) (by omega), hst⟩
  · rw [testfsWriteData_one buf hint hle, Program.wp_bind]
    refine (wp_testfsAllocateBlock ho _).mono (fun a st₁ log ha => ?_) fun _ => Or.inl
    obtain ⟨ret, block⟩ := a
    obtain ⟨rfl, hmapped⟩ := ha
    dsimp only at hmapped ⊢
    by_cases hneg : ret < 0
    · rw [if_pos hneg, Program.wp_pure]
      omega
    have hret : 0 ≤ ret := by omega
    have hw := (hmapped hret).wrote_head buf size hle
    rw [if_neg hneg, wp_store (copyBlock_head buf _ hle) hret, Program.wp_bind,
      Program.wp_ok (growSize_run _ (by omega)), Program.wp_pure]
    exact fun _ => ⟨rfl, _, hw, rfl⟩

end Write

/-- `testfs_read_block` returns the block of position `off` with `v` in its place. -/
structure Shows (st : InodeSt) (off : Nat) (v : UInt8) : Prop where
  lt : off / 8192 < maxBlocks
  onDev : PathOnDev st.ino.din st.sb.dev (off / 8192)
  byte : (page st.ino.din st.sb.dev.blocks (off / 8192)).get (off % 8192) = v

/-- A read of `size` bytes ends with the bytes `g` in the buffer, if its `int` arithmetic does
not overflow. -/
def ReadsAs (x : Except Halt (Int × (Nat → UInt8))) (size : Nat) (g : Nat → UInt8) : Prop :=
  (∀ ret new, x = .ok (ret, new) → ret = toInt size ∧ ∀ k, k < size → new k = g k) ∧
    (size ≤ 2 ^ 30 → ∃ ret new, x = .ok (ret, new))

theorem ReadsAs.of_ok {buf g : Nat → UInt8} {size : Nat} (h : ∀ k, k < size → buf k = g k) :
    ReadsAs (.ok (toInt size, buf)) size g := by
  refine ⟨fun ret new hr => ?_, fun _ => ⟨_, _, rfl⟩⟩
  obtain ⟨hret, hnew⟩ := Prod.mk.inj (Except.ok.inj hr)
  rw [← hnew]
  exact ⟨hret.symm, h⟩

theorem ReadsAs.of_error {g : Nat → UInt8} {size : Nat} {e : Halt} (h : 2 ^ 30 < size) :
    ReadsAs (.error e) size g := by
  refine ⟨fun ret new hr => ?_, fun hle => absurd hle (by omega)⟩
  cases hr

section Read

variable {st : InodeSt} {start size : Nat} {f : Nat → UInt8}

theorem Stores.shows {off : Nat} {v : UInt8} (h : Stores st off v) : Shows st off v where
  lt := by
    by_contra hge
    exact h.mapped (ptr_beyond (by omega))
  onDev := h.onDev
  byte := by
    rw [page_mapped h.mapped]
    exact h.byte

theorem Shows.readBlock (h0 : ∀ σ, 0 ≤ st.ptr σ) {off : Nat} {v : UInt8} (h : Shows st off v) :
    testfsReadBlock st.ino.din st.sb.dev (off / 8192 : ℕ) = .ok (st.ptr (.data (off / 8192)),
      page st.ino.din st.sb.dev.blocks (off / 8192)) :=
  testfsReadBlock_ok h0 h.lt h.onDev

theorem copyOut_ok (buf : Nat → UInt8) (block : Block) {pos ix n : Nat} (hn : ix + n ≤ 8192) :
    copyOut buf pos block ix n = .ok fun k =>
      if pos ≤ k ∧ k < pos + n then block.get (k - pos + ix) else buf k := by
  rw [copyOut, if_pos (by simp only [blockSize]; omega)]
  congr 1
  funext k
  by_cases hk : pos ≤ k ∧ k < pos + n
  · rw [if_pos (by omega), if_pos hk]
    congr 1
    omega
  · rw [if_neg (by omega), if_neg hk]

/-- The buffer `buf` after the first `n` bytes of a read at `start` have been copied to it. -/
def copied (buf f : Nat → UInt8) (start n : Nat) : Nat → UInt8 := fun k =>
  if k < n then f (start + k) else buf k

/-- Copying the block of position `off` moves the bytes of the file to the buffer. -/
theorem copyOut_shown (buf : Nat → UInt8) (off pos n : Nat) (hn : off % 8192 + n ≤ 8192)
    (hoff : off = start + pos) (hpos : pos + n ≤ size)
    (hs : ∀ o, start ≤ o → o < start + size → Shows st o (f o)) :
    copyOut (copied buf f start pos) pos (page st.ino.din st.sb.dev.blocks (off / 8192))
      ((off % 8192 : ℕ) : ℤ) n = .ok (copied buf f start (pos + n)) := by
  rw [copyOut_ok _ _ hn]
  congr 1
  funext k
  by_cases hlo : pos ≤ k
  · by_cases hk : k < pos + n
    · have hb := (hs (start + k) (by omega) (by omega)).byte
      rw [show (start + k) / 8192 = off / 8192 by omega,
        show (start + k) % 8192 = k - pos + off % 8192 by omega] at hb
      rw [if_pos ⟨hlo, hk⟩, hb, copied, if_pos hk]
    · rw [if_neg (by omega), copied, copied, if_neg (by omega), if_neg hk]
  · rw [if_neg (by omega), copied, copied, if_pos (by omega), if_pos (by omega)]

theorem bufIndex_ok {i ix : Nat} (hi : 8192 * i < 2 ^ 31) (hix : ix ≤ 8192 * i) :
    bufIndex i ix = .ok ((8192 * i - ix : ℕ) : ℤ) := by
  rw [bufIndex, if_pos (by simp only [blockSize, intMax]; omega)]
  congr 1
  simp only [blockSize]
  omega

/-- The whole blocks of a read from number `i` on, and its tail. The `int` product
`BLOCK_SIZE * i` overflows in a read that ends 2 ^ 31 bytes behind its first block. -/
theorem readRest_shown (h0 : ∀ σ, 0 ≤ st.ptr σ) (buf : Nat → UInt8)
    (hs : ∀ o, start ≤ o → o < start + size → Shows st o (f o)) (n : Nat) :
    ∀ (i rem : Nat), 0 < i → 0 < rem →
      8192 * (start / 8192 + i) + rem = start + size → rem ≤ 8192 * n →
      readRest st.ino.din st.sb.dev (start / 8192 : ℕ) (start % 8192 : ℕ) size n i rem
        (copied buf f start (8192 * i - start % 8192)) =
      if start % 8192 + size ≤ 2 ^ 31 then .ok (toInt size, copied buf f start size)
      else .error .undefined := by
  induction n with
  | zero =>
    intro i rem _ hrem _ hfuel
    omega
  | succ n ih =>
    intro i rem hi hrem hsum hfuel
    obtain ⟨off, hoff⟩ : ∃ off, off = 8192 * (start / 8192 + i) := ⟨_, rfl⟩
    have hst := hs off (by omega) (by omega)
    have hl := hst.lt
    have hq : off / 8192 = start / 8192 + i := by omega
    have hr : off % 8192 = 0 := by omega
    have hint : toInt (((start / 8192 : ℕ) : ℤ) + i) = ((off / 8192 : ℕ) : ℤ) := by
      rw [hq, ← Nat.cast_add, toInt_natCast]
      simp only [maxBlocks] at hl
      omega
    have hnonneg := h0 (.data (off / 8192))
    rw [readRest, hint, hst.readBlock h0, Program.except_ok_bind]
    dsimp only
    rw [if_neg (by omega)]
    by_cases hidx : 8192 * i < 2 ^ 31
    swap
    · -- the product `BLOCK_SIZE * i` overflows
      rw [bufIndex_big _ (by omega), Program.except_error_bind, if_neg (by omega)]
    rw [bufIndex_ok hidx (by omega), Program.except_ok_bind]
    by_cases hbig : (rem : ℤ) > blockSize
    · have hlt : 8192 < rem := by
        simp only [blockSize] at hbig
        omega
      have hcopy := copyOut_shown buf off (8192 * i - start % 8192) 8192 (by omega) (by omega)
        (by omega) hs
      have hcast : ((rem - 8192 : ℕ) : ℤ) = (rem : ℤ) - blockSize := by
        simp only [blockSize]
        omega
      have hnext : 8192 * i - start % 8192 + 8192 = 8192 * (i + 1) - start % 8192 := by omega
      have hstep := ih (i + 1) (rem - 8192) (Nat.succ_pos i) (by omega) (by omega) (by omega)
      rw [hr, hnext] at hcopy
      rw [if_pos hbig, show copyOut _ _ _ 0 blockSize = _ from hcopy, Program.except_ok_bind]
      rwa [hcast] at hstep
    · have hle : rem ≤ 8192 := by
        simp only [blockSize] at hbig
        omega
      have hcopy := copyOut_shown buf off (8192 * i - start % 8192) rem (by omega) (by omega)
        (by omega) hs
      have hall : 8192 * i - start % 8192 + rem = size := by omega
      rw [hr, hall] at hcopy
      rw [if_neg hbig, show copyOut _ _ _ 0 _ = _ from hcopy, Program.except_ok_bind,
        if_pos (by omega)]
      rfl

/-- `testfs_read_data` of positions within the file. -/
theorem testfsReadData_within (h0 : ∀ σ, 0 ≤ st.ptr σ) (buf : Nat → UInt8) (hsize : 0 < size)
    (hend : ((start + size : ℕ) : ℤ) ≤ st.ino.din.iSize)
    (hs : ∀ o, start ≤ o → o < start + size → Shows st o (f o)) :
    testfsReadData st.ino.din st.sb.dev buf start size =
      if start % 8192 + size ≤ 2 ^ 31 then .ok (toInt size, copied buf f start size)
      else .error .undefined := by
  have hst := hs start (le_refl _) (by omega)
  have hlast := (hs (start + size - 1) (by omega) (by omega)).lt
  have hl := hst.lt
  simp only [maxBlocks] at hl hlast
  have hint : toInt ((start / 8192 : ℕ) : ℤ) = ((start / 8192 : ℕ) : ℤ) :=
    toInt_natCast (by omega)
  have hsum : toSizeT (((start % 8192 : ℕ) : ℤ) + size) = start % 8192 + size := by
    rw [← Nat.cast_add, toSizeT_natCast (by omega)]
  have hnonneg := h0 (.data (start / 8192))
  have hneg : ¬ st.ptr (.data (start / 8192)) < 0 := by omega
  have hin : ¬ ((start + size : ℕ) : ℤ) > st.ino.din.iSize := by omega
  have hsmall : ¬ size > maxFileSize := by simp only [maxFileSize]; omega
  have hnone : buf = copied buf f start 0 := rfl
  rw [testfsReadData]
  simp only [tdiv_blockSize, tmod_blockSize, hint, addOff_of_lt (show start + size < 2 ^ 63 by omega)
    (show size < 2 ^ 63 by omega), Program.except_ok_bind, hin, if_false, hsum, hst.readBlock h0,
    hneg]
  by_cases hbig : start % 8192 + size > blockSize
  · have hlt : 8192 < start % 8192 + size := hbig
    obtain ⟨n, hn⟩ : ∃ n, n = size / blockSize + 1 := ⟨_, rfl⟩
    have hfuel : size - (8192 - start % 8192) ≤ 8192 * n := by
      simp only [blockSize] at hn
      omega
    have hhead : ((blockSize : ℤ) - ((start % 8192 : ℕ) : ℤ)) = ((8192 - start % 8192 : ℕ) : ℤ) := by
      simp only [blockSize]
      omega
    have hrest : (size : ℤ) - ((8192 - start % 8192 : ℕ) : ℤ) =
        ((size - (8192 - start % 8192) : ℕ) : ℤ) := by omega
    have hcopy := copyOut_shown buf start 0 (8192 - start % 8192) (by omega) rfl (by omega) hs
    rw [← hnone, Nat.zero_add] at hcopy
    rw [if_pos hbig, if_neg hsmall, hhead, show copyOut buf 0 _ _ _ = _ from hcopy,
      Program.except_ok_bind, hrest, ← hn]
    exact readRest_shown h0 buf hs n 1 _ one_pos (by omega) (by omega) hfuel
  · have hle : start % 8192 + size ≤ 8192 := not_lt.mp hbig
    have hcopy := copyOut_shown buf start 0 size hle rfl (by omega) hs
    rw [← hnone, Nat.zero_add] at hcopy
    rw [if_neg hbig, show copyOut buf 0 _ _ _ = _ from hcopy, Program.except_ok_bind,
      if_pos (by omega)]
    rfl

theorem testfsReadData_shown (h0 : ∀ σ, 0 ≤ st.ptr σ) (buf : Nat → UInt8) (hsize : 0 < size)
    (hend : ((start + size : ℕ) : ℤ) ≤ st.ino.din.iSize)
    (hs : ∀ o, start ≤ o → o < start + size → Shows st o (f o)) :
    ReadsAs (testfsReadData st.ino.din st.sb.dev buf start size) size (fun k => f (start + k)) := by
  rw [testfsReadData_within h0 buf hsize hend hs]
  split
  · exact ReadsAs.of_ok fun k hk => if_pos hk
  · exact ReadsAs.of_error (by omega)

end Read

/-- What a write of `size` bytes at `start` that returns `ret` has done to the file, and what
it has left alone. -/
structure WroteData (D : Nat → Dinode) (buf : Nat → UInt8) (start size : Nat) (st st' : InodeSt)
    (ret : Int) : Prop where
  ret : ret = size
  iSize : st'.ino.din.iSize = max st.ino.din.iSize (start + size : ℕ)
  read : ∀ (start' size' : Nat) (old : Nat → UInt8), start ≤ start' → 0 < size' →
    start' + size' ≤ start + size → ∃ new,
      testfsReadData st'.ino.din st'.sb.dev old start' size' = .ok ((size' : ℤ), new) ∧
      ∀ k, k < size' → new k = buf (start' - start + k)
  rest : ∀ off : ℕ, (off : ℤ) < st.ino.din.iSize → ¬ (start ≤ off ∧ off < start + size) →
    st.ptr (.data (off / 8192)) ≠ 0 →
    st'.ptr (.data (off / 8192)) = st.ptr (.data (off / 8192)) ∧ st'.byte off = st.byte off
  others : ∀ n, n ≠ st.ino.iNr → ∀ σ,
    Fs.ptr (D n) st'.sb.dev.blocks σ = Fs.ptr (D n) st.sb.dev.blocks σ ∧
    (Fs.ptr (D n) st.sb.dev.blocks σ ≠ 0 →
      st'.sb.dev.blocks (Fs.ptr (D n) st.sb.dev.blocks σ).toNat =
        st.sb.dev.blocks (Fs.ptr (D n) st.sb.dev.blocks σ).toNat)

section RoundTrip

variable {D : Nat → Dinode} {st : InodeSt} {start size : Nat}

@[simp] theorem grow_ptr (st : InodeSt) (start size : Nat) (σ : Slot) :
    (st.grow start size).ptr σ = st.ptr σ := by
  cases σ <;> rfl

theorem grow_byte (st : InodeSt) (start size off : Nat) :
    (st.grow start size).byte off = st.byte off := by
  rw [InodeSt.byte, grow_ptr]
  rfl

theorem Stores.grow {off : Nat} {v : UInt8} (h : Stores st off v) (start size : Nat) :
    Stores (st.grow start size) off v where
  mapped := by
    rw [grow_ptr]
    exact h.mapped
  onDev σ hσ := by
    have hsame : Fs.ptr (st.grow start size).ino.din (st.grow start size).sb.dev.blocks σ =
      st.ptr σ := grow_ptr st start size σ
    rw [hsame]
    exact h.onDev σ hσ
  byte := (grow_byte st start size off).trans h.byte

theorem Wrote.wroteData {st₁ : InodeSt} {buf : Nat → UInt8}
    (h : Wrote D st st₁ start (start + size) fun off => buf (off - start))
    (hsize : 0 < size) (hmax : size ≤ 2 ^ 30) :
    WroteData D buf start size st (st₁.grow start size) size where
  ret := rfl
  iSize := by
    have hsame := h.keeps.iSize
    simp only [InodeSt.grow, hsame, hsize, if_true]
  read start' size' old hlo hpos hhi := by
    have h0 : ∀ σ, 0 ≤ (st₁.grow start size).ptr σ := fun σ => by
      rw [grow_ptr]
      exact h.keeps.own.sane.nonneg σ
    have hin : ((start' + size' : ℕ) : ℤ) ≤ (st₁.grow start size).ino.din.iSize := by
      simp only [InodeSt.grow, hsize, if_true]
      omega
    obtain ⟨hall, hsome⟩ := testfsReadData_shown h0 old hpos hin
      (fun o hstart hstop => ((h.inside o (by omega) (by omega)).grow start size).shows)
    obtain ⟨ret, new, hrun⟩ := hsome (by omega)
    obtain ⟨hret, hnew⟩ := hall ret new hrun
    have hint : toInt size' = size' := toInt_natCast (by omega)
    have hpos' : ∀ k, start' + k - start = start' - start + k := by
      intro k
      omega
    refine ⟨new, ?_, fun k hk => (hnew k hk).trans (congrArg buf (hpos' k))⟩
    rw [hrun, show ret = size' from hret.trans hint]
  rest off _ hout hne :=
    ⟨(grow_ptr _ _ _ _).trans (h.keeps.ptr _ hne),
      (grow_byte _ _ _ _).trans (h.outside off hout hne)⟩
  others n hn σ := ⟨h.keeps.others n hn σ, h.keeps.othersBlocks n hn σ⟩

/-- A write that returns no error stores its bytes, and a read of any part of the range
returns them; the other mapped bytes of the file and the other inodes keep their contents. -/
theorem write_read (buf : Nat → UInt8) (ho : Own (st.inodes D) st.sb) (hsize : 0 < size)
    (hmax : size ≤ 2 ^ 30) (hend : start + size ≤ maxFileSize) :
    Program.wp (testfsWriteData buf start size) st
      (fun ret st' _ => 0 ≤ ret → WroteData D buf start size st st' ret)
      (fun e => e = .exitFread) := by
  refine (wp_testfsWriteData buf ho hend).mono (fun ret st' _ hpost hret => ?_) fun e he =>
    he.resolve_right (by omega)
  obtain ⟨hsize', st₁, hw, rfl⟩ := hpost hret
  have hint : toInt size = size := toInt_natCast (by omega)
  rw [hsize', hint]
  exact hw.wroteData hsize hmax

/-- A write that begins in the first block and ends in the fourth. -/
theorem write_read_blocks :
    Program.wp (testfsWriteData UInt8.ofNat (5000 : ℕ) 20000) (emptyFile 128)
      (fun ret st' _ => 0 ≤ ret →
        WroteData (fun _ => Dinode.zero) UInt8.ofNat 5000 20000 (emptyFile 128) st' ret)
      (fun e => e = .exitFread) :=
  write_read UInt8.ofNat (emptyFile_own 128) (by norm_num) (by norm_num) (by decide)

end RoundTrip

end Ece344Lab.Fs
