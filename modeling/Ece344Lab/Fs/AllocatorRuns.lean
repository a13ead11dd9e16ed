import Ece344Lab.Library.Runs
import Ece344Lab.Fs.Atomic

/-!
# Runs of the block allocator

From the super block of a new file system on, blocks are allocated and allocated blocks freed in
any order. The counter, the bitmap and the blocks handed out agree in every state reached: an
allocation fails exactly when `max_fs_blocks` blocks are allocated, and the freemap on disk is the
one in memory.
-/
namespace Ece344Lab.Fs

open Ece344Lab.Library

variable {s s' : SuperBlock} {A : Finset ℤ} {max : ℕ}

/-- A call of the allocator with its result or argument. -/
inductive AllocCall
  | alloc (ret : ℤ)
  | free (blockNr : ℤ)

/-- The super block that `testfs_init_super_block` makes of the device of mktestfs, with at least
as many bits in the block freemap as blocks allowed. -/
def Made (s : SuperBlock) : Prop :=
  ∃ maxFsBlocks < 2 ^ 64, testfsInitSuperBlock (testfsMakeDev maxFsBlocks) = .ok s ∧
    maxFsBlocks ≤ s.blockFreemap.nbits

/-- Runs of the allocator. The second component holds the blocks that are allocated: those that
`testfs_alloc_block` returned and that were not freed since. -/
def blockAllocator : System (SuperBlock × Finset ℤ) AllocCall where
  start c := Made c.1 ∧ c.2 = ∅
  step c call c' :=
    (∃ ret out, call = .alloc ret ∧ testfsAllocBlock.run c.1 = .ok ⟨ret, c'.1, out⟩ ∧
      c'.2 = if ret < 0 then c.2 else insert ret c.2) ∨
    ∃ blockNr out, call = .free blockNr ∧ blockNr ∈ c.2 ∧
      (testfsFreeBlock blockNr).run c.1 = .ok ⟨(), c'.1, out⟩ ∧ c'.2 = c.2.erase blockNr

/-- What holds in every state reached: the blocks allocated are those whose bit is set, as many as
the counter says, and the disk has what memory has. -/
structure Accounted (s : SuperBlock) (A : Finset ℤ) : Prop where
  layout : Layout s
  mirror : Mirror s
  inUse : s.inUse = A
  count : s.sb.usedBlockCount = (setBits s.blockFreemap).card
  fits : s.sb.maxFsBlocks ≤ 1048576
  bound : A.card ≤ s.sb.maxFsBlocks

theorem Accounted.card (h : Accounted s A) : s.sb.usedBlockCount = A.card := by
  rw [h.count, ← SuperBlock.card_inUse, h.inUse]

/-- A block that is allocated has an index in the freemap. -/
theorem Accounted.index (h : Accounted s A) {p : ℤ} (hp : p ∈ A) :
    ∃ k : ℕ, k < 1048576 ∧ s.blockFreemap.isset k = true ∧ p = 146 + k :=
  (SuperBlock.mem_inUse h.layout p).1 (h.inUse ▸ hp)

/-- With fewer blocks than allowed the freemap has a clear bit. -/
theorem Accounted.clear (h : Accounted s A) (hlt : A.card < s.sb.maxFsBlocks) :
    ∃ k, k < 1048576 ∧ s.blockFreemap.isset k = false := by
  have hbits := h.layout.blockBits
  have hcard : (setBits s.blockFreemap).card < s.blockFreemap.nbits := by
    rw [← h.count, h.card, hbits]
    exact hlt.trans_le h.fits
  obtain ⟨k, hk, hclear⟩ := exists_clear hcard
  exact ⟨k, hbits ▸ hk, hclear⟩

/-- Setting the bit of a block that is not allocated. -/
theorem Accounted.take (h : Accounted s A) (hlt : A.card < s.sb.maxFsBlocks) {k : ℕ}
    (hk : k < 1048576) (hclear : s.blockFreemap.isset k = false) :
    Accounted (s.takeBlock k) (insert (146 + k : ℤ) A) where
  layout := (takeBlock_frame h.layout hk).layout h.layout
  mirror := (takeBlock_frame h.layout hk).mirror h.layout h.mirror
  inUse := by rw [takeBlock_inUse h.layout hk, h.inUse]
  count := by
    have hnew : k ∉ setBits s.blockFreemap := by simp [mem_setBits, hclear]
    rw [takeBlock_sb, takeBlock_blockFreemap, setBits_setBit (by rwa [h.layout.blockBits]),
      Finset.card_insert_of_notMem hnew, ← h.count]
  fits := h.fits
  bound := (Finset.card_insert_le _ _).trans hlt

/-- Clearing the bit of an allocated block. -/
theorem Accounted.release (h : Accounted s A) {k : ℕ} (hk : k < 1048576)
    (hset : s.blockFreemap.isset k = true) :
    Accounted (s.releaseBlock k) (A.erase (146 + k : ℤ)) where
  layout := (releaseBlock_frame h.layout hk).layout h.layout
  mirror := (releaseBlock_frame h.layout hk).mirror h.layout h.mirror
  inUse := by rw [releaseBlock_inUse h.layout, h.inUse]
  count := by
    have hmem : k ∈ setBits s.blockFreemap :=
      (mem_setBits _ _).2 ⟨by rwa [h.layout.blockBits], hset⟩
    rw [releaseBlock_sb, releaseBlock_blockFreemap, setBits_clearBit,
      Finset.card_erase_of_mem hmem, ← h.count]
  fits := h.fits
  bound := Finset.card_erase_le.trans h.bound

/-- `testfs_alloc_block`: with `max_fs_blocks` blocks allocated nothing changes. -/
theorem Accounted.alloc_full (h : Accounted s A) (hfull : s.sb.maxFsBlocks ≤ A.card) :
    testfsAllocBlock.run s = .ok ⟨-ENOSPC, s, [.allocBlockFailed]⟩ :=
  testfsAllocBlock_full h.layout (.inl (h.card ▸ hfull))

/-- `testfs_alloc_block`: with fewer, a block that was not allocated is. -/
theorem Accounted.alloc (h : Accounted s A) (hlt : A.card < s.sb.maxFsBlocks) :
    ∃ k : ℕ, testfsAllocBlock.run s = .ok ⟨146 + k, s.takeBlock k, []⟩ ∧
      (146 + k : ℤ) ∉ A ∧ Accounted (s.takeBlock k) (insert (146 + k : ℤ) A) := by
  obtain ⟨k, hk, hclear, hrun⟩ := testfsAllocBlock_take h.layout (h.card ▸ hlt) (h.clear hlt)
  exact ⟨k, hrun, h.inUse ▸ notMem_inUse h.layout hclear, h.take hlt hk hclear⟩

/-- `testfs_free_block` of an allocated block. -/
theorem Accounted.free (h : Accounted s A) {p : ℤ} (hp : p ∈ A) :
    ∃ k : ℕ, k < 1048576 ∧ p = 146 + k ∧
      (testfsFreeBlock p).run s = .ok ⟨(), s.releaseBlock k, []⟩ ∧
      Accounted (s.releaseBlock k) (A.erase p) := by
  obtain ⟨k, hk, hset, rfl⟩ := h.index hp
  have hused : 0 < s.sb.usedBlockCount := by
    rw [h.card]
    exact Finset.card_pos.2 ⟨_, hp⟩
  exact ⟨k, hk, rfl, testfsFreeBlock_release h.layout hk hset hused, h.release hk hset⟩

theorem writeMany_zero {d : Dev} {m start nr : Nat} (h : d.blocks m = Block.zero) :
    (d.zeroMany start nr).blocks m = Block.zero := by
  rw [Dev.zeroMany]
  induction nr with
  | zero => exact h
  | succ nr ih =>
    rw [Dev.writeMany, Dev.write_blocks]
    split
    · rfl
    · exact ih

/-- Behind the super block a new device is zero. -/
theorem testfsMakeDev_blocks (maxFsBlocks : Nat) {m : Nat} (hm : m ≠ 0) :
    (testfsMakeDev maxFsBlocks).blocks m = Block.zero := by
  have hempty : (emptyDev.write 0 (newDsuperBlock maxFsBlocks).encode).blocks m = Block.zero :=
    Dev.write_blocks_ne _ _ hm
  rw [testfsMakeDev, Dev.write_blocks_ne _ _ hm]
  exact writeMany_zero (writeMany_zero (writeMany_zero hempty))

theorem testfsMakeDev_super (maxFsBlocks : Nat) :
    (testfsMakeDev maxFsBlocks).blocks 0 = (newDsuperBlock maxFsBlocks).encode :=
  Dev.write_blocks_same ..

theorem testfsMakeDev_size (maxFsBlocks : Nat) : 146 ≤ (testfsMakeDev maxFsBlocks).size :=
  (newSuperBlock_layout maxFsBlocks).devSize

/-- A field of the super block comes back from the disk. -/
theorem decode_word (d : DsuperBlock) {j : Nat} (hj : j < 6) (hd : d.word j < 2 ^ 32) :
    leVal (fun k => d.encode.get (4 * j + k)) 4 = d.word j := by
  have hbytes : ∀ k, k < 4 → d.encode.get (4 * j + k) = leByte (d.word j) k := by
    intro k hk
    have hq : (4 * j + k) / 4 = j := by omega
    have hr : (4 * j + k) % 4 = k := by omega
    rw [DsuperBlock.encode, Block.get_ofFn_lt (by omega), if_pos (by omega), hq, hr]
  rw [leVal_congr hbytes, leVal_leByte]
  exact Nat.mod_eq_of_lt (by norm_num at hd ⊢; exact hd)

theorem decode_maxFsBlocks (d : DsuperBlock) (hd : d.maxFsBlocks < 2 ^ 64) :
    leVal (fun k => d.encode.get (24 + k)) 8 = d.maxFsBlocks := by
  have hbytes : ∀ k, k < 8 → d.encode.get (24 + k) = leByte d.maxFsBlocks k := by
    intro k hk
    have hr : 24 + k - 24 = k := by omega
    rw [DsuperBlock.encode, Block.get_ofFn_lt (by omega), if_neg (by omega), if_pos (by omega), hr]
  rw [leVal_congr hbytes, leVal_leByte]
  exact Nat.mod_eq_of_lt (by norm_num at hd ⊢; exact hd)

theorem decode_newDsuperBlock {maxFsBlocks : Nat} (h : maxFsBlocks < 2 ^ 64) :
    DsuperBlock.decode (newDsuperBlock maxFsBlocks).encode = newDsuperBlock maxFsBlocks := by
  have hword : ∀ j, j < 6 → leVal (fun k => (newDsuperBlock maxFsBlocks).encode.get (4 * j + k)) 4 =
      (newDsuperBlock maxFsBlocks).word j := fun j hj => by
    refine decode_word _ hj ?_
    interval_cases j <;> norm_num [newDsuperBlock, DsuperBlock.word]
  rw [DsuperBlock.decode]
  simp only [hword 0 (by decide), hword 1 (by decide), hword 2 (by decide), hword 3 (by decide),
    hword 4 (by decide), hword 5 (by decide), decode_maxFsBlocks (newDsuperBlock maxFsBlocks) h]
  rfl

/-- An empty bitmap comes back from blocks of zeros. -/
theorem readFreemap_zero {d : Dev} {n start nr : Nat} (hn : n % 8 = 0)
    (hsize : start + nr ≤ d.size) (hzero : ∀ k, d.blocks (start + k) = Block.zero) :
    readFreemap d (bitmapCreate n) start nr = .ok (bitmapCreate n) := by
  have hread : d.readMany start nr = .ok fun k => d.blocks (start + k) := if_pos hsize
  have hv : ∀ i, (if i < nr * blockSize then (d.blocks (start + i / blockSize)).get (i % blockSize)
      else 0) = 0 := by
    intro i
    rw [hzero, Block.get_zero, ite_self]
  rw [readFreemap, hread, bitmapCreate_aligned hn]
  simp only [hv, bind, Except.bind, pure, Except.pure]

theorem testfsInitSuperBlock_new {maxFsBlocks : Nat} (h : maxFsBlocks < 2 ^ 64) :
    testfsInitSuperBlock (testfsMakeDev maxFsBlocks) = .ok (newSuperBlock maxFsBlocks) := by
  have hsize := testfsMakeDev_size maxFsBlocks
  have hread : (testfsMakeDev maxFsBlocks).read 0 = .ok (newDsuperBlock maxFsBlocks).encode := by
    rw [← testfsMakeDev_super]
    exact Dev.read_ok (n := 0) (by omega)
  have hinode : readFreemap (testfsMakeDev maxFsBlocks) (bitmapCreate 65536) 1 1 =
      .ok (bitmapCreate 65536) :=
    readFreemap_zero (by norm_num) (by omega) fun k => testfsMakeDev_blocks _ (by omega)
  have hblock : readFreemap (testfsMakeDev maxFsBlocks) (bitmapCreate 1048576) 2 16 =
      .ok (bitmapCreate 1048576) :=
    readFreemap_zero (by norm_num) (by omega) fun k => testfsMakeDev_blocks _ (by omega)
  rw [testfsInitSuperBlock, hread]
  simp only [bind, Except.bind, decode_newDsuperBlock h]
  rw [show (newDsuperBlock maxFsBlocks).inodeFreemapStart = 1 from rfl,
    show (newDsuperBlock maxFsBlocks).blockFreemapStart = 2 from rfl,
    show blockSize * inodeFreemapSize * bitsPerWord = 65536 by norm_num,
    show blockSize * blockFreemapSize * bitsPerWord = 1048576 by norm_num, hinode, hblock]
  rfl

theorem bitmapGetdata_empty {n : Nat} (hn : n % 8 = 0) (k : Nat) :
    bitmapGetdata (bitmapCreate n) k = Block.zero := by
  rw [bitmapGetdata, bitmapCreate_aligned hn]
  rfl

theorem newSuperBlock_mirror (maxFsBlocks : Nat) : Mirror (newSuperBlock maxFsBlocks) where
  super := testfsMakeDev_super maxFsBlocks
  inodeMap := by
    rw [show (newSuperBlock maxFsBlocks).inodeFreemap = bitmapCreate 65536 from rfl,
      bitmapGetdata_empty (by norm_num)]
    exact testfsMakeDev_blocks _ (by omega)
  blockMap k _ := by
    rw [show (newSuperBlock maxFsBlocks).blockFreemap = bitmapCreate 1048576 from rfl,
      bitmapGetdata_empty (by norm_num)]
    exact testfsMakeDev_blocks _ (by omega)

theorem newSuperBlock_accounted {maxFsBlocks : Nat} (h : maxFsBlocks ≤ 1048576) :
    Accounted (newSuperBlock maxFsBlocks) ∅ where
  layout := newSuperBlock_layout maxFsBlocks
  mirror := newSuperBlock_mirror maxFsBlocks
  inUse := newSuperBlock_inUse maxFsBlocks
  count := by
    rw [← SuperBlock.card_inUse, newSuperBlock_inUse, Finset.card_empty]
    rfl
  fits := h
  bound := Nat.zero_le _

theorem Made.accounted (h : Made s) : Accounted s ∅ := by
  obtain ⟨maxFsBlocks, hmax, hinit, hbits⟩ := h
  rw [testfsInitSuperBlock_new hmax] at hinit
  obtain rfl : newSuperBlock maxFsBlocks = s := Except.ok.inj hinit
  rw [(newSuperBlock_layout maxFsBlocks).blockBits] at hbits
  exact newSuperBlock_accounted hbits

/-- In every state reached the blocks allocated are accounted for. -/
theorem blockAllocator_accounted {calls : List AllocCall} (run : blockAllocator.Run calls (s, A)) :
    Accounted s A := by
  refine run.invariant_state (I := fun c => Accounted c.1 c.2) ?_ ?_
  · rintro ⟨s, A⟩ ⟨hmade, rfl⟩
    exact hmade.accounted
  · rintro ⟨s, A⟩ call ⟨s', A'⟩ h (⟨ret, out, -, hrun, hA⟩ | ⟨p, out, -, hp, hrun, hA⟩)
    · rcases Nat.lt_or_ge A.card s.sb.maxFsBlocks with hlt | hge
      · obtain ⟨k, heq, -, htake⟩ := h.alloc hlt
        rw [heq] at hrun
        cases hrun
        rw [if_neg (by omega)] at hA
        exact hA ▸ htake
      · rw [h.alloc_full hge] at hrun
        cases hrun
        rw [if_pos (by decide)] at hA
        exact hA ▸ h
    · obtain ⟨k, -, -, heq, hrelease⟩ := h.free hp
      rw [heq] at hrun
      cases hrun
      exact hA ▸ hrelease

/-- The contract of the allocator, in every state reached: the counter is the number of set bits
and of blocks allocated, the freemap on disk is the one in memory; an allocation returns a data
block that is not allocated, or `-ENOSPC` exactly when `max_fs_blocks` blocks are allocated; freeing
an allocated block makes just this block available again and clears it. -/
theorem allocator_contract {calls : List AllocCall} (run : blockAllocator.Run calls (s, A)) :
    s.sb.usedBlockCount = (setBits s.blockFreemap).card ∧ s.sb.usedBlockCount = A.card ∧
    s.inUse = A ∧
    (∀ k, k < 16 → s.dev.blocks (s.sb.blockFreemapStart + k) = bitmapGetdata s.blockFreemap k) ∧
    (∃ ret s' out, testfsAllocBlock.run s = .ok ⟨ret, s', out⟩ ∧
      (ret = -ENOSPC ↔ A.card = s.sb.maxFsBlocks) ∧
      (ret = -ENOSPC → s' = s) ∧
      (ret ≠ -ENOSPC → (s.sb.dataBlocksStart : ℤ) ≤ ret ∧ ret ∉ A ∧ s'.inUse = insert ret A)) ∧
    ∀ p ∈ A, ∃ s' out, (testfsFreeBlock p).run s = .ok ⟨(), s', out⟩ ∧ s'.inUse = A.erase p ∧
      s'.dev.blocks p.toNat = Block.zero ∧
      ∀ n, s.sb.dataBlocksStart ≤ n → n ≠ p.toNat → s'.dev.blocks n = s.dev.blocks n := by
  have h := blockAllocator_accounted run
  refine ⟨h.count, h.card, h.inUse, ?_, ?_, fun p hp => ?_⟩
  · rw [h.layout.blockFreemapStart]
    exact h.mirror.blockMap
  · rcases h.bound.lt_or_eq with hlt | hfull
    · obtain ⟨k, heq, hnew, htake⟩ := h.alloc hlt
      have hne : (146 + k : ℤ) ≠ -ENOSPC := by
        simp only [ENOSPC]
        omega
      refine ⟨_, _, _, heq, iff_of_false hne hlt.ne, fun h => absurd h hne, fun _ => ⟨?_, hnew, ?_⟩⟩
      · rw [h.layout.dataBlocksStart]
        omega
      · exact htake.inUse
    · exact ⟨_, _, _, h.alloc_full hfull.ge, iff_of_true rfl hfull, fun _ => rfl,
        fun h => absurd rfl h⟩
  · obtain ⟨k, hk, rfl, heq, hrelease⟩ := h.free hp
    have hnat : (146 + k : ℤ).toNat = 146 + k := by omega
    rw [hnat, h.layout.dataBlocksStart]
    refine ⟨_, _, heq, hrelease.inUse, ?_, fun n hn hne => ?_⟩
    · rw [releaseBlock_blocks h.layout hk (by omega), if_pos rfl]
    · rw [releaseBlock_blocks h.layout hk (by omega), if_neg hne]

/-- On a new file system of two blocks both are allocated, one is freed and another one allocated in
its place. There are no more then. -/
theorem allocator_contract_full : ∃ (calls : List AllocCall) (s : SuperBlock) (A : Finset ℤ),
    calls.length = 4 ∧ blockAllocator.Run calls (s, A) ∧ A.card = 2 ∧ s.inUse = A ∧
      (∃ out, testfsAllocBlock.run s = .ok ⟨-ENOSPC, s, out⟩) ∧
      ∀ p ∈ A, ∃ s' out, (testfsFreeBlock p).run s = .ok ⟨(), s', out⟩ ∧ s'.inUse = A.erase p := by
  have made : Made (newSuperBlock 2) :=
    ⟨2, by norm_num, testfsInitSuperBlock_new (by norm_num),
      by rw [(newSuperBlock_layout 2).blockBits]; norm_num⟩
  have step : ∀ {calls : List AllocCall} {s : SuperBlock} {A : Finset ℤ},
      blockAllocator.Run calls (s, A) → s.sb.maxFsBlocks = 2 → A.card < 2 →
      ∃ s' p, blockAllocator.Run (calls ++ [.alloc p]) (s', insert p A) ∧ s'.sb.maxFsBlocks = 2 ∧
        p ∉ A := by
    intro calls s A run hmax hlt
    obtain ⟨k, hrun, hnew, -⟩ := (blockAllocator_accounted run).alloc (hmax ▸ hlt)
    exact ⟨_, _, run.next (.inl ⟨_, _, rfl, hrun, by rw [if_neg (by omega)]⟩), hmax, hnew⟩
  have start : blockAllocator.Run [] (newSuperBlock 2, ∅) := .start ⟨made, rfl⟩
  obtain ⟨s₁, p, run₁, hmax₁, -⟩ := step start rfl (by simp)
  obtain ⟨s₂, q, run₂, hmax₂, hq⟩ := step run₁ hmax₁ (by simp)
  obtain ⟨k, -, -, hfree, -⟩ := (blockAllocator_accounted run₂).free (Finset.mem_insert_self q _)
  have step₃ : blockAllocator.step (s₂, insert q (insert p ∅)) (.free q)
      (s₂.releaseBlock k, insert p ∅) :=
    .inr ⟨q, _, rfl, Finset.mem_insert_self q _, hfree, (Finset.erase_insert hq).symm⟩
  obtain ⟨s₄, r, run₄, hmax₄, hr⟩ := step (run₂.next step₃) hmax₂ (by simp)
  have hcard : (insert r (insert p ∅) : Finset ℤ).card = 2 := by
    rw [Finset.card_insert_of_notMem hr]
    rfl
  obtain ⟨-, -, hinUse, -, ⟨ret, s', out, halloc, hiff, hsame, -⟩, hfrees⟩ :=
    allocator_contract run₄
  obtain rfl : ret = -ENOSPC := hiff.mpr (hcard.trans hmax₄.symm)
  rw [hsame rfl] at halloc
  refine ⟨_, s₄, _, rfl, run₄, hcard, hinUse, ⟨out, halloc⟩, fun x hx => ?_⟩
  obtain ⟨s', out, hrun, herase, -⟩ := hfrees x hx
  exact ⟨s', out, hrun, herase⟩

end Ece344Lab.Fs
