import Mathlib.Data.Finset.Card
import Mathlib.Data.Finset.Image
import Ece344Lab.Fs.Super

/-!
# The block allocator

What `testfs_alloc_block` and `testfs_free_block` do to a super block laid out as
`testfs_make_super_block` lays it out. `inUse` is the set of physical blocks whose
freemap bit is set, `free` the number of blocks that can still be allocated.
-/
namespace Ece344Lab.Fs

open Ece344Lab.Library

/-- The fixed numbers of a file system: where its regions start and how many bits the
freemaps have. No operation changes them. -/
structure Layout (s : SuperBlock) : Prop where
  inodeFreemapStart : s.sb.inodeFreemapStart = 1
  blockFreemapStart : s.sb.blockFreemapStart = 2
  inodeBlocksStart : s.sb.inodeBlocksStart = 18
  dataBlocksStart : s.sb.dataBlocksStart = 146
  inodeBits : s.inodeFreemap.nbits = 65536
  inodeRest : ∀ i, 65536 ≤ i → s.inodeFreemap.isset i = false
  blockBits : s.blockFreemap.nbits = 1048576
  blockRest : ∀ i, 1048576 ≤ i → s.blockFreemap.isset i = false
  devSize : 146 ≤ s.dev.size

/-- The super block and both freemaps on disk are the ones in memory. -/
structure Mirror (s : SuperBlock) : Prop where
  super : s.dev.blocks 0 = s.sb.encode
  inodeMap : s.dev.blocks 1 = bitmapGetdata s.inodeFreemap 0
  blockMap : ∀ k, k < 16 → s.dev.blocks (2 + k) = bitmapGetdata s.blockFreemap k

/-- What no operation on data blocks changes: everything but the data blocks, the block
freemap and its count. -/
structure DataFrame (s s' : SuperBlock) : Prop where
  sb : s'.sb = { s.sb with usedBlockCount := s'.sb.usedBlockCount }
  inodeFreemap : s'.inodeFreemap = s.inodeFreemap
  inodeBlocks : ∀ n, 18 ≤ n → n < 146 → s'.dev.blocks n = s.dev.blocks n
  size : s.dev.size ≤ s'.dev.size
  layout : Layout s → Layout s'
  mirror : Layout s → Mirror s → Mirror s'

namespace DataFrame

theorem refl (s : SuperBlock) : DataFrame s s :=
  ⟨rfl, rfl, fun _ _ _ => rfl, le_refl _, id, fun _ => id⟩

theorem trans {s₁ s₂ s₃ : SuperBlock} (h : DataFrame s₁ s₂) (h' : DataFrame s₂ s₃) :
    DataFrame s₁ s₃ where
  sb := by rw [h'.sb, h.sb]
  inodeFreemap := h'.inodeFreemap.trans h.inodeFreemap
  inodeBlocks n hlo hhi := (h'.inodeBlocks n hlo hhi).trans (h.inodeBlocks n hlo hhi)
  size := h.size.trans h'.size
  layout hl := h'.layout (h.layout hl)
  mirror hl hm := h'.mirror (h.layout hl) (h.mirror hl hm)

theorem maxFsBlocks {s s' : SuperBlock} (h : DataFrame s s') :
    s'.sb.maxFsBlocks = s.sb.maxFsBlocks := by rw [h.sb]

theorem usedInodeCount {s s' : SuperBlock} (h : DataFrame s s') :
    s'.sb.usedInodeCount = s.sb.usedInodeCount := by rw [h.sb]

end DataFrame

theorem padding_of_aligned {b : Bitmap} (h : b.nbits % 8 = 0) : b.PaddingSet := by
  intro i hi hlt
  simp only [Bitmap.words, bitsPerWord] at hlt
  omega

/-- The indices of the set bits of a bitmap. -/
def setBits (b : Bitmap) : Finset ℕ := (Finset.range b.nbits).filter fun k => b.isset k = true

/-- The physical blocks whose bit is set in the block freemap. -/
def SuperBlock.inUse (s : SuperBlock) : Finset ℤ :=
  (setBits s.blockFreemap).image fun k : ℕ => (s.sb.dataBlocksStart : ℤ) + (k : ℤ)

/-- The number of blocks that `testfs_alloc_block` can still hand out. -/
def SuperBlock.free (s : SuperBlock) : Nat :=
  min s.sb.maxFsBlocks s.blockFreemap.nbits - s.sb.usedBlockCount

theorem mem_setBits (b : Bitmap) (k : Nat) : k ∈ setBits b ↔ k < b.nbits ∧ b.isset k = true := by
  simp [setBits]

theorem setBits_setBit {b : Bitmap} {k : Nat} (hk : k < b.nbits) :
    setBits (b.setBit k) = insert k (setBits b) := by
  ext j
  simp only [mem_setBits, Finset.mem_insert, Bitmap.isset_setBit, Bitmap.setBit_nbits,
    Bool.or_eq_true, decide_eq_true_eq]
  constructor
  · rintro ⟨hj, hs | rfl⟩
    · exact Or.inr ⟨hj, hs⟩
    · exact Or.inl rfl
  · rintro (rfl | ⟨hj, hs⟩)
    · exact ⟨hk, Or.inr rfl⟩
    · exact ⟨hj, Or.inl hs⟩

theorem setBits_clearBit (b : Bitmap) (k : Nat) :
    setBits (b.clearBit k) = (setBits b).erase k := by
  ext j
  simp only [mem_setBits, Finset.mem_erase, Bitmap.isset_clearBit, Bitmap.clearBit_nbits,
    Bool.and_eq_true, Bool.not_eq_true', decide_eq_false_iff_not]
  tauto

theorem SuperBlock.mem_inUse {s : SuperBlock} (hl : Layout s) (p : ℤ) :
    p ∈ s.inUse ↔ ∃ k : ℕ, k < 1048576 ∧ s.blockFreemap.isset k = true ∧ p = 146 + k := by
  simp only [SuperBlock.inUse, Finset.mem_image, mem_setBits, hl.blockBits, hl.dataBlocksStart]
  constructor
  · rintro ⟨k, ⟨hk, hs⟩, rfl⟩
    exact ⟨k, hk, hs, rfl⟩
  · rintro ⟨k, hk, hs, rfl⟩
    exact ⟨k, ⟨hk, hs⟩, rfl⟩

theorem SuperBlock.inUse_range {s : SuperBlock} (hl : Layout s) {p : ℤ} (hp : p ∈ s.inUse) :
    146 ≤ p ∧ p < 146 + 1048576 := by
  obtain ⟨k, hk, -, rfl⟩ := (SuperBlock.mem_inUse hl p).mp hp
  omega

theorem SuperBlock.card_inUse (s : SuperBlock) : s.inUse.card = (setBits s.blockFreemap).card := by
  apply Finset.card_image_of_injective
  intro a b hab
  simpa using hab

/-- The block freemap has a clear bit as long as fewer bits are set than it has. -/
theorem exists_clear {b : Bitmap} (h : (setBits b).card < b.nbits) :
    ∃ k, k < b.nbits ∧ b.isset k = false := by
  by_contra hno
  push Not at hno
  have hall : setBits b = Finset.range b.nbits := by
    ext k
    simp only [mem_setBits, Finset.mem_range, and_iff_left_iff_imp]
    intro hk
    simpa using hno k hk
  rw [hall, Finset.card_range] at h
  exact lt_irrefl _ h

/-- The super block after the block with index `k` has been allocated. -/
def SuperBlock.takeBlock (s : SuperBlock) (k : Nat) : SuperBlock :=
  let s := testfsWriteBlockFreemap { s with blockFreemap := s.blockFreemap.setBit k } k
  testfsWriteSuperBlock { s with sb.usedBlockCount := s.sb.usedBlockCount + 1 }

/-- The super block after the block with index `k` has been freed. -/
def SuperBlock.releaseBlock (s : SuperBlock) (k : Nat) : SuperBlock :=
  let s := { s with dev := s.dev.write (s.sb.dataBlocksStart + k) Block.zero }
  let s := testfsWriteBlockFreemap { s with blockFreemap := s.blockFreemap.clearBit k } k
  testfsWriteSuperBlock { s with sb.usedBlockCount := s.sb.usedBlockCount - 1 }

theorem testfsAllocBlock_full {s : SuperBlock} (hl : Layout s)
    (h : s.sb.maxFsBlocks ≤ s.sb.usedBlockCount ∨ ∀ k, k < 1048576 → s.blockFreemap.isset k = true) :
    testfsAllocBlock.run s = .ok ⟨-ENOSPC, s, [.allocBlockFailed]⟩ := by
  rw [testfsAllocBlock, Program.get_bind]
  by_cases hmax : s.sb.usedBlockCount ≥ s.sb.maxFsBlocks
  · rw [if_pos hmax]
    rfl
  · obtain ⟨r, hr, hres⟩ := bitmapAlloc_result (padding_of_aligned (b := s.blockFreemap)
      (by rw [hl.blockBits]))
    have hset := h.resolve_left hmax
    cases hres with
    | found k lt clear _ =>
      rw [hset k (by rwa [hl.blockBits] at lt)] at clear
      cases clear
    | full _ =>
      have hget : testfsGetBlockFreemap.run s = .ok ⟨-ENOSPC, s, []⟩ := by
        simp only [testfsGetBlockFreemap, Program.reads_bind, hr]
        rfl
      rw [if_neg hmax, Program.bind_run_nil hget, if_pos (by decide)]
      rfl

theorem testfsAllocBlock_take {s : SuperBlock} (hl : Layout s)
    (hmax : s.sb.usedBlockCount < s.sb.maxFsBlocks)
    (hclear : ∃ k, k < 1048576 ∧ s.blockFreemap.isset k = false) :
    ∃ k : ℕ, k < 1048576 ∧ s.blockFreemap.isset k = false ∧
      testfsAllocBlock.run s = .ok ⟨146 + k, s.takeBlock k, []⟩ := by
  obtain ⟨r, hr, hres⟩ := bitmapAlloc_result (padding_of_aligned (b := s.blockFreemap)
    (by rw [hl.blockBits]))
  cases hres with
  | full hset =>
    obtain ⟨k, hk, hc⟩ := hclear
    rw [hset k (by rwa [hl.blockBits])] at hc
    cases hc
  | found k lt clear _ =>
    refine ⟨k, by rwa [hl.blockBits] at lt, clear, ?_⟩
    have hget : testfsGetBlockFreemap.run s = .ok ⟨(k : ℤ), testfsWriteBlockFreemap
        { s with blockFreemap := s.blockFreemap.setBit k } k, []⟩ := by
      simp only [testfsGetBlockFreemap, Program.reads_bind, hr]
      rfl
    rw [testfsAllocBlock, Program.get_bind, if_neg (by omega), Program.bind_run_nil hget,
      if_neg (by omega), Program.modify_bind, Program.pure_run, hl.dataBlocksStart]
    rfl

theorem testfsFreeBlock_run {s : SuperBlock} (hl : Layout s) (k : ℕ) :
    (testfsFreeBlock (146 + k)).run s =
      (testfsPutBlockFreemap k >>= fun _ =>
        Program.reads (fun s => assertC .freeBlockUsedCount (0 < s.sb.usedBlockCount)) >>= fun _ =>
        Program.modify fun s =>
          testfsWriteSuperBlock { s with sb.usedBlockCount := s.sb.usedBlockCount - 1 }).run
        { s with dev := s.dev.write (s.sb.dataBlocksStart + k) Block.zero } := by
  have hstart := hl.dataBlocksStart
  have hneg : ¬ (146 + (k : ℤ)) < 0 := by omega
  have hnonneg : 0 ≤ 146 + (k : ℤ) - (s.sb.dataBlocksStart : ℤ) := by omega
  have hsub : ((146 + k : ℤ) - s.sb.dataBlocksStart).toNat = k := by omega
  have hnat : ((146 + k : ℤ)).toNat = s.sb.dataBlocksStart + k := by omega
  simp only [testfsFreeBlock, Program.reads_bind, Program.modify_bind, Program.get_bind,
    assertC_pos hnonneg, if_neg hneg, hsub, hnat, Program.except_ok_bind]
  rfl

theorem testfsFreeBlock_release {s : SuperBlock} (hl : Layout s) {k : ℕ} (hk : k < 1048576)
    (hset : s.blockFreemap.isset k = true) (hused : 0 < s.sb.usedBlockCount) :
    (testfsFreeBlock (146 + k)).run s = .ok ⟨(), s.releaseBlock k, []⟩ := by
  have hunmark := bitmapUnmark_ok (by rwa [hl.blockBits]) hset
  have hput : (testfsPutBlockFreemap k).run
      { s with dev := s.dev.write (s.sb.dataBlocksStart + k) Block.zero } =
      .ok ⟨(), testfsWriteBlockFreemap { s with
        dev := s.dev.write (s.sb.dataBlocksStart + k) Block.zero
        blockFreemap := s.blockFreemap.clearBit k } k, []⟩ := by
    simp only [testfsPutBlockFreemap, Program.reads_bind, hunmark]
    rfl
  rw [testfsFreeBlock_run hl, Program.bind_run_nil hput]
  simp only [Program.reads_bind, testfsWriteBlockFreemap, assertC_pos hused, Program.except_ok_bind]
  rfl

/-- Freeing a block whose bit is clear fails an assertion. -/
theorem testfsFreeBlock_unmarked {s : SuperBlock} (hl : Layout s) {k : ℕ} (hk : k < 1048576)
    (hset : s.blockFreemap.isset k = false) :
    (testfsFreeBlock (146 + k)).run s = .error (.assertion .bitmapUnmarkSet) := by
  have hunmark : bitmapUnmark s.blockFreemap k = .error (.assertion .bitmapUnmarkSet) := by
    simp [bitmapUnmark, assertC, hl.blockBits, hk, Bitmap.bitmapIsset_eq, hset, bind, Except.bind]
  rw [testfsFreeBlock_run hl]
  apply Program.bind_run_error
  rw [testfsPutBlockFreemap, Program.reads_bind, hunmark, Program.except_error_bind]

section Effects

variable {s : SuperBlock} {k : ℕ}

@[simp] theorem takeBlock_blockFreemap :
    (s.takeBlock k).blockFreemap = s.blockFreemap.setBit k := rfl

@[simp] theorem takeBlock_sb :
    (s.takeBlock k).sb = { s.sb with usedBlockCount := s.sb.usedBlockCount + 1 } := rfl

@[simp] theorem releaseBlock_blockFreemap :
    (s.releaseBlock k).blockFreemap = s.blockFreemap.clearBit k := rfl

@[simp] theorem releaseBlock_sb :
    (s.releaseBlock k).sb = { s.sb with usedBlockCount := s.sb.usedBlockCount - 1 } := rfl

/-- Allocation writes block 0 and one block of the freemap. -/
theorem takeBlock_blocks (hl : Layout s) (hk : k < 1048576) {n : Nat} (hn : 18 ≤ n) :
    (s.takeBlock k).dev.blocks n = s.dev.blocks n := by
  simp only [SuperBlock.takeBlock, testfsWriteBlockFreemap, testfsWriteSuperBlock, blockSize,
    bitsPerWord, hl.blockFreemapStart]
  rw [Dev.write_blocks_ne _ _ (by omega), Dev.write_blocks_ne _ _ (by omega)]

theorem takeBlock_size (hl : Layout s) (hk : k < 1048576) :
    (s.takeBlock k).dev.size = s.dev.size := by
  have hsize := hl.devSize
  simp only [SuperBlock.takeBlock, testfsWriteBlockFreemap, testfsWriteSuperBlock, blockSize,
    bitsPerWord, hl.blockFreemapStart, Dev.write_size]
  omega

/-- Freeing also clears the block itself. -/
theorem releaseBlock_blocks (hl : Layout s) (hk : k < 1048576) {n : Nat} (hn : 18 ≤ n) :
    (s.releaseBlock k).dev.blocks n = if n = 146 + k then Block.zero else s.dev.blocks n := by
  simp only [SuperBlock.releaseBlock, testfsWriteBlockFreemap, testfsWriteSuperBlock, blockSize,
    bitsPerWord, hl.blockFreemapStart, hl.dataBlocksStart]
  rw [Dev.write_blocks_ne _ _ (by omega), Dev.write_blocks_ne _ _ (by omega), Dev.write_blocks]

theorem releaseBlock_size (hl : Layout s) (hk : k < 1048576) :
    (s.releaseBlock k).dev.size = max s.dev.size (146 + k + 1) := by
  have hsize := hl.devSize
  simp only [SuperBlock.releaseBlock, testfsWriteBlockFreemap, testfsWriteSuperBlock, blockSize,
    bitsPerWord, hl.blockFreemapStart, hl.dataBlocksStart, Dev.write_size]
  omega

theorem takeBlock_inUse (hl : Layout s) (hk : k < 1048576) :
    (s.takeBlock k).inUse = insert (146 + k : ℤ) s.inUse := by
  rw [SuperBlock.inUse, SuperBlock.inUse, takeBlock_blockFreemap,
    setBits_setBit (by rwa [hl.blockBits]), Finset.image_insert, takeBlock_sb, hl.dataBlocksStart]
  rfl

theorem releaseBlock_inUse (hl : Layout s) :
    (s.releaseBlock k).inUse = s.inUse.erase (146 + k : ℤ) := by
  rw [SuperBlock.inUse, SuperBlock.inUse, releaseBlock_blockFreemap, setBits_clearBit,
    releaseBlock_sb, hl.dataBlocksStart, Finset.image_erase fun a b hab => by simpa using hab]
  rfl

theorem notMem_inUse (hl : Layout s) (hclear : s.blockFreemap.isset k = false) :
    (146 + k : ℤ) ∉ s.inUse := by
  rw [SuperBlock.mem_inUse hl]
  rintro ⟨j, -, hj, he⟩
  obtain rfl : k = j := by omega
  rw [hclear] at hj
  cases hj

theorem takeBlock_free (hmax : 0 < s.free) : (s.takeBlock k).free + 1 = s.free := by
  simp only [SuperBlock.free, takeBlock_sb, takeBlock_blockFreemap, Bitmap.setBit_nbits] at hmax ⊢
  omega

end Effects

theorem bitmapGetdata_setBit {b : Bitmap} {i k : Nat} (h : i / 65536 ≠ k) :
    bitmapGetdata (b.setBit i) k = bitmapGetdata b k := by
  apply Block.ext
  intro j hj
  simp only [bitmapGetdata, Block.get_ofFn_lt hj, Bitmap.setBit, bitsPerWord, blockSize]
  rw [Function.update_of_ne]
  omega

theorem bitmapGetdata_clearBit {b : Bitmap} {i k : Nat} (h : i / 65536 ≠ k) :
    bitmapGetdata (b.clearBit i) k = bitmapGetdata b k := by
  apply Block.ext
  intro j hj
  simp only [bitmapGetdata, Block.get_ofFn_lt hj, Bitmap.clearBit, bitsPerWord, blockSize]
  rw [Function.update_of_ne]
  omega

/-- Writing one changed block of the freemap and the super block brings the disk up to date. -/
theorem mirror_write {s s' : SuperBlock} {i : Nat} (hm : Mirror s)
    (hi : i < 1048576) (hin : s'.inodeFreemap = s.inodeFreemap)
    (hmap : ∀ k, k ≠ i / 65536 → bitmapGetdata s'.blockFreemap k = bitmapGetdata s.blockFreemap k)
    (hdev : ∀ n, n < 18 → s'.dev.blocks n =
      if n = 0 then s'.sb.encode
      else if n = 2 + i / 65536 then bitmapGetdata s'.blockFreemap (i / 65536)
      else s.dev.blocks n) : Mirror s' := by
  constructor
  · rw [hdev 0 (by omega), if_pos rfl]
  · rw [hdev 1 (by omega), if_neg (by omega), if_neg (by omega), hm.inodeMap, hin]
  · intro k hk
    rw [hdev _ (by omega), if_neg (by omega)]
    by_cases hki : k = i / 65536
    · rw [if_pos (by omega), hki]
    · rw [if_neg (by omega), hm.blockMap k hk, hmap k hki]

theorem takeBlock_frame {s : SuperBlock} {k : ℕ} (hl : Layout s) (hk : k < 1048576) :
    DataFrame s (s.takeBlock k) where
  sb := rfl
  inodeFreemap := rfl
  inodeBlocks n hlo _ := takeBlock_blocks hl hk hlo
  size := (takeBlock_size hl hk).ge
  layout _ :=
    { hl with
      blockBits := hl.blockBits
      blockRest := fun i hi => by
        rw [takeBlock_blockFreemap, Bitmap.isset_setBit, hl.blockRest i hi]
        simp
        omega
      devSize := (takeBlock_size hl hk).ge.trans' hl.devSize }
  mirror _ hm := by
    refine mirror_write hm hk rfl (fun j hj => bitmapGetdata_setBit hj.symm) fun n hn => ?_
    simp only [SuperBlock.takeBlock, testfsWriteBlockFreemap, testfsWriteSuperBlock, blockSize,
      bitsPerWord, hl.blockFreemapStart, Dev.write_blocks]

theorem releaseBlock_frame {s : SuperBlock} {k : ℕ} (hl : Layout s) (hk : k < 1048576) :
    DataFrame s (s.releaseBlock k) where
  sb := rfl
  inodeFreemap := rfl
  inodeBlocks n hlo hhi := by rw [releaseBlock_blocks hl hk hlo, if_neg (by omega)]
  size := by rw [releaseBlock_size hl hk]; exact le_max_left _ _
  layout _ :=
    { hl with
      blockBits := hl.blockBits
      blockRest := fun i hi => by
        rw [releaseBlock_blockFreemap, Bitmap.isset_clearBit, hl.blockRest i hi]
        rfl
      devSize := by rw [releaseBlock_size hl hk]; exact le_max_of_le_left hl.devSize }
  mirror _ hm := by
    refine mirror_write hm hk rfl (fun j hj => bitmapGetdata_clearBit hj.symm) fun n hn => ?_
    have hne : n ≠ 146 + k := by omega
    simp only [SuperBlock.releaseBlock, testfsWriteBlockFreemap, testfsWriteSuperBlock, blockSize,
      bitsPerWord, hl.blockFreemapStart, hl.dataBlocksStart, Dev.write_blocks, if_neg hne]

/-- Writing a data block. -/
theorem write_frame {s : SuperBlock} {n : ℕ} (hn : 146 ≤ n) (b : Block) :
    DataFrame s { s with dev := s.dev.write n b } where
  sb := rfl
  inodeFreemap := rfl
  inodeBlocks m _ hhi := Dev.write_blocks_ne _ _ (by omega)
  size := le_max_left _ _
  layout hl := { hl with devSize := le_max_of_le_left hl.devSize }
  mirror _ hm :=
    { super := (Dev.write_blocks_ne _ _ (by omega)).trans hm.super
      inodeMap := (Dev.write_blocks_ne _ _ (by omega)).trans hm.inodeMap
      blockMap := fun k hk => (Dev.write_blocks_ne _ _ (by omega)).trans (hm.blockMap k hk) }

end Ece344Lab.Fs
