import Ece344Lab.Fs.Looking
import Ece344Lab.Fs.ListedFile

/-!
# Closing and opening the file system

`quit` writes the super block and the freemaps to the device and leaves the blocks of the inodes and
of the files alone. When testfs opens the device again it finds the same volume.
-/
namespace Ece344Lab.Fs

open Ece344Lab.Library

section Device

/-- The blocks of a buffer go to their places. -/
theorem writeMany_blocks (d : Dev) (buf : Nat → Block) (start nr n : Nat) :
    (d.writeMany buf start nr).blocks n =
      if start ≤ n ∧ n < start + nr then buf (n - start) else d.blocks n := by
  induction nr with
  | zero => rw [Dev.writeMany, if_neg (by omega)]
  | succ nr ih =>
    rw [Dev.writeMany, Dev.write_blocks, ih]
    by_cases heq : n = start + nr
    · rw [if_pos heq, if_pos (by omega), heq, Nat.add_sub_cancel_left]
    · rw [if_neg heq]
      exact if_congr (by omega) rfl rfl

/-- The super block comes back from its block, the size limit modulo the width of its field. -/
theorem decode_encode (d : DsuperBlock) (h : ∀ j, j < 6 → d.word j < 2 ^ 32) :
    DsuperBlock.decode d.encode = { d with maxFsBlocks := d.maxFsBlocks % 2 ^ 64 } := by
  have hword : ∀ j, j < 6 → leVal (fun k => d.encode.get (4 * j + k)) 4 = d.word j :=
    fun j hj => decode_word d hj (h j hj)
  have hmax : leVal (fun k => d.encode.get (24 + k)) 8 = d.maxFsBlocks % 2 ^ 64 := by
    have hbytes : ∀ k, k < 8 → d.encode.get (24 + k) = leByte d.maxFsBlocks k := by
      intro k hk
      rw [DsuperBlock.encode, Block.get_ofFn_lt (by omega), if_neg (by omega), if_pos (by omega),
        Nat.add_sub_cancel_left]
    rw [leVal_congr hbytes, leVal_leByte]
    norm_num
  rw [DsuperBlock.decode]
  simp only [hword 0 (by decide), hword 1 (by decide), hword 2 (by decide), hword 3 (by decide),
    hword 4 (by decide), hword 5 (by decide), hmax]
  rfl

/-- A freemap comes back from its blocks. -/
theorem readFreemap_getdata {d : Dev} {b : Bitmap} {start nr : Nat} (hn : b.nbits = 8 * (nr * 8192))
    (hrest : ∀ i, b.nbits ≤ i → b.isset i = false) (hsize : start + nr ≤ d.size)
    (hblocks : ∀ k, k < nr → d.blocks (start + k) = bitmapGetdata b k) :
    readFreemap d (bitmapCreate b.nbits) start nr = .ok b := by
  have hread : d.readMany start nr = .ok fun k => d.blocks (start + k) := if_pos hsize
  rw [readFreemap, hread, Program.except_ok_bind, bitmapCreate_aligned (by omega)]
  refine congrArg Except.ok (Bitmap.ext_isset rfl fun i => ?_)
  rw [Bitmap.isset]
  dsimp only
  by_cases hi : i / 8 < nr * 8192
  · have hpos : i / 8 / 8192 * 8192 + i / 8 % 8192 = i / 8 := by omega
    rw [if_pos hi, hblocks _ (by simp only [blockSize]; omega), bitmapGetdata,
      Block.get_ofFn_lt (by simp only [blockSize]; omega)]
    simp only [blockSize]
    rw [hpos]
    rfl
  · rw [if_neg hi, hrest i (by omega)]
    exact Nat.zero_testBit _

/-- The super block that the next testfs starts with. -/
def reopened (s : SuperBlock) : SuperBlock :=
  { s with
    sb.maxFsBlocks := s.sb.maxFsBlocks % 2 ^ 64
    dev := testfsCloseSuperBlock s }

variable {s : SuperBlock}

theorem closed_blocks (hl : Layout s) (n : Nat) : (testfsCloseSuperBlock s).blocks n =
    if n = 0 then s.sb.encode
    else if n = 1 then bitmapGetdata s.inodeFreemap 0
    else if n < 18 then bitmapGetdata s.blockFreemap (n - 2)
    else s.dev.blocks n := by
  simp only [testfsCloseSuperBlock, testfsWriteSuperBlock, hl.inodeFreemapStart, hl.blockFreemapStart,
    writeMany_blocks, Dev.write_blocks]
  rcases Nat.lt_or_ge n 2 with hlo | hlo
  · interval_cases n <;> simp
  · rw [if_neg (show ¬ n = 0 by omega), if_neg (show ¬ n = 1 by omega),
      if_neg (show ¬ (1 ≤ n ∧ n < 1 + 1) by omega), if_neg (show ¬ n = 0 by omega)]
    exact if_congr (by simp only [blockFreemapSize]; omega) rfl rfl

theorem closed_size (s : SuperBlock) : s.dev.size ≤ (testfsCloseSuperBlock s).size := by
  have hwrite : s.dev.size ≤ (s.dev.write 0 s.sb.encode).size := le_max_left _ _
  exact (hwrite.trans (le_size_writeMany _ _ _ _).1).trans (le_size_writeMany _ _ _ _).1

/-- Opening a device that has just been closed. -/
theorem testfsInitSuperBlock_closed (hl : Layout s) (hinodes : s.sb.usedInodeCount < 2 ^ 32)
    (hblocks : s.sb.usedBlockCount < 2 ^ 32) :
    testfsInitSuperBlock (testfsCloseSuperBlock s) = .ok (reopened s) := by
  have hsize := (closed_size s).trans' hl.devSize
  have hfields : ∀ j, j < 6 → s.sb.word j < 2 ^ 32 := by
    intro j hj
    interval_cases j <;> simp only [DsuperBlock.word, hl.inodeFreemapStart, hl.blockFreemapStart,
      hl.inodeBlocksStart, hl.dataBlocksStart] <;> first | assumption | norm_num
  have hread : (testfsCloseSuperBlock s).read 0 = .ok s.sb.encode := by
    rw [show (0 : ℤ) = ((0 : ℕ) : ℤ) from rfl, Dev.read_ok (n := 0) (by omega),
      closed_blocks hl, if_pos rfl]
  have hinode : readFreemap (testfsCloseSuperBlock s) (bitmapCreate 65536)
      s.sb.inodeFreemapStart 1 = .ok s.inodeFreemap := by
    rw [hl.inodeFreemapStart, ← hl.inodeBits]
    refine readFreemap_getdata hl.inodeBits (by rw [hl.inodeBits]; exact hl.inodeRest) (by omega)
      fun k hk => ?_
    obtain rfl : k = 0 := by omega
    rw [closed_blocks hl, if_neg (by decide), if_pos rfl]
  have hblock : readFreemap (testfsCloseSuperBlock s) (bitmapCreate 1048576)
      s.sb.blockFreemapStart 16 = .ok s.blockFreemap := by
    rw [hl.blockFreemapStart, ← hl.blockBits]
    refine readFreemap_getdata hl.blockBits (by rw [hl.blockBits]; exact hl.blockRest) (by omega)
      fun k hk => ?_
    rw [closed_blocks hl, if_neg (by omega), if_neg (by omega), if_pos (by omega),
      Nat.add_sub_cancel_left]
  rw [testfsInitSuperBlock, hread, Program.except_ok_bind, decode_encode _ hfields]
  simp only [show blockSize * inodeFreemapSize * bitsPerWord = 65536 by norm_num,
    show blockSize * blockFreemapSize * bitsPerWord = 1048576 by norm_num, hinode, hblock]
  rfl

theorem reopened_layout (hl : Layout s) : Layout (reopened s) where
  inodeFreemapStart := hl.inodeFreemapStart
  blockFreemapStart := hl.blockFreemapStart
  inodeBlocksStart := hl.inodeBlocksStart
  dataBlocksStart := hl.dataBlocksStart
  inodeBits := hl.inodeBits
  inodeRest := hl.inodeRest
  blockBits := hl.blockBits
  blockRest := hl.blockRest
  devSize := (closed_size s).trans' hl.devSize

theorem reopened_blocks (hl : Layout s) {n : Nat} (hn : 18 ≤ n) :
    (reopened s).dev.blocks n = s.dev.blocks n := by
  change (testfsCloseSuperBlock s).blocks n = _
  rw [closed_blocks hl, if_neg (by omega), if_neg (by omega), if_neg (by omega)]

end Device

section Volume

variable {s : FileSystem} {V : Volume} {live : Finset ℕ}

theorem Sound.counts (h : Sound s live) :
    s.sb.sb.usedInodeCount < 2 ^ 32 ∧ s.sb.sb.usedBlockCount < 2 ^ 32 := by
  constructor
  · rw [h.kept.count]
    have hsub : live ⊆ Finset.range nrInodes := fun n hn => Finset.mem_range.mpr (h.kept.lt n hn)
    have hcard := Finset.card_le_card hsub
    rw [Finset.card_range] at hcard
    simp only [nrInodes, nrInodeBlocks, inodesPerBlock] at hcard
    omega
  · rw [h.kept.own.accounts.total, SuperBlock.card_inUse]
    have hcard : (setBits s.sb.blockFreemap).card ≤ s.sb.blockFreemap.nbits :=
      (Finset.card_filter_le _ _).trans_eq (Finset.card_range _)
    rw [h.layout.blockBits] at hcard
    omega

/-- A device whose inodes are all written back is opened with the same volume. -/
theorem Represents.reopen (h : Represents s V)
    (hdisk : ∀ m, m < nrInodes → s.dinodes m = onDisk s.sb m) :
    ∃ s', openTestfs (testfsCloseSuperBlock s.sb) = .ok s' ∧ AtPrompt s' V ∧ s'.curDir = 0 := by
  have hl := h.sound.layout
  obtain ⟨s₀, hs₀⟩ : ∃ s₀ : FileSystem, s₀ = ⟨reopened s.sb, inodeHashInit, 0⟩ := ⟨_, rfl⟩
  have hnone : ∀ m, inodeHashFind s₀.hash m = none := fun m => by
    rw [hs₀]
    rfl
  have hsb : s₀.sb = reopened s.sb := by rw [hs₀]
  have hcached : Cached s₀ := by
    refine ⟨?_, ?_, fun m n hn => ?_⟩
    · rw [hsb]
      exact reopened_layout hl
    · rw [hs₀]
      exact filed_init
    · rw [hnone m] at hn
      cases hn
  have hblocks : ∀ n, 18 ≤ n → s₀.sb.dev.blocks n = s.sb.dev.blocks n := fun n hn => by
    rw [hsb]
    exact reopened_blocks hl hn
  have hframe : MapFrame s.sb s₀.sb := by
    refine ⟨hcached.layout, ?_, ?_, ?_, fun n hn => hblocks n (by omega)⟩ <;> rw [hsb] <;> rfl
  obtain ⟨hsound, hsame⟩ := h.sound.congr hcached (fun m hm => by
      rw [value_disk (hnone m), onDisk_congr hblocks, ← hdisk m hm, dinodes_of_lt hm]) hframe
    (by rw [hsb]; rfl) (by rw [hsb]; rfl) (by rw [hsb]; exact closed_size s.sb)
  have hroot := h.lt V.tree.root_node
  rw [h.root] at hroot
  obtain ⟨s₁, hget, hstep, hsame₁⟩ := hsound.load hroot (hnone 0)
  have hcur : s₁.curDir = 0 := hstep.moved.curDir.trans (by rw [hs₀])
  have hall : ∀ m, SameInode s s₁ m := fun m => by
    refine (hsame m).trans ?_
    by_cases hm : m = 0
    · rw [hm]
      exact hsame₁
    · exact hstep.same m hm
  refine ⟨s₁, ?_, ⟨h.congr hstep.sound fun m _ => hall m, ?_, ?_, fun m hm => ?_⟩, hcur⟩
  · rw [openTestfs, testfsInitSuperBlock_closed hl h.sound.counts.1 h.sound.counts.2,
      Program.except_ok_bind]
    rw [hs₀] at hget
    rw [hget]
    rfl
  · rw [hcur, ← h.root]
    exact V.tree.root_mem
  · rw [hcur]
    rw [hstep.moved.here, hsame₁.din]
  · rw [hcur] at hm
    rw [hstep.moved.others m hm, hnone m]

/-- `quit` closes the device. -/
theorem AtPrompt.quit (h : AtPrompt s V) : quitTestfs s = .ok (testfsCloseSuperBlock s.sb) := by
  have hl := h.looks
  rw [← Multiset.cons_zero] at hl
  obtain ⟨s₁, hput, hl₁⟩ := hl.put
  have hempty : inMemory s₁.hash = [] :=
    (inMemory_eq_nil hl₁.held.filed).mpr fun m => hl₁.find_none (Multiset.notMem_zero m)
  rw [quitTestfs, hput, Program.except_ok_bind, closeFileSystem, inodeHashDestroy_ok hempty,
    Program.except_ok_bind, hl₁.super]
  rfl

/-- After `quit`, testfs opens the device with the same volume and starts in its root. -/
theorem AtPrompt.reopen (h : AtPrompt s V) :
    ∃ dev s', quitTestfs s = .ok dev ∧ openTestfs dev = .ok s' ∧ AtPrompt s' V ∧
      s'.curDir = V.tree.root := by
  obtain ⟨s', hopen, hat, hcur⟩ := h.stored.reopen fun m hm => h.looks.dinodes hm
  exact ⟨_, s', h.quit, hopen, hat, hcur.trans h.stored.root.symm⟩

end Volume

end Ece344Lab.Fs
