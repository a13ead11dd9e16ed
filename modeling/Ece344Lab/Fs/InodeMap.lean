import Ece344Lab.Fs.Ownership

/-!
# The inode freemap

`testfs_get_inode_freemap` takes the lowest clear bit of the inode freemap, and
`testfs_put_inode_freemap` clears one. Neither touches the inodes or the data blocks.
-/
namespace Ece344Lab.Fs

open Ece344Lab.Library

/-- The super block after the inode number `k` has been taken. -/
def SuperBlock.takeInode (s : SuperBlock) (k : Nat) : SuperBlock :=
  let s := testfsWriteInodeFreemap { s with inodeFreemap := s.inodeFreemap.setBit k } k
  testfsWriteSuperBlock { s with sb.usedInodeCount := s.sb.usedInodeCount + 1 }

/-- The super block after the inode number `k` has been given back. -/
def SuperBlock.releaseInode (s : SuperBlock) (k : Nat) : SuperBlock :=
  let s := testfsWriteInodeFreemap { s with inodeFreemap := s.inodeFreemap.clearBit k } k
  testfsWriteSuperBlock { s with sb.usedInodeCount := s.sb.usedInodeCount - 1 }

/-- What no operation on the inodes and their freemap changes: the data blocks and what accounts
for them. -/
structure MapFrame (s s' : SuperBlock) : Prop where
  layout : Layout s'
  blockFreemap : s'.blockFreemap = s.blockFreemap
  dataBlocksStart : s'.sb.dataBlocksStart = s.sb.dataBlocksStart
  used : s'.sb.usedBlockCount = s.sb.usedBlockCount
  blocks : ∀ n, 146 ≤ n → s'.dev.blocks n = s.dev.blocks n

section Map

variable {s s' : SuperBlock} {D : Nat → Dinode} {k : Nat}

theorem MapFrame.inUse (h : MapFrame s s') : s'.inUse = s.inUse := by
  rw [SuperBlock.inUse, SuperBlock.inUse, h.blockFreemap, h.dataBlocksStart]

/-- The blocks stay accounted for, by inodes with the same slots. -/
theorem Own.congr {D' : Nat → Dinode} (ho : Own D s) (h : MapFrame s s')
    (hptr : ∀ n blk σ, ptr (D' n) blk σ = ptr (D n) blk σ)
    (hcount : ∀ n, (D' n).blockCount = (D n).blockCount) : Own D' s' := by
  have hsame : ptrs D' s'.dev.blocks = ptrs D s.dev.blocks := by
    funext a
    obtain ⟨n, σ⟩ := a
    rw [ptrs, ptrs, hptr]
    refine ptr_congr (fun τ _ hpos => h.blocks _ ?_) σ
    dsimp only at hpos ⊢
    have hlo := (ho.range (n := n) (σ := τ) (by omega)).1
    omega
  refine ⟨h.layout, ?_⟩
  rw [hsame, h.inUse, h.used, show (fun n => (D' n).blockCount) = fun n => (D n).blockCount from
    funext hcount]
  exact ho.accounts

theorem MapFrame.own (h : MapFrame s s') (ho : Own D s) : Own D s' :=
  ho.congr h (fun _ _ _ => rfl) fun _ => rfl

theorem MapFrame.refl (hl : Layout s) : MapFrame s s :=
  ⟨hl, rfl, rfl, rfl, fun _ _ => rfl⟩

/-- The type and the size of an inode have nothing to do with its blocks. -/
theorem ptr_setSize (d : Dinode) (iType iSize : ℤ) (blk : Nat → Block) (σ : Slot) :
    ptr { d with iType := iType, iSize := iSize } blk σ = ptr d blk σ := by
  cases σ <;> rfl

/-- An assignment to the type and the size of the inode. -/
theorem own_setSize {st : InodeSt} (ho : Own (st.inodes D) st.sb) (iType iSize : ℤ) :
    Own (Function.update D st.ino.iNr { st.ino.din with iType := iType, iSize := iSize }) st.sb := by
  have hcases : ∀ n, (Function.update D st.ino.iNr
      { st.ino.din with iType := iType, iSize := iSize }) n =
      if n = st.ino.iNr then { st.inodes D n with iType := iType, iSize := iSize }
      else st.inodes D n := by
    intro n
    split_ifs with hn
    · rw [hn, Function.update_self, inodes_self]
    · rw [Function.update_of_ne hn, inodes_ne st D hn]
  refine ho.congr (.refl ho.layout) (fun n blk σ => ?_) fun n => ?_
  · rw [hcases]
    split_ifs
    · exact ptr_setSize _ _ _ _ _
    · rfl
  · rw [hcases]
    split_ifs
    · rfl
    · rfl

theorem takeInode_blocks (hl : Layout s) (hk : k < 65536) {n : Nat} (hn : 18 ≤ n) :
    (s.takeInode k).dev.blocks n = s.dev.blocks n := by
  simp only [SuperBlock.takeInode, testfsWriteInodeFreemap, testfsWriteSuperBlock, blockSize,
    bitsPerWord, hl.inodeFreemapStart]
  rw [Dev.write_blocks_ne _ _ (by omega), Dev.write_blocks_ne _ _ (by omega)]

theorem releaseInode_blocks (hl : Layout s) (hk : k < 65536) {n : Nat} (hn : 18 ≤ n) :
    (s.releaseInode k).dev.blocks n = s.dev.blocks n := by
  simp only [SuperBlock.releaseInode, testfsWriteInodeFreemap, testfsWriteSuperBlock, blockSize,
    bitsPerWord, hl.inodeFreemapStart]
  rw [Dev.write_blocks_ne _ _ (by omega), Dev.write_blocks_ne _ _ (by omega)]

theorem takeInode_frame (hl : Layout s) (hk : k < 65536) : MapFrame s (s.takeInode k) where
  layout :=
    { hl with
      inodeBits := hl.inodeBits
      inodeRest := fun i hi => by
        change (s.inodeFreemap.setBit k).isset i = false
        rw [Bitmap.isset_setBit, hl.inodeRest i hi]
        simp
        omega
      devSize := le_max_of_le_left (le_max_of_le_left hl.devSize) }
  blockFreemap := rfl
  dataBlocksStart := rfl
  used := rfl
  blocks n hn := takeInode_blocks hl hk (by omega)

theorem releaseInode_frame (hl : Layout s) (hk : k < 65536) : MapFrame s (s.releaseInode k) where
  layout :=
    { hl with
      inodeBits := hl.inodeBits
      inodeRest := fun i hi => by
        change (s.inodeFreemap.clearBit k).isset i = false
        rw [Bitmap.isset_clearBit, hl.inodeRest i hi]
        rfl
      devSize := le_max_of_le_left (le_max_of_le_left hl.devSize) }
  blockFreemap := rfl
  dataBlocksStart := rfl
  used := rfl
  blocks n hn := releaseInode_blocks hl hk (by omega)

theorem MapFrame.trans {s'' : SuperBlock} (h : MapFrame s s') (h' : MapFrame s' s'') :
    MapFrame s s'' where
  layout := h'.layout
  blockFreemap := h'.blockFreemap.trans h.blockFreemap
  dataBlocksStart := h'.dataBlocksStart.trans h.dataBlocksStart
  used := h'.used.trans h.used
  blocks n hn := (h'.blocks n hn).trans (h.blocks n hn)

/-- Giving back the number just taken leaves the freemap and the count as they were. -/
theorem releaseInode_takeInode (hclear : s.inodeFreemap.isset k = false) :
    ((s.takeInode k).releaseInode k).inodeFreemap = s.inodeFreemap ∧
      ((s.takeInode k).releaseInode k).sb.usedInodeCount = s.sb.usedInodeCount :=
  ⟨Bitmap.clearBit_setBit hclear, rfl⟩

/-- `testfs_get_inode_freemap` takes the lowest clear bit, or there is none. -/
theorem testfsGetInodeFreemap_cases (hl : Layout s) :
    (∃ k, k < 65536 ∧ s.inodeFreemap.isset k = false ∧ (∀ j, j < k → s.inodeFreemap.isset j = true) ∧
      testfsGetInodeFreemap.run s = .ok ⟨k, s.takeInode k, []⟩) ∨
    ((∀ j, j < 65536 → s.inodeFreemap.isset j = true) ∧
      testfsGetInodeFreemap.run s = .ok ⟨-ENOSPC, s, []⟩) := by
  obtain ⟨r, hr, hres⟩ := bitmapAlloc_result (padding_of_aligned (b := s.inodeFreemap)
    (by rw [hl.inodeBits]))
  cases hres with
  | found k lt clear least =>
    refine .inl ⟨k, by rwa [hl.inodeBits] at lt, clear, least, ?_⟩
    simp only [testfsGetInodeFreemap, Program.reads_bind, hr]
    rfl
  | full hset =>
    refine .inr ⟨by rwa [hl.inodeBits] at hset, ?_⟩
    simp only [testfsGetInodeFreemap, Program.reads_bind, hr]
    rfl

theorem testfsPutInodeFreemap_run (hl : Layout s) (hk : k < 65536)
    (hset : s.inodeFreemap.isset k = true) (hpos : 0 < s.sb.usedInodeCount) :
    (testfsPutInodeFreemap k).run s = .ok ⟨(), s.releaseInode k, []⟩ := by
  have hunmark := bitmapUnmark_ok (by rwa [hl.inodeBits]) hset
  simp only [testfsPutInodeFreemap, Program.reads_bind, hunmark, Program.except_ok_bind,
    Program.modify_bind, testfsWriteInodeFreemap, assertC_pos hpos]
  rfl

end Map

end Ece344Lab.Fs
