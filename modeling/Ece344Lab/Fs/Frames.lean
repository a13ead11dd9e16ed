import Ece344Lab.Fs.SmallDir
import Ece344Lab.Fs.MaxSize

/-!
# What the operations leave of the other inodes

Every operation on inodes changes one of them and leaves the others, with all their blocks, as
they were. `SameInode` says so; what an inode stores, as a file or as a directory, goes with it.
-/
namespace Ece344Lab.Fs

open Ece344Lab.Library

/-- The inode `nr` as its users see it, with the super block. -/
def FileSystem.view (s : FileSystem) (nr : Nat) : InodeSt := ⟨s.sb, ⟨s.dinodes nr, false, nr⟩⟩

/-- What holds between the steps of the operations on the live inodes. -/
structure Sound (s : FileSystem) (live : Finset ℕ) : Prop where
  kept : InodesKept s live
  onDev : ∀ n, FileOnDev (s.view n)

/-- The inode `m` and its blocks are the same in both states. -/
structure SameInode (s s' : FileSystem) (m : Nat) : Prop where
  din : s'.dinodes m = s.dinodes m
  blocks : ∀ σ, (s.view m).ptr σ ≠ 0 → s'.sb.dev.blocks ((s.view m).ptr σ).toNat =
    s.sb.dev.blocks ((s.view m).ptr σ).toNat
  size : s.sb.dev.size ≤ s'.sb.dev.size

section View

variable {s s' s'' : FileSystem} {D D' : Nat → Dinode} {st st' : InodeSt} {nr m off : Nat} {v : UInt8}
  {live : Finset ℕ} {rs : List Dirent} {M : List UInt8 → Option Int}

@[simp] theorem view_sb (s : FileSystem) (nr : Nat) : (s.view nr).sb = s.sb := rfl

@[simp] theorem view_din (s : FileSystem) (nr : Nat) : (s.view nr).ino.din = s.dinodes nr := rfl

/-- The inode is one of the file system's. -/
theorem view_inodes (s : FileSystem) (nr : Nat) : (s.view nr).inodes s.dinodes = s.dinodes :=
  Function.update_eq_self _ _

theorem dinodes_of_lt (hnr : nr < nrInodes) : s.dinodes nr = s.value nr := if_pos hnr

theorem Sound.own (h : Sound s live) (nr : Nat) : Own ((s.view nr).inodes s.dinodes) s.sb := by
  rw [view_inodes]
  exact h.kept.own

theorem Sound.sane (h : Sound s live) (nr : Nat) : Sane (s.view nr) := (h.own nr).sane

theorem Sound.layout (h : Sound s live) : Layout s.sb := h.kept.cached.layout

/-- What is stored depends on the super block and on the fields of the inode. -/
theorem Stores.congr (h : Stores st off v) (hsb : st'.sb = st.sb) (hdin : st'.ino.din = st.ino.din) :
    Stores st' off v := by
  obtain ⟨sb, din, dirty, iNr⟩ := st
  obtain ⟨sb', din', dirty', iNr'⟩ := st'
  dsimp only at hsb hdin
  subst hsb hdin
  exact ⟨h.mapped, h.onDev, h.byte⟩

theorem DirHolds.congr (h : DirHolds D nr st rs M) (hsb : st'.sb = st.sb)
    (hdin : st'.ino.din = st.ino.din) (hiNr : st'.ino.iNr = nr) (hown : Own (st'.inodes D') st'.sb) :
    DirHolds D' nr st' rs M where
  iNr := hiNr
  own := hown
  isDir := by rw [hdin, h.isDir]
  laid := h.laid.keep fun _ _ _ _ hs => hs.congr hsb hdin
  size := by rw [hdin, h.size]
  small := by
    rw [hdin]
    exact h.small
  maps := h.maps

end View

section Same

variable {s s' s'' : FileSystem} {m off : Nat} {v : UInt8} {live live' : Finset ℕ} {rs : List Dirent}
  {M : List UInt8 → Option Int}

theorem SameInode.refl (s : FileSystem) (m : Nat) : SameInode s s m :=
  ⟨rfl, fun _ _ => rfl, le_refl _⟩

theorem SameInode.ptr (h : SameInode s s' m) (σ : Slot) : (s'.view m).ptr σ = (s.view m).ptr σ := by
  change Fs.ptr (s'.dinodes m) s'.sb.dev.blocks σ = _
  rw [h.din]
  exact ptr_congr (fun τ _ hpos => h.blocks τ (ne_of_gt hpos)) σ

theorem SameInode.trans (h : SameInode s s' m) (h' : SameInode s' s'' m) : SameInode s s'' m where
  din := h'.din.trans h.din
  blocks σ hne := by
    have hnext := h'.blocks σ (by rwa [h.ptr])
    rw [h.ptr] at hnext
    rw [hnext, h.blocks σ hne]
  size := h.size.trans h'.size

theorem SameInode.onDev (h : SameInode s s' m) (hdev : FileOnDev (s.view m)) :
    FileOnDev (s'.view m) := fun σ hne => by
  rw [h.ptr] at hne ⊢
  exact lt_of_lt_of_le (hdev σ hne) h.size

theorem SameInode.stores (h : SameInode s s' m) (hs : Stores (s.view m) off v) :
    Stores (s'.view m) off v where
  mapped := by
    rw [h.ptr]
    exact hs.mapped
  onDev σ hσ hne := by
    have hptr := h.ptr σ
    rw [InodeSt.ptr] at hptr
    rw [hptr] at hne ⊢
    exact lt_of_lt_of_le (hs.onDev σ hσ hne) h.size
  byte := by
    have hbyte := hs.byte
    rw [InodeSt.byte] at hbyte ⊢
    rw [h.ptr, view_sb, h.blocks _ hs.mapped]
    exact hbyte

theorem SameInode.dirHolds (h : SameInode s s' m) (hown : Own s'.dinodes s'.sb)
    (hd : DirHolds s.dinodes m (s.view m) rs M) : DirHolds s'.dinodes m (s'.view m) rs M where
  iNr := rfl
  own := by
    rw [view_inodes]
    exact hown
  isDir := by
    rw [view_din, h.din]
    exact hd.isDir
  laid := hd.laid.keep fun _ _ _ _ hs => h.stores hs
  size := by
    rw [view_din, h.din]
    exact hd.size
  small := by
    rw [view_din, h.din]
    exact hd.small
  maps := hd.maps

/-- A change that does not reach the data blocks. -/
theorem sameInode_of_blocks (h : Sound s live) (hdin : s'.dinodes m = s.dinodes m)
    (hblocks : ∀ n, 146 ≤ n → s'.sb.dev.blocks n = s.sb.dev.blocks n)
    (hsize : s.sb.dev.size ≤ s'.sb.dev.size) : SameInode s s' m where
  din := hdin
  blocks σ hne := by
    have hlo := ((h.sane m).range hne).1
    exact hblocks _ (by omega)
  size := hsize

/-- A change that the users of the inodes do not see. -/
theorem Sound.congr (h : Sound s live) (hcached : Cached s')
    (hvalue : ∀ m, m < nrInodes → s'.value m = s.value m) (hframe : MapFrame s.sb s'.sb)
    (hmap : s'.sb.inodeFreemap = s.sb.inodeFreemap)
    (hcount : s'.sb.sb.usedInodeCount = s.sb.sb.usedInodeCount)
    (hsize : s.sb.dev.size ≤ s'.sb.dev.size) : Sound s' live ∧ ∀ m, SameInode s s' m := by
  have hsame : ∀ m, SameInode s s' m := fun m =>
    sameInode_of_blocks h (congrFun (dinodes_congr hvalue) m) hframe.blocks hsize
  exact ⟨⟨h.kept.congr hcached hvalue hframe hmap hcount, fun n => (hsame n).onDev (h.onDev n)⟩, hsame⟩

theorem Sound.congr_sb (h : Sound s live) (hcached : Cached s')
    (hvalue : ∀ m, m < nrInodes → s'.value m = s.value m) (hsb : s'.sb = s.sb) :
    Sound s' live ∧ ∀ m, SameInode s s' m :=
  h.congr hcached hvalue (by rw [hsb]; exact .refl h.layout) (by rw [hsb]) (by rw [hsb])
    (by rw [hsb])

end Same

/-- A step on the inode `nr`: `x` is what is in memory of it afterwards. -/
structure StepOn (nr : Nat) (x : Option HashNode) (live : Finset ℕ) (s s' : FileSystem) : Prop where
  sound : Sound s' live
  moved : Moved nr x s s'
  same : ∀ m, m ≠ nr → SameInode s s' m

/-- The bytes `buf` have been written to the inode `nr`. -/
structure WroteTo (nr : Nat) (buf : Nat → UInt8) (start size : Nat) (s s' : FileSystem) : Prop where
  iType : (s'.dinodes nr).iType = (s.dinodes nr).iType
  iSize : (s'.dinodes nr).iSize = max (s.dinodes nr).iSize (start + size : ℕ)
  inside : ∀ p, start ≤ p → p < start + size → Stores (s'.view nr) p (buf (p - start))
  outside : ∀ p v, ¬ (start ≤ p ∧ p < start + size) → Stores (s.view nr) p v →
    Stores (s'.view nr) p v

section Operations

variable {s s' : FileSystem} {nr : Nat} {live : Finset ℕ} {n : HashNode}

theorem memory_din (hn : inodeHashFind s.hash nr = some n) (hnr : nr < nrInodes) :
    n.inode.din = s.dinodes nr := by
  rw [dinodes_of_lt hnr, value_memory hn]

theorem Sound.lt (h : Sound s live) (hn : inodeHashFind s.hash nr = some n) : nr < nrInodes :=
  (h.kept.cached.node nr n hn).1

/-- An inode is read from the disk. -/
theorem Sound.load (h : Sound s live) (hnr : nr < nrInodes) (hnone : inodeHashFind s.hash nr = none) :
    ∃ s', (testfsGetInode nr).run s = .ok ⟨(), s', []⟩ ∧
      StepOn nr (some ⟨⟨s.dinodes nr, false, nr⟩, 1⟩) live s s' ∧ SameInode s s' nr := by
  obtain ⟨s', hrun, hsb, hmoved⟩ := testfsGetInode_moved h.layout hnr hnone
  obtain ⟨hcached, hvalue⟩ := h.kept.cached.get hnr hrun
  obtain ⟨hsound, hsame⟩ := h.congr_sb hcached (fun m _ => hvalue m) hsb
  have hdin : onDisk s.sb nr = s.dinodes nr := by
    rw [dinodes_of_lt hnr, value_disk hnone]
  rw [loaded, hdin] at hmoved
  exact ⟨s', hrun, ⟨hsound, hmoved, fun m _ => hsame m⟩, hsame nr⟩

/-- The last reference to a clean inode is dropped. -/
theorem Sound.drop (h : Sound s live) {ino : Inode} (hn : inodeHashFind s.hash nr = some ⟨ino, 1⟩)
    (hclean : ino.dirty = false) :
    ∃ s', (testfsPutInode nr).run s = .ok ⟨(), s', []⟩ ∧ StepOn nr none live s s' ∧
      SameInode s s' nr := by
  obtain ⟨s', hrun, hsb, hmoved⟩ := testfsPutInode_moved hn hclean
  obtain ⟨hcached, hvalue⟩ := h.kept.cached.put hrun
  obtain ⟨hsound, hsame⟩ := h.congr_sb hcached (fun m _ => hvalue m) hsb
  exact ⟨s', hrun, ⟨hsound, hmoved, fun m _ => hsame m⟩, hsame nr⟩

/-- A changed inode is written to its place on disk. -/
theorem Sound.sync (h : Sound s live) (hn : inodeHashFind s.hash nr = some n)
    (hdirty : n.inode.dirty = true) :
    ∃ s', (onInode nr testfsSyncInode).run s = .ok ⟨(), s', []⟩ ∧
      StepOn nr (some ⟨{ n.inode with dirty := false }, n.iCount⟩) live s s' ∧
      SameInode s s' nr := by
  have hnr := h.lt hn
  obtain ⟨s', hrun, hsb, hmoved⟩ := testfsSyncInode_moved h.layout hnr hn hdirty
  obtain ⟨s₁, hrun₁, hcached, hvalue, -⟩ := h.kept.cached.sync hn
  rw [hrun] at hrun₁
  cases hrun₁
  obtain ⟨hframe, hmap, hcount⟩ := sync_frame h.kept.cached hrun
  obtain ⟨hsound, hsame⟩ := h.congr hcached (fun m _ => hvalue m) hframe hmap hcount
    (by rw [hsb]; exact le_max_left _ _)
  exact ⟨s', hrun, ⟨hsound, hmoved, fun m _ => hsame m⟩, hsame nr⟩

/-- Neither takes a block. -/
theorem drop_free (hrun : (testfsPutInode nr).run s = .ok ⟨(), s', []⟩) {ino : Inode}
    (hn : inodeHashFind s.hash nr = some ⟨ino, 1⟩) (hclean : ino.dirty = false) :
    s'.sb.free = s.sb.free := by
  obtain ⟨s₁, hrun₁, hsb, -⟩ := testfsPutInode_moved hn hclean
  rw [hrun] at hrun₁
  cases hrun₁
  rw [hsb]

theorem Sound.sync_free (h : Sound s live)
    (hrun : (onInode nr testfsSyncInode).run s = .ok ⟨(), s', []⟩)
    (hn : inodeHashFind s.hash nr = some n) (hdirty : n.inode.dirty = true) :
    s'.sb.free = s.sb.free := by
  obtain ⟨s₁, hrun₁, hsb, -⟩ := testfsSyncInode_moved h.layout (h.lt hn) hn hdirty
  rw [hrun] at hrun₁
  cases hrun₁
  rw [hsb]
  rfl

theorem created_ptr (type : InodeType) (blk : Nat → Block) (σ : Slot) :
    ptr (created type) blk σ = 0 :=
  (ptr_setSize Dinode.zero type.val 0 blk σ).trans (ptr_zero σ)

/-- `testfs_create_inode`: with all slots taken it fails and nothing changes; else it gives a new
inode, in memory and not yet on disk. -/
theorem Sound.create (h : Sound s live) (hmem : ∀ m ∉ live, inodeHashFind s.hash m = none)
    (type : InodeType) :
    (∃ s', (testfsCreateInode type).run s = .ok ⟨(-ENOSPC, 0), s', []⟩) ∨
    ∃ k s', (testfsCreateInode type).run s = .ok ⟨(0, k), s', []⟩ ∧ k ∉ live ∧ k < nrInodes ∧
      StepOn k (some ⟨⟨created type, true, k⟩, 1⟩) (insert k live) s s' ∧
      s'.dinodes k = created type ∧ s'.sb.free = s.sb.free := by
  rcases Nat.lt_or_ge live.card nrInodes with hlt | hge
  swap
  · obtain ⟨s', hrun, -⟩ := testfsCreateInode_full h.kept type hge
    exact Or.inl ⟨s', hrun⟩
  obtain ⟨k, s', n, hrun, hk, hnew, -, -, hkept⟩ := testfsCreateInode_fresh h.kept type hlt
  obtain ⟨j, -, hj, hleast, -⟩ := onSuper_get h.kept
  -- the number taken is the lowest free one
  have hjk := lowest_lt hlt hleast
  have hnone := hmem j hj
  have hzero : onDisk s.sb j = Dinode.zero := by
    rw [← value_disk hnone]
    exact h.kept.free j hjk hj
  have hclear : s.sb.inodeFreemap.isset j = false := by
    by_contra hset
    rw [Bool.not_eq_false, h.kept.bits] at hset
    exact hj hset
  obtain ⟨s₁, hrun₁, hsb, hmoved⟩ := testfsCreateInode_moved h.layout hjk
    (fun i hi => (h.kept.bits i).mpr (hleast i hi)) hclear hnone hzero type
  rw [hrun] at hrun₁
  cases hrun₁
  have hk' : k < 65536 := by
    simp only [nrInodes, nrInodeBlocks, inodesPerBlock] at hk
    omega
  have hself : s'.dinodes k = created type := by
    rw [dinodes_of_lt hk, value_memory hmoved.here]
  have hsame : ∀ m, m ≠ k → SameInode s s' m := by
    intro m hm
    refine sameInode_of_blocks h ?_ (fun n hn => ?_) ?_
    · rw [FileSystem.dinodes, FileSystem.dinodes]
      split_ifs with hmlt
      · refine value_congr (by rw [hmoved.others m hm]) (onDisk_congr (fun n hn => ?_) m)
        rw [hsb]
        exact takeInode_blocks h.layout hk' hn
      · rfl
    · rw [hsb]
      exact takeInode_blocks h.layout hk' (by omega)
    · rw [hsb]
      exact le_trans (le_max_left _ _) (le_max_left _ _)
  refine Or.inr ⟨k, s', hrun, hnew, hk, ⟨⟨hkept, fun m => ?_⟩, hmoved, hsame⟩, hself,
    by rw [hsb]; rfl⟩
  by_cases hm : m = k
  · subst hm
    intro σ hne
    refine absurd ?_ hne
    change ptr (s'.dinodes m) _ σ = 0
    rw [hself]
    exact created_ptr type _ σ
  · exact (hsame m hm).onDev (h.onDev m)

/-- Programs with the same run on the inode in memory have the same run on the file system. -/
theorem onInode_congr {α : Type} {p q : InodeM α} (hn : inodeHashFind s.hash nr = some n)
    (h : p.run ⟨s.sb, n.inode⟩ = q.run ⟨s.sb, n.inode⟩) :
    (onInode nr p).run s = (onInode nr q).run s := by
  change (onInode nr p).exec s = (onInode nr q).exec s
  simp only [onInode, hn, h]

/-- A write leaves the other inodes as they are. -/
theorem Wrote.sameInode {st st₁ : InodeSt} {lo hi m : Nat} {f : Nat → UInt8}
    (hw : Wrote s.dinodes st st₁ lo hi f) (hst : st.sb = s.sb) (hsb : s'.sb = st₁.sb)
    (hframe : DataFrame s.sb s'.sb) (hfind : inodeHashFind s'.hash m = inodeHashFind s.hash m)
    (hm : m ≠ st.ino.iNr) : SameInode s s' m where
  din := by
    rw [FileSystem.dinodes, FileSystem.dinodes]
    split_ifs with hlt
    · exact value_congr (by rw [hfind]) (onDisk_frame hframe hlt)
    · rfl
  blocks σ hne := by
    have hblocks := hw.keeps.othersBlocks m hm σ
    rw [hst] at hblocks
    rw [hsb]
    exact hblocks hne
  size := by
    have hle := hw.keeps.size
    rwa [hst, ← hsb] at hle

/-- The file has the bytes of a write. -/
theorem Wrote.wroteTo {st st₁ : InodeSt} {start size : Nat} {buf : Nat → UInt8}
    (hw : Wrote s.dinodes st st₁ start (start + size) fun off => buf (off - start))
    (hst : st.sb = s.sb) (hdin : st.ino.din = s.dinodes nr) (hpos : 0 < size)
    (hsb : s'.sb = (st₁.grow start size).sb)
    (hself : s'.dinodes nr = (st₁.grow start size).ino.din)
    (htype : (st₁.grow start size).ino.din.iType = st.ino.din.iType) :
    WroteTo nr buf start size s s' where
  iType := by rw [hself, htype, hdin]
  iSize := by
    rw [hself, InodeSt.grow]
    dsimp only
    rw [if_pos hpos, hw.keeps.iSize, hdin]
  inside p hlo hhi := ((hw.inside p hlo hhi).grow start size).congr hsb hself
  outside p v hp hs := by
    have hold : Stores st p v := hs.congr hst hdin
    exact ((hw.stores hp hold).grow start size).congr hsb hself

/-- A write to a live inode either runs out of space at a hole of it or is a step on it. -/
theorem Sound.write (h : Sound s live) (hlive : nr ∈ live) (hn : inodeHashFind s.hash nr = some n)
    (buf : Nat → UInt8) {start size : Nat} (hend : start + size ≤ maxFileSize) (hpos : 0 < size)
    (hsize : size ≤ 2 ^ 30) :
    ∃ ret st' log, (testfsWriteData buf start size).run ⟨s.sb, n.inode⟩ = .ok ⟨ret, st', log⟩ ∧
      ((ret = -ENOSPC ∧ ∃ l, start / 8192 ≤ l ∧ 8192 * l < start + size ∧
          (s.view nr).ptr (.data l) = 0) ∨
        ret = (size : ℤ) ∧ ∃ s',
        (onInode nr (testfsWriteData buf start size)).run s = .ok ⟨ret, s', log⟩ ∧
        s'.sb = st'.sb ∧ s'.dinodes nr = st'.ino.din ∧ st'.ino.dirty = true ∧
        StepOn nr (some { n with inode := st'.ino }) live s s' ∧ WroteTo nr buf start size s s') := by
  have hlt := h.lt hn
  have hi : n.inode.iNr = nr := inodeHashFind_iNr hn
  obtain ⟨st, hst⟩ : ∃ st : InodeSt, st = ⟨s.sb, n.inode⟩ := ⟨_, rfl⟩
  have hdin : st.ino.din = s.dinodes nr := by
    rw [hst]
    exact memory_din hn hlt
  have ho : Own (st.inodes s.dinodes) st.sb := by
    rw [hst]
    exact h.kept.own_memory hn hlt
  have hdev : FileOnDev st := by
    intro σ
    have hview := h.onDev nr σ
    rw [InodeSt.ptr, view_din, view_sb] at hview
    rw [InodeSt.ptr, hdin, hst]
    exact hview
  have hblock : start / 8192 < maxBlocks := by
    simp only [maxFileSize] at hend
    simp only [maxBlocks]
    omega
  obtain ⟨⟨ret, st', log⟩, hwrite, hcase⟩ :=
    (wp_testfsWriteData_stops buf ho hdev hblock hpos hsize).returns
  rw [← hst]
  refine ⟨ret, st', log, hwrite, ?_⟩
  rcases hcase with ⟨hret, -⟩ | ⟨l, hstop⟩
  swap
  · refine Or.inl ⟨hstop.noSpace hend, l, hstop.first, hstop.covers, ?_⟩
    have hhole := hstop.hole
    rwa [InodeSt.ptr, hdin, hst] at hhole
  dsimp only at hret
  obtain ⟨hval, st₁, hw, hgrow⟩ := (wp_testfsWriteData buf ho hend).of_ok hwrite hret
  refine Or.inr ⟨hval.trans (toInt_natCast (by omega)), ?_⟩
  dsimp only at hgrow
  have hkey : st'.ino.iNr = nr := by
    rw [hgrow]
    exact hw.keeps.iNr.trans (by rw [hst]; exact hi)
  rw [hst] at hwrite
  obtain ⟨s', hrun, hsb, hmoved⟩ := onInode_moved hn hwrite hkey
  have hkept := h.kept.write hlive hend hrun hret
  have hself : s'.dinodes nr = st'.ino.din := (memory_din hmoved.here hlt).symm
  have hst₁ : s'.sb = st₁.sb := by
    rw [hsb, hgrow]
    rfl
  have hframed := (wp_testfsWriteData_framed (hst ▸ ho)).of_ok hwrite hret
  have hsame : ∀ m, m ≠ nr → SameInode s s' m := fun m hm =>
    hw.sameInode (by rw [hst]) hst₁ (by rw [hsb]; exact hframed.frame) (hmoved.others m hm)
      (by rw [hst, hi]; exact hm)
  have hto : WroteTo nr buf start size s s' :=
    hw.wroteTo (by rw [hst]) hdin hpos (by rw [hsb, hgrow]) (by rw [hself, hgrow])
      (by rw [← hgrow, hst]; exact hframed.iType)
  refine ⟨s', hrun, hsb, hself, by rw [hgrow]; rfl, ⟨⟨hkept, fun m => ?_⟩, hmoved, hsame⟩, hto⟩
  by_cases hm : m = nr
  · subst hm
    intro σ hne
    have hdev' := hw.onDev hdev σ
    have hptr : (s'.view m).ptr σ = st₁.ptr σ := by
      rw [InodeSt.ptr, view_din, view_sb, hself, hst₁, hgrow]
      exact grow_ptr st₁ start size σ
    rw [hptr] at hne ⊢
    rw [view_sb, hst₁]
    exact hdev' hne
  · exact (hsame m hm).onDev (h.onDev m)

/-- `testfs_remove_inode` up to its `testfs_put_inode` zeroes blocks of the inode, and then its slot
in the inode blocks. -/
theorem wp_clearInode_blocks {D : Nat → Dinode} {st : InodeSt} (ho : Own (st.inodes D) st.sb)
    (hsize : Sized st.ino.din) (hnr : st.ino.iNr < nrInodes)
    (hset : st.sb.inodeFreemap.isset st.ino.iNr = true) (hpos : 0 < st.sb.sb.usedInodeCount) :
    Program.wp clearInode st (fun _ st' _ => ∃ F st₁, Freed st st₁ F ∧
      st'.sb = synced (st₁.sb.releaseInode st.ino.iNr) st.ino.iNr Dinode.zero) fun _ => True := by
  rw [clearInode, Program.wp_bind]
  refine (wp_testfsFreeBlocks ho.sane hsize.nonneg hsize.le_max hsize.dind).imp
    fun _ st₁ _ hfreed => ?_
  obtain ⟨F, hF⟩ := hfreed
  have hk : st.ino.iNr < 65536 := by
    simp only [nrInodes, nrInodeBlocks, inodesPerBlock] at hnr
    omega
  have hl := hF.counted.layout
  have hput := testfsPutInodeFreemap_run hl hk (by rw [hF.frame.inodeFreemap]; exact hset)
    (by rw [hF.frame.usedInodeCount]; exact hpos)
  have hput' : (onSb (testfsPutInodeFreemap st.ino.iNr)).run
      ⟨st₁.sb, ⟨Dinode.zero, true, st.ino.iNr⟩⟩ =
      .ok ⟨(), ⟨st₁.sb.releaseInode st.ino.iNr, ⟨Dinode.zero, true, st.ino.iNr⟩⟩, []⟩ := onSb_run hput
  rw [Program.wp_bind, Program.wp_reads]
  refine ⟨fun _ _ => ?_, fun _ _ => trivial⟩
  simp only [setDin, setDirty, Program.wp_bind, Program.wp_modify, Program.wp_get, hF.iNr]
  rw [Program.wp_ok hput']
  have hsync := @testfsSyncInode_dirty ⟨st₁.sb.releaseInode st.ino.iNr, ⟨Dinode.zero, true, st.ino.iNr⟩⟩
    (releaseInode_frame hl hk).layout hnr rfl
  rw [Program.wp_ok hsync]
  exact ⟨F, st₁, hF, rfl⟩

/-- Clearing an inode leaves the other inodes as they are. -/
theorem Freed.sameInode {ino : Inode} {st₁ : InodeSt} {F : Finset ℤ} {m : Nat} (h : Sound s live)
    (hF : Freed ⟨s.sb, ino⟩ st₁ F) (hdin : ino.din = s.dinodes nr) (hlt : nr < nrInodes)
    (hsb : s'.sb = synced (st₁.sb.releaseInode nr) nr Dinode.zero)
    (hdisk : m < nrInodes → onDisk s'.sb m = onDisk s.sb m)
    (hfind : inodeHashFind s'.hash m = inodeHashFind s.hash m) (hm : m ≠ nr) : SameInode s s' m where
  din := by
    rw [FileSystem.dinodes, FileSystem.dinodes]
    split_ifs with hmlt
    · exact value_congr (by rw [hfind]) (hdisk hmlt)
    · rfl
  blocks σ hne := by
    have hk : nr < 65536 := by
      simp only [nrInodes, nrInodeBlocks, inodesPerBlock] at hlt
      omega
    have hl := hF.counted.layout
    have hlo := ((h.sane m).range hne).1
    rw [hsb, (synced_frame (releaseInode_frame hl hk).layout hlt _).blocks _ (by omega),
      releaseInode_blocks hl hk (by omega), hF.blocks _ (by omega), if_neg]
    intro hmem
    obtain ⟨τ, hτ⟩ := hF.mine _ hmem
    rw [Int.toNat_of_nonneg (by omega)] at hτ
    -- no block of the other inode is one of those freed
    refine hm (h.kept.own.inj (n := m) (m := nr) (σ := σ) (τ := τ) hne ?_).1
    rw [InodeSt.ptr] at hτ
    dsimp only at hτ
    rw [hdin] at hτ
    exact hτ.symm
  size := by
    rw [hsb]
    refine le_trans hF.frame.size ?_
    exact le_trans (le_trans (le_max_left _ _) (le_max_left _ _)) (le_max_left _ _)

/-- The removal of a live inode with one reference. -/
theorem Sound.remove (h : Sound s live) (hlive : nr ∈ live) {ino : Inode}
    (hn : inodeHashFind s.hash nr = some ⟨ino, 1⟩) {out : List Event}
    (hrun : (testfsRemoveInode nr).run s = .ok ⟨(), s', out⟩) :
    StepOn nr none (live.erase nr) s s' := by
  have hlt := h.lt hn
  have hi : ino.iNr = nr := inodeHashFind_iNr hn
  have hdin : ino.din = s.dinodes nr := memory_din hn hlt
  have hkept := h.kept.remove hlive hrun
  have ho := h.kept.own_memory hn hlt
  have hsized := h.kept.sized_memory hn hlt
  have hset : s.sb.inodeFreemap.isset ino.iNr = true := by rwa [hi, h.kept.bits]
  have hpos := h.kept.used_pos hlive
  obtain ⟨_, s₁, _, ⟨_, s₂, _⟩, hclear, hput, hr⟩ := Program.bind_inv hrun
  obtain rfl : s' = s₂ := by
    cases hr
    rfl
  obtain ⟨n', st', hn', hwrite, -⟩ := onInode_inv hclear
  obtain rfl : (⟨ino, 1⟩ : HashNode) = n' := Option.some.inj (hn.symm.trans hn')
  have hino_lt : ino.iNr < nrInodes := by rwa [hi]
  obtain ⟨F, st₁, hF, hsb⟩ := (wp_clearInode_blocks ho hsized hino_lt hset hpos).of_ok hwrite
  have hcleared := (wp_clearInode ho hsized hino_lt hset hpos).of_ok hwrite
  dsimp only at hsb
  have hino : st'.ino = ⟨Dinode.zero, false, nr⟩ := hcleared.ino.trans (by rw [hi])
  obtain ⟨s₁', hrun₁, hsb₁, hmoved₁⟩ := onInode_moved hn hwrite (by rw [hino])
  rw [hclear] at hrun₁
  cases hrun₁
  obtain ⟨s₂', hrun₂, hsb₂, hmoved₂⟩ := testfsPutInode_moved hmoved₁.here (by rw [hino])
  rw [hput] at hrun₂
  cases hrun₂
  have hmoved : Moved nr none s s' := ⟨hmoved₂.curDir.trans hmoved₁.curDir, hmoved₂.here,
    fun m hm => (hmoved₂.others m hm).trans (hmoved₁.others m hm)⟩
  have hfinal : s'.sb = synced (st₁.sb.releaseInode nr) nr Dinode.zero := by
    rw [hsb₂, hsb₁, hsb, hi]
  have hsame : ∀ m, m ≠ nr → SameInode s s' m := fun m hm =>
    hF.sameInode h hdin hlt hfinal (fun hmlt => by
      rw [hsb₂, hsb₁, hcleared.onDisk m hmlt, hi, if_neg hm]) (hmoved.others m hm) hm
  refine ⟨⟨hkept, fun m => ?_⟩, hmoved, hsame⟩
  by_cases hm : m = nr
  · subst hm
    intro σ hne
    refine absurd ?_ hne
    have hzero : s'.dinodes m = Dinode.zero := by
      rw [dinodes_of_lt hlt]
      exact hkept.free m hlt (Finset.notMem_erase m live)
    change ptr (s'.dinodes m) _ σ = 0
    rw [hzero]
    exact ptr_zero σ
  · exact (hsame m hm).onDev (h.onDev m)

end Operations

end Ece344Lab.Fs
