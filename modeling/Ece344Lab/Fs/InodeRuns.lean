import Ece344Lab.Fs.Removal
import Ece344Lab.Fs.InodeMap
import Ece344Lab.Fs.InodeTable
import Ece344Lab.Fs.AllocatorRuns
import Ece344Lab.Fs.Holes

/-!
# Creating and removing inodes

`testfs_create_inode` and `testfs_remove_inode` in any order, with writes to the inodes between
them. An inode whose freemap bit is clear is all zero, in memory and on disk, because
`testfs_remove_inode` clears it and no write to another inode reaches it.
-/
namespace Ece344Lab.Fs

open Ece344Lab.Library

/-- What successful writes to the inode keep from the state `st₀` on. -/
structure Framed (D : Nat → Dinode) (st₀ st : InodeSt) : Prop where
  own : Own (st.inodes D) st.sb
  frame : DataFrame st₀.sb st.sb
  iNr : st.ino.iNr = st₀.ino.iNr
  iType : st.ino.din.iType = st₀.ino.din.iType

section Write

variable {D : Nat → Dinode} {st₀ st : InodeSt} {I : InodeSt → Prop} {buf : Nat → UInt8}
  {start blockNr blockIx : ℤ} {size : Nat}

/-- A condition that survives the allocation and the write of one block survives a write. -/
theorem wp_writeRest_keeps
    (hblock : ∀ (st : InodeSt) (l : ℤ), I st → Program.wp (testfsAllocateBlock l) st
      (fun a st₁ _ => 0 ≤ a.1 → ∀ b, I (st₁.write a.1.toNat b)) fun _ => True)
    (hgrow : Program.Preserves I (growSize start size)) (n : Nat) :
    ∀ (i : Nat) (rem : ℤ) (st : InodeSt), I st →
      Program.wp (writeRest buf start blockNr blockIx size n i rem) st
        (fun ret st' _ => 0 ≤ ret → I st') fun _ => True := by
  induction n with
  | zero => exact fun i rem st _ => trivial
  | succ n ih =>
    intro i rem st h
    rw [writeRest, Program.wp_bind]
    refine (hblock st _ h).imp fun a st₁ log ha => ?_
    obtain ⟨ret, block⟩ := a
    dsimp only at ha ⊢
    by_cases hneg : ret < 0
    · simp only [hneg, if_true]
      split <;> simp [setDin, setDirty, Program.wp_bind] <;> omega
    have hwrite := ha (by omega)
    rw [if_neg hneg, if_neg hneg]
    by_cases hbig : rem > blockSize
    · rw [if_pos hbig, Program.wp_bind, Program.wp_reads]
      refine ⟨fun b _ => ?_, fun _ _ => trivial⟩
      rw [Program.wp_bind, Program.wp_ok (writeBlock_run (by omega) b)]
      exact (ih (i + 1) (rem - blockSize) _ (hwrite b)).imp fun _ _ _ h => h
    · rw [if_neg hbig, Program.wp_bind, Program.wp_reads]
      refine ⟨fun b _ => ?_, fun _ _ => trivial⟩
      rw [Program.wp_bind, Program.wp_ok (writeBlock_run (by omega) b), Program.wp_bind]
      exact (hgrow _ (hwrite b)).imp fun _ _ _ h _ => h

theorem wp_testfsWriteData_keeps
    (hblock : ∀ (st : InodeSt) (l : ℤ), I st → Program.wp (testfsAllocateBlock l) st
      (fun a st₁ _ => 0 ≤ a.1 → ∀ b, I (st₁.write a.1.toNat b)) fun _ => True)
    (hgrow : Program.Preserves I (growSize start size)) (h : I st) :
    Program.wp (testfsWriteData buf start size) st (fun ret st' _ => 0 ≤ ret → I st')
      fun _ => True := by
  rw [testfsWriteData]
  dsimp only
  split
  all_goals
    rw [Program.wp_bind]
    refine (hblock st _ h).imp fun a st₁ log ha => ?_
    obtain ⟨ret, block⟩ := a
    dsimp only at ha ⊢
    by_cases hneg : ret < 0
    · rw [if_pos hneg, Program.wp_pure]
      omega
    have hwrite := ha (by omega)
    rw [if_neg hneg, Program.wp_bind, Program.wp_reads]
    refine ⟨fun b _ => ?_, fun _ _ => trivial⟩
    rw [Program.wp_bind, Program.wp_ok (writeBlock_run (by omega) b)]
  · exact (wp_writeRest_keeps hblock hgrow _ _ _ _ (hwrite b)).imp fun _ _ _ h => h
  · rw [Program.wp_bind]
    exact (hgrow _ (hwrite b)).imp fun _ _ _ h _ => h

theorem Framed.refl (ho : Own (st.inodes D) st.sb) : Framed D st st :=
  ⟨ho, .refl _, rfl, rfl⟩

theorem Framed.growSize : Program.Preserves (Framed D st₀) (growSize start size) := by
  have hdirty : Program.Preserves (Framed D st₀) setDirty :=
    .modify fun s h => ⟨h.own, h.frame, h.iNr, h.iType⟩
  rw [Fs.growSize]
  refine .ite (fun _ => .bind (.reads _) fun stop => .bind (.modify fun s h => ?_) fun _ => hdirty)
    fun _ => hdirty
  exact ⟨own_setSize h.own s.ino.din.iType _, h.frame, h.iNr, h.iType⟩

/-- A write to a block that the inode has. -/
theorem Framed.write {l : Nat} (h : Framed D st₀ st) (hne : st.ptr (.data l) ≠ 0) (b : Block) :
    Framed D st₀ (st.write (st.ptr (.data l)).toNat b) where
  own := own_write h.own hne b
  frame := by
    have hlo := (h.own.sane.range hne).1
    exact h.frame.trans (write_frame (by omega) b)
  iNr := h.iNr
  iType := h.iType

/-- The allocation of a block and a write to it. -/
theorem Framed.allocate (h : Framed D st₀ st) (l : ℤ) :
    Program.wp (testfsAllocateBlock l) st
      (fun a st₁ _ => 0 ≤ a.1 → ∀ b, Framed D st₀ (st₁.write a.1.toNat b)) fun _ => True := by
  have hbig : ¬ (0 : ℤ) ≤ -EFBIG := by decide
  have hnospc : ¬ (0 : ℤ) ≤ -ENOSPC := by decide
  by_cases hl0 : 0 ≤ l
  swap
  · have hrun : (testfsAllocateBlock l).run st = .error (.assertion .allocateBlockNrNonneg) := by
      rw [testfsAllocateBlock, Program.reads_bind, assertC_neg hl0]
      rfl
    rw [Program.wp_error hrun]
    trivial
  obtain ⟨l, rfl⟩ := Int.eq_ofNat_of_zero_le hl0
  by_cases hl : l < maxBlocks
  swap
  · rw [Program.wp_ok (testfsAllocateBlock_beyond (by omega))]
    exact fun hret => absurd hret hbig
  by_cases hdev : PathOnDev st.ino.din st.sb.dev l
  swap
  · rw [Program.wp_error (testfsAllocateBlock_short h.own.sane hl hdev)]
    trivial
  obtain ⟨p, st₁, log, hrun, hcase⟩ := testfsAllocateBlock_outcome h.own.sane hl hdev
  rw [Program.wp_ok hrun]
  intro hret b
  cases hcase with
  | mapped hne => exact h.write hne b
  | beyond _ => exact absurd hret hbig
  | full _ _ _ _ => exact absurd hret hnospc
  | partly _ _ _ _ _ _ _ _ _ => exact absurd hret hnospc
  | filled _ _ hf hp =>
    have hframed : Framed D st₀ st₁ :=
      ⟨hf.own h.own, h.frame.trans hf.took.frame, hf.took.iNr.trans h.iNr, hf.took.iType.trans h.iType⟩
    have hwrite := hframed.write (hf.ptr_ne_zero (mem_path_data l)) b
    rwa [hp] at hwrite

/-- A successful write keeps everything but the blocks and the size of the file. -/
theorem wp_testfsWriteData_framed (ho : Own (st.inodes D) st.sb) :
    Program.wp (testfsWriteData buf start size) st (fun ret st' _ => 0 ≤ ret → Framed D st st')
      fun _ => True :=
  wp_testfsWriteData_keeps (fun _ l h => h.allocate l) Framed.growSize (.refl ho)

end Write

/-- The inodes of the file system, as their users see them. -/
def FileSystem.dinodes (s : FileSystem) (nr : Nat) : Dinode :=
  if nr < nrInodes then s.value nr else Dinode.zero

/-- The size of a file fits, and tells whether it has a double indirect table. -/
structure Sized (d : Dinode) : Prop where
  nonneg : 0 ≤ d.iSize
  le_max : d.iSize ≤ maxFileSize
  dind : 2058 * 8192 < d.iSize → d.iDindirect ≠ 0

/-- A call that creates, removes or uses inodes; `table` is a call on the inode table. -/
inductive InodeUse
  | create (type : InodeType)
  | remove (nr : Nat)
  | write (nr : Nat) (buf : Nat → UInt8) (start size : Nat)
  | table (call : InodeCall)

/-- Runs on a new file system with no inode in memory at first. The second component holds the
live inodes, those created and not removed since. Writes are successful writes within the maximum
file size to live inodes; inodes are read, put and synchronized in between. -/
def inodeRuns : System (FileSystem × Finset ℕ) InodeUse where
  start c := (∃ maxFsBlocks < 2 ^ 64, testfsInitSuperBlock (testfsMakeDev maxFsBlocks) = .ok c.1.sb) ∧
    c.1.hash = inodeHashInit ∧ c.2 = ∅
  step c call c' := match call with
    | .create type => ∃ ret nr out, (testfsCreateInode type).run c.1 = .ok ⟨(ret, nr), c'.1, out⟩ ∧
        c'.2 = if ret < 0 then c.2 else insert nr c.2
    | .remove nr => nr ∈ c.2 ∧ (∃ out, (testfsRemoveInode nr).run c.1 = .ok ⟨(), c'.1, out⟩) ∧
        c'.2 = c.2.erase nr
    | .write nr buf start size => nr ∈ c.2 ∧ start + size ≤ maxFileSize ∧
        (∃ ret out, (onInode nr (testfsWriteData buf start size)).run c.1 = .ok ⟨ret, c'.1, out⟩ ∧
          0 ≤ ret) ∧ c'.2 = c.2
    | .table call => (∀ nr d, call ≠ .modify nr d) ∧ inodeTable.step c.1 call c'.1 ∧ c'.2 = c.2

/-- What holds in every state reached: the freemap and the count give the live inodes, all others
are zero, and the blocks are accounted for. -/
structure InodesKept (s : FileSystem) (live : Finset ℕ) : Prop where
  cached : Cached s
  own : Own s.dinodes s.sb
  bits : ∀ k, s.sb.inodeFreemap.isset k = true ↔ k ∈ live
  lt : ∀ k ∈ live, k < nrInodes
  count : s.sb.sb.usedInodeCount = live.card
  free : ∀ nr, nr < nrInodes → nr ∉ live → s.value nr = Dinode.zero
  sized : ∀ nr, nr < nrInodes → Sized (s.value nr)

section Runs

variable {s s' : FileSystem} {live : Finset ℕ} {nr m : Nat}

/-- The values of the inodes decide what the file system's inodes are. -/
theorem dinodes_congr (h : ∀ m, m < nrInodes → s'.value m = s.value m) : s'.dinodes = s.dinodes := by
  funext m
  rw [FileSystem.dinodes, FileSystem.dinodes]
  split_ifs with hm
  · exact h m hm
  · rfl

/-- A change that the users of the inodes do not see. -/
theorem InodesKept.congr (h : InodesKept s live) (hcached : Cached s')
    (hvalue : ∀ m, m < nrInodes → s'.value m = s.value m) (hframe : MapFrame s.sb s'.sb)
    (hmap : s'.sb.inodeFreemap = s.sb.inodeFreemap)
    (hcount : s'.sb.sb.usedInodeCount = s.sb.sb.usedInodeCount) : InodesKept s' live where
  cached := hcached
  own := by
    rw [dinodes_congr hvalue]
    exact hframe.own h.own
  bits k := by rw [hmap, h.bits]
  lt := h.lt
  count := hcount.trans h.count
  free m hm hnot := (hvalue m hm).trans (h.free m hm hnot)
  sized m hm := hvalue m hm ▸ h.sized m hm

theorem synced_frame {sb : SuperBlock} (hl : Layout sb) (hnr : nr < nrInodes) (d : Dinode) :
    MapFrame sb (synced sb nr d) where
  layout := layout_synced hl nr d
  blockFreemap := rfl
  dataBlocksStart := rfl
  used := rfl
  blocks n hn := by
    simp only [nrInodes, nrInodeBlocks, inodesPerBlock] at hnr
    exact Dev.write_blocks_ne _ _ (by omega)

/-- Taking and dropping references does not touch the super block. -/
theorem testfsGetInode_sb (hl : Layout s.sb) (hnr : nr < nrInodes) {out : List Event}
    (hrun : (testfsGetInode nr).run s = .ok ⟨(), s', out⟩) : s'.sb = s.sb := by
  obtain ⟨s₁, heq, hsb, -⟩ := get_spec hl hnr
  rw [heq] at hrun
  cases hrun
  exact hsb

theorem testfsPutInode_sb {out : List Event}
    (hrun : (testfsPutInode nr).run s = .ok ⟨(), s', out⟩) : s'.sb = s.sb := by
  cases hn : inodeHashFind s.hash nr with
  | none =>
    rw [testfsPutInode_none hn] at hrun
    cases hrun
  | some n =>
    cases hdirty : n.inode.dirty with
    | true =>
      rw [testfsPutInode_dirty hn hdirty] at hrun
      cases hrun
    | false =>
      rw [testfsPutInode_clean hn hdirty] at hrun
      cases hrun
      rfl

/-- A sync changes the super block only where inodes lie. -/
theorem sync_frame (h : Cached s) {out : List Event}
    (hrun : (onInode nr testfsSyncInode).run s = .ok ⟨(), s', out⟩) :
    MapFrame s.sb s'.sb ∧ s'.sb.inodeFreemap = s.sb.inodeFreemap ∧
      s'.sb.sb.usedInodeCount = s.sb.sb.usedInodeCount := by
  obtain ⟨n, st', hn, hsync, hsb, -⟩ := onInode_inv hrun
  have hi : n.inode.iNr = nr := inodeHashFind_iNr hn
  rw [hsb]
  cases hdirty : n.inode.dirty with
  | false =>
    have heq := @testfsSyncInode_clean ⟨s.sb, n.inode⟩ hdirty
    rw [heq] at hsync
    cases hsync
    exact ⟨.refl h.layout, rfl, rfl⟩
  | true =>
    have hnr := (h.node nr n hn).1
    have heq := @testfsSyncInode_dirty ⟨s.sb, n.inode⟩ h.layout (hi ▸ hnr) hdirty
    rw [heq] at hsync
    cases hsync
    exact ⟨synced_frame h.layout (hi ▸ hnr) _, rfl, rfl⟩

/-- The inode table: only a sync changes the super block. -/
theorem InodesKept.table (h : InodesKept s live) {call : InodeCall}
    (hcall : ∀ nr d, call ≠ .modify nr d) (hstep : inodeTable.step s call s') :
    InodesKept s' live := by
  obtain ⟨hcached, hvalue⟩ := h.cached.step hstep
  have hsame : ∀ m, m < nrInodes → s'.value m = s.value m := fun m _ => hvalue m fun d => hcall m d
  have hl := h.cached.layout
  have hkeep : s'.sb = s.sb → InodesKept s' live := fun hsb =>
    h.congr hcached hsame (by rw [hsb]; exact .refl hl) (by rw [hsb]) (by rw [hsb])
  obtain ⟨allowed, out, hrun⟩ := hstep
  cases call with
  | get nr => exact hkeep (testfsGetInode_sb hl allowed hrun)
  | modify nr d => exact absurd rfl (hcall nr d)
  | sync nr =>
    obtain ⟨hframe, hmap, hcount⟩ := sync_frame h.cached hrun
    exact h.congr hcached hsame hframe hmap hcount
  | put nr => exact hkeep (testfsPutInode_sb hrun)

theorem onDisk_congr {sb sb' : SuperBlock} (h : ∀ n, 18 ≤ n → sb'.dev.blocks n = sb.dev.blocks n)
    (m : Nat) : onDisk sb' m = onDisk sb m := by
  rw [onDisk, onDisk, h _ (by omega)]

theorem sized_created (type : InodeType) : Sized (created type) :=
  ⟨le_refl (0 : ℤ), show (0 : ℤ) ≤ maxFileSize by decide,
    fun h => absurd (show (2058 * 8192 : ℤ) < 0 from h) (by decide)⟩

/-- The state after an inode was taken from the freemap: it is the one with the lowest number. -/
theorem onSuper_get (h : InodesKept s live) :
    ∃ k, k < 65536 ∧ k ∉ live ∧ (∀ j, j < k → j ∈ live) ∧
      (onSuper testfsGetInodeFreemap).run s = .ok ⟨k, { s with sb := s.sb.takeInode k }, []⟩ := by
  rcases testfsGetInodeFreemap_cases h.cached.layout with ⟨k, hk, hclear, hleast, hrun⟩ | ⟨hall, -⟩
  · refine ⟨k, hk, fun hmem => ?_, fun j hj => (h.bits j).mp (hleast j hj), Program.zoom_run hrun⟩
    rw [(h.bits k).mpr hmem] at hclear
    cases hclear
  · -- bit 16384 is the bit of no inode
    have hbit := h.lt _ ((h.bits 16384).mp (hall 16384 (by norm_num)))
    exact absurd hbit (by decide)

/-- Fewer live inodes than there are slots: the lowest free number is that of a slot. -/
theorem lowest_lt (hlt : live.card < nrInodes) {k : Nat}
    (hleast : ∀ j, j < k → j ∈ live) : k < nrInodes := by
  have hcard : live.card < (Finset.range nrInodes).card := by rwa [Finset.card_range]
  obtain ⟨j, hj, hnot⟩ := Finset.exists_mem_notMem_of_card_lt_card hcard
  rw [Finset.mem_range] at hj
  by_contra hge
  exact hnot (hleast j (by omega))

/-- The inode that `testfs_create_inode` marks in the freemap is read and gets its type. -/
theorem InodesKept.insert (h : InodesKept s live) {k : Nat} (hk : k < nrInodes) (hnew : k ∉ live)
    {sb : SuperBlock} (hsb : sb = s.sb.takeInode k) (hcached : Cached s') (hsb' : s'.sb = sb)
    (type : InodeType)
    (hvalue : ∀ m, m < nrInodes → s'.value m = if m = k then created type else s.value m) :
    InodesKept s' (insert k live) := by
  have hk' : k < 65536 := by
    simp only [nrInodes, nrInodeBlocks, inodesPerBlock] at hk
    omega
  have hsame : s'.sb = s.sb.takeInode k := hsb'.trans hsb
  have hzero := h.free k hk hnew
  have hdinodes : ∀ n, s'.dinodes n =
      if n = k then { s.dinodes n with iType := type.val } else s.dinodes n := by
    intro n
    rw [FileSystem.dinodes, FileSystem.dinodes]
    by_cases hn : n = k
    · rw [if_pos hn, hn, if_pos hk, if_pos hk, hvalue k hk, if_pos rfl, hzero]
      rfl
    · rw [if_neg hn]
      split_ifs with hlt
      · rw [hvalue n hlt, if_neg hn]
      · rfl
  constructor
  · exact hcached
  · rw [hsame]
    refine h.own.congr (takeInode_frame h.cached.layout hk') (fun n blk σ => ?_) fun n => ?_
    · rw [hdinodes]
      split_ifs
      · exact ptr_setSize _ _ _ _ _
      · rfl
    · rw [hdinodes]
      split_ifs
      · rfl
      · rfl
  · intro j
    rw [hsame]
    change (s.sb.inodeFreemap.setBit k).isset j = true ↔ _
    rw [Bitmap.isset_setBit, Bool.or_eq_true, h.bits, decide_eq_true_eq, Finset.mem_insert, or_comm]
  · intro j hj
    rcases Finset.mem_insert.mp hj with rfl | hj
    · exact hk
    · exact h.lt j hj
  · rw [hsame, Finset.card_insert_of_notMem hnew, ← h.count]
    rfl
  · intro n hn hnot
    rw [Finset.mem_insert, not_or] at hnot
    rw [hvalue n hn, if_neg hnot.1]
    exact h.free n hn hnot.2
  · intro n hn
    rw [hvalue n hn]
    split_ifs
    · exact sized_created type
    · exact h.sized n hn

/-- The steps of `testfs_create_inode` when the number taken is that of a slot. -/
theorem testfsCreateInode_steps {s₁ s₂ s₃ : FileSystem} {k : Nat} {type : InodeType}
    (htake : (onSuper testfsGetInodeFreemap).run s = .ok ⟨k, s₁, []⟩) (hk : k < nrInodes)
    (hget : (testfsGetInode k).run s₁ = .ok ⟨(), s₂, []⟩)
    (hset : (onInode k do
      setDin fun d => { d with iType := type.val }
      setDirty).run s₂ = .ok ⟨(), s₃, []⟩) :
    (testfsCreateInode type).run s = .ok ⟨(0, k), s₃, []⟩ := by
  have hneg : ¬ (k : ℤ) < 0 := by omega
  have hslot : ¬ k / inodesPerBlock ≥ nrInodeBlocks := by
    simp only [nrInodes, nrInodeBlocks, inodesPerBlock] at hk ⊢
    omega
  rw [testfsCreateInode, Program.bind_run_nil htake, if_neg hneg, Int.toNat_natCast,
    if_neg hslot, Program.bind_run_nil hget, Program.bind_run_nil hset, Program.pure_run]

/-- `testfs_create_inode` with a slot left. -/
theorem testfsCreateInode_fresh (h : InodesKept s live) (type : InodeType)
    (hlt : live.card < nrInodes) :
    ∃ k s' n, (testfsCreateInode type).run s = .ok ⟨(0, k), s', []⟩ ∧ k < nrInodes ∧ k ∉ live ∧
      inodeHashFind s'.hash k = some n ∧ n.inode.din = created type ∧
      InodesKept s' (insert k live) := by
  obtain ⟨k, hk', hnew, hleast, htake⟩ := onSuper_get h
  have hk := lowest_lt hlt hleast
  have hzero := h.free k hk hnew
  have hl := h.cached.layout
  obtain ⟨hcached₁, hvalue₁⟩ := h.cached.withSuper (takeInode_frame hl hk').layout fun m _ =>
    onDisk_congr (fun n hn => takeInode_blocks hl hk' hn) m
  obtain ⟨s₂, hget, hsb₂, -, hmemory, hload⟩ := get_spec hcached₁.layout hk
  obtain ⟨hcached₂, hvalue₂⟩ := hcached₁.get hk hget
  obtain ⟨n₂, hn₂⟩ : ∃ n₂, inodeHashFind s₂.hash k = some n₂ := by
    cases hn : inodeHashFind s.hash k with
    | none => exact ⟨_, hload hn⟩
    | some n => exact ⟨_, hmemory n hn⟩
  have hdin : n₂.inode.din = Dinode.zero := by
    rw [← value_memory hn₂, hvalue₂, hvalue₁ k hk, hzero]
  have hi : n₂.inode.iNr = k := inodeHashFind_iNr hn₂
  obtain ⟨ino, hino⟩ : ∃ ino : Inode, ino = ⟨created type, true, k⟩ := ⟨_, rfl⟩
  obtain ⟨hcached₃, hvalue₃⟩ := hcached₂.replace hn₂ s₂.sb ino hcached₂.layout (by rw [hino])
    (by rw [hino]; exact fits_created type) (by rw [hino]; exact fun h => by cases h) fun _ _ => rfl
  have hset := onInode_run (p := do
      setDin fun d => { d with iType := type.val }
      setDirty) (r := ⟨(), ⟨s₂.sb, ino⟩, []⟩) hn₂ (by
    rw [setDin_bind, hino, created, ← hdin, ← hi]
    rfl)
  have hfind := inodeHashFind_modify (f := fun n => { n with inode := ino })
    (fun _ _ => (by rw [hino] : ino.iNr = k)) s₂.hash k
  rw [if_pos rfl, hn₂, Option.map_some] at hfind
  refine ⟨k, _, _, testfsCreateInode_steps htake hk hget hset, hk, hnew, hfind, by rw [hino],
    h.insert hk hnew hsb₂ hcached₃ rfl type fun m hm => ?_⟩
  rw [hvalue₃]
  split_ifs
  · rw [hino]
  · rw [hvalue₂, hvalue₁ m hm]

/-- `testfs_create_inode` with every slot taken: bit 16384 is taken and given back. -/
theorem testfsCreateInode_full (h : InodesKept s live) (type : InodeType)
    (hfull : nrInodes ≤ live.card) :
    ∃ s', (testfsCreateInode type).run s = .ok ⟨(-ENOSPC, 0), s', []⟩ ∧
      s'.sb.inodeFreemap = s.sb.inodeFreemap ∧
      s'.sb.sb.usedInodeCount = s.sb.sb.usedInodeCount ∧ InodesKept s' live := by
  obtain ⟨k, hk', hnew, hleast, htake⟩ := onSuper_get h
  have hl := h.cached.layout
  have hlive : live = Finset.range nrInodes := by
    refine Finset.eq_of_subset_of_card_le (fun j hj => Finset.mem_range.mpr (h.lt j hj)) ?_
    rwa [Finset.card_range]
  have hk : nrInodes ≤ k := by
    rw [hlive, Finset.mem_range] at hnew
    omega
  have hclear : s.sb.inodeFreemap.isset k = false := by
    by_contra hset
    rw [Bool.not_eq_false, h.bits] at hset
    exact hnew hset
  have hset : (s.sb.takeInode k).inodeFreemap.isset k = true := by
    change (s.sb.inodeFreemap.setBit k).isset k = true
    simp [Bitmap.isset_setBit]
  have hframe := takeInode_frame hl hk'
  have hframe' := releaseInode_frame hframe.layout hk'
  have hput := testfsPutInodeFreemap_run hframe.layout hk' hset (Nat.succ_pos _)
  obtain ⟨hmap, hcount⟩ := releaseInode_takeInode (s := s.sb) hclear
  obtain ⟨hcached, hvalue⟩ := h.cached.withSuper hframe'.layout fun m _ =>
    onDisk_congr (fun n hn => (releaseInode_blocks hframe.layout hk' hn).trans
      (takeInode_blocks hl hk' hn)) m
  refine ⟨{ s with sb := (s.sb.takeInode k).releaseInode k }, ?_, hmap, hcount,
    h.congr hcached hvalue (hframe.trans hframe') hmap hcount⟩
  have hneg : ¬ (k : ℤ) < 0 := by omega
  have hslot : k / inodesPerBlock ≥ nrInodeBlocks := by
    simp only [nrInodes, nrInodeBlocks, inodesPerBlock] at hk ⊢
    omega
  have hundo : (onSuper (testfsPutInodeFreemap k)).run { s with sb := s.sb.takeInode k } =
      .ok ⟨(), { s with sb := (s.sb.takeInode k).releaseInode k }, []⟩ := Program.zoom_run hput
  rw [testfsCreateInode, Program.bind_run_nil htake, if_neg hneg, Int.toNat_natCast,
    if_pos hslot, Program.bind_run_nil hundo, Program.pure_run]

/-- The inode in memory is one of the file system's. -/
theorem inodes_memory {n : HashNode} (hn : inodeHashFind s.hash nr = some n) (hnr : nr < nrInodes) :
    InodeSt.inodes ⟨s.sb, n.inode⟩ s.dinodes = s.dinodes := by
  have hi : n.inode.iNr = nr := inodeHashFind_iNr hn
  refine Function.update_eq_self_iff.mpr ?_
  change n.inode.din = s.dinodes n.inode.iNr
  rw [hi, FileSystem.dinodes, if_pos hnr, value_memory hn]

theorem InodesKept.own_memory (h : InodesKept s live) {n : HashNode}
    (hn : inodeHashFind s.hash nr = some n) (hnr : nr < nrInodes) :
    Own (InodeSt.inodes ⟨s.sb, n.inode⟩ s.dinodes) s.sb := by
  rw [inodes_memory hn hnr]
  exact h.own

theorem InodesKept.sized_memory (h : InodesKept s live) {n : HashNode}
    (hn : inodeHashFind s.hash nr = some n) (hnr : nr < nrInodes) : Sized n.inode.din := by
  rw [← value_memory hn]
  exact h.sized nr hnr

theorem InodesKept.used_pos (h : InodesKept s live) (hnr : nr ∈ live) :
    0 < s.sb.sb.usedInodeCount := by
  rw [h.count]
  exact Finset.card_pos.mpr ⟨nr, hnr⟩

/-- The fields of an inode whose blocks are accounted for can be stored. -/
theorem fits_of_own {D : Nat → Dinode} {st : InodeSt} (ho : Own (st.inodes D) st.sb)
    (htype : -2 ^ 31 ≤ st.ino.din.iType ∧ st.ino.din.iType < 2 ^ 31) (hsize : Sized st.ino.din) :
    st.ino.din.Fits where
  word j := by
    have hptr : ∀ σ, -2 ^ 31 ≤ st.ptr σ ∧ st.ptr σ < 2 ^ 31 := by
      intro σ
      by_cases hz : st.ptr σ = 0
      · rw [hz]
        norm_num
      · have hrange := ho.sane.range hz
        constructor <;> omega
    have hcount := ho.accounts.count st.ino.iNr
    rw [inodes_self] at hcount
    have hcard : st.sb.inUse.card ≤ 1048576 := by
      rw [SuperBlock.card_inUse, ← ho.layout.blockBits]
      exact (Finset.card_filter_le _ _).trans_eq (Finset.card_range _)
    have hshare : (share Prod.fst (ptrs (st.inodes D) st.sb.dev.blocks) st.sb.inUse
        st.ino.iNr).card ≤ 1048576 :=
      (Finset.card_le_card fun p hp => ((mem_share _ _).mp hp).1).trans hcard
    rw [Dinode.word]
    split_ifs with h0 h10 h11 h12
    · exact htype
    · have hslot := hptr (.data (j - 1))
      rwa [InodeSt.ptr, ptr_direct (by omega)] at hslot
    · exact hptr .ind
    · exact hptr .dind
    · constructor <;> omega
  iSize := by
    have hlo := hsize.nonneg
    have hhi := hsize.le_max
    simp only [maxFileSize] at hhi
    constructor <;> omega

/-- The size after a successful write. -/
theorem sized_grow {D : Nat → Dinode} {st st₁ : InodeSt} {start size : Nat} {f : Nat → UInt8}
    (hsize : Sized st.ino.din) (hend : start + size ≤ maxFileSize)
    (hw : Wrote D st st₁ start (start + size) f) : Sized (st₁.grow start size).ino.din := by
  have hsame := hw.keeps.iSize
  have hlo := hsize.nonneg
  have hhi := hsize.le_max
  have hgrow : (st₁.grow start size).ino.din.iSize =
      if 0 < size then max st.ino.din.iSize (start + size : ℕ) else st.ino.din.iSize := by
    rw [← hsame]
    rfl
  simp only [maxFileSize] at hend hhi
  constructor
  · rw [hgrow]
    split_ifs <;> omega
  · rw [hgrow]
    simp only [maxFileSize]
    split_ifs <;> omega
  · intro hbig
    change st₁.ptr .dind ≠ 0
    by_cases hold : 2058 * 8192 < st.ino.din.iSize
    · have hdind : st.ptr .dind ≠ 0 := hsize.dind hold
      rwa [hw.keeps.ptr .dind hdind]
    · -- the last byte written lies behind the double indirect table
      rw [hgrow] at hbig
      split_ifs at hbig with hpos
      · have hstop : 2058 * 8192 < start + size := by omega
        have hlast := hw.inside (start + size - 1) (by omega) (by omega)
        refine ptr_path_ne_zero hlast.mapped ?_
        rw [path_double (by omega)]
        simp
      · exact absurd hbig hold

theorem dinodes_replaced {d : Dinode} (hnr : nr < nrInodes)
    (hvalue : ∀ m, m < nrInodes → s'.value m = if m = nr then d else s.value m) :
    s'.dinodes = Function.update s.dinodes nr d := by
  funext m
  by_cases hm : m = nr
  · rw [hm, Function.update_self, FileSystem.dinodes, if_pos hnr, hvalue nr hnr, if_pos rfl]
  · rw [Function.update_of_ne hm, FileSystem.dinodes, FileSystem.dinodes]
    split_ifs with hlt
    · rw [hvalue m hlt, if_neg hm]
    · rfl

/-- The inode blocks are no data blocks. -/
theorem onDisk_frame {sb sb' : SuperBlock} (h : DataFrame sb sb') (hm : m < nrInodes) :
    onDisk sb' m = onDisk sb m := by
  simp only [nrInodes, nrInodeBlocks, inodesPerBlock] at hm
  rw [onDisk, onDisk, h.inodeBlocks _ (by omega) (by omega)]

/-- A successful write to a live inode. -/
theorem InodesKept.write (h : InodesKept s live) {buf : Nat → UInt8} {start size : Nat}
    (hnr : nr ∈ live) (hend : start + size ≤ maxFileSize) {ret : ℤ} {out : List Event}
    (hrun : (onInode nr (testfsWriteData buf start size)).run s = .ok ⟨ret, s', out⟩)
    (hret : 0 ≤ ret) : InodesKept s' live := by
  obtain ⟨n, st', hn, hwrite, -⟩ := onInode_inv hrun
  have hlt := h.lt nr hnr
  have hi : n.inode.iNr = nr := inodeHashFind_iNr hn
  rw [onInode_run hn hwrite] at hrun
  cases hrun
  obtain ⟨st, hst⟩ : ∃ st : InodeSt, st = ⟨s.sb, n.inode⟩ := ⟨_, rfl⟩
  rw [← hst] at hwrite
  have ho : Own (st.inodes s.dinodes) st.sb := by
    rw [hst]
    exact h.own_memory hn hlt
  have hsized : Sized st.ino.din := by
    rw [hst]
    exact h.sized_memory hn hlt
  have hframed := (wp_testfsWriteData_framed ho).of_ok hwrite hret
  obtain ⟨-, st₁, hw, hgrow⟩ := (wp_testfsWriteData buf ho hend).of_ok hwrite hret
  dsimp only at hframed hgrow
  have hsized' : Sized st'.ino.din := by
    rw [hgrow]
    exact sized_grow hsized hend hw
  have hi' : st'.ino.iNr = nr := by
    rw [hframed.iNr, hst]
    exact hi
  have htype : -2 ^ 31 ≤ st'.ino.din.iType ∧ st'.ino.din.iType < 2 ^ 31 := by
    rw [hframed.iType, hst]
    exact (h.cached.node nr n hn).2.1.word 0
  have hdirty : st'.ino.dirty = true := by
    rw [hgrow]
    rfl
  have hfits := fits_of_own hframed.own htype hsized'
  have hframe : DataFrame s.sb st'.sb := by
    have hframe := hframed.frame
    rwa [hst] at hframe
  have hdisk : ∀ m, m < nrInodes → onDisk st'.sb m = onDisk s.sb m := fun m hm =>
    onDisk_frame hframe hm
  have hvalue := fun m (hm : m < nrInodes) =>
    value_replaced hn st'.sb st'.ino hi' m fun _ => hdisk m hm
  constructor
  · refine h.cached.replaced hn st'.sb st'.ino hframed.own.layout hi' hfits (fun hclean => ?_)
      fun m _ hm => hdisk m hm
    rw [hdirty] at hclean
    cases hclean
  · have hown := hframed.own
    rw [InodeSt.inodes, hi'] at hown
    rw [dinodes_replaced hlt hvalue]
    exact hown
  · intro k
    rw [hframe.inodeFreemap, h.bits]
  · exact h.lt
  · exact hframe.usedInodeCount.trans h.count
  · intro m hm hnot
    have hne : m ≠ nr := fun heq => hnot (heq.symm ▸ hnr)
    rw [hvalue m hm, if_neg hne]
    exact h.free m hm hnot
  · intro m hm
    rw [hvalue m hm]
    split_ifs
    · exact hsized'
    · exact h.sized m hm

theorem fits_zero : Dinode.zero.Fits := fits_created .none

theorem sized_zero : Sized Dinode.zero := sized_created .none

/-- What `testfs_remove_inode` has done before it drops the reference. -/
structure Cleared (D : Nat → Dinode) (st st' : InodeSt) : Prop where
  own : Own (Function.update D st.ino.iNr Dinode.zero) st'.sb
  ino : st'.ino = ⟨Dinode.zero, false, st.ino.iNr⟩
  inodeFreemap : st'.sb.inodeFreemap = st.sb.inodeFreemap.clearBit st.ino.iNr
  count : st'.sb.sb.usedInodeCount = st.sb.sb.usedInodeCount - 1
  onDisk : ∀ m, m < nrInodes →
    Fs.onDisk st'.sb m = if m = st.ino.iNr then Dinode.zero else Fs.onDisk st.sb m

theorem wp_clearInode {D : Nat → Dinode} {st : InodeSt} (ho : Own (st.inodes D) st.sb)
    (hsize : Sized st.ino.din) (hnr : st.ino.iNr < nrInodes)
    (hset : st.sb.inodeFreemap.isset st.ino.iNr = true) (hpos : 0 < st.sb.sb.usedInodeCount) :
    Program.wp clearInode st (fun _ st' _ => Cleared D st st') fun _ => True := by
  rw [clearInode, Program.wp_bind]
  refine (wp_testfsFreeBlocks ho.sane hsize.nonneg hsize.le_max hsize.dind).imp
    fun _ st₁ _ hfreed => ?_
  obtain ⟨F, hF⟩ := hfreed
  rw [Program.wp_bind, Program.wp_reads]
  refine ⟨fun _ hassert => ?_, fun _ _ => trivial⟩
  have hcount : st₁.ino.din.blockCount = 0 := by
    by_contra hne
    rw [assertC_neg hne] at hassert
    cases hassert
  have hk : st.ino.iNr < 65536 := by
    simp only [nrInodes, nrInodeBlocks, inodesPerBlock] at hnr
    omega
  have hl := hF.counted.layout
  have hput := testfsPutInodeFreemap_run hl hk (by rw [hF.frame.inodeFreemap]; exact hset)
    (by rw [hF.frame.usedInodeCount]; exact hpos)
  have hrelease := releaseInode_frame hl hk
  have hsync : testfsSyncInode.run ⟨st₁.sb.releaseInode st.ino.iNr, ⟨Dinode.zero, true, st.ino.iNr⟩⟩ =
      .ok ⟨(), ⟨synced (st₁.sb.releaseInode st.ino.iNr) st.ino.iNr Dinode.zero,
        ⟨Dinode.zero, false, st.ino.iNr⟩⟩, []⟩ := testfsSyncInode_dirty hrelease.layout hnr rfl
  have hput' : (onSb (testfsPutInodeFreemap st.ino.iNr)).run
      ⟨st₁.sb, ⟨Dinode.zero, true, st.ino.iNr⟩⟩ =
      .ok ⟨(), ⟨st₁.sb.releaseInode st.ino.iNr, ⟨Dinode.zero, true, st.ino.iNr⟩⟩, []⟩ := onSb_run hput
  have hrun : (do
      setDin fun _ => Dinode.zero
      setDirty
      let s ← Program.get
      onSb (testfsPutInodeFreemap s.ino.iNr)
      testfsSyncInode).run st₁ = .ok ⟨(), ⟨synced (st₁.sb.releaseInode st.ino.iNr) st.ino.iNr
        Dinode.zero, ⟨Dinode.zero, false, st.ino.iNr⟩⟩, []⟩ := by
    rw [setDin_bind, setDirty_bind, Program.get_bind]
    dsimp only
    rw [hF.iNr, Program.bind_run_nil hput']
    exact hsync
  rw [Program.wp_ok hrun]
  have hsynced := synced_frame hrelease.layout hnr Dinode.zero
  constructor
  · exact (hrelease.trans hsynced).own (hF.own ho hcount)
  · rfl
  · change st₁.sb.inodeFreemap.clearBit st.ino.iNr = _
    rw [hF.frame.inodeFreemap]
  · change st₁.sb.sb.usedInodeCount - 1 = _
    rw [hF.frame.usedInodeCount]
  · intro m hm
    rw [onDisk_synced _ fits_zero, onDisk_congr (fun n hn => releaseInode_blocks hl hk hn),
      onDisk_frame hF.frame hm]

/-- The removal of a live inode. -/
theorem InodesKept.remove (h : InodesKept s live) (hnr : nr ∈ live) {out : List Event}
    (hrun : (testfsRemoveInode nr).run s = .ok ⟨(), s', out⟩) : InodesKept s' (live.erase nr) := by
  obtain ⟨u, s₁, log, ⟨u', s₂, log'⟩, hclear, hput, hr⟩ := Program.bind_inv hrun
  obtain rfl : s' = s₂ := by
    cases hr
    rfl
  obtain ⟨n, st', hn, hwrite, -⟩ := onInode_inv hclear
  have hlt := h.lt nr hnr
  have hi : n.inode.iNr = nr := inodeHashFind_iNr hn
  rw [onInode_run hn hwrite] at hclear
  cases hclear
  have hset : s.sb.inodeFreemap.isset n.inode.iNr = true := by rwa [hi, h.bits]
  have hcleared := (@wp_clearInode s.dinodes ⟨s.sb, n.inode⟩ (h.own_memory hn hlt)
    (h.sized_memory hn hlt) (by rwa [hi]) hset (h.used_pos hnr)).of_ok hwrite
  obtain ⟨hown, hino, hmap, hcount, hdisk⟩ := hcleared
  dsimp only at hown hino hmap hcount hdisk
  rw [hi] at hown hino hmap hdisk
  have hother : ∀ m, m ≠ nr → m < nrInodes → onDisk st'.sb m = onDisk s.sb m := fun m hm hlt =>
    (hdisk m hlt).trans (if_neg hm)
  have hcached := h.cached.replaced hn st'.sb st'.ino hown.layout (by rw [hino])
    (by rw [hino]; exact fits_zero) (fun _ => by rw [hino, hdisk nr hlt, if_pos rfl]) hother
  obtain ⟨hcached', hvalue'⟩ := hcached.put hput
  have hvalue : ∀ m, m < nrInodes → s'.value m = if m = nr then Dinode.zero else s.value m := by
    intro m hm
    rw [hvalue', value_replaced hn st'.sb st'.ino (by rw [hino]) m fun hne => hother m hne hm, hino]
  have hsb : s'.sb = st'.sb := testfsPutInode_sb hput
  constructor
  · exact hcached'
  · rw [dinodes_replaced hlt hvalue, hsb]
    exact hown
  · intro k
    rw [hsb, hmap, Bitmap.isset_clearBit, Bool.and_eq_true, h.bits, Bool.not_eq_true',
      decide_eq_false_iff_not, Finset.mem_erase, and_comm]
  · exact fun k hk => h.lt k (Finset.mem_of_mem_erase hk)
  · rw [hsb, hcount, h.count, Finset.card_erase_of_mem hnr]
  · intro m hm hnot
    rw [hvalue m hm]
    split_ifs with heq
    · rfl
    · exact h.free m hm fun hmem => hnot (Finset.mem_erase.mpr ⟨heq, hmem⟩)
  · intro m hm
    rw [hvalue m hm]
    split_ifs
    · exact sized_zero
    · exact h.sized m hm

/-- On a new file system every inode is zero. -/
theorem onDisk_new (maxFsBlocks m : Nat) : onDisk (newSuperBlock maxFsBlocks) m = Dinode.zero := by
  have hblock : (newSuperBlock maxFsBlocks).dev.blocks (18 + m / 128) = Block.zero :=
    testfsMakeDev_blocks maxFsBlocks (by omega)
  rw [onDisk, hblock, Dinode.decode]
  simp only [Block.get_zero, leInt_zero]
  rfl

/-- No inode is live on a new file system. -/
theorem newSuperBlock_kept {maxFsBlocks : Nat} (hsb : s.sb = newSuperBlock maxFsBlocks)
    (hhash : s.hash = inodeHashInit) : InodesKept s ∅ := by
  have hnone : ∀ m, inodeHashFind s.hash m = none := fun m => by rw [hhash]; rfl
  have hvalue : ∀ m, s.value m = Dinode.zero := fun m => by
    rw [value_disk (hnone m), hsb, onDisk_new]
  have hdinodes : s.dinodes = fun _ => Dinode.zero := by
    funext m
    rw [FileSystem.dinodes, hvalue, ite_self]
  constructor
  · refine ⟨hsb ▸ newSuperBlock_layout maxFsBlocks, hhash ▸ filed_init, fun nr n hn => ?_⟩
    rw [hnone] at hn
    cases hn
  · rw [hdinodes, hsb]
    exact newSuperBlock_own maxFsBlocks
  · intro k
    rw [hsb, show (newSuperBlock maxFsBlocks).inodeFreemap = bitmapCreate 65536 from rfl,
      isset_bitmapCreate (by norm_num)]
    simp
  · simp
  · rw [hsb, Finset.card_empty]
    rfl
  · exact fun m _ _ => hvalue m
  · intro m _
    rw [hvalue]
    exact sized_zero

/-- In every state reached the freemap gives the live inodes, and all others are zero. -/
theorem inodesKept_run {calls : List InodeUse} (run : inodeRuns.Run calls (s, live)) :
    InodesKept s live := by
  refine run.invariant_state (I := fun c => InodesKept c.1 c.2) ?_ ?_
  · rintro ⟨s, live⟩ ⟨⟨maxFsBlocks, hmax, hinit⟩, hhash, hlive⟩
    dsimp only at hinit hhash hlive
    subst hlive
    rw [testfsInitSuperBlock_new hmax] at hinit
    exact newSuperBlock_kept (Except.ok.inj hinit).symm hhash
  · rintro ⟨s, live⟩ call ⟨s', live'⟩ h hstep
    cases call with
    | create type =>
      obtain ⟨ret, nr, out, hrun, hlive⟩ := hstep
      dsimp only at h hrun hlive ⊢
      rcases Nat.lt_or_ge live.card nrInodes with hlt | hge
      · obtain ⟨k, s₁, n, heq, -, -, -, -, hkept⟩ := testfsCreateInode_fresh h type hlt
        rw [heq] at hrun
        cases hrun
        rw [hlive, if_neg (by decide)]
        exact hkept
      · obtain ⟨s₁, heq, -, -, hkept⟩ := testfsCreateInode_full h type hge
        rw [heq] at hrun
        cases hrun
        rw [hlive, if_pos (by decide)]
        exact hkept
    | remove nr =>
      obtain ⟨hnr, ⟨out, hrun⟩, hlive⟩ := hstep
      exact hlive ▸ h.remove hnr hrun
    | write nr buf start size =>
      obtain ⟨hnr, hend, ⟨ret, out, hrun, hret⟩, hlive⟩ := hstep
      exact hlive ▸ h.write hnr hend hrun hret
    | table call =>
      obtain ⟨hcall, hstep, hlive⟩ := hstep
      exact hlive ▸ h.table hcall hstep

/-- Creating an inode, in every state reached: it succeeds exactly when fewer than 16384 inodes are
live, and then gives an empty inode with a number that no live inode has; otherwise it returns
`-ENOSPC` and leaves the inode freemap, which has bits left, and the count as they were. -/
theorem create_fresh {calls : List InodeUse} (run : inodeRuns.Run calls (s, live))
    (type : InodeType) :
    ∃ ret nr s' out, (testfsCreateInode type).run s = .ok ⟨(ret, nr), s', out⟩ ∧
      (ret = 0 ↔ live.card < nrInodeBlocks * inodesPerBlock) ∧
      (ret = 0 → nr < nrInodeBlocks * inodesPerBlock ∧ nr ∉ live ∧
        ∃ n, inodeHashFind s'.hash nr = some n ∧ n.inode.iNr = nr ∧
          n.inode.din = { Dinode.zero with iType := type.val }) ∧
      (ret ≠ 0 → live.card = nrInodeBlocks * inodesPerBlock ∧ ret = -ENOSPC ∧
        s.sb.inodeFreemap.nbits = 65536 ∧ s'.sb.inodeFreemap = s.sb.inodeFreemap ∧
        s'.sb.sb.usedInodeCount = s.sb.sb.usedInodeCount) := by
  have h := inodesKept_run run
  rcases Nat.lt_or_ge live.card nrInodes with hlt | hge
  · obtain ⟨k, s', n, hrun, hk, hnew, hn, hdin, -⟩ := testfsCreateInode_fresh h type hlt
    exact ⟨0, k, s', [], hrun, iff_of_true rfl hlt,
      fun _ => ⟨hk, hnew, n, hn, inodeHashFind_iNr hn, hdin⟩, fun hne => absurd rfl hne⟩
  · obtain ⟨s', hrun, hmap, hcount, -⟩ := testfsCreateInode_full h type hge
    have hne : (-ENOSPC : ℤ) ≠ 0 := by decide
    have hsub : live ⊆ Finset.range nrInodes := fun j hj => Finset.mem_range.mpr (h.lt j hj)
    have hcard := Finset.card_le_card hsub
    rw [Finset.card_range] at hcard
    exact ⟨-ENOSPC, 0, s', [], hrun, iff_of_false hne hge.not_gt,
      fun heq => absurd heq hne,
      fun _ => ⟨hcard.antisymm hge, rfl, h.cached.layout.inodeBits, hmap, hcount⟩⟩

/-- A file is created after a directory on a new file system. -/
theorem create_fresh_second : ∃ (s s' : FileSystem) (dir file : ℕ) (out : List Event),
    (∃ n, inodeHashFind s.hash dir = some n ∧ n.inode.din.iType = 2) ∧
      (testfsCreateInode .file).run s = .ok ⟨(0, file), s', out⟩ ∧ file ≠ dir ∧ file < 16384 := by
  obtain ⟨s₀, hs₀⟩ : ∃ s : FileSystem, s = ⟨newSuperBlock 1, inodeHashInit, 0⟩ := ⟨_, rfl⟩
  have hsb : s₀.sb = newSuperBlock 1 := by rw [hs₀]
  have hhash : s₀.hash = inodeHashInit := by rw [hs₀]
  have hkept : InodesKept s₀ ∅ := newSuperBlock_kept hsb hhash
  obtain ⟨dir, s₁, n, hrun, -, -, hn, hdin, -⟩ := testfsCreateInode_fresh hkept .dir (by decide)
  have hinit : testfsInitSuperBlock (testfsMakeDev 1) = .ok s₀.sb := by
    rw [hsb]
    exact testfsInitSuperBlock_new (by norm_num)
  have hstep : inodeRuns.step (s₀, ∅) (.create .dir) (s₁, insert dir ∅) :=
    ⟨0, dir, [], hrun, rfl⟩
  have run := (System.Run.start (T := inodeRuns) (s := (s₀, ∅))
    ⟨⟨1, by norm_num, hinit⟩, hhash, rfl⟩).next hstep
  obtain ⟨ret, file, s', out, hcreate, hiff, hfresh, -⟩ := create_fresh run .file
  have hret : ret = 0 := hiff.mpr (by rw [insert_empty_eq, Finset.card_singleton]; decide)
  obtain ⟨hlt, hnot, -⟩ := hfresh hret
  subst hret
  refine ⟨s₁, s', dir, file, out, ⟨n, hn, by rw [hdin]; rfl⟩, hcreate, fun heq => hnot ?_, hlt⟩
  rw [heq]
  exact Finset.mem_insert_self _ _

end Runs

end Ece344Lab.Fs