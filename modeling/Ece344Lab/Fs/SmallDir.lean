import Ece344Lab.Fs.InodeRuns
import Ece344Lab.Fs.References

/-!
# Small directories

A directory whose records all lie in its first block. The allocator is not needed to add a record
to it, so `create` is known to succeed there, and the new name leads to the new file.
-/
namespace Ece344Lab.Fs

open Ece344Lab.Library

/-- The bytes of the records `rs` lie in the block from `off` on. -/
def Block.holds (b : Block) : Nat → List Dirent → Bool
  | _, [] => true
  | off, r :: rs =>
    (List.range r.size).all (fun k => b.get (off + k) == r.byte k) && b.holds (off + r.size) rs

/-- The inode of a directory whose one block is `p`. -/
def smallDin (p size : Nat) : Dinode :=
  { created .dir with
    iBlockNr := fun i => if i.val = 0 then p else 0
    blockCount := 1
    iSize := size }

/-- The directory `st` has the records `rs`, all of them in the block `p`. -/
structure SmallDir (p : Nat) (rs : List Dirent) (st : InodeSt) : Prop where
  pos : 0 < p
  din : st.ino.din = smallDin p (span rs)
  onDev : p < st.sb.dev.size
  wf : ∀ r ∈ rs, r.Wf
  holds : (st.sb.dev.blocks p).holds 0 rs = true
  fits : span rs ≤ 8192

section Small

variable {p : Nat} {rs : List Dirent} {st : InodeSt} {b : Block} {r : Dirent} {off : Nat}

theorem Block.holds_cons : b.holds off (r :: rs) = true ↔
    (∀ k, k < r.size → b.get (off + k) = r.byte k) ∧ b.holds (off + r.size) rs = true := by
  rw [Block.holds, Bool.and_eq_true, List.all_eq_true]
  simp only [List.mem_range, beq_iff_eq]

/-- A record copied behind the others. -/
theorem Block.holds_append (h : b.holds off rs = true) (hend : off + span rs + r.size ≤ 8192) :
    (b.copyIn (off + span rs) r.byte r.size).holds off (rs ++ [r]) = true := by
  obtain ⟨e, he⟩ : ∃ e, e = off + span rs := ⟨_, rfl⟩
  rw [← he] at hend ⊢
  induction rs generalizing off with
  | nil =>
    rw [span_nil, Nat.add_zero] at he
    subst he
    refine Block.holds_cons.mpr ⟨fun k hk => ?_, rfl⟩
    rw [Block.get_copyIn _ _ _ _ (by omega), if_pos (by omega), Nat.add_sub_cancel_left]
  | cons x rs ih =>
    rw [span_cons] at he
    obtain ⟨hx, hrs⟩ := Block.holds_cons.mp h
    refine Block.holds_cons.mpr ⟨fun k hk => ?_, ih hrs (by omega)⟩
    rw [Block.get_copyIn _ _ _ _ (by omega), if_neg (by omega), hx k hk]

namespace SmallDir

theorem ptr_first (h : SmallDir p rs st) : st.ptr (.data 0) = p := by
  change Fs.ptr st.ino.din st.sb.dev.blocks (.data 0) = p
  rw [h.din]
  rfl

theorem nonneg (h : SmallDir p rs st) (σ : Slot) : 0 ≤ st.ptr σ := by
  change 0 ≤ Fs.ptr st.ino.din st.sb.dev.blocks σ
  have htable : ∀ i, tableEntry st.sb.dev.blocks 0 i = 0 := fun _ => rfl
  rw [h.din]
  cases σ with
  | ind => exact le_refl (0 : ℤ)
  | dind => exact le_refl (0 : ℤ)
  | tab i =>
    change 0 ≤ if i < 2048 then tableEntry st.sb.dev.blocks 0 i else 0
    rw [htable, ite_self]
  | data l =>
    change 0 ≤ if l < 10 then (smallDin p (span rs)).blockNr l
      else if l < 2058 then tableEntry st.sb.dev.blocks 0 (l - 10)
      else if l < maxBlocks then
        tableEntry st.sb.dev.blocks (tableEntry st.sb.dev.blocks 0 (tabOf l)) (entryOf l)
      else 0
    simp only [htable, ite_self]
    rw [Dinode.blockNr]
    simp only [smallDin]
    split_ifs <;> omega

theorem isDir (h : SmallDir p rs st) : st.ino.din.iType = InodeType.dir.val := by
  rw [h.din]
  rfl

theorem size (h : SmallDir p rs st) : st.ino.din.iSize = (span rs : ℕ) := by
  rw [h.din]
  rfl

theorem path (h : SmallDir p rs st) : PathOnDev st.ino.din st.sb.dev 0 := by
  intro σ hσ _
  rw [show Fs.path 0 = [.data 0] from rfl, List.mem_singleton] at hσ
  subst hσ
  rw [show Fs.ptr st.ino.din st.sb.dev.blocks (.data 0) = p from h.ptr_first]
  exact h.onDev

theorem stores (h : SmallDir p rs st) {k : Nat} {v : UInt8} (hk : k < 8192)
    (hv : (st.sb.dev.blocks p).get k = v) : Stores st k v := by
  have hblock : k / 8192 = 0 := Nat.div_eq_of_lt hk
  constructor
  · rw [hblock, h.ptr_first]
    have := h.pos
    omega
  · rw [hblock]
    exact h.path
  · rw [InodeSt.byte, hblock, h.ptr_first, Int.toNat_natCast, Nat.mod_eq_of_lt hk, hv]

theorem laid (h : SmallDir p rs st) : Laid st 0 rs := by
  have hgen : ∀ (xs : List Dirent) (off : Nat), (∀ r ∈ xs, r.Wf) →
      (st.sb.dev.blocks p).holds off xs = true → off + span xs ≤ 8192 → Laid st off xs := by
    intro xs
    induction xs with
    | nil => exact fun _ _ _ _ => trivial
    | cons x xs ih =>
      intro off hwf hholds hend
      rw [span_cons] at hend
      obtain ⟨hx, hxs⟩ := Block.holds_cons.mp hholds
      refine ⟨hwf x List.mem_cons_self, fun k hk => h.stores (by omega) (hx k hk), ?_⟩
      exact ih _ (fun r hr => hwf r (List.mem_cons_of_mem _ hr)) hxs (by omega)
  exact hgen rs 0 h.wf h.holds (by rw [Nat.zero_add]; exact h.fits)

/-- Searching the directory. -/
theorem search (h : SmallDir p rs st) {wanted : Dirent → Except Halt Bool} {w : Dirent → Bool}
    (hw : ∀ r : Dirent, r.Wf → wanted r = .ok (w r)) :
    ∃ res, searchDir st.ino.din st.sb.dev wanted = .ok res ∧
      SearchEnds w rs 0 st.ino.din.iSize res := by
  have hlen := h.laid.length_le
  have hsize := h.size
  have hfits := h.fits
  exact searchDirent_laid h.nonneg h.isDir (by omega) hw h.laid (by rw [hsize, Nat.zero_add])
    (by omega)

end SmallDir

/-- The directory after the record `r` was written behind the others. -/
def appended (st : InodeSt) (p off : Nat) (r : Dirent) : InodeSt :=
  (st.write p ((st.sb.dev.blocks p).copyIn off r.byte r.size)).grow off r.size

namespace SmallDir

theorem appended (h : SmallDir p rs st) (hwf : r.Wf) (hend : span rs + r.size ≤ 8192) :
    SmallDir p (rs ++ [r]) (appended st p (span rs) r) where
  pos := h.pos
  din := by
    have hpos : 0 < r.size := Nat.zero_lt_of_lt (Dirent.eight_lt_size hwf)
    have hmax : max ((span rs : ℕ) : ℤ) ((span rs + r.size : ℕ) : ℤ) = (span rs + r.size : ℕ) :=
      max_eq_right (by exact_mod_cast Nat.le_add_right _ _)
    rw [Fs.appended, InodeSt.grow, if_pos hpos]
    dsimp only [write_ino]
    rw [h.din, span_append, span_cons, span_nil, Nat.add_zero]
    change { smallDin p (span rs) with
      iSize := max ((span rs : ℕ) : ℤ) ((span rs + r.size : ℕ) : ℤ) } = _
    rw [hmax]
    rfl
  onDev := lt_of_lt_of_le h.onDev (le_max_left _ _)
  wf x hx := by
    rcases List.mem_append.mp hx with hx | hx
    · exact h.wf x hx
    · exact List.mem_singleton.mp hx ▸ hwf
  holds := by
    have hblock : (Fs.appended st p (span rs) r).sb.dev.blocks p =
        (st.sb.dev.blocks p).copyIn (span rs) r.byte r.size := Dev.write_blocks_same _ _ _
    have hholds := Block.holds_append (r := r) h.holds (by omega)
    rw [Nat.zero_add] at hholds
    rwa [hblock]
  fits := by rwa [span_append, span_cons, span_nil, Nat.add_zero]

theorem write (h : SmallDir p rs st) (hwf : r.Wf) (hend : span rs + r.size ≤ 8192) :
    (testfsWriteData r.byte (span rs : ℕ) r.size).run st =
      .ok ⟨(r.size : ℕ), Fs.appended st p (span rs) r, []⟩ := by
  have hpos := Dirent.eight_lt_size hwf
  have hblock : span rs / 8192 = 0 := Nat.div_eq_of_lt (by omega)
  have hmod : span rs % 8192 = span rs := Nat.mod_eq_of_lt (by omega)
  have hread : testfsReadBlock st.ino.din st.sb.dev (0 : ℕ) = .ok ((p : ℤ), st.sb.dev.blocks p) := by
    have hptr : Fs.ptr st.ino.din st.sb.dev.blocks (.data 0) = p := h.ptr_first
    have hne : Fs.ptr st.ino.din st.sb.dev.blocks (.data 0) ≠ 0 := by
      have := h.pos
      omega
    rw [testfsReadBlock_ok h.nonneg (by decide) h.path, page_mapped hne, hptr, Int.toNat_natCast]
  have halloc := testfsAllocateBlock_read hread (by have := h.pos; omega)
  have hcopy := copyBlock_head r.byte (st.sb.dev.blocks p) hend
  simp only [Nat.zero_add] at hcopy
  have hgrow : (growSize (span rs : ℕ) r.size).run
      (st.write p ((st.sb.dev.blocks p).copyIn (span rs) r.byte r.size)) =
      .ok ⟨(), Fs.appended st p (span rs) r, []⟩ := growSize_run _ (by omega)
  rw [testfsWriteData_one (l := 0) r.byte (by rw [hblock]; rfl) (by omega),
    Program.bind_run_nil halloc, hmod]
  dsimp only
  rw [if_neg (by omega), Program.reads_bind, hcopy, Program.except_ok_bind,
    Program.bind_run_nil (writeBlock_run (by omega) _), Int.toNat_natCast,
    Program.bind_run_nil hgrow, toInt_natCast (by omega)]
  rfl

/-- `testfs_add_dirent` of a new name to a directory without removed records. -/
theorem add (h : SmallDir p rs st) {name : List UInt8} {nr : Int} (h0 : 0 ≤ nr) (hnr : nr < 2 ^ 31)
    (hlive : ∀ x ∈ rs, 0 ≤ x.inodeNr) (hnew : ∀ x ∈ rs, x.str ≠ name)
    (hend : span rs + (newDirent name nr).size ≤ 8192) :
    (testfsAddDirent name nr).run st =
      .ok ⟨((newDirent name nr).size : ℕ), Fs.appended st p (span rs) (newDirent name nr), []⟩ := by
  have hsz := newDirent_size name nr
  obtain ⟨res, hsearch, hends⟩ :=
    h.search fun r hr => Dirent.taken_eq hr name (toInt (name.length + 1 : ℕ))
  have hres : res = .atEnd st.ino.din.iSize := by
    rcases hends with ⟨pre, x, post, rfl, -, hx, -⟩ | ⟨-, hres⟩
    · have hmem : x ∈ pre ++ x :: post := List.mem_append_right _ List.mem_cons_self
      dsimp only at hx
      rw [Dirent.isLive, decide_eq_false (hnew x hmem), Bool.and_false, Bool.false_or,
        decide_eq_true_eq] at hx
      exact absurd (Or.inl (hlive x hmem)) hx
    · exact hres
  rw [testfsAddDirent, Program.reads_bind, assertC_pos h.isDir, Program.except_ok_bind,
    Program.reads_bind, hsearch, Program.except_ok_bind, hres]
  dsimp only
  rw [Program.reads_bind, assertC_pos rfl, Program.except_ok_bind, h.size,
    toInt_natCast (by omega), testfsWriteDirent, toInt_natCast (by omega)]
  have hsize : toSizeT ((sizeofDirent : ℕ) + ((name.length + 1 : ℕ) : ℤ)) =
      (newDirent name nr).size := by
    rw [← Nat.cast_add, toSizeT_natCast (by simp only [sizeofDirent]; omega), hsz]
  rw [hsize, mallocFails, if_neg (by simp only [decide_eq_true_eq]; omega), Program.reads_bind,
    assertC_pos h0, Program.except_ok_bind, Program.reads_bind,
    if_pos (show (name.length : ℤ) + 1 ≤ ((name.length + 1 : ℕ) : ℤ) by omega),
    Program.except_ok_bind]
  exact h.write (newDirent_wf h0 hnr) hend

/-- `testfs_dir_name_to_inode_nr` of a name that is not there. -/
theorem lookup_none (h : SmallDir p rs st) {name : List UInt8} (hnew : ∀ x ∈ rs, x.str ≠ name) :
    testfsDirNameToInodeNr st.ino.din st.sb.dev name = .ok (-ENOENT) := by
  obtain ⟨res, hrun, hends⟩ := h.search fun r hr => Dirent.liveNamed_eq hr name
  rw [testfsDirNameToInodeNr, assertC_pos h.isDir, Program.except_ok_bind, hrun,
    Program.except_ok_bind]
  rcases hends with ⟨pre, x, post, rfl, -, hx, -⟩ | ⟨-, rfl⟩
  · rw [Dirent.isLive, decide_eq_false (hnew x (List.mem_append_right _ List.mem_cons_self)),
      Bool.and_false] at hx
    cases hx
  · rfl

/-- `testfs_dir_name_to_inode_nr` of the last record. -/
theorem lookup_last (h : SmallDir p (rs ++ [r]) st) (hnew : ∀ x ∈ rs, x.str ≠ r.str)
    (hlive : 0 ≤ r.inodeNr) :
    testfsDirNameToInodeNr st.ino.din st.sb.dev r.str = .ok r.inodeNr := by
  obtain ⟨res, hrun, hends⟩ := h.search fun x hx => Dirent.liveNamed_eq hx r.str
  have hr : r.isLive r.str = true := by
    rw [Dirent.isLive, decide_eq_true rfl, Bool.and_true]
    exact decide_eq_true hlive
  have honly : ∀ x ∈ rs ++ [r], x.isLive r.str = true → x = r := by
    intro x hx hlive
    rcases List.mem_append.mp hx with hx | hx
    · rw [Dirent.isLive, decide_eq_false (hnew x hx), Bool.and_false] at hlive
      cases hlive
    · exact List.mem_singleton.mp hx
  rw [testfsDirNameToInodeNr, assertC_pos h.isDir, Program.except_ok_bind, hrun,
    Program.except_ok_bind]
  rcases hends with ⟨pre, x, post, heq, -, hx, rfl⟩ | ⟨hall, rfl⟩
  · rw [honly x (by rw [heq]; exact List.mem_append_right _ List.mem_cons_self) hx]
    rfl
  · rw [hall r (List.mem_append_right _ List.mem_cons_self)] at hr
    cases hr

end SmallDir

end Small

/-- Of the inodes in memory only `nr` has changed; `x` is what is there now. -/
structure Moved (nr : Nat) (x : Option HashNode) (s s' : FileSystem) : Prop where
  curDir : s'.curDir = s.curDir
  here : inodeHashFind s'.hash nr = x
  others : ∀ m, m ≠ nr → inodeHashFind s'.hash m = inodeHashFind s.hash m

section Steps

variable {s : FileSystem} {nr : Nat} {n : HashNode}

/-- A program on an inode in memory. -/
theorem onInode_moved {α : Type} {m : InodeM α} {a : α} {st : InodeSt} {log : List Event}
    (hn : inodeHashFind s.hash nr = some n) (hm : m.run ⟨s.sb, n.inode⟩ = .ok ⟨a, st, log⟩)
    (hkey : st.ino.iNr = nr) :
    ∃ s', (onInode nr m).run s = .ok ⟨a, s', log⟩ ∧ s'.sb = st.sb ∧
      Moved nr (some { n with inode := st.ino }) s s' := by
  have hfind := inodeHashFind_modify (f := fun n => { n with inode := st.ino })
    (fun _ _ => hkey) s.hash
  refine ⟨_, onInode_run hn hm, rfl, rfl, ?_, fun j hj => (hfind j).trans (if_neg hj)⟩
  refine (hfind nr).trans ?_
  rw [if_pos rfl, hn, Option.map_some]

/-- An inode is read from the disk. -/
theorem testfsGetInode_moved (hl : Layout s.sb) (hnr : nr < nrInodes)
    (hnone : inodeHashFind s.hash nr = none) :
    ∃ s', (testfsGetInode nr).run s = .ok ⟨(), s', []⟩ ∧ s'.sb = s.sb ∧
      Moved nr (some (loaded s.sb nr)) s s' := by
  refine ⟨_, testfsGetInode_disk hl hnr hnone, rfl, rfl, ?_, fun j hj => ?_⟩
  · exact (find_load s nr nr).trans (if_pos rfl)
  · exact (find_load s nr j).trans (if_neg (Ne.symm hj))

/-- The last reference to a clean inode is dropped. -/
theorem testfsPutInode_moved {ino : Inode} (hn : inodeHashFind s.hash nr = some ⟨ino, 1⟩)
    (hclean : ino.dirty = false) :
    ∃ s', (testfsPutInode nr).run s = .ok ⟨(), s', []⟩ ∧ s'.sb = s.sb ∧ Moved nr none s s' := by
  refine ⟨_, testfsPutInode_clean hn hclean, rfl, rfl, ?_, fun j hj => ?_⟩
  · exact (inodeHashFind_remove s.hash nr nr).trans (if_pos rfl)
  · exact (inodeHashFind_remove s.hash nr j).trans (if_neg hj)

/-- A changed inode is written to its place on disk. -/
theorem testfsSyncInode_moved (hl : Layout s.sb) (hnr : nr < nrInodes)
    (hn : inodeHashFind s.hash nr = some n) (hdirty : n.inode.dirty = true) :
    ∃ s', (onInode nr testfsSyncInode).run s = .ok ⟨(), s', []⟩ ∧
      s'.sb = synced s.sb nr n.inode.din ∧
      Moved nr (some ⟨{ n.inode with dirty := false }, n.iCount⟩) s s' := by
  have hi : n.inode.iNr = nr := inodeHashFind_iNr hn
  have hrun := @testfsSyncInode_dirty ⟨s.sb, n.inode⟩ hl (hi ▸ hnr) hdirty
  obtain ⟨s', hsync, hsb, hmoved⟩ := onInode_moved hn hrun hi
  exact ⟨s', hsync, hi ▸ hsb, hmoved⟩

/-- The lowest free inode number goes to a new inode, which was all zero on disk. -/
theorem testfsCreateInode_moved (hl : Layout s.sb) (hnr : nr < nrInodes)
    (hset : ∀ j, j < nr → s.sb.inodeFreemap.isset j = true)
    (hclear : s.sb.inodeFreemap.isset nr = false) (hnone : inodeHashFind s.hash nr = none)
    (hzero : onDisk s.sb nr = Dinode.zero) (type : InodeType) :
    ∃ s', (testfsCreateInode type).run s = .ok ⟨(0, nr), s', []⟩ ∧ s'.sb = s.sb.takeInode nr ∧
      Moved nr (some ⟨⟨created type, true, nr⟩, 1⟩) s s' := by
  have hlt : nr < 65536 := by
    simp only [nrInodes, nrInodeBlocks, inodesPerBlock] at hnr
    omega
  have htake : (onSuper testfsGetInodeFreemap).run s =
      .ok ⟨nr, { s with sb := s.sb.takeInode nr }, []⟩ := by
    rcases testfsGetInodeFreemap_cases hl with ⟨k, -, hk, hleast, hrun⟩ | ⟨hall, -⟩
    · have heq : k = nr := by
        rcases lt_trichotomy k nr with hlt | heq | hgt
        · rw [hset k hlt] at hk
          cases hk
        · exact heq
        · rw [hleast nr hgt] at hclear
          cases hclear
      exact heq ▸ Program.zoom_run hrun
    · rw [hall nr hlt] at hclear
      cases hclear
  obtain ⟨s₁, hs₁⟩ : ∃ s₁ : FileSystem, s₁ = { s with sb := s.sb.takeInode nr } := ⟨_, rfl⟩
  rw [← hs₁] at htake
  have hl₁ : Layout s₁.sb := hs₁ ▸ (takeInode_frame hl hlt).layout
  obtain ⟨s₂, hget, hsb₂, h₂⟩ := testfsGetInode_moved hl₁ hnr (by rw [hs₁]; exact hnone)
  have hdin : (loaded s₁.sb nr).inode.din = Dinode.zero := by
    rw [← hzero, hs₁]
    exact onDisk_congr (fun j hj => takeInode_blocks hl hlt hj) nr
  have hset : (do
      setDin fun d => { d with iType := type.val }
      setDirty : InodeM Unit).run ⟨s₂.sb, (loaded s₁.sb nr).inode⟩ =
      .ok ⟨(), ⟨s₂.sb, ⟨created type, true, nr⟩⟩, []⟩ := by
    rw [setDin_bind]
    dsimp only
    rw [hdin]
    rfl
  obtain ⟨s₃, hrun, hsb₃, h₃⟩ := onInode_moved h₂.here hset rfl
  refine ⟨s₃, testfsCreateInode_steps htake hnr hget hrun, ?_, ?_, h₃.here, fun j hj => ?_⟩
  · rw [hsb₃, hsb₂, hs₁]
  · rw [h₃.curDir, h₂.curDir, hs₁]
  · rw [h₃.others j hj, h₂.others j hj, hs₁]

end Steps

section Create

variable {s : FileSystem} {p k : Nat} {rs : List Dirent} {ino : Inode}

theorem SmallDir.congr {st st' : InodeSt} (h : SmallDir p rs st) (hdin : st'.ino.din = st.ino.din)
    (hsize : st.sb.dev.size ≤ st'.sb.dev.size)
    (hblock : st'.sb.dev.blocks p = st.sb.dev.blocks p) : SmallDir p rs st' where
  pos := h.pos
  din := hdin.trans h.din
  onDev := lt_of_lt_of_le h.onDev hsize
  wf := h.wf
  holds := by rw [hblock]; exact h.holds
  fits := h.fits

/-- The current directory is small and clean, its entries are live, and the inode number `k` is the
lowest that is free. -/
structure Room (p k : Nat) (rs : List Dirent) (ino : Inode) (s : FileSystem) : Prop where
  layout : Layout s.sb
  current : inodeHashFind s.hash s.curDir = some ⟨ino, 1⟩
  small : SmallDir p rs ⟨s.sb, ino⟩
  data : 146 ≤ p
  curDir_lt : s.curDir < nrInodes
  live : ∀ x ∈ rs, 0 ≤ x.inodeNr
  lt : k < nrInodes
  taken : ∀ j, j < k → s.sb.inodeFreemap.isset j = true
  clear : s.sb.inodeFreemap.isset k = false
  absent : inodeHashFind s.hash k = none
  zero : onDisk s.sb k = Dinode.zero

/-- Writing an inode back leaves a data block alone. -/
theorem synced_blocks {sb : SuperBlock} {nr : Nat} (hnr : nr < nrInodes) (d : Dinode)
    (hp : 146 ≤ p) : (synced sb nr d).dev.blocks p = sb.dev.blocks p := by
  simp only [nrInodes, nrInodeBlocks, inodesPerBlock] at hnr
  exact Dev.write_blocks_ne _ _ (by omega)

/-- `create` of a new name: afterwards the name leads to a file. -/
theorem cmdCreate_small (h : Room p k rs ino s) {name : Token}
    (hnew : ∀ x ∈ rs, x.str ≠ name.bytes)
    (hfits : span rs + (newDirent name.bytes k).size ≤ 8192) :
    ∃ s', (cmdCreate [name]).run s = .ok ⟨0, s', []⟩ ∧ s'.lookup name = .ok k ∧
      s'.typeOf k = .ok InodeType.file.val := by
  have hlt := h.lt
  have hcurlt := h.curDir_lt
  have hk31 : (k : ℤ) < 2 ^ 31 := by
    simp only [nrInodes, nrInodeBlocks, inodesPerBlock] at hlt
    omega
  have hk65 : k < 65536 := by
    simp only [nrInodes, nrInodeBlocks, inodesPerBlock] at hlt
    omega
  have hne : s.curDir ≠ k := fun heq => by
    have habsent := h.absent
    rw [← heq, h.current] at habsent
    cases habsent
  have hi : ino.iNr = s.curDir := inodeHashFind_iNr h.current
  have hwf : (newDirent name.bytes k).Wf := newDirent_wf (by omega) hk31
  -- the new inode
  obtain ⟨s₁, hcreate, hsb₁, h₁⟩ :=
    testfsCreateInode_moved h.layout hlt h.taken h.clear h.absent h.zero .file
  have hl₁ : Layout s₁.sb := hsb₁ ▸ (takeInode_frame h.layout hk65).layout
  have hcur₁ : inodeHashFind s₁.hash s.curDir = some ⟨ino, 1⟩ :=
    (h₁.others _ hne).trans h.current
  have hdir₁ : SmallDir p rs ⟨s₁.sb, ino⟩ := by
    refine h.small.congr rfl ?_ ?_
    · rw [hsb₁]
      exact le_trans (le_max_left _ _) (le_max_left _ _)
    · rw [hsb₁]
      exact takeInode_blocks h.layout hk65 (by have := h.data; omega)
  -- its entry
  have hadd := hdir₁.add (Int.natCast_nonneg k) hk31 h.live hnew hfits
  have hdir₂ := hdir₁.appended hwf hfits
  obtain ⟨st₂, hst₂⟩ : ∃ st₂, st₂ = appended ⟨s₁.sb, ino⟩ p (span rs) (newDirent name.bytes k) :=
    ⟨_, rfl⟩
  rw [← hst₂] at hadd hdir₂
  have hi₂ : st₂.ino.iNr = s.curDir := hst₂ ▸ hi
  have hdirty₂ : st₂.ino.dirty = true := hst₂ ▸ rfl
  obtain ⟨s₂, hentry, hsb₂, h₂⟩ := onInode_moved hcur₁ hadd hi₂
  have hl₂ : Layout s₂.sb := by
    rw [hsb₂, hst₂]
    exact (write_frame h.data _).layout hl₁
  -- the directory goes to the disk
  obtain ⟨s₃, hsync, hsb₃, h₃⟩ := testfsSyncInode_moved hl₂ hcurlt h₂.here hdirty₂
  have hl₃ : Layout s₃.sb := hsb₃ ▸ layout_synced hl₂ _ _
  -- the new inode goes to the disk and out of memory
  have hfile₃ : inodeHashFind s₃.hash k = some ⟨⟨created .file, true, k⟩, 1⟩ :=
    ((h₃.others _ hne.symm).trans (h₂.others _ hne.symm)).trans h₁.here
  obtain ⟨s₄, hsync', hsb₄, h₄⟩ := testfsSyncInode_moved hl₃ hlt hfile₃ rfl
  have hl₄ : Layout s₄.sb := hsb₄ ▸ layout_synced hl₃ _ _
  obtain ⟨s₅, hput, hsb₅, h₅⟩ := testfsPutInode_moved h₄.here rfl
  have hfound : (onInodeRead s.curDir fun d dev => testfsDirNameToInodeNr d dev name.bytes).run s =
      .ok ⟨-ENOENT, s, []⟩ := by
    refine Program.reads_run ?_
    rw [h.current]
    exact h.small.lookup_none hnew
  have hfill : (fillInode (some s.curDir) .file name.bytes k).run s₁ = .ok ⟨0, s₃, []⟩ := by
    rw [fillInode, if_neg (by decide), Program.bind_run_nil hentry, if_neg (by omega),
      Program.bind_run_nil hsync, Program.pure_run]
  have hcurDir : s₅.curDir = s.curDir := by
    rw [h₅.curDir, h₄.curDir, h₃.curDir, h₂.curDir, h₁.curDir]
  refine ⟨s₅, ?_, ?_, ?_⟩
  · rw [cmdCreate, cmdMake, Program.get_bind, testfsCreateFileOrDir, Program.bind_run_nil hfound]
    dsimp only
    rw [if_neg (by decide), Program.bind_run_nil hcreate]
    dsimp only
    rw [if_neg (by decide), Program.bind_run_nil hfill, if_neg (by decide),
      Program.bind_run_nil hsync', Program.bind_run_nil hput, Program.pure_run]
  · have hcur₅ : inodeHashFind s₅.hash s.curDir = some ⟨{ st₂.ino with dirty := false }, 1⟩ :=
      ((h₅.others _ hne).trans (h₄.others _ hne)).trans h₃.here
    have hdir₅ : SmallDir p (rs ++ [newDirent name.bytes k])
        ⟨s₅.sb, { st₂.ino with dirty := false }⟩ := by
      refine hdir₂.congr rfl ?_ ?_
      · rw [hsb₅, hsb₄, hsb₃, ← hsb₂]
        exact le_trans (le_max_left _ _) (le_max_left _ _)
      · rw [hsb₅, hsb₄, hsb₃, ← hsb₂]
        exact (synced_blocks hlt _ h.data).trans (synced_blocks hcurlt _ h.data)
    have hstr : (newDirent name.bytes k).str = name.bytes := newDirent_str name.no_nul
    rw [FileSystem.lookup, hcurDir, hcur₅]
    dsimp only
    have hlast := hdir₅.lookup_last (fun x hx => by rw [hstr]; exact hnew x hx) (Int.natCast_nonneg k)
    rwa [hstr] at hlast
  · have hnone : inodeHashFind s₅.hash k = none := h₅.here
    have hdisk : onDisk s₅.sb k = created .file := by
      rw [hsb₅, hsb₄, onDisk_synced _ (fits_created .file), if_pos rfl]
    rw [FileSystem.typeOf, hnone]
    dsimp only
    rw [testfsReadInodeBlock_ok (by rw [hsb₅]; exact hl₄) hlt, Program.except_ok_bind]
    change Except.ok (onDisk s₅.sb k).iType = _
    rw [hdisk]
    rfl

end Create

end Ece344Lab.Fs
