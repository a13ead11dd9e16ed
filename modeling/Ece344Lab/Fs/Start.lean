import Ece344Lab.Fs.Changes
import Ece344Lab.Fs.Reopen

/-!
# The file system that mktestfs makes

mktestfs makes the root directory on an empty device. There is space for it, so a testfs that opens
the device finds a volume with the root alone.
-/
namespace Ece344Lab.Fs

open Ece344Lab.Library

/-- The volume with the root alone. -/
def Volume.new : Volume where
  tree := .single 0
  data := fun _ _ => none
  size := fun _ => 0

section Space

variable {s : FileSystem} {live : Finset ℕ} {n : HashNode} {dir nr k p : Nat} {rs : List Dirent}
  {M : Name → Option Int} {name : Name}

/-- With three free blocks an entry is added to a directory that stays within one block. -/
theorem Sound.addDirent_space (h : Sound s live) (hn : inodeHashFind s.hash dir = some n)
    (hd : DirHolds s.dinodes dir (s.view dir) rs M) (hM : M name = none)
    (hfits : (s.dinodes dir).iSize + (name.length + 9) ≤ 8192) (hfree : 3 ≤ s.sb.free)
    {r : Ret Event FileSystem Int} (hr : (onInode dir (testfsAddDirent name nr)).run s = .ok r) :
    0 ≤ r.val ∧ s.sb.free ≤ r.st.sb.free + 3 := by
  have hlt := h.lt hn
  have hdin := memory_din hn hlt
  have ho := h.kept.own_memory hn hlt
  have hd' : DirHolds s.dinodes dir ⟨s.sb, n.inode⟩ rs M :=
    hd.congr rfl hdin (inodeHashFind_iNr hn) ho
  obtain ⟨start, hstart, heq⟩ := hd'.add_eq nr hM (by
    have hspan := hd.size
    rw [view_din] at hspan
    omega)
  dsimp only at hstart
  rw [hdin] at hstart
  have hsize := newDirent_size name nr
  have hpath : PathOnDev n.inode.din s.sb.dev (start / 8192) := by
    rw [hdin]
    exact fun σ _ hσ => h.onDev dir σ hσ
  have hle : start % 8192 + (newDirent name nr).size ≤ 8192 := by omega
  have hend : start + (newDirent name nr).size ≤ maxFileSize := by
    simp only [maxFileSize]
    omega
  obtain ⟨r', hwrite, hret, hleft⟩ :=
    testfsWriteData_returns ho (newDirent name nr).byte hle hend (by omega) hpath hfree
  rw [onInode_run hn (heq.trans hwrite)] at hr
  cases hr
  exact ⟨hret, hleft⟩

/-- With three free blocks a new inode is entered in a directory that stays within one block. -/
theorem Sound.enter_space (h : Sound s live) (hlive : dir ∈ live)
    (hn : inodeHashFind s.hash dir = some n) (hd : DirHolds s.dinodes dir (s.view dir) rs M)
    (hM : M name = none) (hname : 0 ∉ name) (hk : k < nrInodes)
    (hfits : (s.dinodes dir).iSize + (name.length + 9) ≤ 8192) (hfree : 3 ≤ s.sb.free) :
    ∃ s' log, (onInode dir (testfsAddDirent name k) >>= fun ret =>
      if ret < 0 then pure ret else onInode dir testfsSyncInode >>= fun _ => pure (0 : Int)).run s =
        .ok ⟨0, s', log⟩ ∧ s.sb.free ≤ s'.sb.free + 3 := by
  obtain ⟨ret, s₁, log, hrun₁, hcase⟩ := h.addDirent name hlive hn hd hM hname hk (by
    simp only [maxDirSize]
    omega)
  obtain ⟨hret, hleft⟩ := h.addDirent_space hn hd hM hfits hfree hrun₁
  dsimp only at hret hleft
  rcases hcase with rfl | ⟨-, ino, hdirty, hstep, -⟩
  · exact absurd hret (by decide)
  obtain ⟨s₂, hrun₂, -⟩ := hstep.sound.sync hstep.moved.here hdirty
  have hsame := hstep.sound.sync_free hrun₂ hstep.moved.here hdirty
  refine ⟨s₂, log ++ [], ?_, by omega⟩
  rw [Program.bind_run_ok hrun₁, if_neg (not_lt.mpr hret), Program.bind_run_nil hrun₂]
  rfl

/-- With six free blocks a new directory gets its entries. -/
theorem Sound.emptyDir_space (h : Sound s live) (hk : k ∈ live)
    (hn : inodeHashFind s.hash k = some n) (hdin : s.dinodes k = created .dir) (hp : p < nrInodes)
    (hfree : 6 ≤ s.sb.free) :
    ∃ s' log, (testfsCreateEmptyDir p k).run s = .ok ⟨0, s', log⟩ ∧ s.sb.free ≤ s'.sb.free + 6 := by
  have hlt := h.lt hn
  have hsize : (s.dinodes k).iSize = 0 := by
    rw [hdin]
    rfl
  have htype : (testfsInodeGetType k).run s = .ok ⟨InodeType.dir.val, s, []⟩ := by
    refine Program.reads_run ?_
    rw [hn]
    dsimp only
    rw [memory_din hn hlt, hdin]
    rfl
  have hd := h.created_dirHolds hdin
  obtain ⟨ret₁, s₁, log₁, hrun₁, hcase₁⟩ := h.addDirent dot hk hn hd rfl (by decide) hlt
    (by rw [hsize]; decide)
  obtain ⟨hret₁, hleft₁⟩ := h.addDirent_space hn hd rfl (by rw [hsize]; decide) (by omega) hrun₁
  dsimp only at hret₁ hleft₁
  rcases hcase₁ with rfl | ⟨-, ino₁, -, hstep₁, ⟨rs₁, hd₁⟩, hsize₁⟩
  · exact absurd hret₁ (by decide)
  rw [hsize] at hsize₁
  simp only [dot, List.length_cons, List.length_nil] at hsize₁
  have hM : Function.update (fun _ => none) dot (some (k : ℤ)) dotdot = none := by
    rw [Function.update_of_ne (by decide)]
  obtain ⟨ret₂, s₂, log₂, hrun₂, hcase₂⟩ := hstep₁.sound.addDirent dotdot hk hstep₁.moved.here hd₁ hM
    (by decide) hp (by
      simp only [dotdot, List.length_cons, List.length_nil, maxDirSize]
      omega)
  obtain ⟨hret₂, hleft₂⟩ := hstep₁.sound.addDirent_space hstep₁.moved.here hd₁ hM (by
      simp only [dotdot, List.length_cons, List.length_nil]
      omega) (by omega) hrun₂
  dsimp only at hret₂ hleft₂
  refine ⟨s₂, log₁ ++ (log₂ ++ []), ?_, by omega⟩
  rw [testfsCreateEmptyDir, Program.bind_run_nil htype, Program.reads_bind, assertC_pos rfl,
    Program.except_ok_bind, Program.bind_run_ok hrun₁, if_neg (not_lt.mpr hret₁),
    Program.bind_run_ok hrun₂, if_neg (not_lt.mpr hret₂)]
  rfl

end Space

section Root

variable {s : FileSystem} {maxFsBlocks : Nat}

/-- testfs on a device without inodes. -/
theorem new_sound (hsb : s.sb = newSuperBlock maxFsBlocks) (hhash : s.hash = inodeHashInit) :
    Sound s ∅ := by
  have hkept := newSuperBlock_kept hsb hhash
  refine ⟨hkept, fun n σ hne => absurd ?_ hne⟩
  have hzero : s.dinodes n = Dinode.zero := by
    rw [FileSystem.dinodes]
    split_ifs with hn
    · exact hkept.free n hn (Finset.notMem_empty n)
    · rfl
  change ptr (s.dinodes n) _ σ = 0
  rw [hzero]
  exact ptr_zero σ

theorem newSuperBlock_free (hlo : 6 ≤ maxFsBlocks) : 6 ≤ (newSuperBlock maxFsBlocks).free := by
  have hbits := (newSuperBlock_layout maxFsBlocks).blockBits
  rw [SuperBlock.free, hbits]
  change 6 ≤ min maxFsBlocks 1048576 - 0
  omega

/-- A root without entries but its own is a volume. -/
theorem new_represents (h : Sound s (insert 0 ∅)) (hsmall : (s.dinodes 0).iSize ≤ maxDirSize)
    (hdir : ∃ rs, DirHolds s.dinodes 0 (s.view 0) rs (emptyListing 0 0)) : Represents s .new where
  sound := h
  root := rfl
  dirs d hd := by
    obtain rfl : d = 0 := Finset.mem_singleton.mp hd
    obtain ⟨rs, hrs⟩ := hdir
    refine ⟨rs, ?_⟩
    convert hrs using 1
    funext x
    rw [emptyListing, listing, Function.update_apply, Function.update_apply]
    by_cases hx : x = dotdot
    · rw [if_neg (by rw [hx]; decide), if_pos hx, if_pos hx]
      rfl
    · rw [if_neg hx, if_neg hx]
      rfl
  small d hd := by
    obtain rfl : d = 0 := Finset.mem_singleton.mp hd
    exact hsmall
  files f hf hnot := absurd hf hnot
  names d x n hn := by cases hn

/-- `testfs_make_root_dir` makes the root, inode number 0, and leaves nothing in memory. -/
theorem makeRootDir_represents (hsb : s.sb = newSuperBlock maxFsBlocks)
    (hhash : s.hash = inodeHashInit) (hmax : 6 ≤ maxFsBlocks) :
    ∃ s' log, testfsMakeRootDir.run s = .ok ⟨0, s', log⟩ ∧ Represents s' .new ∧
      ∀ m, inodeHashFind s'.hash m = none := by
  have hsound := new_sound hsb hhash
  have hnone : ∀ m, inodeHashFind s.hash m = none := fun m => by
    rw [hhash]
    rfl
  have hclear : s.sb.inodeFreemap.isset 0 = false := by
    by_contra hset
    rw [Bool.not_eq_false, hsound.kept.bits] at hset
    exact absurd hset (Finset.notMem_empty 0)
  have hzero : onDisk s.sb 0 = Dinode.zero := by
    rw [← value_disk (hnone 0)]
    exact hsound.kept.free 0 (by decide) (Finset.notMem_empty 0)
  obtain ⟨s₁, hcreate, -, -⟩ := testfsCreateInode_moved hsound.layout (show 0 < nrInodes by decide)
    (fun j hj => absurd hj (Nat.not_lt_zero j)) hclear (hnone 0) hzero .dir
  rcases hsound.create (fun m _ => hnone m) .dir with
    ⟨s₁', hrun⟩ | ⟨k, s₁', hrun, -, hlt, hstep₁, hdin, hsame₁⟩
  · rw [hcreate] at hrun
    cases hrun
  rw [hcreate] at hrun
  cases hrun
  have hmem : (0 : ℕ) ∈ insert 0 (∅ : Finset ℕ) := Finset.mem_insert_self 0 ∅
  have hfree : 6 ≤ s₁.sb.free := by
    rw [hsame₁, hsb]
    exact newSuperBlock_free hmax
  have hp : 0 < nrInodes := by decide
  obtain ⟨s₂, log₂, hrun₂, -⟩ := hstep₁.sound.emptyDir_space hmem hstep₁.moved.here hdin hp hfree
  have hempty := (hstep₁.sound.emptyDir hmem hstep₁.moved.here hdin hp).of_ok hrun₂
  dsimp only at hempty
  obtain ⟨-, ino, hdirty, hstep₂, hsmall₂, rs, hd₂⟩ := hempty (by decide)
  obtain ⟨s₃, hrun₃, hstep₃, hsame₃⟩ := hstep₂.sound.sync hstep₂.moved.here hdirty
  obtain ⟨s₄, hrun₄, hstep₄, hsame₄⟩ := hstep₃.sound.drop hstep₃.moved.here rfl
  have hsame := hsame₃.trans hsame₄
  have hfill : (fillInode none .dir [] 0).run s₁ = .ok ⟨0, s₂, log₂ ++ []⟩ := by
    rw [fillInode, if_pos rfl, Option.getD_none, Program.bind_run_ok hrun₂, if_neg (by decide)]
    rfl
  refine ⟨s₄, log₂ ++ [] ++ [], ?_, new_represents hstep₄.sound ?_ ?_, fun m => ?_⟩
  · rw [testfsMakeRootDir, testfsCreateFileOrDir, Program.pure_bind]
    dsimp only
    rw [if_neg (by decide), Program.bind_run_nil hcreate]
    dsimp only
    rw [if_neg (by decide), Program.bind_run_ok hfill, if_neg (by decide),
      Program.bind_run_nil hrun₃, Program.bind_run_nil hrun₄]
    rfl
  · rw [hsame.din]
    exact hsmall₂
  · exact ⟨rs, hsame.dirHolds hstep₄.sound.kept.own hd₂⟩
  · by_cases hm : m = 0
    · rw [hm]
      exact hstep₄.moved.here
    · rw [hstep₄.moved.others m hm, hstep₃.moved.others m hm, hstep₂.moved.others m hm,
        hstep₁.moved.others m hm, hnone]

theorem FsSize.maxFsBlocks_le (size : FsSize) :
    128 ≤ size.maxFsBlocks ∧ size.maxFsBlocks ≤ 1048576 := by
  have hpos := size.pos
  have hmax := size.le_max
  simp only [FsSize.maxFsBlocks, blockSize]
  omega

/-- Whatever size mktestfs is given, testfs starts in the root of a volume with nothing else. -/
theorem startTestfs_new (size : FsSize) :
    ∃ s, startTestfs size = .ok s ∧ AtPrompt s .new ∧ s.curDir = 0 := by
  obtain ⟨hlo, hhi⟩ := size.maxFsBlocks_le
  obtain ⟨s, log, hrun, hrep, hnone⟩ := makeRootDir_represents
    (s := ⟨newSuperBlock size.maxFsBlocks, inodeHashInit, 0⟩) rfl rfl (by omega)
  obtain ⟨s', hopen, hat, hcur⟩ := hrep.reopen fun m hm => by
    rw [dinodes_of_lt hm, value_disk (hnone m)]
  refine ⟨s', ?_, hat, hcur⟩
  have hempty : inMemory s.hash = [] := (inMemory_eq_nil hrep.sound.kept.cached.filed).mpr hnone
  have hroot : makeRoot (testfsMakeDev size.maxFsBlocks) = .ok s := by
    rw [makeRoot, testfsInitSuperBlock_new (by omega), Program.except_ok_bind, hrun]
    rfl
  have hdev : mktestfs size = .ok (testfsCloseSuperBlock s.sb) := by
    rw [mktestfs, hroot, Program.except_ok_bind, closeFileSystem, inodeHashDestroy_ok hempty]
    rfl
  rw [startTestfs, hdev, Program.except_ok_bind, hopen]

end Root

end Ece344Lab.Fs
