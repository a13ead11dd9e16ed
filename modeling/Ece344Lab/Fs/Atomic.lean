import Ece344Lab.Fs.Allocate

/-!
# Errors of the block allocation

The outcomes of `testfs_allocate_block`, and when an error leaves the file system
as it was. The undo of the source frees the tables it has allocated but keeps
their numbers in the slots, so an error is without trace only if no table had
been allocated: there was no free block at all, or enough for the whole path.
-/
namespace Ece344Lab.Fs

open Ece344Lab.Library

theorem blockNr_setBlockNr (d : Dinode) {i : Nat} (hi : i < 10) (v : Int) (m : Nat) :
    (d.setBlockNr i v).blockNr m = if m = i then v else d.blockNr m := by
  by_cases hm : m < 10
  · simp [Dinode.blockNr, Dinode.setBlockNr, hm]
  · have hne : m ≠ i := by omega
    simp [Dinode.blockNr, hm, hne]

theorem path_direct {l : Nat} (hl : l < 10) : path l = [.data l] := if_pos hl

/-- A direct block that was missing. -/
theorem filled_direct {st st₁ : InodeSt} {l : Nat} {p : Int} (hs : Sane st) (hl : l < 10)
    (h0 : st.ptr (.data l) = 0) (htook : Took st st₁ [p])
    (hblocks : ∀ n, 18 ≤ n → st₁.sb.dev.blocks n = st.sb.dev.blocks n)
    (hdin : st₁.ino.din = { st.ino.din with blockCount := st.ino.din.blockCount + 1 }) :
    Filled st l [(.data l, p)]
      { st₁ with ino.din := st₁.ino.din.setBlockNr l p } := by
  have hmax : l < maxBlocks := by simp only [maxBlocks]; omega
  have hneed : st.need l = [.data l] := by
    rw [InodeSt.need, path_direct hl]
    simp [h0]
  refine filled_of hs hmax (htook.setDin rfl rfl rfl) (by rw [hneed]; rfl)
    (fun n hn _ _ => hblocks n hn) (fun m hm => ?_) ?_ ?_ fun τ hτ htable => ?_
  · rw [blockNr_setBlockNr _ hl, hdin, setAll_cons, setAll_nil]
    by_cases hml : m = l
    · rw [if_pos hml, hml, Function.update_self]
    · rw [if_neg hml, Function.update_of_ne (by simpa using hml)]
      exact (ptr_direct hm).symm
  · change st₁.ino.din.iIndirect = st.ino.din.iIndirect
    rw [hdin]
  · change st₁.ino.din.iDindirect = st.ino.din.iDindirect
    rw [hdin]
  · rw [path_direct hl, List.mem_singleton] at hτ
    rw [hτ] at htable
    exact htable.elim

section Outcome

variable {st : InodeSt} {l : Nat}

/-- `testfs_allocate_block` of a block that it need not allocate. -/
theorem testfsAllocateBlock_read {p : Int} {b : Block}
    (hread : testfsReadBlock st.ino.din st.sb.dev l = .ok (p, b)) (hp : p ≠ 0) :
    (testfsAllocateBlock l).run st = .ok ⟨(p, b), st, []⟩ := by
  have hpos : assertC .allocateBlockNrNonneg ((0 : ℤ) ≤ l) = .ok () :=
    assertC_pos (Int.natCast_nonneg l)
  simp only [testfsAllocateBlock, Program.reads_bind, hpos, hread, Program.except_ok_bind, hp,
    ne_eq, not_false_eq_true, if_true, Program.pure_run]

theorem testfsAllocateBlock_direct {b : Block} (hs : Sane st) (hl : l < 10)
    (hread : testfsReadBlock st.ino.din st.sb.dev l = .ok (0, b)) (h0 : st.ptr (.data l) = 0) :
    ∃ p st' log, (testfsAllocateBlock l).run st = .ok ⟨(p, b), st', log⟩ ∧
      AllocOutcome st l p st' log := by
  have hmax : l < maxBlocks := by simp only [maxBlocks]; omega
  have hpos : assertC .allocateBlockNrNonneg ((0 : ℤ) ≤ l) = .ok () :=
    assertC_pos (Int.natCast_nonneg l)
  have hnr : st.ino.din.blockNr l = 0 := (ptr_direct hl).symm.trans h0
  have hrun : (testfsAllocateBlock l).run st = (do
      let p ← testfsAllocBlockForInode
      if p ≥ 0 then
        setDin fun d => d.setBlockNr l p
        return (p, b)
      else return (p, b)).run st := by
    simp only [testfsAllocateBlock, Program.reads_bind, hpos, hread, Program.except_ok_bind,
      ne_eq, not_true_eq_false, if_false, Int.toNat_natCast, nrDirectBlocks, hl, if_true,
      assertC_pos hnr]
  rw [hrun]
  rcases testfsAllocBlockForInode_cases hs.counted with
    ⟨hfree, hfail⟩ | ⟨p, st₁, hok, htook, hblocks, -, hdin⟩
  · refine ⟨-ENOSPC, st, [.allocBlockFailed], ?_, .full h0 hmax hfree (by simp)⟩
    rw [Program.bind_run_ok hfail, if_neg (by decide), Program.pure_run, Program.logged_ok,
      List.append_nil]
  · have hp := htook.range p (by simp)
    have hf := filled_direct hs hl h0 htook hblocks hdin
    refine ⟨p, _, [], ?_, .filled h0 hmax hf (by
      rw [hf.ptr, setAll_cons, setAll_nil, Function.update_self])⟩
    rw [Program.bind_run_nil hok, if_pos (by omega), setDin_bind, Program.pure_run]

/-- The outcomes of `testfs_allocate_block`. The buffer holds what `testfs_read_block` left
in it. -/
theorem testfsAllocateBlock_outcome (hs : Sane st) (hl : l < maxBlocks)
    (hdev : PathOnDev st.ino.din st.sb.dev l) :
    ∃ p st' log, (testfsAllocateBlock l).run st =
      .ok ⟨(p, page st.ino.din st.sb.dev.blocks l), st', log⟩ ∧ AllocOutcome st l p st' log := by
  have hread := testfsReadBlock_ok hs.nonneg hl hdev
  by_cases h0 : st.ptr (.data l) = 0
  swap
  · exact ⟨_, st, [], testfsAllocateBlock_read hread h0, .mapped h0⟩
  rw [show Fs.ptr st.ino.din st.sb.dev.blocks (.data l) = 0 from h0] at hread
  by_cases h10 : l < 10
  · exact testfsAllocateBlock_direct hs h10 hread h0
  have hpos : assertC .allocateBlockNrNonneg ((0 : ℤ) ≤ l) = .ok () :=
    assertC_pos (Int.natCast_nonneg l)
  by_cases h2058 : l < 2058
  · have hlt : ¬ l - 10 ≥ nrIndirectBlocks := by simp only [nrIndirectBlocks]; omega
    have hrun : (testfsAllocateBlock l).run st = (do
        let p ← allocateSingle (l - 10)
        return (p, page st.ino.din st.sb.dev.blocks l)).run st := by
      simp only [testfsAllocateBlock, Program.reads_bind, hpos, hread, Program.except_ok_bind,
        ne_eq, not_true_eq_false, if_false, Int.toNat_natCast, nrDirectBlocks, h10, hlt]
    have hout : ∃ p st' log, (allocateSingle (l - 10)).run st = .ok ⟨p, st', log⟩ ∧
        AllocOutcome st l p st' log := by
      by_cases hind : st.ino.din.iIndirect = 0
      · exact allocateSingle_missing hs (by omega) h2058 h0 hind
      · exact allocateSingle_exists hs (by omega) h2058 h0 hind
          (((pathOnDev_single (by omega) h2058).mp hdev).1 hind)
    obtain ⟨p, st', log, hok, hcase⟩ := hout
    refine ⟨p, st', log, ?_, hcase⟩
    rw [hrun, Program.bind_run_ok hok, Program.pure_run, Program.logged_ok, List.append_nil]
  · have hge : l - 10 ≥ nrIndirectBlocks := by simp only [nrIndirectBlocks]; omega
    have hsub : l - 10 - nrIndirectBlocks = l - 2058 := by simp only [nrIndirectBlocks]; omega
    have hrun : (testfsAllocateBlock l).run st = (do
        let p ← allocateDouble (l - 2058)
        return (p, page st.ino.din st.sb.dev.blocks l)).run st := by
      simp only [testfsAllocateBlock, Program.reads_bind, hpos, hread, Program.except_ok_bind,
        ne_eq, not_true_eq_false, if_false, Int.toNat_natCast, nrDirectBlocks, h10, hge, if_true,
        hsub]
    have hout : ∃ p st' log, (allocateDouble (l - 2058)).run st = .ok ⟨p, st', log⟩ ∧
        AllocOutcome st l p st' log := by
      by_cases hd : st.ino.din.iDindirect = 0
      · exact allocateDouble_missing hs (by omega) hl h0 hd
      by_cases ht : st.ptr (.tab (tabOf l)) = 0
      · exact allocateDouble_tab hs (by omega) hl h0 hd ht
          (((pathOnDev_double (by omega)).mp hdev).1 hd)
      · exact allocateDouble_exists hs (by omega) hl h0 hd ht hdev
    obtain ⟨p, st', log, hok, hcase⟩ := hout
    refine ⟨p, st', log, ?_, hcase⟩
    rw [hrun, Program.bind_run_ok hok, Program.pure_run, Program.logged_ok, List.append_nil]

theorem testfsAllocateBlock_beyond (hl : maxBlocks ≤ l) :
    (testfsAllocateBlock l).run st = .ok ⟨(-EFBIG, Block.zero), st, []⟩ :=
  testfsAllocateBlock_read (testfsReadBlock_beyond hl) (by decide)

/-- The process ends when a block on the path lies behind the end of the device. -/
theorem testfsAllocateBlock_short (hs : Sane st) (hl : l < maxBlocks)
    (hdev : ¬ PathOnDev st.ino.din st.sb.dev l) :
    (testfsAllocateBlock l).run st = .error .exitFread := by
  have hpos : assertC .allocateBlockNrNonneg ((0 : ℤ) ≤ l) = .ok () :=
    assertC_pos (Int.natCast_nonneg l)
  rw [testfsAllocateBlock, Program.reads_bind, hpos, Program.except_ok_bind, Program.reads_bind,
    testfsReadBlock_short hs.nonneg hl hdev, Program.except_error_bind]

end Outcome

theorem bitmapCreate_aligned {n : Nat} (h : n % 8 = 0) :
    bitmapCreate n = { nbits := n, v := fun _ => 0 } := by
  have hpad : ¬ n / bitsPerWord < (n + bitsPerWord - 1) / bitsPerWord := by
    simp only [bitsPerWord]
    omega
  rw [bitmapCreate]
  simp only [Bitmap.words, hpad, if_false]

theorem nbits_bitmapCreate {n : Nat} (h : n % 8 = 0) : (bitmapCreate n).nbits = n := by
  rw [bitmapCreate_aligned h]

theorem isset_bitmapCreate {n : Nat} (h : n % 8 = 0) (i : Nat) : (bitmapCreate n).isset i = false := by
  rw [bitmapCreate_aligned h]
  simp [Bitmap.isset]

theorem le_size_writeMany (d : Dev) (buf : Nat → Block) (start nr : Nat) :
    d.size ≤ (d.writeMany buf start nr).size ∧
      (0 < nr → start + nr ≤ (d.writeMany buf start nr).size) := by
  induction nr with
  | zero => exact ⟨le_refl _, fun h => absurd h (lt_irrefl 0)⟩
  | succ nr ih =>
    rw [Dev.writeMany, Dev.write_size]
    exact ⟨by omega, fun _ => by omega⟩

theorem le_size_zeroMany (d : Dev) {start nr : Nat} (h : 0 < nr) :
    start + nr ≤ (d.zeroMany start nr).size := (le_size_writeMany d _ start nr).2 h

/-- The super block of a new device of `maxFsBlocks` blocks, before anything is allocated. -/
def newSuperBlock (maxFsBlocks : Nat) : SuperBlock :=
  { sb := newDsuperBlock maxFsBlocks, dev := testfsMakeDev maxFsBlocks,
    inodeFreemap := bitmapCreate 65536, blockFreemap := bitmapCreate 1048576 }

theorem newSuperBlock_layout (maxFsBlocks : Nat) : Layout (newSuperBlock maxFsBlocks) where
  inodeFreemapStart := rfl
  blockFreemapStart := rfl
  inodeBlocksStart := rfl
  dataBlocksStart := rfl
  inodeBits := by rw [newSuperBlock, nbits_bitmapCreate (by norm_num)]
  inodeRest i _ := by rw [newSuperBlock, isset_bitmapCreate (by norm_num)]
  blockBits := by rw [newSuperBlock, nbits_bitmapCreate (by norm_num)]
  blockRest i _ := by rw [newSuperBlock, isset_bitmapCreate (by norm_num)]
  devSize := le_max_of_le_left (le_size_zeroMany _ (show 0 < 128 by norm_num))

theorem newSuperBlock_inUse (maxFsBlocks : Nat) : (newSuperBlock maxFsBlocks).inUse = ∅ := by
  refine Finset.eq_empty_of_forall_notMem fun p hp => ?_
  obtain ⟨k, -, hset, -⟩ := (SuperBlock.mem_inUse (newSuperBlock_layout maxFsBlocks) p).mp hp
  rw [show (newSuperBlock maxFsBlocks).blockFreemap = bitmapCreate 1048576 from rfl,
    isset_bitmapCreate (by norm_num)] at hset
  cases hset

/-- Inodes without blocks own the blocks of a new file system, which are none. -/
theorem newSuperBlock_own (maxFsBlocks : Nat) :
    Own (fun _ => Dinode.zero) (newSuperBlock maxFsBlocks) where
  layout := newSuperBlock_layout maxFsBlocks
  accounts := by
    have hptr : ptrs (fun _ => Dinode.zero) (newSuperBlock maxFsBlocks).dev.blocks = fun _ => 0 :=
      funext fun a => ptr_zero a.2
    rw [hptr, newSuperBlock_inUse]
    exact ⟨Holds.empty, fun n => by simp [share, Dinode.zero], rfl⟩

/-- A file without blocks on a new file system of `maxFsBlocks` blocks. -/
def emptyFile (maxFsBlocks : Nat) : InodeSt :=
  { sb := newSuperBlock maxFsBlocks, ino := { din := Dinode.zero, dirty := false, iNr := 0 } }

section EmptyFile

variable (maxFsBlocks : Nat)

theorem emptyFile_own :
    Own ((emptyFile maxFsBlocks).inodes fun _ => Dinode.zero) (emptyFile maxFsBlocks).sb := by
  have hall : (emptyFile maxFsBlocks).inodes (fun _ => Dinode.zero) = fun _ => Dinode.zero :=
    Function.update_eq_self _ _
  rw [hall]
  exact newSuperBlock_own maxFsBlocks

theorem emptyFile_free (h : maxFsBlocks ≤ 1048576) :
    (emptyFile maxFsBlocks).sb.free = maxFsBlocks := by
  rw [SuperBlock.free, emptyFile, newSuperBlock, nbits_bitmapCreate (by norm_num)]
  simp only [newDsuperBlock]
  omega

theorem emptyFile_ptr (σ : Slot) : (emptyFile maxFsBlocks).ptr σ = 0 := ptr_zero σ

theorem emptyFile_need (l : Nat) : (emptyFile maxFsBlocks).need l = path l :=
  List.filter_eq_self.mpr fun σ _ => decide_eq_true (ptr_zero σ)

theorem emptyFile_pathOnDev (l : Nat) :
    PathOnDev (emptyFile maxFsBlocks).ino.din (emptyFile maxFsBlocks).sb.dev l :=
  fun σ _ hne => absurd (ptr_zero σ) hne

end EmptyFile

/-- What an error of `testfs_allocate_block` ought to leave as it was: the slots of the
inode and its count, its tables on disk, the freemap and the count of blocks in use. -/
structure Untouched (st st' : InodeSt) : Prop where
  blockNr : st'.ino.din.iBlockNr = st.ino.din.iBlockNr
  iIndirect : st'.ino.din.iIndirect = st.ino.din.iIndirect
  iDindirect : st'.ino.din.iDindirect = st.ino.din.iDindirect
  blockCount : st'.ino.din.blockCount = st.ino.din.blockCount
  tables : ∀ τ, τ.IsTable → st.ptr τ ≠ 0 →
    st'.sb.dev.blocks (st.ptr τ).toNat = st.sb.dev.blocks (st.ptr τ).toNat
  blockFreemap : st'.sb.blockFreemap = st.sb.blockFreemap
  usedBlockCount : st'.sb.sb.usedBlockCount = st.sb.sb.usedBlockCount
  inUse : ∀ σ, st'.ptr σ ≠ 0 → st'.ptr σ ∈ st'.sb.inUse

/-- A negative result of `testfs_allocate_block` means that nothing has changed. -/
def AtomicOnError (st : InodeSt) (l : Nat) : Prop :=
  ∀ r, (testfsAllocateBlock l).run st = .ok r → r.val.1 < 0 → Untouched st r.st

/-- The free blocks do not run out in the middle of the path: there is none at all, or there
are enough for its empty slots. -/
def Affordable (st : InodeSt) (l : Nat) : Prop :=
  l < maxBlocks → PathOnDev st.ino.din st.sb.dev l →
    st.sb.free = 0 ∨ (st.need l).length ≤ st.sb.free

section Atomic

variable {st st' : InodeSt} {l : Nat} {p : Int} {log : List Event}

theorem Sane.untouched (hs : Sane st) : Untouched st st where
  blockNr := rfl
  iIndirect := rfl
  iDindirect := rfl
  blockCount := rfl
  tables _ _ _ := rfl
  blockFreemap := rfl
  usedBlockCount := rfl
  inUse := hs.mem

namespace AllocOutcome

/-- An error changes nothing if the path is affordable. -/
theorem untouched (h : AllocOutcome st l p st' log) (hs : Sane st) (hneg : p < 0)
    (hfree : st.sb.free = 0 ∨ (st.need l).length ≤ st.sb.free) : Untouched st st' := by
  cases h with
  | mapped _ => exact hs.untouched
  | beyond _ => exact hs.untouched
  | full _ _ _ _ => exact hs.untouched
  | partly _ _ hpos hneed _ _ _ _ _ =>
    exfalso
    omega
  | filled _ _ hf hp =>
    -- a block that has been allocated has a positive number
    have hr := (hf.ptr_new (mem_need.mpr ⟨mem_path_data l, ‹_›⟩)).2.1
    exfalso
    omega

/-- When the free blocks run out on the path, a slot names a block that is free again. -/
theorem dangling (h : AllocOutcome st l p st' log) (hmax : l < maxBlocks)
    (hfree : 0 < st.sb.free) (hneed : st.sb.free < (st.need l).length) :
    p < 0 ∧ ∃ σ, st'.ptr σ ≠ 0 ∧ st'.ptr σ ∉ st'.sb.inUse := by
  cases h with
  | mapped hne =>
    have hnone : st.need l = [] := by
      refine List.eq_nil_iff_forall_not_mem.mpr fun σ hσ => ?_
      obtain ⟨hpath, hz⟩ := mem_need.mp hσ
      exact ptr_path_ne_zero hne hpath hz
    rw [hnone] at hneed
    exact absurd hneed (Nat.not_lt_zero _)
  | beyond hl => exact absurd hl (by omega)
  | full _ _ hzero _ => exact absurd hzero (by omega)
  | partly _ _ _ _ _ _ hleft hclear _ => exact ⟨by decide, _, hleft, hclear⟩
  | filled _ _ hf _ =>
    have hcount := hf.took.free
    rw [List.length_map, hf.length] at hcount
    exfalso
    omega

/-- Without a free block nothing can be allocated. -/
theorem neg (h : AllocOutcome st l p st' log) (h0 : st.ptr (.data l) = 0) (hfree : st.sb.free = 0) :
    p < 0 := by
  cases h with
  | mapped hne => exact absurd h0 hne
  | beyond _ => decide
  | full _ _ _ _ => decide
  | partly _ _ _ _ _ _ _ _ _ => decide
  | filled _ _ hf _ =>
    have hcount := hf.took.free
    have hneed := List.length_pos_of_mem (mem_need.mpr ⟨mem_path_data l, h0⟩)
    rw [List.length_map, hf.length] at hcount
    omega

end AllocOutcome

/-- An error of `testfs_allocate_block` leaves everything as it was exactly if the free blocks
cannot run out in the middle of the path. -/
theorem atomicOnError_iff {D : Nat → Dinode} (ho : Own (st.inodes D) st.sb) (l : Nat) :
    AtomicOnError st l ↔ Affordable st l := by
  have hs := ho.sane
  constructor
  · intro hatomic hl hdev
    by_contra hno
    simp only [not_or, not_le] at hno
    obtain ⟨p, st', log, hrun, hcase⟩ := testfsAllocateBlock_outcome hs hl hdev
    obtain ⟨hneg, σ, hne, hclear⟩ := hcase.dangling hl (by omega) hno.2
    exact hclear ((hatomic _ hrun hneg).inUse σ hne)
  · intro hafford r hr hneg
    by_cases hl : l < maxBlocks
    · by_cases hdev : PathOnDev st.ino.din st.sb.dev l
      · obtain ⟨p, st', log, hrun, hcase⟩ := testfsAllocateBlock_outcome hs hl hdev
        cases hrun.symm.trans hr
        exact hcase.untouched hs hneg (hafford hl hdev)
      · cases (testfsAllocateBlock_short hs hl hdev).symm.trans hr
    · cases (testfsAllocateBlock_beyond (by omega)).symm.trans hr
      exact hs.untouched

end Atomic

/-- The only block of the device becomes the first block of the file, and the allocation of block 10
then fails without a trace. -/
theorem noBlockLeft_atomic : ∃ st r, st.ptr (.data 0) ≠ 0 ∧
    (testfsAllocateBlock (10 : ℕ)).run st = .ok r ∧ r.val.1 < 0 ∧ Untouched st r.st := by
  have hfree₀ := emptyFile_free 1 (by norm_num)
  obtain ⟨p, st, log, -, hcase⟩ := testfsAllocateBlock_outcome (emptyFile_own 1).sane
    (show 0 < maxBlocks by decide) (emptyFile_pathOnDev 1 0)
  cases hcase with
  | mapped hne => exact absurd (emptyFile_ptr 1 _) hne
  | beyond hl => exact absurd hl (by decide)
  | full _ _ hzero _ => exact absurd (hfree₀.symm.trans hzero) one_ne_zero
  | partly _ _ _ hneed _ _ _ _ _ =>
    rw [hfree₀, emptyFile_need] at hneed
    exact absurd hneed (by decide)
  | filled _ _ hf _ =>
    have hown := hf.own (emptyFile_own 1)
    have hfree : st.sb.free = 0 := by
      have hcount := hf.took.free
      rw [List.length_map, hf.length, emptyFile_need, hfree₀,
        show (path 0).length = 1 from rfl] at hcount
      omega
    have hzero : ∀ σ, σ ∉ path 0 → st.ptr σ = 0 := fun σ hσ => by
      rw [hf.ptr_old fun hmem => hσ (mem_need.mp hmem).1, emptyFile_ptr]
    have hapart : ∀ σ ∈ path 10, σ ∉ path 0 := by decide
    have hdev : PathOnDev st.ino.din st.sb.dev 10 := fun σ hσ hne =>
      absurd (hzero σ (hapart σ hσ)) hne
    obtain ⟨q, st', log', hrun, hcase'⟩ := testfsAllocateBlock_outcome hown.sane
      (show 10 < maxBlocks by decide) hdev
    have hneg := hcase'.neg (hzero _ (by decide)) hfree
    exact ⟨st, _, hf.ptr_ne_zero (mem_path_data 0), hrun, hneg,
      (atomicOnError_iff hown 10).mpr (fun _ _ => Or.inl hfree) _ hrun hneg⟩

/-- The single indirect block takes the last block, and its number stays in the inode after the
block has been freed. -/
theorem oneBlockLeft_not_atomic :
    Own ((emptyFile 1).inodes fun _ => Dinode.zero) (emptyFile 1).sb ∧
      ¬ AtomicOnError (emptyFile 1) 10 := by
  have hfree := emptyFile_free 1 (by norm_num)
  refine ⟨emptyFile_own 1, fun hatomic => ?_⟩
  obtain ⟨p, st', log, hrun, hcase⟩ := testfsAllocateBlock_outcome (emptyFile_own 1).sane
    (show 10 < maxBlocks by decide) (emptyFile_pathOnDev 1 10)
  obtain ⟨hneg, σ, hne, hclear⟩ := hcase.dangling (by decide) (by rw [hfree]; decide)
    (by rw [hfree, emptyFile_need]; decide)
  exact hclear ((hatomic _ hrun hneg).inUse σ hne)

end Ece344Lab.Fs
