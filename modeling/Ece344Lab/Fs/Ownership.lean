import Ece344Lab.Fs.Pointers
import Ece344Lab.Library.Pool

/-!
# Block ownership

`Own D s` says that the block slots of the inodes `D` and the block freemap of `s`
agree: no block is in two slots, the blocks in use are the ones in a slot, and
all counts are right. `D` gives every inode of the file system as it stands, in
memory or on disk. `Took` collects what a run of allocations changes besides the
contents of blocks and the slots themselves.
-/
namespace Ece344Lab.Fs

open Ece344Lab.Library

/-- The block slots of all inodes. -/
def ptrs (D : Nat → Dinode) (blk : Nat → Block) (a : Nat × Slot) : Int := ptr (D a.1) blk a.2

/-- Block ownership. -/
structure Own (D : Nat → Dinode) (s : SuperBlock) : Prop where
  layout : Layout s
  accounts : Accounts Prod.fst (ptrs D s.dev.blocks) s.inUse (fun n => (D n).blockCount)
    s.sb.usedBlockCount

/-- The inodes of the file system, of which `st` has one in memory. -/
def InodeSt.inodes (st : InodeSt) (D : Nat → Dinode) : Nat → Dinode :=
  Function.update D st.ino.iNr st.ino.din

/-- The block numbers of the inode in memory. -/
abbrev InodeSt.ptr (st : InodeSt) (σ : Slot) : Int := Fs.ptr st.ino.din st.sb.dev.blocks σ

theorem InodeSt.ptr_ind (st : InodeSt) : st.ptr .ind = st.ino.din.iIndirect := rfl

theorem InodeSt.ptr_dind (st : InodeSt) : st.ptr .dind = st.ino.din.iDindirect := rfl

@[simp] theorem inodes_self (st : InodeSt) (D : Nat → Dinode) :
    st.inodes D st.ino.iNr = st.ino.din := by
  simp [InodeSt.inodes]

theorem inodes_ne (st : InodeSt) (D : Nat → Dinode) {n : Nat} (h : n ≠ st.ino.iNr) :
    st.inodes D n = D n := by
  simp [InodeSt.inodes, h]

namespace Own

variable {D : Nat → Dinode} {s : SuperBlock}

theorem mem (h : Own D s) {n : Nat} {σ : Slot} (hp : ptr (D n) s.dev.blocks σ ≠ 0) :
    ptr (D n) s.dev.blocks σ ∈ s.inUse :=
  h.accounts.holds.mem (a := (n, σ)) hp

theorem range (h : Own D s) {n : Nat} {σ : Slot} (hp : ptr (D n) s.dev.blocks σ ≠ 0) :
    146 ≤ ptr (D n) s.dev.blocks σ ∧ ptr (D n) s.dev.blocks σ < 1048722 :=
  SuperBlock.inUse_range h.layout (h.mem hp)

theorem nonneg (h : Own D s) (n : Nat) (σ : Slot) : 0 ≤ ptr (D n) s.dev.blocks σ := by
  by_cases hp : ptr (D n) s.dev.blocks σ = 0
  · rw [hp]
  · have := (h.range hp).1
    omega

/-- No block is in two slots. -/
theorem inj (h : Own D s) {n m : Nat} {σ τ : Slot} (hp : ptr (D n) s.dev.blocks σ ≠ 0)
    (he : ptr (D n) s.dev.blocks σ = ptr (D m) s.dev.blocks τ) : n = m ∧ σ = τ := by
  have hinj := h.accounts.holds.inj (a := (n, σ)) (b := (m, τ)) hp he
  exact ⟨congrArg Prod.fst hinj, congrArg Prod.snd hinj⟩

theorem total (h : Own D s) : s.sb.usedBlockCount = s.inUse.card := h.accounts.total

end Own

section Steps

variable {α : Type} {m : SbM α} {st : InodeSt} {sb : SuperBlock} {a : α} {l : List Event}

theorem onSb_run (h : m.run st.sb = .ok ⟨a, sb, l⟩) :
    (onSb m).run st = .ok ⟨a, { st with sb := sb }, l⟩ := Program.zoom_run h

theorem onSb_run_error {e : Halt} (h : m.run st.sb = .error e) : (onSb m).run st = .error e :=
  Program.zoom_run_error h

@[simp] theorem setDin_bind (f : Dinode → Dinode) (g : Unit → InodeM α) :
    (setDin f >>= g).run st = (g ()).run { st with ino.din := f st.ino.din } :=
  Program.modify_bind _ _ _

@[simp] theorem setDirty_bind (g : Unit → InodeM α) :
    (setDirty >>= g).run st = (g ()).run { st with ino.dirty := true } :=
  Program.modify_bind _ _ _

/-- The state after a write to a data block. -/
def InodeSt.write (st : InodeSt) (n : Nat) (b : Block) : InodeSt :=
  { st with sb.dev := st.sb.dev.write n b }

theorem writeBlock_run {n : Int} (hn : 0 ≤ n) (b : Block) :
    (writeBlock n b).run st = .ok ⟨(), st.write n.toNat b, []⟩ := by
  simp only [writeBlock, Program.reads_bind, if_neg (show ¬ n < 0 by omega), Program.modify_run]
  rfl

@[simp] theorem write_ino (n : Nat) (b : Block) : (st.write n b).ino = st.ino := rfl

theorem write_dev_blocks (n m : Nat) (b : Block) :
    (st.write n b).sb.dev.blocks m = if m = n then b else st.sb.dev.blocks m :=
  Dev.write_blocks _ _ _ _

@[simp] theorem write_dev_size (n : Nat) (b : Block) :
    (st.write n b).sb.dev.size = max st.sb.dev.size (n + 1) := rfl

end Steps

/-- The allocator can rely on the layout and on the count of blocks in use. -/
structure Counted (s : SuperBlock) : Prop where
  layout : Layout s
  total : s.sb.usedBlockCount = s.inUse.card

theorem Own.counted {D : Nat → Dinode} {s : SuperBlock} (h : Own D s) : Counted s :=
  ⟨h.layout, h.total⟩

/-- What a run of allocations of the blocks `ps` changes, apart from block contents and
slots: `st'` is the state after it. -/
structure Took (st st' : InodeSt) (ps : List Int) : Prop where
  frame : DataFrame st.sb st'.sb
  inUse : st'.sb.inUse = ps.toFinset ∪ st.sb.inUse
  fresh : ∀ p ∈ ps, p ∉ st.sb.inUse
  range : ∀ p ∈ ps, 146 ≤ p ∧ p < 1048722
  nodup : ps.Nodup
  used : st'.sb.sb.usedBlockCount = st.sb.sb.usedBlockCount + ps.length
  free : st'.sb.free + ps.length = st.sb.free
  iNr : st'.ino.iNr = st.ino.iNr
  iSize : st'.ino.din.iSize = st.ino.din.iSize
  iType : st'.ino.din.iType = st.ino.din.iType
  blockCount : st'.ino.din.blockCount = st.ino.din.blockCount + ps.length
  dirty : st.ino.dirty = true ∨ ps ≠ [] → st'.ino.dirty = true

namespace Took

variable {st st' st'' : InodeSt} {ps qs : List Int}

theorem trans (h : Took st st' ps) (h' : Took st' st'' qs) : Took st st'' (ps ++ qs) where
  frame := h.frame.trans h'.frame
  inUse := by
    rw [h'.inUse, h.inUse, List.toFinset_append, ← Finset.union_assoc,
      Finset.union_comm qs.toFinset]
  fresh p hp := by
    rcases List.mem_append.mp hp with hp | hp
    · exact h.fresh p hp
    · have hnot := h'.fresh p hp
      rw [h.inUse, Finset.mem_union, not_or] at hnot
      exact hnot.2
  range p hp := (List.mem_append.mp hp).elim (h.range p) (h'.range p)
  nodup := by
    refine List.nodup_append.mpr ⟨h.nodup, h'.nodup, fun p hp q hq => ?_⟩
    rintro rfl
    have hnot := h'.fresh p hq
    rw [h.inUse, Finset.mem_union, not_or] at hnot
    exact hnot.1 (List.mem_toFinset.mpr hp)
  used := by rw [h'.used, h.used, List.length_append, Nat.add_assoc]
  free := by
    have hf := h.free
    have hf' := h'.free
    rw [List.length_append]
    omega
  iNr := h'.iNr.trans h.iNr
  iSize := h'.iSize.trans h.iSize
  iType := h'.iType.trans h.iType
  blockCount := by rw [h'.blockCount, h.blockCount, List.length_append]; push_cast; omega
  dirty hd := by
    by_cases hps : ps = []
    · subst hps
      exact h'.dirty (hd.imp (fun hd => h.dirty (Or.inl hd)) (by simp))
    · exact h'.dirty (Or.inl (h.dirty (Or.inr hps)))

/-- An assignment to a slot of the inode. -/
theorem setDin (h : Took st st' ps) {d : Dinode} (hsize : d.iSize = st'.ino.din.iSize)
    (htype : d.iType = st'.ino.din.iType) (hcount : d.blockCount = st'.ino.din.blockCount) :
    Took st { st' with ino.din := d } ps :=
  { h with
    iSize := hsize.trans h.iSize
    iType := htype.trans h.iType
    blockCount := hcount.trans h.blockCount }

/-- A write to a data block. -/
theorem write (h : Took st st' ps) {n : Nat} (hn : 146 ≤ n) (b : Block) :
    Took st (st'.write n b) ps :=
  { h with frame := h.frame.trans (write_frame hn b) }

theorem refl (st : InodeSt) : Took st st [] where
  frame := DataFrame.refl _
  inUse := by simp
  fresh := by simp
  range := by simp
  nodup := List.nodup_nil
  used := rfl
  free := rfl
  iNr := rfl
  iSize := rfl
  iType := rfl
  blockCount := by simp
  dirty hd := hd.resolve_right (by simp)

theorem counted (h : Took st st' ps) (hc : Counted st.sb) : Counted st'.sb where
  layout := h.frame.layout hc.layout
  total := by
    have hdisj : Disjoint ps.toFinset st.sb.inUse :=
      Finset.disjoint_left.mpr fun p hp => h.fresh p (List.mem_toFinset.mp hp)
    rw [h.inUse, Finset.card_union_of_disjoint hdisj, h.used, List.toFinset_card_of_nodup h.nodup,
      hc.total]
    omega

end Took

theorem SuperBlock.free_pos {s : SuperBlock} (hc : Counted s) (h : 0 < s.free) :
    s.sb.usedBlockCount < s.sb.maxFsBlocks ∧
      ∃ k, k < 1048576 ∧ s.blockFreemap.isset k = false := by
  have hbits := hc.layout.blockBits
  have htotal := hc.total
  rw [SuperBlock.card_inUse] at htotal
  simp only [SuperBlock.free, hbits] at h
  obtain ⟨k, hk, hclear⟩ := exists_clear (b := s.blockFreemap) (by rw [hbits]; omega)
  exact ⟨by omega, k, by rwa [hbits] at hk, hclear⟩

theorem SuperBlock.free_zero {s : SuperBlock} (hc : Counted s) (h : s.free = 0) :
    s.sb.maxFsBlocks ≤ s.sb.usedBlockCount ∨
      ∀ k, k < 1048576 → s.blockFreemap.isset k = true := by
  have hbits := hc.layout.blockBits
  by_contra hno
  simp only [not_or, not_forall, Bool.not_eq_true] at hno
  obtain ⟨hmax, k, hk, hclear⟩ := hno
  have hlt : (setBits s.blockFreemap).card < 1048576 := by
    have hsub : setBits s.blockFreemap ⊂ Finset.range s.blockFreemap.nbits := by
      refine (Finset.ssubset_iff_of_subset (Finset.filter_subset _ _)).mpr ⟨k, ?_, ?_⟩
      · rwa [Finset.mem_range, hbits]
      · simp [hclear]
    simpa [hbits] using Finset.card_lt_card hsub
  rw [← SuperBlock.card_inUse, ← hc.total] at hlt
  simp only [SuperBlock.free, hbits] at h
  omega

/-- The two outcomes of `testfs_alloc_block_for_inode`. -/
theorem testfsAllocBlockForInode_cases {st : InodeSt} (hc : Counted st.sb) :
    (st.sb.free = 0 ∧ testfsAllocBlockForInode.run st = .ok ⟨-ENOSPC, st, [.allocBlockFailed]⟩) ∨
    ∃ p st', testfsAllocBlockForInode.run st = .ok ⟨p, st', []⟩ ∧ Took st st' [p] ∧
      (∀ n, 18 ≤ n → st'.sb.dev.blocks n = st.sb.dev.blocks n) ∧
      st'.sb.dev.size = st.sb.dev.size ∧
      st'.ino.din = { st.ino.din with blockCount := st.ino.din.blockCount + 1 } := by
  by_cases hfree : st.sb.free = 0
  · refine Or.inl ⟨hfree, ?_⟩
    have hrun := testfsAllocBlock_full hc.layout (SuperBlock.free_zero hc hfree)
    rw [testfsAllocBlockForInode, Program.bind_run_ok (onSb_run hrun)]
    rfl
  · obtain ⟨hmax, hclear⟩ := SuperBlock.free_pos hc (by omega)
    obtain ⟨k, hk, hkc, hrun⟩ := testfsAllocBlock_take hc.layout hmax hclear
    refine Or.inr ⟨146 + k, { sb := st.sb.takeBlock k, ino := { st.ino with
      din := { st.ino.din with blockCount := st.ino.din.blockCount + 1 }, dirty := true } },
      ?_, ?_, fun n hn => takeBlock_blocks hc.layout hk hn, takeBlock_size hc.layout hk, rfl⟩
    · rw [testfsAllocBlockForInode, Program.bind_run_nil (onSb_run hrun)]
      dsimp only
      rw [if_pos (by omega), setDin_bind, setDirty_bind, Program.pure_run]
    · exact
        { frame := takeBlock_frame hc.layout hk
          inUse := by rw [takeBlock_inUse hc.layout hk]; rfl
          fresh := by simpa using notMem_inUse hc.layout hkc
          range := by simp only [List.mem_singleton, forall_eq]; omega
          nodup := List.nodup_singleton _
          used := rfl
          free := takeBlock_free (by omega)
          iNr := rfl
          iSize := rfl
          iType := rfl
          blockCount := rfl
          dirty := fun _ => rfl }

/-- What freeing the block `p` of the inode changes, apart from the slots. -/
structure Gave (st st' : InodeSt) (p : Int) : Prop where
  frame : DataFrame st.sb st'.sb
  inUse : st'.sb.inUse = st.sb.inUse.erase p
  used : st'.sb.sb.usedBlockCount = st.sb.sb.usedBlockCount - 1
  blocks : ∀ n : ℕ, 18 ≤ n →
    st'.sb.dev.blocks n = if (n : ℤ) = p then Block.zero else st.sb.dev.blocks n
  iNr : st'.ino.iNr = st.ino.iNr
  din : st'.ino.din = { st.ino.din with blockCount := st.ino.din.blockCount - 1 }
  dirty : st'.ino.dirty = true

theorem Gave.counted {st st' : InodeSt} {p : Int} (h : Gave st st' p) (hc : Counted st.sb)
    (hp : p ∈ st.sb.inUse) : Counted st'.sb where
  layout := h.frame.layout hc.layout
  total := by rw [h.inUse, h.used, Finset.card_erase_of_mem hp, hc.total]

theorem testfsFreeBlockFromInode_run {st : InodeSt} (hc : Counted st.sb) {p : Int}
    (hp : p ∈ st.sb.inUse) :
    ∃ st', (testfsFreeBlockFromInode p).run st = .ok ⟨(), st', []⟩ ∧ Gave st st' p := by
  have hpos : 0 < st.sb.sb.usedBlockCount := by
    rw [hc.total]
    exact Finset.card_pos.mpr ⟨p, hp⟩
  obtain ⟨k, hk, hset, rfl⟩ := (SuperBlock.mem_inUse hc.layout p).mp hp
  have hrun := testfsFreeBlock_release hc.layout hk hset hpos
  refine ⟨{ sb := st.sb.releaseBlock k, ino := { st.ino with
    din := { st.ino.din with blockCount := st.ino.din.blockCount - 1 }, dirty := true } }, ?_, ?_⟩
  · rw [testfsFreeBlockFromInode, if_neg (by omega), Program.bind_run_nil (onSb_run hrun),
      setDin_bind]
    rfl
  · exact
      { frame := releaseBlock_frame hc.layout hk
        inUse := releaseBlock_inUse hc.layout
        used := rfl
        blocks := fun n hn => by
          rw [releaseBlock_blocks hc.layout hk hn]
          exact if_congr (by omega) rfl rfl
        iNr := rfl
        din := rfl
        dirty := rfl }

theorem testfsFreeBlockFromInode_zero (st : InodeSt) :
    (testfsFreeBlockFromInode 0).run st = .ok ⟨(), st, []⟩ := rfl

/-- What the slots of one inode need for its operations. -/
structure Sane (st : InodeSt) : Prop where
  counted : Counted st.sb
  mem : ∀ σ, st.ptr σ ≠ 0 → st.ptr σ ∈ st.sb.inUse
  inj : ∀ σ τ, st.ptr σ ≠ 0 → st.ptr σ = st.ptr τ → σ = τ

theorem Own.sane {D : Nat → Dinode} {st : InodeSt} (h : Own (st.inodes D) st.sb) : Sane st where
  counted := h.counted
  mem σ hp := by
    have hm := h.mem (n := st.ino.iNr) (σ := σ)
    rw [inodes_self] at hm
    exact hm hp
  inj σ τ hp he := by
    have hi := h.inj (n := st.ino.iNr) (m := st.ino.iNr) (σ := σ) (τ := τ)
    rw [inodes_self] at hi
    exact (hi hp he).2

namespace Sane

variable {st : InodeSt}

theorem range (h : Sane st) {σ : Slot} (hp : st.ptr σ ≠ 0) : 146 ≤ st.ptr σ ∧ st.ptr σ < 1048722 :=
  SuperBlock.inUse_range h.counted.layout (h.mem σ hp)

theorem nonneg (h : Sane st) (σ : Slot) : 0 ≤ st.ptr σ := by
  by_cases hp : st.ptr σ = 0
  · omega
  · have := (h.range hp).1
    omega

theorem pos (h : Sane st) {σ : Slot} (hp : st.ptr σ ≠ 0) : 0 < st.ptr σ := by
  have := h.nonneg σ
  omega

end Sane

end Ece344Lab.Fs
