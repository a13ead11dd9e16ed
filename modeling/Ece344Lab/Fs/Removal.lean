import Ece344Lab.Fs.Allocate

/-!
# Freeing the blocks of an inode

`testfs_free_blocks` walks the slots of an inode by its size and frees the blocks it finds there.
It frees only blocks of that inode, each at most once: freeing a block again stops the program. A
table that was freed reads as zeros, so the walk finds nothing behind it.
-/
namespace Ece344Lab.Fs

open Ece344Lab.Library

/-- What freeing the blocks `F` of the inode `st₀` changes, apart from its slots. -/
structure Freed (st₀ st : InodeSt) (F : Finset ℤ) : Prop where
  frame : DataFrame st₀.sb st.sb
  mine : ∀ p ∈ F, ∃ σ, st₀.ptr σ = p
  subset : F ⊆ st₀.sb.inUse
  inUse : st.sb.inUse = st₀.sb.inUse \ F
  blocks : ∀ n : ℕ, 18 ≤ n → st.sb.dev.blocks n =
    if (n : ℤ) ∈ F then Block.zero else st₀.sb.dev.blocks n
  counted : Counted st.sb
  iNr : st.ino.iNr = st₀.ino.iNr
  blockCount : st.ino.din.blockCount = st₀.ino.din.blockCount - F.card

/-- A block of the inode, or none. -/
def Mine (st₀ : InodeSt) (p : ℤ) : Prop := p = 0 ∨ ∃ σ, st₀.ptr σ = p

/-- A state of the walk: the slots of the inode still name its blocks, unless they were cleared. -/
structure Freeing (st₀ st : InodeSt) : Prop where
  freed : ∃ F, Freed st₀ st F
  direct : ∀ i, Mine st₀ (st.ino.din.blockNr i)
  ind : st.ino.din.iIndirect = st₀.ino.din.iIndirect ∨ st.ino.din.iIndirect = 0
  dind : st.ino.din.iDindirect = st₀.ino.din.iDindirect

section Free

variable {st₀ st st' : InodeSt} {F : Finset ℤ} {p : ℤ}

theorem Freed.refl (hs : Sane st) : Freed st st ∅ where
  frame := DataFrame.refl _
  mine := by simp
  subset := Finset.empty_subset _
  inUse := by simp
  blocks n _ := by simp
  counted := hs.counted
  iNr := rfl
  blockCount := by simp

/-- One more block of the inode is given back. -/
theorem Freed.give (h : Freed st₀ st F) (hg : Gave st st' p) (hp : p ∈ st.sb.inUse)
    (hm : ∃ σ, st₀.ptr σ = p) : Freed st₀ st' (insert p F) := by
  have hnew : p ∈ st₀.sb.inUse ∧ p ∉ F := by
    rwa [h.inUse, Finset.mem_sdiff] at hp
  constructor
  · exact h.frame.trans hg.frame
  · intro q hq
    rcases Finset.mem_insert.mp hq with rfl | hq
    · exact hm
    · exact h.mine q hq
  · exact Finset.insert_subset hnew.1 h.subset
  · rw [hg.inUse, h.inUse, Finset.sdiff_insert]
  · intro n hn
    rw [hg.blocks n hn, h.blocks n hn]
    by_cases hnp : (n : ℤ) = p
    · rw [if_pos hnp, if_pos (by simp [hnp])]
    · rw [if_neg hnp]
      exact if_congr (by simp [hnp]) rfl rfl
  · exact hg.counted h.counted hp
  · exact hg.iNr.trans h.iNr
  · rw [hg.din, Finset.card_insert_of_notMem hnew.2]
    change st.ino.din.blockCount - 1 = _
    rw [h.blockCount]
    push_cast
    omega

theorem Freeing.refl (hs : Sane st) : Freeing st st where
  freed := ⟨∅, .refl hs⟩
  direct i := by
    by_cases hi : i < 10
    · exact .inr ⟨.data i, ptr_direct hi⟩
    · exact .inl (dif_neg hi)
  ind := .inl rfl
  dind := rfl

/-- Freeing a block that is not in use stops the program. -/
theorem testfsFreeBlockFromInode_again {st : InodeSt} (hc : Counted st.sb) (hlo : 146 ≤ p)
    (hhi : p < 1048722) (hp : p ∉ st.sb.inUse) :
    (testfsFreeBlockFromInode p).run st = .error (.assertion .bitmapUnmarkSet) := by
  obtain ⟨k, rfl⟩ : ∃ k : ℕ, p = 146 + k := ⟨(p - 146).toNat, by omega⟩
  have hk : k < 1048576 := by omega
  have hclear : st.sb.blockFreemap.isset k = false := by
    by_contra hset
    rw [Bool.not_eq_false] at hset
    exact hp ((SuperBlock.mem_inUse hc.layout _).mpr ⟨k, hk, hset, rfl⟩)
  rw [testfsFreeBlockFromInode, if_neg (by omega)]
  exact Program.bind_run_error (onSb_run_error (testfsFreeBlock_unmarked hc.layout hk hclear))

/-- Freeing a block of the inode. -/
theorem preserves_free (hs : Sane st₀) (hm : Mine st₀ p) :
    Program.Preserves (Freeing st₀) (testfsFreeBlockFromInode p) := by
  intro st h
  by_cases hz : p = 0
  · subst hz
    rw [Program.wp_ok (testfsFreeBlockFromInode_zero st)]
    exact h
  obtain ⟨F, hF⟩ := h.freed
  have hmine := hm.resolve_left hz
  by_cases hp : p ∈ st.sb.inUse
  · obtain ⟨st', hrun, hg⟩ := testfsFreeBlockFromInode_run hF.counted hp
    rw [Program.wp_ok hrun]
    constructor
    · exact ⟨_, hF.give hg hp hmine⟩
    · intro i
      rw [hg.din]
      exact h.direct i
    · rw [hg.din]
      exact h.ind
    · rw [hg.din]
      exact h.dind
  · obtain ⟨σ, rfl⟩ := hmine
    have hrange := hs.range hz
    rw [Program.wp_error (testfsFreeBlockFromInode_again hF.counted hrange.1 hrange.2 hp)]
    trivial

/-- What the walk finds in a table of the inode. -/
theorem Freeing.table (hs : Sane st₀) (h : Freeing st₀ st) {τ : Slot} (hτ : τ.IsTable)
    (hne : st₀.ptr τ ≠ 0) {j : Nat} (hj : j < 2048) :
    (st.sb.dev.blocks (st₀.ptr τ).toNat).int j = 0 ∨
      (st.sb.dev.blocks (st₀.ptr τ).toNat).int j = st₀.ptr (τ.child j) := by
  obtain ⟨F, hF⟩ := h.freed
  have hrange := hs.range hne
  rw [hF.blocks _ (by omega)]
  split_ifs
  · exact .inl (Block.int_zero _)
  · exact .inr (hs.int_table hτ hne hj)

/-- An assignment to the inode that clears some of its slots for data and tables. -/
theorem Freeing.setDin (h : Freeing st₀ st) {d : Dinode}
    (hcount : d.blockCount = st.ino.din.blockCount) (hdirect : ∀ i, Mine st₀ (d.blockNr i))
    (hind : d.iIndirect = st₀.ino.din.iIndirect ∨ d.iIndirect = 0)
    (hdind : d.iDindirect = st₀.ino.din.iDindirect) :
    Freeing st₀ { st with ino.din := d } := by
  obtain ⟨F, hF⟩ := h.freed
  exact ⟨⟨F, { hF with blockCount := hcount.trans hF.blockCount }⟩, hdirect, hind, hdind⟩

/-- Clearing a direct block of the inode. -/
theorem mine_setBlockNr {d : Dinode} {j : Nat} (h : Mine st₀ (d.blockNr j)) (i : Nat) :
    Mine st₀ ((d.setBlockNr i 0).blockNr j) := by
  rw [Dinode.blockNr] at h ⊢
  split_ifs at h ⊢ with hj
  · change Mine st₀ (if j = i then 0 else d.iBlockNr ⟨j, hj⟩)
    split_ifs
    · exact .inl rfl
    · exact h
  · exact h

/-- The direct blocks. -/
theorem preserves_freeDirect (hs : Sane st₀) (eBlockNr : ℤ) (n : Nat) :
    ∀ i, Program.Preserves (Freeing st₀) (freeDirect eBlockNr n i) := by
  induction n with
  | zero => exact fun i => .pure _
  | succ n ih =>
    intro i
    rw [freeDirect]
    refine .ite (fun _ => .get_bind fun st h => ?_) fun _ => .pure _
    refine .ite (fun _ => .bind (preserves_free hs (h.direct i)) fun _ => ?_) fun _ => ih _
    refine .bind (.modify fun st' h' => ?_) fun _ => ih _
    exact h'.setDin rfl (fun j => mine_setBlockNr (h'.direct j) i) h'.ind h'.dind

/-- The entries of a table that names blocks of the inode. -/
theorem preserves_freeTable (hs : Sane st₀) (eBlockNr : ℤ) (table : Block) (n : Nat) :
    ∀ (j : Nat) (deleted : ℤ), (∀ k, k < j + n → Mine st₀ (table.int k)) →
      Program.Preserves (Freeing st₀) (freeTable eBlockNr table n j deleted) := by
  induction n with
  | zero => exact fun j deleted _ => .pure _
  | succ n ih =>
    intro j deleted hm
    have hfirst := hm j (by omega)
    have hrest := ih (j + 1) (deleted + 1) fun k hk => hm k (by omega)
    rw [freeTable]
    refine .ite (fun _ => ?_) fun _ => .pure _
    generalize table.int j = p at hfirst ⊢
    exact .bind (preserves_free hs hfirst) fun _ => hrest

theorem mine_ptr (σ : Slot) : Mine st₀ (st₀.ptr σ) := .inr ⟨σ, rfl⟩

/-- What is read from a table of the inode during the walk names blocks of the inode. -/
theorem Freeing.read (hs : Sane st₀) (h : Freeing st₀ st) {τ : Slot} (hτ : τ.IsTable)
    (hne : st₀.ptr τ ≠ 0) {b : Block} (hb : st.sb.dev.read (st₀.ptr τ) = .ok b) {j : Nat}
    (hj : j < 2048) : b.int j = 0 ∨ b.int j = st₀.ptr (τ.child j) := by
  have hpos := hs.pos hne
  by_cases hdev : (st₀.ptr τ).toNat < st.sb.dev.size
  · rw [dev_read_ok hpos hdev] at hb
    cases hb
    exact h.table hs hτ hne hj
  · rw [dev_read_short hpos hdev] at hb
    cases hb

theorem Freeing.mine (hs : Sane st₀) (h : Freeing st₀ st) {τ : Slot} (hτ : τ.IsTable)
    (hne : st₀.ptr τ ≠ 0) {b : Block} (hb : st.sb.dev.read (st₀.ptr τ) = .ok b) :
    ∀ j, j < 0 + nrIndirectBlocks → Mine st₀ (b.int j) := by
  intro j hj
  rw [Nat.zero_add] at hj
  rcases h.read hs hτ hne hb hj with hz | hsame
  · exact .inl hz
  · exact .inr ⟨_, hsame.symm⟩

/-- The second-level tables. -/
theorem preserves_freeDouble (hs : Sane st₀) (eBlockNr : ℤ) (block : Block) (n : Nat) :
    ∀ (i : Nat) (deleted : ℤ),
      (∀ k, k < i + n → k < 2048 ∧ (block.int k = 0 ∨ block.int k = st₀.ptr (.tab k))) →
      Program.Preserves (Freeing st₀) (freeDouble eBlockNr block n i deleted) := by
  induction n with
  | zero => exact fun i deleted _ => .pure _
  | succ n ih =>
    intro i deleted hm
    have hfirst := hm i (by omega)
    have hrest := fun deleted => ih (i + 1) deleted fun k hk => hm k (by omega)
    rw [freeDouble]
    refine .ite (fun _ => ?_) fun _ => .pure _
    generalize block.int i = q at hfirst ⊢
    refine .ite (fun hpos => ?_) fun _ => hrest _
    obtain ⟨hi, rfl | rfl⟩ := hfirst
    · omega
    refine .reads_bind fun st b h hb => ?_
    have hne : st₀.ptr (.tab i) ≠ 0 := by omega
    have hentry := h.mine hs (τ := .tab i) hi hne hb
    have htable := preserves_freeTable hs eBlockNr b nrIndirectBlocks 0 deleted hentry
    generalize freeTable eBlockNr b nrIndirectBlocks 0 deleted = t at htable ⊢
    exact .bind htable fun _ => .bind (preserves_free hs (mine_ptr _)) fun _ => hrest _

/-- The single indirect table, before what comes behind it. -/
theorem leads_freeSingle (hs : Sane st₀) (eBlockNr : ℤ) (h : Freeing st₀ st)
    (hpos : st.ino.din.iIndirect > 0) {k : Unit → InodeM Unit} {R : InodeSt → Prop}
    (hk : ∀ a, Program.Leads (Freeing st₀) R (k a)) :
    Program.Leads (fun s => s = st) R (do
      let block ← Program.reads fun s => s.sb.dev.read s.ino.din.iIndirect
      let _ ← freeTable eBlockNr block nrIndirectBlocks 0 0
      testfsFreeBlockFromInode st.ino.din.iIndirect
      let r ← setDin fun d => { d with iIndirect := 0 }
      k r) := by
  have hind : st.ino.din.iIndirect = st₀.ptr .ind := h.ind.resolve_right (by omega)
  have hne : st₀.ptr .ind ≠ 0 := by omega
  refine .reads_bind fun s b hst hb => ?_
  subst hst
  rw [hind] at hb ⊢
  have hentry := h.mine hs (τ := .ind) trivial hne hb
  have htable := preserves_freeTable hs eBlockNr b nrIndirectBlocks 0 0 hentry
  generalize freeTable eBlockNr b nrIndirectBlocks 0 0 = t at htable ⊢
  refine .weaken (J := Freeing st₀) ?_ fun _ ht => ht ▸ h
  refine .bind htable fun _ => .bind (preserves_free hs (mine_ptr _)) fun _ => ?_
  exact .bind (.modify fun s' h' => h'.setDin rfl h'.direct (.inr rfl) h'.dind) hk

theorem Freed.setDin (h : ∃ F, Freed st₀ st F) {d : Dinode}
    (hcount : d.blockCount = st.ino.din.blockCount) : ∃ F, Freed st₀ { st with ino.din := d } F := by
  obtain ⟨F, hF⟩ := h
  exact ⟨F, { hF with blockCount := hcount.trans hF.blockCount }⟩

/-- The end of the walk: the size becomes 0. -/
theorem leads_clearSize : Program.Leads (fun st => ∃ F, Freed st₀ st F)
    (fun st => ∃ F, Freed st₀ st F) (do
      setDin fun d => { d with iSize := 0 }
      setDirty) := by
  refine .bind (J := fun st => ∃ F, Freed st₀ st F) (.modify fun s h => Freed.setDin h rfl)
    fun _ => .modify fun s h => ?_
  obtain ⟨F, hF⟩ := h
  exact ⟨F, { hF with }⟩

/-- The double indirect table, in a file that has one if its size says so. -/
theorem leads_freeDindirect (hs : Sane st₀) {eBlockNr : ℤ}
    (hd : 0 < eBlockNr → st₀.ino.din.iDindirect ≠ 0) :
    Program.Leads (Freeing st₀) (fun st => ∃ F, Freed st₀ st F) (if eBlockNr ≥ 0 then do
        let s ← Program.get
        let block ← Program.reads fun s => s.sb.dev.read s.ino.din.iDindirect
        freeDouble eBlockNr block nrIndirectBlocks 0 0
        testfsFreeBlockFromInode s.ino.din.iDindirect
        setDin fun d => { d with iDindirect := 0 }
        setDin fun d => { d with iSize := 0 }
        setDirty
      else do
        setDin fun d => { d with iSize := 0 }
        setDirty) := by
  refine .ite (fun _ => ?_) fun _ => leads_clearSize.weaken fun _ h => h.freed
  refine .get_bind fun st h => .reads_bind fun s b hst hb => ?_
  subst hst
  rw [h.dind] at hb ⊢
  have hdouble : Program.Preserves (Freeing st₀) (freeDouble eBlockNr b nrIndirectBlocks 0 0) := by
    by_cases hpos : 0 < eBlockNr
    · refine preserves_freeDouble hs eBlockNr b nrIndirectBlocks 0 0 fun k hk => ?_
      rw [Nat.zero_add] at hk
      exact ⟨hk, h.read hs (τ := .dind) trivial (hd hpos) hb hk⟩
    · -- no block is behind the double indirect table: the loop ends at once
      rw [nrIndirectBlocks, freeDouble, if_neg hpos]
      exact .pure _
  generalize freeDouble eBlockNr b nrIndirectBlocks 0 0 = t at hdouble ⊢
  refine .weaken (J := Freeing st₀) ?_ fun _ ht => ht ▸ h
  refine .bind hdouble fun _ => .bind (preserves_free hs (mine_ptr .dind)) fun _ => ?_
  refine .bind (.modify fun s' h' => ?_) fun _ => leads_clearSize
  exact Freed.setDin (d := { s'.ino.din with iDindirect := 0 }) h'.freed rfl

/-- `testfs_free_blocks`, on a file that has a double indirect table if its size says so. -/
theorem wp_testfsFreeBlocks (hs : Sane st) (hsize : 0 ≤ st.ino.din.iSize)
    (hmax : st.ino.din.iSize ≤ maxFileSize)
    (hd : 2058 * 8192 < st.ino.din.iSize → st.ino.din.iDindirect ≠ 0) :
    Program.wp testfsFreeBlocks st (fun _ st' _ => ∃ F, Freed st st' F) fun _ => True := by
  simp only [maxFileSize] at hmax
  obtain ⟨e, he⟩ : ∃ e, e = toInt ((st.ino.din.iSize + blockSize - 1).tdiv blockSize) := ⟨_, rfl⟩
  have hcount : 0 < e - nrDirectBlocks - nrIndirectBlocks → st.ino.din.iDindirect ≠ 0 := by
    intro h
    apply hd
    have htdiv : (st.ino.din.iSize + blockSize - 1).tdiv blockSize =
        (st.ino.din.iSize + blockSize - 1) / blockSize :=
      Int.tdiv_eq_ediv_of_nonneg (by simp only [blockSize]; omega)
    simp only [nrDirectBlocks, nrIndirectBlocks] at h
    rw [he, htdiv, toInt_of_lt (by simp only [blockSize]; omega)
      (by simp only [blockSize]; omega)] at h
    simp only [blockSize] at h
    omega
  rw [testfsFreeBlocks, Program.wp_bind, Program.wp_get]
  dsimp only
  rw [← he]
  refine Program.wp.imp (Q := fun _ st' _ => ∃ F, Freed st st' F) ?_ fun _ _ _ h => h
  have hdirect := preserves_freeDirect hs e nrDirectBlocks 0
  have hdouble := leads_freeDindirect hs hcount
  refine (Program.Leads.bind hdirect fun _ => ?_) st (Freeing.refl hs)
  refine .get_bind fun st₁ hst₁ => .ite (fun hpos => ?_) fun _ => hdouble.weaken fun _ ht => ht ▸ hst₁
  exact leads_freeSingle hs _ hst₁ hpos fun _ => hdouble

/-- The walk that leaves no block counted has given back all blocks of the inode. -/
theorem Freed.all {D : Nat → Dinode} (h : Freed st₀ st F) (ho : Own (st₀.inodes D) st₀.sb)
    (hcount : st.ino.din.blockCount = 0) :
    F = share Prod.fst (ptrs (st₀.inodes D) st₀.sb.dev.blocks) st₀.sb.inUse st₀.ino.iNr := by
  apply Finset.eq_of_subset_of_card_le
  · intro p hp
    obtain ⟨σ, hσ⟩ := h.mine p hp
    refine (mem_share _ _).mpr ⟨h.subset hp, (st₀.ino.iNr, σ), rfl, ?_⟩
    rw [ptrs, inodes_self]
    exact hσ
  · have haccount := ho.accounts.count st₀.ino.iNr
    have hleft := h.blockCount
    rw [inodes_self] at haccount
    omega

/-- Then the blocks of the other inodes are accounted for as before. -/
theorem Freed.own {D : Nat → Dinode} (h : Freed st₀ st F) (ho : Own (st₀.inodes D) st₀.sb)
    (hcount : st.ino.din.blockCount = 0) :
    Own (Function.update D st₀.ino.iNr Dinode.zero) st.sb := by
  have hother : ∀ n, n ≠ st₀.ino.iNr → ∀ σ,
      ptr (D n) st.sb.dev.blocks σ = ptr (D n) st₀.sb.dev.blocks σ := by
    intro n hn
    refine ptr_congr fun τ _ hpos => ?_
    have hin := fun σ => ho.inj (n := n) (m := st₀.ino.iNr) (σ := τ) (τ := σ)
    have hrange := ho.range (n := n) (σ := τ)
    rw [inodes_ne st₀ D hn] at hin hrange
    rw [inodes_self] at hin
    have hne : ptr (D n) st₀.sb.dev.blocks τ ≠ 0 := by omega
    have hlo := (hrange hne).1
    have hcast : ((ptr (D n) st₀.sb.dev.blocks τ).toNat : ℤ) = ptr (D n) st₀.sb.dev.blocks τ := by
      omega
    rw [h.blocks _ (by omega), if_neg fun hmem => ?_]
    rw [hcast] at hmem
    obtain ⟨σ, hσ⟩ := h.mine _ hmem
    exact hn (hin σ hne hσ.symm).1
  have hrelease := ho.accounts.releaseAll st₀.ino.iNr
  refine ⟨h.counted.layout, ?_⟩
  rw [← h.all ho hcount, ← h.inUse] at hrelease
  convert hrelease using 1
  · funext a
    obtain ⟨n, σ⟩ := a
    by_cases hn : n = st₀.ino.iNr
    · rw [ptrs, if_pos hn, hn, Function.update_self]
      exact ptr_zero σ
    · rw [ptrs, if_neg hn, Function.update_of_ne hn, ptrs, inodes_ne st₀ D hn]
      exact hother n hn σ
  · funext n
    by_cases hn : n = st₀.ino.iNr
    · rw [hn, Function.update_self, Function.update_self]
      rfl
    · rw [Function.update_of_ne hn, Function.update_of_ne hn, inodes_ne st₀ D hn]
  · exact h.counted.total

end Free

end Ece344Lab.Fs
