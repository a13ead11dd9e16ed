import Ece344Lab.Fs.Atomic

/-!
# Writing the blocks of a file

What a stretch of writes to a file changes: `Wrote` says which bytes the blocks of
the file hold afterwards, and that everything else is as it was. Stretches that
follow each other compose, and one allocated block makes a stretch.
-/
namespace Ece344Lab.Fs

open Ece344Lab.Library

/-- The byte stored for position `off` of the file, if its block is mapped. -/
def InodeSt.byte (st : InodeSt) (off : Nat) : UInt8 :=
  (st.sb.dev.blocks (st.ptr (.data (off / 8192))).toNat).get (off % 8192)

/-- Position `off` of the file has a block, which can be read and holds `v` there. -/
structure Stores (st : InodeSt) (off : Nat) (v : UInt8) : Prop where
  mapped : st.ptr (.data (off / 8192)) ≠ 0
  onDev : PathOnDev st.ino.din st.sb.dev (off / 8192)
  byte : st.byte off = v

/-- What no write to a file changes: the slots that are filled, and the other inodes. -/
structure Keeps (D : Nat → Dinode) (st st' : InodeSt) : Prop where
  own : Own (st'.inodes D) st'.sb
  iNr : st'.ino.iNr = st.ino.iNr
  iSize : st'.ino.din.iSize = st.ino.din.iSize
  size : st.sb.dev.size ≤ st'.sb.dev.size
  ptr : ∀ σ, st.ptr σ ≠ 0 → st'.ptr σ = st.ptr σ
  others : ∀ n, n ≠ st.ino.iNr → ∀ σ,
    Fs.ptr (D n) st'.sb.dev.blocks σ = Fs.ptr (D n) st.sb.dev.blocks σ
  othersBlocks : ∀ n, n ≠ st.ino.iNr → ∀ σ, Fs.ptr (D n) st.sb.dev.blocks σ ≠ 0 →
    st'.sb.dev.blocks (Fs.ptr (D n) st.sb.dev.blocks σ).toNat =
      st.sb.dev.blocks (Fs.ptr (D n) st.sb.dev.blocks σ).toNat

/-- A write that starts in block `first` finds the double indirect table in the buffer when it
comes to block `l`: the second-level table of `l` is missing then, and the double indirect
table is there. -/
def MeetsTable (st : InodeSt) (first l : Nat) : Prop :=
  2058 ≤ l ∧ st.ptr (.tab (tabOf l)) = 0 ∧ (l = first ∨ entryOf l = 0) ∧
    (st.ino.din.iDindirect ≠ 0 ∨ (first < l ∧ 2058 < l))

/-- The positions from `lo` to `hi` have been written with the bytes `f`. -/
structure Wrote (D : Nat → Dinode) (st st' : InodeSt) (lo hi : Nat) (f : Nat → UInt8) : Prop where
  keeps : Keeps D st st'
  new : ∀ σ, st'.ptr σ ≠ 0 → st.ptr σ = 0 → (st'.ptr σ).toNat < st'.sb.dev.size ∧
    ∃ l, lo / 8192 ≤ l ∧ (8192 * l < hi ∨ l = lo / 8192) ∧ σ ∈ path l
  fresh : ∀ off, ¬ (lo ≤ off ∧ off < hi) → st.ptr (.data (off / 8192)) = 0 →
    st'.ptr (.data (off / 8192)) ≠ 0 → ¬ MeetsTable st (lo / 8192) (off / 8192) → st'.byte off = 0
  inside : ∀ off, lo ≤ off → off < hi → Stores st' off (f off)
  outside : ∀ off, ¬ (lo ≤ off ∧ off < hi) → st.ptr (.data (off / 8192)) ≠ 0 →
    st'.byte off = st.byte off

theorem data_mem_path {l m : Nat} (h : Slot.data m ∈ path l) : m = l := by
  rcases mem_path.mp h with he | ⟨he, -⟩ | ⟨he, -⟩ | ⟨he, -⟩
  · exact Slot.data.inj he
  all_goals cases he

section Keep

variable {D : Nat → Dinode} {st st' st'' : InodeSt} {l : Nat}

theorem Keeps.refl (ho : Own (st.inodes D) st.sb) : Keeps D st st :=
  ⟨ho, rfl, rfl, le_refl _, fun _ _ => rfl, fun _ _ _ => rfl, fun _ _ _ _ => rfl⟩

theorem Keeps.trans (h : Keeps D st st') (h' : Keeps D st' st'') : Keeps D st st'' where
  own := h'.own
  iNr := h'.iNr.trans h.iNr
  iSize := h'.iSize.trans h.iSize
  size := h.size.trans h'.size
  ptr σ hσ := (h'.ptr σ (by rwa [h.ptr σ hσ])).trans (h.ptr σ hσ)
  others n hn σ := (h'.others n (by rwa [h.iNr]) σ).trans (h.others n hn σ)
  othersBlocks n hn σ hσ := by
    have hb := h'.othersBlocks n (by rwa [h.iNr]) σ
    rw [h.others n hn σ] at hb
    exact (hb hσ).trans (h.othersBlocks n hn σ hσ)

/-- A block that can be read stays readable. -/
theorem Keeps.onDev (h : Keeps D st st') (hne : st.ptr (.data l) ≠ 0)
    (hdev : PathOnDev st.ino.din st.sb.dev l) : PathOnDev st'.ino.din st'.sb.dev l := by
  intro σ hσ hne'
  have hold : st.ptr σ ≠ 0 := ptr_path_ne_zero hne hσ
  have hsame : Fs.ptr st'.ino.din st'.sb.dev.blocks σ = st.ptr σ := h.ptr σ hold
  rw [hsame]
  exact lt_of_lt_of_le (hdev σ hσ hold) h.size

/-- A later part of a write meets the table only where the whole write does. -/
theorem Wrote.meetsTable {lo mid : Nat} {f : Nat → UInt8} (h : Wrote D st st' lo mid f)
    (hlo : lo < mid) (hmid : mid % 8192 = 0) (hl : mid / 8192 ≤ l)
    (hm : MeetsTable st' (mid / 8192) l) : MeetsTable st (lo / 8192) l := by
  obtain ⟨h2058, htab, hfirst, hdind⟩ := hm
  refine ⟨h2058, ?_, ?_, ?_⟩
  · by_contra hne
    rw [h.keeps.ptr _ hne] at htab
    exact hne htab
  · -- a block before `l` in its table would have made the table
    by_contra hno
    rw [not_or] at hno
    have heq : l = mid / 8192 := hfirst.resolve_right hno.2
    have hs := h.inside (mid - 1) (by omega) (by omega)
    have hq : (mid - 1) / 8192 = l - 1 := by omega
    have hentry := hno.2
    simp only [entryOf] at hentry
    have htabOf : tabOf (l - 1) = tabOf l := by
      simp only [tabOf]
      omega
    have hmapped := hs.mapped
    rw [hq] at hmapped
    have hpath : Slot.tab (tabOf l) ∈ path (l - 1) := by
      rw [path_double (by omega), htabOf]
      simp
    exact ptr_path_ne_zero hmapped hpath htab
  · rcases hdind with hd | ⟨hlt, hgt⟩
    · by_cases hz : st.ino.din.iDindirect = 0
      · obtain ⟨-, m, -, hm, hpath⟩ := h.new .dind hd hz
        rcases mem_path.mp hpath with he | ⟨he, -⟩ | ⟨-, hm2058⟩ | ⟨he, -⟩
        · cases he
        · cases he
        · exact Or.inr (by omega)
        · cases he
      · exact Or.inl hz
    · exact Or.inr ⟨by omega, hgt⟩

theorem Wrote.trans {lo mid hi : Nat} {f : Nat → UInt8} (h : Wrote D st st' lo mid f)
    (h' : Wrote D st' st'' mid hi f) (hlo : lo < mid) (hmid : mid % 8192 = 0) (hhi : mid < hi) :
    Wrote D st st'' lo hi f where
  keeps := h.keeps.trans h'.keeps
  new σ hne hz := by
    by_cases hz' : st'.ptr σ = 0
    · obtain ⟨hdev, m, hge, hlt, hpath⟩ := h'.new σ hne hz'
      exact ⟨hdev, m, by omega, by omega, hpath⟩
    · obtain ⟨hdev, m, hge, hlt, hpath⟩ := h.new σ hz' hz
      have hsame := h'.keeps.ptr σ hz'
      refine ⟨?_, m, hge, by omega, hpath⟩
      rw [hsame]
      exact lt_of_lt_of_le hdev h'.keeps.size
  fresh off hout hz hne hmeets := by
    by_cases hz' : st'.ptr (.data (off / 8192)) = 0
    · obtain ⟨-, m, hge, -, hpath⟩ := h'.new _ hne hz'
      have hm := data_mem_path hpath
      exact h'.fresh off (by omega) hz' hne fun hm' =>
        hmeets (h.meetsTable hlo hmid (by omega) hm')
    · exact (h'.outside off (by omega) hz').trans (h.fresh off (by omega) hz hz' hmeets)
  inside off hoff hlt := by
    by_cases hmid : mid ≤ off
    · exact h'.inside off hmid hlt
    · have hs := h.inside off hoff (by omega)
      exact
        { mapped := by rw [h'.keeps.ptr _ hs.mapped]; exact hs.mapped
          onDev := h'.keeps.onDev hs.mapped hs.onDev
          byte := (h'.outside off (by omega) hs.mapped).trans hs.byte }
  outside off hout hne := by
    have hne' : st'.ptr (.data (off / 8192)) ≠ 0 := by rwa [h.keeps.ptr _ hne]
    exact (h'.outside off (by omega) hne').trans (h.outside off (by omega) hne)

end Keep

section Store

variable {D : Nat → Dinode} {st st₁ : InodeSt} {l : Nat}

/-- Writing to a data block leaves every slot as it is. -/
theorem ptr_write (ho : Own (st.inodes D) st.sb) (hne : st.ptr (.data l) ≠ 0) (b : Block) (n : Nat)
    (σ : Slot) : Fs.ptr (st.inodes D n) (st.write (st.ptr (.data l)).toNat b).sb.dev.blocks σ =
      Fs.ptr (st.inodes D n) st.sb.dev.blocks σ := by
  refine ptr_congr (fun τ hτ hpos => ?_) σ
  have hdata : 0 < st.ptr (.data l) := ho.sane.pos hne
  rw [write_dev_blocks, if_neg fun he => ?_]
  have hinj := ho.inj (n := n) (m := st.ino.iNr) (σ := τ) (τ := .data l) (by omega)
  rw [inodes_self] at hinj
  have hslot := (hinj (show _ = st.ptr (.data l) by omega)).2
  rw [hslot] at hτ
  exact hτ

theorem own_write (ho : Own (st.inodes D) st.sb) (hne : st.ptr (.data l) ≠ 0) (b : Block) :
    Own ((st.write (st.ptr (.data l)).toNat b).inodes D)
      (st.write (st.ptr (.data l)).toNat b).sb where
  layout := (write_frame (by have := (ho.sane.range hne).1; omega) b).layout ho.layout
  accounts := by
    have hall : ptrs (st.inodes D) (st.write (st.ptr (.data l)).toNat b).sb.dev.blocks =
        ptrs (st.inodes D) st.sb.dev.blocks := funext fun a => ptr_write ho hne b a.1 a.2
    change Accounts Prod.fst (ptrs (st.inodes D) _) _ _ _
    rw [hall]
    exact ho.accounts

theorem keeps_write (ho : Own (st.inodes D) st.sb) (hne : st.ptr (.data l) ≠ 0) (b : Block) :
    Keeps D st (st.write (st.ptr (.data l)).toNat b) where
  own := own_write ho hne b
  iNr := rfl
  iSize := rfl
  size := le_max_left _ _
  ptr σ _ := by
    have hσ := ptr_write ho hne b st.ino.iNr σ
    rw [inodes_self] at hσ
    exact hσ
  others n hn σ := by
    have hσ := ptr_write ho hne b n σ
    rwa [inodes_ne st D hn] at hσ
  othersBlocks n hn σ hσ := by
    rw [write_dev_blocks, if_neg fun he => ?_]
    have hinj := ho.inj (n := n) (m := st.ino.iNr) (σ := σ) (τ := .data l)
    have hpos := ho.nonneg n σ
    have hdata := ho.sane.nonneg (.data l)
    rw [inodes_self, inodes_ne st D hn] at hinj
    rw [inodes_ne st D hn] at hpos
    exact hn (hinj hσ (show _ = st.ptr (.data l) by omega)).1

end Store

/-- The state `st₁` after `testfs_allocate_block` has returned the block `p` for `l`. -/
structure Mapped (D : Nat → Dinode) (st st₁ : InodeSt) (l : Nat) (p : Int) : Prop where
  keeps : Keeps D st st₁
  slot : st₁.ptr (.data l) = p
  ne : p ≠ 0
  new : ∀ σ, st₁.ptr σ ≠ 0 → st.ptr σ = 0 → σ ∈ path l
  tables : ∀ τ ∈ path l, τ.IsTable → (st₁.ptr τ).toNat < st₁.sb.dev.size
  blocks : ∀ m, st.ptr (.data m) ≠ 0 → st₁.sb.dev.blocks (st.ptr (.data m)).toNat =
    st.sb.dev.blocks (st.ptr (.data m)).toNat

section Allocated

variable {D : Nat → Dinode} {st st₁ : InodeSt} {l : Nat} {p : Int} {log : List Event}
  {new : List (Slot × Int)}

theorem Filled.keeps (hf : Filled st l new st₁) (ho : Own (st.inodes D) st.sb) :
    Keeps D st st₁ where
  own := hf.own ho
  iNr := hf.took.iNr
  iSize := hf.took.iSize
  size := hf.took.frame.size
  ptr _ hσ := hf.ptr_old fun hmem => hσ (mem_need.mp hmem).2
  others _ hn σ := hf.ptr_other ho hn σ
  othersBlocks _ hn _ hσ := hf.blocks_of_own ho hn hσ

/-- Filling does not touch the data blocks of the inode. -/
theorem Filled.blocks_data (hf : Filled st l new st₁) (hs : Sane st) {m : Nat}
    (hne : st.ptr (.data m) ≠ 0) : st₁.sb.dev.blocks (st.ptr (.data m)).toNat =
      st.sb.dev.blocks (st.ptr (.data m)).toNat := by
  have hrange := hs.range hne
  have hcast : ((st.ptr (.data m)).toNat : ℤ) = st.ptr (.data m) := by omega
  refine hf.blocks _ (by omega) ?_ fun τ _ htable he => ?_
  · rw [hcast]
    exact fun hmem => hf.took.fresh _ hmem (hs.mem _ hne)
  · rw [hcast] at he
    rw [← hs.inj (.data m) τ hne he.symm] at htable
    exact htable

theorem AllocOutcome.mapped_of_nonneg (h : AllocOutcome st l p st₁ log)
    (ho : Own (st.inodes D) st.sb) (hdev : PathOnDev st.ino.din st.sb.dev l) (hp : 0 ≤ p) :
    Mapped D st st₁ l p := by
  cases h with
  | mapped hne =>
    exact ⟨.refl ho, rfl, hne, fun σ hσ hz => absurd hz hσ,
      fun τ hτ _ => hdev τ hτ (ptr_path_ne_zero hne hτ), fun _ _ => rfl⟩
  | beyond _ => exact absurd hp (by decide)
  | full _ _ _ _ => exact absurd hp (by decide)
  | partly _ _ _ _ _ _ _ _ _ => exact absurd hp (by decide)
  | filled _ _ hf hslot =>
    refine ⟨hf.keeps ho, hslot, hslot ▸ hf.ptr_ne_zero (mem_path_data l), fun σ hσ hz => ?_,
      hf.onDev, fun m hne => hf.blocks_data ho.sane hne⟩
    by_contra hpath
    rw [hf.ptr_old fun hmem => hpath (mem_need.mp hmem).1] at hσ
    exact hσ hz

/-- `testfs_allocate_block` in a write: it returns an error, or the block is mapped. -/
theorem wp_testfsAllocateBlock (ho : Own (st.inodes D) st.sb) (l : Nat) :
    Program.wp (testfsAllocateBlock l) st
      (fun a st₁ _ => a.2 = page st.ino.din st.sb.dev.blocks l ∧
        (0 ≤ a.1 → Mapped D st st₁ l a.1))
      (fun e => e = .exitFread) := by
  by_cases hl : l < maxBlocks
  swap
  · rw [Program.wp_ok (testfsAllocateBlock_beyond (by omega))]
    exact ⟨(page_hole (ptr_beyond (by omega)) fun hs => hl hs.2.1).symm, fun h =>
      absurd (show (0 : ℤ) ≤ -EFBIG from h) (by decide)⟩
  by_cases hdev : PathOnDev st.ino.din st.sb.dev l
  · obtain ⟨p, st₁, log, hrun, hcase⟩ := testfsAllocateBlock_outcome ho.sane hl hdev
    rw [Program.wp_ok hrun]
    exact ⟨rfl, hcase.mapped_of_nonneg ho hdev⟩
  · rw [Program.wp_error (testfsAllocateBlock_short ho.sane hl hdev)]

/-- A hole reads as zeros unless the write meets the table in its first block. -/
theorem page_of_not_meetsTable (hz : st.ptr (.data l) = 0) (hm : ¬ MeetsTable st l l) :
    page st.ino.din st.sb.dev.blocks l = Block.zero :=
  page_hole hz fun hs => hm ⟨hs.1, hs.2.2.2, Or.inl rfl, Or.inl hs.2.2.1⟩

/-- Writing the block `b` to a mapped block writes the positions that it changes. -/
theorem Mapped.wrote (h : Mapped D st st₁ l p) (b : Block) (ix n : Nat) (f : Nat → UInt8)
    (hix : ix < 8192) (hn : ix + n ≤ 8192)
    (hin : ∀ k, ix ≤ k → k < ix + n → b.get k = f (8192 * l + k))
    (hout : ∀ k, k < 8192 → ¬ (ix ≤ k ∧ k < ix + n) →
      b.get k = (page st.ino.din st.sb.dev.blocks l).get k) :
    Wrote D st (st₁.write p.toNat b) (8192 * l + ix) (8192 * l + ix + n) f := by
  obtain ⟨hkeeps, rfl, hne, hnew, htables, hblocks⟩ := h
  have hown := hkeeps.own
  have hkeeps' := keeps_write hown hne b
  have hptr : ∀ σ, (st₁.write (st₁.ptr (.data l)).toNat b).ptr σ = st₁.ptr σ := by
    intro σ
    have hσ := ptr_write hown hne b st₁.ino.iNr σ
    rwa [inodes_self] at hσ
  have hbyte : ∀ off, off / 8192 = l →
      (st₁.write (st₁.ptr (.data l)).toNat b).byte off = b.get (off % 8192) := by
    intro off hq
    rw [InodeSt.byte, hq, hptr, write_dev_blocks, if_pos rfl]
  have hdev : ∀ σ ∈ path l, (st₁.ptr σ).toNat <
      (st₁.write (st₁.ptr (.data l)).toNat b).sb.dev.size := by
    intro σ hσ
    rw [write_dev_size]
    cases σ with
    | data m =>
      obtain rfl := data_mem_path hσ
      omega
    | ind => exact lt_max_of_lt_left (htables _ hσ trivial)
    | dind => exact lt_max_of_lt_left (htables _ hσ trivial)
    | tab i =>
      by_cases hi : i < 2048
      · exact lt_max_of_lt_left (htables _ hσ hi)
      · rw [InodeSt.ptr, ptr_tab_beyond (by omega)]
        omega
  have hq : (8192 * l + ix) / 8192 = l := by omega
  refine ⟨hkeeps.trans hkeeps', fun σ hσ hz => ?_, fun off hoff hz hne' hmeets => ?_,
    fun off hlo hhi => ?_, fun off hoff hne' => ?_⟩
  · rw [hptr] at hσ ⊢
    have hpath := hnew σ hσ hz
    exact ⟨hdev σ hpath, l, by omega, Or.inr hq.symm, hpath⟩
  · rw [hptr] at hne'
    have hl := data_mem_path (hnew _ hne' hz)
    rw [hq, hl] at hmeets
    rw [hl] at hz
    rw [hbyte off hl, hout _ (Nat.mod_lt _ (by norm_num)) (by omega),
      page_of_not_meetsTable hz hmeets, Block.get_zero]
  · have hl : off / 8192 = l := by omega
    have hr : 8192 * l + off % 8192 = off := by omega
    refine ⟨by rwa [hl, hptr], ?_, ?_⟩
    · rw [hl]
      intro σ hσ _
      have hσ' : Fs.ptr (st₁.write (st₁.ptr (.data l)).toNat b).ino.din
          (st₁.write (st₁.ptr (.data l)).toNat b).sb.dev.blocks σ = st₁.ptr σ := hptr σ
      rw [hσ']
      exact hdev σ hσ
    · rw [hbyte off hl, hin _ (by omega) (by omega), hr]
  · by_cases hl : off / 8192 = l
    · rw [hbyte off hl, hout _ (Nat.mod_lt _ (by norm_num)) (by omega), InodeSt.byte, hl]
      rw [hl] at hne'
      rw [page_mapped hne']
    · rw [InodeSt.byte, InodeSt.byte, hptr, hkeeps.ptr _ hne', write_dev_blocks,
        if_neg fun he => hl ?_, hblocks _ hne']
      have hpos := hown.sane.nonneg (.data l)
      have hpos' := hown.sane.nonneg (.data (off / 8192))
      rw [hkeeps.ptr _ hne'] at hpos'
      have hslot := hown.sane.inj (.data (off / 8192)) (.data l) (by rwa [hkeeps.ptr _ hne'])
        (by rw [hkeeps.ptr _ hne']; omega)
      exact Slot.data.inj hslot

end Allocated

end Ece344Lab.Fs
