import Mathlib.Order.Interval.Finset.Nat
import Ece344Lab.Fs.Holes

/-!
# The maximum file size

A write that ends with an error has written whole blocks up to the one that
`testfs_allocate_block` refuses. The block number is a `long` that is handed over as an
`int`, so the limit is checked on what is left of it.
-/
namespace Ece344Lab.Fs

open Ece344Lab.Library

/-- The byte of the file at `p`, which is zero in a hole. -/
def InodeSt.content (st : InodeSt) (p : Nat) : UInt8 :=
  if st.ptr (.data (p / 8192)) = 0 then 0 else st.byte p

/-- The blocks of the file lie on the device. -/
def FileOnDev (st : InodeSt) : Prop :=
  ∀ σ, st.ptr σ ≠ 0 → (st.ptr σ).toNat < st.sb.dev.size

/-- The empty slots on the paths of the blocks from `lo` on that come before `hi`. -/
def InodeSt.empties (st : InodeSt) (lo hi : Nat) : Finset Slot :=
  ((Finset.Ico lo hi).biUnion fun l => (path l).toFinset).filter fun σ => st.ptr σ = 0

/-- The free blocks fill the paths of some blocks from `lo` on, and run out in the middle of
the next one. -/
def RunsOut (st : InodeSt) (lo hi : Nat) : Prop :=
  ∃ l, lo ≤ l ∧ l < hi ∧ (st.empties lo l).card < st.sb.free ∧
    st.sb.free < (st.empties lo (l + 1)).card

/-- The paths of the blocks from `lo` on that come before `l` have been filled, and nothing
else. -/
structure Spent (st st' : InodeSt) (lo l : Nat) : Prop where
  free : st'.sb.free + (st.empties lo l).card = st.sb.free
  empty : ∀ σ, st'.ptr σ = 0 ↔ st.ptr σ = 0 ∧ σ ∉ st.empties lo l

section Spent

variable {D : Nat → Dinode} {st st' st₁ : InodeSt} {lo l : Nat} {σ : Slot}

theorem mem_empties {hi : Nat} :
    σ ∈ st.empties lo hi ↔ (∃ m, (lo ≤ m ∧ m < hi) ∧ σ ∈ path m) ∧ st.ptr σ = 0 := by
  simp [InodeSt.empties]

theorem mem_empties_succ (hlo : lo ≤ l) :
    σ ∈ st.empties lo (l + 1) ↔ σ ∈ st.empties lo l ∨ (σ ∈ path l ∧ st.ptr σ = 0) := by
  rw [mem_empties, mem_empties]
  constructor
  · rintro ⟨⟨m, ⟨hm, hlt⟩, hpath⟩, hz⟩
    rcases Nat.lt_succ_iff_lt_or_eq.mp hlt with hlt | rfl
    · exact Or.inl ⟨⟨m, ⟨hm, hlt⟩, hpath⟩, hz⟩
    · exact Or.inr ⟨hpath, hz⟩
  · rintro (⟨⟨m, ⟨hm, hlt⟩, hpath⟩, hz⟩ | ⟨hpath, hz⟩)
    · exact ⟨⟨m, ⟨hm, by omega⟩, hpath⟩, hz⟩
    · exact ⟨⟨l, ⟨hlo, by omega⟩, hpath⟩, hz⟩

theorem Spent.refl (st : InodeSt) (lo : Nat) : Spent st st lo lo := by
  have hnone : st.empties lo lo = ∅ := by simp [InodeSt.empties]
  refine ⟨by rw [hnone]; rfl, fun σ => ?_⟩
  rw [hnone]
  simp

/-- What the next block needs. -/
theorem Spent.need_length (h : Spent st st₁ lo l) (hlo : lo ≤ l) :
    (st.empties lo l).card + (st₁.need l).length = (st.empties lo (l + 1)).card := by
  have hdisj : Disjoint (st.empties lo l) (st₁.need l).toFinset := by
    rw [Finset.disjoint_right]
    intro σ hσ
    exact ((h.empty σ).mp (mem_need.mp (List.mem_toFinset.mp hσ)).2).2
  have hunion : st.empties lo (l + 1) = st.empties lo l ∪ (st₁.need l).toFinset := by
    ext σ
    rw [mem_empties_succ hlo, Finset.mem_union, List.mem_toFinset, mem_need, h.empty]
    tauto
  rw [hunion, Finset.card_union_of_disjoint hdisj, List.toFinset_card_of_nodup (need_nodup _ _)]

theorem Spent.filled (h : Spent st st₁ lo l) (hlo : lo ≤ l) {new : List (Slot × Int)}
    (hf : Filled st₁ l new st') : Spent st st' lo (l + 1) := by
  refine ⟨?_, fun σ => ?_⟩
  · have hfree := hf.took.free
    have hneed := h.need_length hlo
    have hspent := h.free
    rw [List.length_map, hf.length] at hfree
    omega
  · rw [mem_empties_succ hlo]
    by_cases hσ : σ ∈ st₁.need l
    · obtain ⟨hpath, hz⟩ := mem_need.mp hσ
      exact ⟨fun h0 => absurd h0 (hf.ptr_ne_zero hpath),
        fun h0 => absurd (Or.inr ⟨hpath, h0.1⟩) h0.2⟩
    · rw [hf.ptr_old hσ, h.empty]
      constructor
      · rintro ⟨hz, hnot⟩
        refine ⟨hz, not_or.mpr ⟨hnot, fun hpath => hσ (mem_need.mpr ⟨hpath.1, ?_⟩)⟩⟩
        exact (h.empty σ).mpr ⟨hz, hnot⟩
      · exact fun h0 => ⟨h0.1, fun hmem => h0.2 (Or.inl hmem)⟩

theorem Spent.mapped (h : Spent st st₁ lo l) (hlo : lo ≤ l) (hne : st₁.ptr (.data l) ≠ 0) :
    Spent st st₁ lo (l + 1) := by
  have hnone : st₁.need l = [] := List.eq_nil_iff_forall_not_mem.mpr fun σ hσ =>
    ptr_path_ne_zero hne (mem_need.mp hσ).1 (mem_need.mp hσ).2
  have hneed := h.need_length hlo
  rw [hnone, List.length_nil, Nat.add_zero] at hneed
  refine ⟨hneed ▸ h.free, fun σ => ?_⟩
  rw [h.empty, mem_empties_succ hlo]
  constructor
  · rintro ⟨hz, hnot⟩
    refine ⟨hz, not_or.mpr ⟨hnot, fun hpath => ?_⟩⟩
    exact ptr_path_ne_zero hne hpath.1 ((h.empty σ).mpr ⟨hz, hnot⟩)
  · exact fun h0 => ⟨h0.1, fun hmem => h0.2 (Or.inl hmem)⟩

/-- A successful allocation fills the path of its block. -/
theorem Spent.step (h : Spent st st₁ lo l) (hlo : lo ≤ l) {p : Int} {log : List Event}
    (hcase : AllocOutcome st₁ l p st' log) (hp : 0 ≤ p) : Spent st st' lo (l + 1) := by
  cases hcase with
  | mapped hne => exact h.mapped hlo hne
  | beyond _ => exact absurd hp (by decide)
  | full _ _ _ _ => exact absurd hp (by decide)
  | partly _ _ _ _ _ _ _ _ _ => exact absurd hp (by decide)
  | filled _ _ hf _ => exact h.filled hlo hf

/-- Writing to a data block takes no block. -/
theorem Spent.write (h : Spent st st₁ lo l) {m : Nat} (ho : Own (st₁.inodes D) st₁.sb)
    (hne : st₁.ptr (.data m) ≠ 0) (b : Block) :
    Spent st (st₁.write (st₁.ptr (.data m)).toNat b) lo l := by
  refine ⟨h.free, fun σ => ?_⟩
  have hσ := ptr_write ho hne b st₁.ino.iNr σ
  rw [inodes_self] at hσ
  rw [← h.empty σ]
  exact Iff.of_eq (congrArg (· = 0) hσ)

/-- The free blocks run out in the middle of a path where an allocation ends halfway. -/
theorem Spent.runsOut (h : Spent st st₁ lo l) (hlo : lo ≤ l) (hmax : l < maxBlocks)
    (hpos : 0 < st₁.sb.free) (hneed : st₁.sb.free < (st₁.need l).length) :
    RunsOut st lo maxBlocks := by
  have hlen := h.need_length hlo
  have hfree := h.free
  exact ⟨l, hlo, hmax, by omega, by omega⟩

theorem Wrote.onDev {hi : Nat} {f : Nat → UInt8} (h : Wrote D st st' lo hi f) (hdev : FileOnDev st) :
    FileOnDev st' := by
  intro σ hne
  by_cases hz : st.ptr σ = 0
  · exact (h.new σ hne hz).1
  · rw [h.keeps.ptr σ hz]
    exact lt_of_lt_of_le (hdev σ hz) h.keeps.size

theorem Wrote.refl (ho : Own (st.inodes D) st.sb) (lo : Nat) (f : Nat → UInt8) :
    Wrote D st st lo lo f where
  keeps := .refl ho
  new _ hne hz := absurd hz hne
  fresh _ _ hz hne _ := absurd hz hne
  inside _ hlo hhi := absurd hhi (not_lt.mpr hlo)
  outside _ _ _ := rfl

end Spent

/-- A write has ended with the error `ret` of the block `l`, after the blocks before it. -/
structure Stopped (D : Nat → Dinode) (st : InodeSt) (start size l : Nat) (f : Nat → UInt8)
    (ret : Int) (st' : InodeSt) : Prop where
  neg : ret < 0
  first : start / 8192 ≤ l
  covers : 8192 * l < start + size
  ends : ∃ hi st₁ st₂ log, Wrote D st st₁ start hi f ∧ hi ≤ start + size ∧
    Spent st st₁ (start / 8192) l ∧ AllocOutcome st₁ l ret st₂ log ∧
    (st' = st₂ ∨ st' = { st₂ with ino.din.iSize := maxFileSize, ino.dirty := true })

section Stop

variable {D : Nat → Dinode} {st st₁ : InodeSt} {start size : Nat}

/-- `testfs_allocate_block` for a file whose blocks lie on the device. -/
theorem wp_testfsAllocateBlock_ends (hs : Sane st) (hdev : FileOnDev st) (l : Nat) :
    Program.wp (testfsAllocateBlock l) st
      (fun a st' log => a.2 = page st.ino.din st.sb.dev.blocks l ∧ AllocOutcome st l a.1 st' log)
      (fun _ => False) := by
  by_cases hl : l < maxBlocks
  · obtain ⟨p, st', log, hrun, hcase⟩ := testfsAllocateBlock_outcome hs hl fun σ _ hne => hdev σ hne
    rw [Program.wp_ok hrun]
    exact ⟨rfl, hcase⟩
  · rw [Program.wp_ok (testfsAllocateBlock_beyond (by omega))]
    exact ⟨(page_hole (ptr_beyond (by omega)) fun h => hl h.2.1).symm, .beyond (by omega)⟩

theorem wp_writeRest_stops (D : Nat → Dinode) (buf : Nat → UInt8) (st : InodeSt)
    (hb : start / 8192 < maxBlocks) (hsize : size ≤ 2 ^ 30) (n : Nat) :
    ∀ (i rem : Nat) (st₁ : InodeSt),
      Wrote D st st₁ start (8192 * (start / 8192 + i)) (fun off => buf (off - start)) →
      Spent st st₁ (start / 8192) (start / 8192 + i) → FileOnDev st₁ → 0 < i → 0 < rem →
      8192 * (start / 8192 + i) + rem = start + size → rem ≤ 8192 * n →
      Program.wp (writeRest buf start (start / 8192 : ℕ) (start % 8192 : ℕ) size n i rem) st₁
        (fun ret st' _ => (0 ≤ ret ∧ start + size ≤ maxFileSize) ∨
          ∃ l, Stopped D st start size l (fun off => buf (off - start)) ret st')
        (fun _ => False) := by
  induction n with
  | zero =>
    intro i rem st₁ _ _ _ _ hrem _ hfuel
    omega
  | succ n ih =>
    intro i rem st₁ hw hspent hdev hi hrem hsum hfuel
    simp only [maxBlocks] at hb
    have hint : toInt (((start / 8192 : ℕ) : ℤ) + i) = ((start / 8192 + i : ℕ) : ℤ) := by
      rw [← Nat.cast_add, toInt_natCast]
      omega
    have ho := hw.keeps.own
    rw [writeRest, hint, Program.wp_bind]
    refine (wp_testfsAllocateBlock_ends ho.sane hdev _).mono (fun a st₂ log ha => ?_) fun _ h => h
    obtain ⟨ret, block⟩ := a
    obtain ⟨rfl, hcase⟩ := ha
    dsimp only at hcase ⊢
    have hstop : ret < 0 → ∀ st', (st' = st₂ ∨
        st' = { st₂ with ino.din.iSize := maxFileSize, ino.dirty := true }) →
        ∃ l, Stopped D st start size l (fun off => buf (off - start)) ret st' := fun hneg st' hst =>
      ⟨_, hneg, Nat.le_add_right _ _, by omega, _, st₁, st₂, log, hw, by omega, hspent, hcase, hst⟩
    by_cases hneg : ret < 0
    · rw [if_pos hneg, if_pos hneg]
      split
      · exact Or.inr (hstop hneg _ (Or.inl rfl))
      · exact Or.inr (hstop hneg _ (Or.inr rfl))
    have hret : 0 ≤ ret := by omega
    have hm := hcase.mapped_of_nonneg ho (fun σ _ hne => hdev σ hne) hret
    have hidx : 8192 * i < 2 ^ 31 := by omega
    have hix : start % 8192 ≤ 8192 * i := by omega
    have hspent₂ : ∀ b, Spent st (st₂.write ret.toNat b) (start / 8192) (start / 8192 + (i + 1)) := by
      intro b
      have hw₂ := (hspent.step (Nat.le_add_right _ _) hcase hret).write hm.keeps.own
        (m := start / 8192 + i) (by rw [hm.slot]; exact hm.ne) b
      rwa [hm.slot] at hw₂
    by_cases hbig : (rem : ℤ) > blockSize
    · have hlt : 8192 < rem := by
        simp only [blockSize] at hbig
        omega
      have hcopy := copyBlock_bufIndex buf (page st₁.ino.din st₁.sb.dev.blocks (start / 8192 + i))
        hidx hix (le_refl 8192)
      have hw₂ := hm.wrote_rest buf 8192 hi (le_refl _)
      have hmid : 8192 * (start / 8192 + i) + 8192 = 8192 * (start / 8192 + (i + 1)) := by omega
      rw [hmid] at hw₂
      have hboth := hw.trans hw₂ (by omega) (by omega) (by omega)
      have hcast : ((rem - 8192 : ℕ) : ℤ) = (rem : ℤ) - blockSize := by
        simp only [blockSize]
        omega
      have hstep := ih (i + 1) (rem - 8192) _ hboth (hspent₂ _) (hw₂.onDev hdev)
        (Nat.succ_pos i) (by omega) (by omega) (by omega)
      rw [hcast] at hstep
      rw [if_pos hbig, if_neg hneg, wp_store hcopy hret]
      exact hstep
    · have hle : rem ≤ 8192 := by
        simp only [blockSize] at hbig
        omega
      have hcopy := copyBlock_bufIndex buf (page st₁.ino.din st₁.sb.dev.blocks (start / 8192 + i))
        hidx hix hle
      have hmax : start / 8192 + i < maxBlocks := by
        by_contra hge
        cases hcase with
        | beyond _ => exact hneg (by decide)
        | mapped hne => exact hne (ptr_beyond (by omega))
        | full _ hl _ _ => exact hge hl
        | partly _ hl _ _ _ _ _ _ _ => exact hge hl
        | filled _ hl _ _ => exact hge hl
      rw [if_neg hbig, if_neg hneg, wp_store hcopy hret, Program.wp_bind,
        Program.wp_ok (growSize_run _ (by omega)), Program.wp_pure]
      refine Or.inl ⟨?_, ?_⟩
      · rw [toInt_natCast (by omega)]
        exact Int.natCast_nonneg size
      · simp only [maxBlocks] at hmax
        simp only [maxFileSize]
        omega

theorem wp_testfsWriteData_stops (buf : Nat → UInt8) (ho : Own (st.inodes D) st.sb)
    (hdev : FileOnDev st) (hb : start / 8192 < maxBlocks) (hpos : 0 < size) (hsize : size ≤ 2 ^ 30) :
    Program.wp (testfsWriteData buf start size) st
      (fun ret st' _ => (0 ≤ ret ∧ start + size ≤ maxFileSize) ∨
        ∃ l, Stopped D st start size l (fun off => buf (off - start)) ret st')
      (fun _ => False) := by
  have hb' := hb
  simp only [maxBlocks] at hb'
  have hint : toInt ((start / 8192 : ℕ) : ℤ) = ((start / 8192 : ℕ) : ℤ) :=
    toInt_natCast (by omega)
  have hlen : toInt size = size := toInt_natCast (by omega)
  have hstop : ∀ ret st₂ log, AllocOutcome st (start / 8192) ret st₂ log → ret < 0 →
      ∃ l, Stopped D st start size l (fun off => buf (off - start)) ret st₂ :=
    fun ret st₂ log hcase hneg => ⟨_, hneg, le_refl _, by omega, start, st, st₂, log, .refl ho _ _,
      by omega, .refl st _, hcase, Or.inl rfl⟩
  rcases Nat.lt_or_ge 8192 (start % 8192 + size) with hlt | hle
  · obtain ⟨n, hn⟩ : ∃ n, n = size / 8192 + 1 := ⟨_, rfl⟩
    rw [testfsWriteData_many buf hint hlt (by omega) hn, Program.wp_bind]
    refine (wp_testfsAllocateBlock_ends ho.sane hdev _).mono (fun a st₂ log ha => ?_) fun _ h => h
    obtain ⟨ret, block⟩ := a
    obtain ⟨rfl, hcase⟩ := ha
    dsimp only at hcase ⊢
    by_cases hneg : ret < 0
    · rw [if_pos hneg, Program.wp_pure]
      exact Or.inr (hstop _ _ _ hcase hneg)
    have hret : 0 ≤ ret := by omega
    have hm := hcase.mapped_of_nonneg ho (fun σ _ hne => hdev σ hne) hret
    have hw := hm.wrote_head buf (8192 - start % 8192) (by omega)
    have hspent : ∀ b, Spent st (st₂.write ret.toNat b) (start / 8192) (start / 8192 + 1) := by
      intro b
      have hw₂ := ((Spent.refl st (start / 8192)).step (le_refl _) hcase hret).write hm.keeps.own
        (m := start / 8192) (by rw [hm.slot]; exact hm.ne) b
      rwa [hm.slot] at hw₂
    have hmid : start + (8192 - start % 8192) = 8192 * (start / 8192 + 1) := by omega
    rw [hmid] at hw
    rw [if_neg hneg, wp_store (copyBlock_head buf _ (by omega)) hret]
    exact wp_writeRest_stops D buf st hb hsize n 1 (size - (8192 - start % 8192)) _
      hw (hspent _) (hw.onDev hdev) one_pos (by omega) (by omega) (by omega)
  · rw [testfsWriteData_one buf hint hle, Program.wp_bind]
    refine (wp_testfsAllocateBlock_ends ho.sane hdev _).mono (fun a st₂ log ha => ?_) fun _ h => h
    obtain ⟨ret, block⟩ := a
    obtain ⟨rfl, hcase⟩ := ha
    dsimp only at hcase ⊢
    by_cases hneg : ret < 0
    · rw [if_pos hneg, Program.wp_pure]
      exact Or.inr (hstop _ _ _ hcase hneg)
    have hret : 0 ≤ ret := by omega
    rw [if_neg hneg, wp_store (copyBlock_head buf _ hle) hret, Program.wp_bind,
      Program.wp_ok (growSize_run _ (by omega)), Program.wp_pure, hlen]
    refine Or.inl ⟨Int.natCast_nonneg size, ?_⟩
    simp only [maxFileSize]
    omega

/-- A stopped write has kept to its blocks if the free blocks have not run out in the middle of a
path. -/
theorem Stopped.keeps {l : Nat} {f : Nat → UInt8} {ret : Int} {st' : InodeSt}
    (h : Stopped D st start size l f ret st') (hruns : ¬ RunsOut st (start / 8192) maxBlocks) :
    ∃ hi st₁, Wrote D st st₁ start hi f ∧ hi ≤ start + size ∧
      (st' = st₁ ∨ st' = { st₁ with ino.din.iSize := maxFileSize, ino.dirty := true }) := by
  obtain ⟨hneg, hfirst, -, hi, st₁, st₂, log, hw, hhi, hspent, hcase, hst⟩ := h
  cases hcase with
  | mapped _ =>
    have hnn := hw.keeps.own.sane.nonneg (.data l)
    omega
  | beyond _ => exact ⟨hi, st₁, hw, hhi, hst⟩
  | full _ _ _ _ => exact ⟨hi, st₁, hw, hhi, hst⟩
  | partly _ hl hpos hneed _ _ _ _ _ => exact absurd (hspent.runsOut hfirst hl hpos hneed) hruns
  | filled h0 _ hf hp =>
    have hr := (hf.ptr_new (mem_need.mpr ⟨mem_path_data l, h0⟩)).2.1
    omega

/-- The block that a write has stopped at is a hole. -/
theorem Stopped.hole {l : Nat} {f : Nat → UInt8} {ret : Int} {st' : InodeSt}
    (h : Stopped D st start size l f ret st') : st.ptr (.data l) = 0 := by
  obtain ⟨hneg, -, -, hi, st₁, st₂, log, hw, -, -, hcase, -⟩ := h
  by_contra hne
  have hptr : st₁.ptr (.data l) ≠ 0 := by rwa [hw.keeps.ptr _ hne]
  have hnn := hw.keeps.own.sane.nonneg (.data l)
  cases hcase with
  | mapped _ => omega
  | beyond hl => exact hptr (ptr_beyond hl)
  | full h0 _ _ _ => exact hptr h0
  | partly h0 _ _ _ _ _ _ _ _ => exact hptr h0
  | filled h0 _ _ _ => exact hptr h0

/-- An error below the maximum file size means that there is no space. -/
theorem Stopped.noSpace {l : Nat} {f : Nat → UInt8} {ret : Int} {st' : InodeSt}
    (h : Stopped D st start size l f ret st') (hend : start + size ≤ maxFileSize) : ret = -ENOSPC := by
  obtain ⟨hneg, -, hcovers, hi, st₁, st₂, log, hw, -, -, hcase, -⟩ := h
  cases hcase with
  | mapped _ =>
    have hnn := hw.keeps.own.sane.nonneg (.data l)
    omega
  | beyond hl =>
    simp only [maxBlocks] at hl
    simp only [maxFileSize] at hend
    omega
  | full _ _ _ _ => rfl
  | partly _ _ _ _ _ _ _ _ _ => rfl
  | filled h0 _ hf hp =>
    have hr := (hf.ptr_new (mem_need.mpr ⟨mem_path_data l, h0⟩)).2.1
    omega

end Stop

section Limit

variable {D : Nat → Dinode} {st st₁ : InodeSt} {offset size : Nat} {buf : Nat → UInt8}

/-- What an interrupted write leaves of the rest of the file. -/
theorem Wrote.content {hi : Nat} {f : Nat → UInt8} (h : Wrote D st st₁ offset hi f) {p : Nat}
    (hp : p < offset)
    (hfirst : offset % 8192 = 0 ∨ ¬ MeetsTable st (offset / 8192) (offset / 8192)) :
    st₁.content p = st.content p := by
  by_cases hz : st.ptr (.data (p / 8192)) = 0
  · by_cases hz₁ : st₁.ptr (.data (p / 8192)) = 0
    · rw [InodeSt.content, InodeSt.content, if_pos hz, if_pos hz₁]
    · -- the block of `p` is new, so it is the first block of the write
      obtain ⟨-, l, hge, -, hpath⟩ := h.new _ hz₁ hz
      have hl := data_mem_path hpath
      have hq : p / 8192 = offset / 8192 := by omega
      rw [InodeSt.content, InodeSt.content, if_pos hz, if_neg hz₁]
      refine h.fresh p (by omega) hz hz₁ ?_
      rw [hq]
      exact hfirst.resolve_left (by omega)
  · have hne : st₁.ptr (.data (p / 8192)) ≠ 0 := by rwa [h.keeps.ptr _ hz]
    rw [InodeSt.content, InodeSt.content, if_neg hz, if_neg hne, h.outside p (by omega) hz]

end Limit

end Ece344Lab.Fs
