import Ece344Lab.Fs.RoundTrip
import Ece344Lab.Fs.InodeMap

/-!
# Holes

Positions below the size of a file that no write has covered. They read as zeros
as long as `testfs_read_block` never leaves the double indirect table in the
buffer: neither in a read, nor when a write fills a part of the block. The range
that is read has to fit the integers of `testfs_read_data`.
-/
namespace Ece344Lab.Fs

open Ece344Lab.Library

/-- A file that nothing has been written to. -/
structure FreshFile (D : Nat → Dinode) (st : InodeSt) : Prop where
  own : Own (st.inodes D) st.sb
  ptr : ∀ σ, st.ptr σ = 0
  iSize : st.ino.din.iSize = 0

/-- The states after successful writes to the file `st₀` whose steps all satisfy `ok`, with the
ranges written, the last one first. -/
inductive Writes (ok : InodeSt → Nat → Nat → Prop) (st₀ : InodeSt) :
    List (Nat × Nat) → InodeSt → Prop
  | nil : Writes ok st₀ [] st₀
  | write {ws : List (Nat × Nat)} {st : InodeSt} {buf : Nat → UInt8} {start size : Nat}
      {r : Ret Event InodeSt Int} (h : Writes ok st₀ ws st) (hend : start + size ≤ maxFileSize)
      (hrun : (testfsWriteData buf start size).run st = .ok r) (hret : 0 ≤ r.val)
      (hok : ok st start size) : Writes ok st₀ ((start, size) :: ws) r.st

/-- Some write has covered the position. -/
def Covered (ws : List (Nat × Nat)) (p : Nat) : Prop := ∃ w ∈ ws, w.1 ≤ p ∧ p < w.1 + w.2

/-- The number of bytes of a range that come before the end of the file. -/
def InodeSt.before (st : InodeSt) (start size : Nat) : Nat :=
  min size (st.ino.din.iSize - start).toNat

/-- The write of `size` bytes at `start` fills block `l`, but not all of it. -/
def FillsPart (start size l : Nat) : Prop :=
  start / 8192 ≤ l ∧ (8192 * l < start + size ∨ l = start / 8192) ∧
    ¬ (start ≤ 8192 * l ∧ 8192 * (l + 1) ≤ start + size)

/-- The write does not meet the double indirect table where it fills a part of a block. -/
def CleanWrite (st : InodeSt) (start size : Nat) : Prop :=
  ∀ l, FillsPart start size l → ¬ MeetsTable st (start / 8192) l

/-- The invariant of a file with holes. -/
structure Holey (D : Nat → Dinode) (ws : List (Nat × Nat)) (st : InodeSt) : Prop where
  own : Own (st.inodes D) st.sb
  onDev : ∀ σ, st.ptr σ ≠ 0 → (st.ptr σ).toNat < st.sb.dev.size
  nonneg : 0 ≤ st.ino.din.iSize
  le_max : st.ino.din.iSize ≤ maxFileSize
  zero : ∀ off, ¬ Covered ws off → st.ptr (.data (off / 8192)) ≠ 0 → st.byte off = 0

section Invariant

variable {D : Nat → Dinode} {st st₀ st₁ : InodeSt} {ws : List (Nat × Nat)} {start size : Nat}

theorem own_grow (ho : Own (st.inodes D) st.sb) (start size : Nat) :
    Own ((st.grow start size).inodes D) (st.grow start size).sb :=
  own_setSize ho st.ino.din.iType _

theorem FreshFile.holey (h : FreshFile D st) : Holey D [] st where
  own := h.own
  onDev σ hσ := absurd (h.ptr σ) hσ
  nonneg := h.iSize.ge
  le_max := h.iSize.le.trans (by simp)
  zero off _ hne := absurd (h.ptr _) hne

/-- A clean write keeps the uncovered positions zero. -/
theorem Wrote.holey {f : Nat → UInt8} (hw : Wrote D st st₁ start (start + size) f)
    (h : Holey D ws st) (hclean : CleanWrite st start size) (hend : start + size ≤ maxFileSize) :
    Holey D ((start, size) :: ws) (st₁.grow start size) where
  own := own_grow hw.keeps.own start size
  onDev σ hσ := by
    rw [grow_ptr] at hσ ⊢
    by_cases hz : st.ptr σ = 0
    · exact (hw.new σ hσ hz).1
    · rw [hw.keeps.ptr σ hz]
      exact lt_of_lt_of_le (h.onDev σ hz) hw.keeps.size
  nonneg := by
    have hold := h.nonneg
    simp only [InodeSt.grow, hw.keeps.iSize]
    split <;> omega
  le_max := by
    have hold := h.le_max
    simp only [InodeSt.grow, hw.keeps.iSize]
    split <;> omega
  zero off hout hne := by
    rw [grow_ptr] at hne
    rw [grow_byte]
    have hrange : ¬ (start ≤ off ∧ off < start + size) := fun hin =>
      hout ⟨(start, size), List.mem_cons_self, hin⟩
    by_cases hz : st.ptr (.data (off / 8192)) = 0
    · -- the block is new: what it holds outside the range was in the buffer
      obtain ⟨-, l, hge, hlt, hpath⟩ := hw.new _ hne hz
      rw [← data_mem_path hpath] at hge hlt
      exact hw.fresh off hrange hz hne (hclean _ ⟨hge, hlt, by omega⟩)
    · rw [hw.outside off hrange hz]
      refine h.zero off (fun hc => hout ?_) hz
      obtain ⟨w, hmem, hin⟩ := hc
      exact ⟨w, List.mem_cons_of_mem _ hmem, hin⟩

theorem Writes.holey (hf : FreshFile D st₀) (h : Writes CleanWrite st₀ ws st) : Holey D ws st := by
  induction h with
  | nil => exact hf.holey
  | write _ hend hrun hret hok ih =>
    obtain ⟨-, st₁, hw, hst⟩ := (wp_testfsWriteData _ ih.own hend).of_ok hrun hret
    rw [hst]
    exact hw.holey ih hok hend

end Invariant

section Read

variable {D : Nat → Dinode} {st st₀ : InodeSt} {ws : List (Nat × Nat)}

/-- What `testfs_read_block` shows at a position. -/
def InodeSt.shown (st : InodeSt) (off : Nat) : UInt8 :=
  (page st.ino.din st.sb.dev.blocks (off / 8192)).get (off % 8192)

theorem Holey.shows (h : Holey D ws st) {off : Nat} (hoff : (off : ℤ) < st.ino.din.iSize) :
    Shows st off (st.shown off) where
  lt := by
    have hmax := h.le_max
    simp only [maxFileSize] at hmax
    simp only [maxBlocks]
    omega
  onDev σ _ hσ := h.onDev σ hσ
  byte := rfl

end Read

theorem Writes.mono {ok ok' : InodeSt → Nat → Nat → Prop} {st₀ st : InodeSt}
    {ws : List (Nat × Nat)} (h : Writes ok st₀ ws st)
    (himp : ∀ st start size, ok st start size → ok' st start size) : Writes ok' st₀ ws st := by
  induction h with
  | nil => exact .nil
  | write _ hend hrun hret hok ih => exact .write ih hend hrun hret (himp _ _ _ hok)

theorem path_length_le (l : Nat) : (path l).length ≤ 3 := by
  unfold path
  split <;> [skip; split] <;> simp

/-- With three free blocks an allocation succeeds. -/
theorem AllocOutcome.returns {st st' : InodeSt} {l : Nat} {p : Int} {log : List Event}
    (h : AllocOutcome st l p st' log) (hs : Sane st) (hl : l < maxBlocks) (hfree : 3 ≤ st.sb.free) :
    0 ≤ p ∧ st.sb.free ≤ st'.sb.free + 3 := by
  have hneed : (st.need l).length ≤ 3 := (List.length_filter_le _ _).trans (path_length_le l)
  cases h with
  | mapped _ => exact ⟨hs.nonneg _, by omega⟩
  | beyond hge => exact absurd hge (by omega)
  | full _ _ hzero _ => exact absurd hzero (by omega)
  | partly _ _ _ hlt _ _ _ _ _ => exact absurd hlt (by omega)
  | filled h0 _ hf hp =>
    have hr := (hf.ptr_new (mem_need.mpr ⟨mem_path_data l, h0⟩)).2.1
    have hcount := hf.took.free
    rw [List.length_map, hf.length] at hcount
    exact ⟨by omega, by omega⟩

/-- With three free blocks a write within one block succeeds. -/
theorem testfsWriteData_returns {D : Nat → Dinode} {st : InodeSt} (ho : Own (st.inodes D) st.sb)
    (buf : Nat → UInt8) {start size : Nat} (hle : start % 8192 + size ≤ 8192)
    (hend : start + size ≤ maxFileSize) (hpos : 0 < size)
    (hdev : PathOnDev st.ino.din st.sb.dev (start / 8192)) (hfree : 3 ≤ st.sb.free) :
    ∃ r, (testfsWriteData buf start size).run st = .ok r ∧ 0 ≤ r.val ∧
      st.sb.free ≤ r.st.sb.free + 3 := by
  simp only [maxFileSize] at hend
  have hl : start / 8192 < maxBlocks := by
    simp only [maxBlocks]
    omega
  have hint : toInt ((start / 8192 : ℕ) : ℤ) = ((start / 8192 : ℕ) : ℤ) :=
    toInt_natCast (by omega)
  have hret : toInt size = size := toInt_natCast (by omega)
  obtain ⟨p, st₁, log, hrun, hcase⟩ := testfsAllocateBlock_outcome ho.sane hl hdev
  obtain ⟨hp, hfree'⟩ := hcase.returns ho.sane hl hfree
  refine ⟨⟨size, (st₁.write p.toNat ((page st.ino.din st.sb.dev.blocks (start / 8192)).copyIn
    (start % 8192) (fun k => buf (0 + k)) size)).grow start size, log ++ []⟩, ?_,
    Int.natCast_nonneg size, hfree'⟩
  rw [testfsWriteData_one buf hint hle, Program.bind_run_ok hrun]
  dsimp only
  rw [if_neg (by omega), Program.reads_bind, copyBlock_head buf _ hle, Program.except_ok_bind,
    Program.bind_run_nil (writeBlock_run hp _), Program.bind_run_nil (growSize_run _ (by omega)),
    Program.pure_run, Program.logged_ok, hret]

/-- A write to a file without holes of its own, that succeeds. -/
theorem Holey.write {D : Nat → Dinode} {st : InodeSt} {ws : List (Nat × Nat)} (h : Holey D ws st)
    {start size : Nat} (hclean : CleanWrite st start size) (hle : start % 8192 + size ≤ 8192)
    (hend : start + size ≤ maxFileSize) (hpos : 0 < size) (hfree : 3 ≤ st.sb.free) :
    ∃ r f st₁, (testfsWriteData (fun _ => 0) start size).run st = .ok r ∧ 0 ≤ r.val ∧
      st.sb.free ≤ r.st.sb.free + 3 ∧ Wrote D st st₁ start (start + size) f ∧
      r.st = st₁.grow start size ∧ Holey D ((start, size) :: ws) r.st := by
  obtain ⟨r, hrun, hret, hleft⟩ := testfsWriteData_returns h.own (fun _ => 0) hle hend hpos
    (fun σ _ hσ => h.onDev σ hσ) hfree
  obtain ⟨-, st₁, hw, hst⟩ := (wp_testfsWriteData _ h.own hend).of_ok hrun hret
  exact ⟨r, _, st₁, hrun, hret, hleft, hw, hst, hst ▸ hw.holey h hclean hend⟩

end Ece344Lab.Fs
