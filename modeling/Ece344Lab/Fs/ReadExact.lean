import Ece344Lab.Fs.MaxSize
import Ece344Lab.Fs.InodeTable
import Ece344Lab.Fs.Testfs

/-!
# Exact reads

`cmd_read` mixes `off_t`, `size_t`, `long` and `int`. It returns the bytes that were asked
for unless one of these types is too small.
-/
namespace Ece344Lab.Fs

open Ece344Lab.Library

/-- The result and the output of `cmd_read` for a file that has been found. -/
def readAt (d : Dinode) (dev : Dev) (offset : Int) (size : Nat) : Except Halt (Int × List UInt8) :=
  if offset < 0 then .ok (-EINVAL, []) else readFile d dev offset size

/-- A file whose size is within the limit and whose blocks lie on the device. -/
structure Readable (st : InodeSt) : Prop where
  nonneg : ∀ σ, 0 ≤ st.ptr σ
  onDev : FileOnDev st
  size_nonneg : 0 ≤ st.ino.din.iSize
  size_le : st.ino.din.iSize ≤ maxFileSize

/-- No expression of a read of `size` bytes at `offset` wraps. Those behind the range check
count if it passes. -/
structure NoWrap (st : InodeSt) (offset : Int) (size : Nat) : Prop where
  stop : addOff offset (toOffT size) = .ok (offset + size)
  inFirst : offset + size ≤ st.ino.din.iSize →
    toSizeT (offset.tmod blockSize + size) = offset.toNat % 8192 + size
  product : offset + size ≤ st.ino.din.iSize →
    ∀ i, 8192 * i < offset.toNat % 8192 + size → blockSize * i ≤ intMax
  result : offset + size ≤ st.ino.din.iSize → toInt size = size

/-- `cmd_read` is exact for `offset` and `size`. -/
structure ReadExact (st : InodeSt) (offset : Int) (size : Nat) : Prop where
  refused : offset < 0 ∨ st.ino.din.iSize < offset + size →
    readAt st.ino.din st.sb.dev offset size = .ok (-EINVAL, [])
  copies : 0 ≤ offset → offset + size ≤ st.ino.din.iSize → ∀ buf,
    testfsReadData st.ino.din st.sb.dev buf offset size =
      .ok ((size : ℤ), copied buf st.content offset.toNat size)
  prints : 0 ≤ offset → offset + size ≤ st.ino.din.iSize → ∃ text,
    readAt st.ino.din st.sb.dev offset size = .ok ((size : ℤ), text)
  noWrap : 0 ≤ offset → NoWrap st offset size

/-- The conditions under which it is: the end of the range fits `off_t`; a range within the
file ends at most 2 ^ 31 bytes behind the start of its first block and has less than 2 ^ 31
bytes, it is not the empty range at the maximum file size, and no hole in it shows a byte
other than zero of the double indirect table. -/
def ReadSafe (st : InodeSt) (offset : Int) (size : Nat) : Prop :=
  0 ≤ offset → offset + size < 2 ^ 63 ∧ (offset + size ≤ st.ino.din.iSize →
    offset.toNat % 8192 + size ≤ 2 ^ 31 ∧ size < 2 ^ 31 ∧
    ¬ (size = 0 ∧ offset = maxFileSize) ∧
    ∀ k, k < size → st.ptr (.data ((offset.toNat + k) / 8192)) = 0 →
      ShowsTable st.ino.din st.sb.dev.blocks ((offset.toNat + k) / 8192) →
      (st.sb.dev.blocks st.ino.din.iDindirect.toNat).get ((offset.toNat + k) % 8192) = 0)

/-- `cmd_read` returns what the read of its file returns. -/
theorem cmdRead_run {s s₁ : FileSystem} {filename offsetArg sizeArg : Token} {offset : Int}
    {size nr : Nat} {n : HashNode} {log : List Event}
    (hoffset : strToOffset offsetArg.bytes = (0, offset))
    (hsize : strToSize sizeArg.bytes = (0, size))
    (hfile : (testfsGetFileInode filename).run s = .ok ⟨(0, nr), s₁, log⟩)
    (hn : inodeHashFind s₁.hash nr = some n) (hclean : n.inode.dirty = false) {ret : Int}
    {text : List UInt8} (hread : readAt n.inode.din s₁.sb.dev offset size = .ok (ret, text)) :
    ∃ s₂ l, (cmdRead [filename, offsetArg, sizeArg]).run s = .ok ⟨ret, s₂, l⟩ := by
  rw [readAt] at hread
  by_cases hneg : offset < 0
  · rw [if_pos hneg] at hread
    obtain ⟨rfl, -⟩ := Prod.mk.inj (Except.ok.inj hread)
    refine ⟨s, [], ?_⟩
    simp only [cmdRead, hoffset, hneg, if_true]
    rfl
  · rw [if_neg hneg] at hread
    have hrun : (onInodeRead nr fun d dev => readFile d dev offset size).run s₁ =
        .ok ⟨(ret, text), s₁, []⟩ := Program.reads_run (by rw [hn]; exact hread)
    have hput := testfsPutInode_clean hn hclean
    have hzero : ¬ (0 : ℤ) < 0 := by decide
    simp only [cmdRead, hoffset, hsize, hneg, hzero, if_false]
    rw [Program.bind_run_ok hfile]
    dsimp only
    rw [if_neg hzero, Program.bind_run_nil hrun]
    dsimp only
    split
    · rw [Program.emit_bind, Program.bind_run_nil hput]
      exact ⟨_, _, rfl⟩
    · rw [Program.bind_run_nil hput]
      exact ⟨_, _, rfl⟩

section Arithmetic

variable {a : Int} {n : Nat}

/-- The end of a range is exact exactly if it fits `off_t`. -/
theorem addOff_exact_iff (ha : 0 ≤ a) :
    addOff a (toOffT n) = .ok (a + n) ↔ a + n < 2 ^ 63 := by
  constructor
  · intro h
    rw [addOff] at h
    split at h
    · have hsum := Except.ok.inj h
      omega
    · cases h
  · intro h
    obtain ⟨m, rfl⟩ := Int.eq_ofNat_of_zero_le ha
    exact_mod_cast addOff_of_lt (a := m) (b := n) (by omega) (by omega)

theorem toInt_eq_iff : toInt n = n ↔ n < 2 ^ 31 := by
  constructor
  · intro h
    unfold toInt at h
    have := Int.bmod_lt (x := n) (m := 2 ^ 32) (by norm_num)
    omega
  · exact toInt_natCast

end Arithmetic

section Bytes

variable {st : InodeSt} {start size p : Nat}

theorem Readable.shows (h : Readable st) (hp : p / 8192 < maxBlocks) : Shows st p (st.shown p) :=
  ⟨hp, fun σ _ hne => h.onDev σ hne, rfl⟩

/-- A read shows the byte of the file unless a hole shows the table. -/
theorem shown_eq_content_iff :
    st.shown p = st.content p ↔ (st.ptr (.data (p / 8192)) = 0 →
      ShowsTable st.ino.din st.sb.dev.blocks (p / 8192) →
      (st.sb.dev.blocks st.ino.din.iDindirect.toNat).get (p % 8192) = 0) := by
  rw [InodeSt.shown, InodeSt.content]
  by_cases hz : st.ptr (.data (p / 8192)) = 0
  · rw [if_pos hz]
    by_cases hshow : ShowsTable st.ino.din st.sb.dev.blocks (p / 8192)
    · have hpage : page st.ino.din st.sb.dev.blocks (p / 8192) =
          st.sb.dev.blocks st.ino.din.iDindirect.toNat := by
        rw [page, if_neg (by simpa using hz), if_pos hshow]
      rw [hpage]
      exact ⟨fun h _ _ => h, fun h => h hz hshow⟩
    · rw [page_hole hz hshow, Block.get_zero]
      exact ⟨fun _ _ hs => absurd hs hshow, fun _ => rfl⟩
  · rw [if_neg hz, page_mapped hz]
    exact ⟨fun _ h0 => absurd h0 hz, fun _ => rfl⟩

/-- A read of no bytes looks at the block of its offset all the same. -/
theorem testfsReadData_empty (h : Readable st) (buf : Nat → UInt8)
    (hle : (start : ℤ) ≤ st.ino.din.iSize) :
    testfsReadData st.ino.din st.sb.dev buf start 0 =
      if start < maxFileSize then .ok (0, buf) else .ok (-EFBIG, buf) := by
  have hmax := h.size_le
  simp only [maxFileSize] at hmax ⊢
  have hint : toInt ((start / 8192 : ℕ) : ℤ) = ((start / 8192 : ℕ) : ℤ) :=
    toInt_natCast (by omega)
  have hsum : toSizeT (((start % 8192 : ℕ) : ℤ) + (0 : ℕ)) = start % 8192 := by
    rw [← Nat.cast_add, toSizeT_natCast (by omega), Nat.add_zero]
  have hin : ¬ ((start + 0 : ℕ) : ℤ) > st.ino.din.iSize := by omega
  have hsmall : ¬ start % 8192 > blockSize := by
    simp only [blockSize]
    omega
  rw [testfsReadData]
  simp only [tdiv_blockSize, tmod_blockSize, hint, addOff_of_lt (show start + 0 < 2 ^ 63 by omega)
    (show 0 < 2 ^ 63 by omega), Program.except_ok_bind, hin, if_false, hsum, hsmall]
  by_cases hlt : start < 34376597504
  · have hq : start / 8192 < maxBlocks := by
      simp only [maxBlocks]
      omega
    have hneg : ¬ st.ptr (.data (start / 8192)) < 0 := not_lt.mpr (h.nonneg _)
    have hcopy : copyOut buf 0 (page st.ino.din st.sb.dev.blocks (start / 8192))
        ((start % 8192 : ℕ) : ℤ) (0 : ℕ) = .ok buf := by
      refine (@copyOut_ok buf _ 0 (start % 8192) 0 (by omega)).trans (congrArg _ (funext fun k => ?_))
      rw [if_neg (by omega)]
    rw [(h.shows hq).readBlock h.nonneg, if_pos hlt, Program.except_ok_bind]
    dsimp only
    rw [if_neg hneg, hcopy]
    rfl
  · rw [testfsReadBlock_beyond (by simp only [maxBlocks]; omega), if_neg hlt]
    rfl

/-- The command prints the bytes of a successful read. -/
theorem readFile_within {d : Dinode} {dev : Dev} {buf : Nat → UInt8} {ret : Int}
    (hle : ((start + size : ℕ) : ℤ) ≤ d.iSize) (hmax : start + size < 2 ^ 62) (hret : 0 ≤ ret)
    (hread : testfsReadData d dev (fun _ => 0) start size = .ok (ret, buf)) :
    ∃ text, readFile d dev start size = .ok (ret, text) := by
  have hstop : ¬ ((start + size : ℕ) : ℤ) > d.iSize := by omega
  have hmalloc : ¬ mallocFails ((size + 1) % 2 ^ 64) = true := by
    simp only [mallocFails, decide_eq_true_eq]
    omega
  have htext : cString ((List.range size).map buf ++ [0]) =
      .ok (((List.range size).map buf ++ [0]).takeWhile (· ≠ 0)) := if_pos (by simp)
  rw [readFile, addOff_of_lt (by omega) (by omega), Program.except_ok_bind, if_neg hstop]
  dsimp only
  rw [if_neg hmalloc, hread, Program.except_ok_bind]
  dsimp only
  rw [if_pos hret, htext]
  exact ⟨_, rfl⟩

end Bytes

section Exact

variable {st : InodeSt} {offset : Int} {size : Nat}

theorem ReadExact.safe (hr : Readable st) (h : ReadExact st offset size) :
    ReadSafe st offset size := by
  intro h0
  refine ⟨(addOff_exact_iff h0).mp (h.noWrap h0).stop, fun hle => ?_⟩
  have hcopy := h.copies h0 hle fun _ => 0
  have hmax := hr.size_le
  simp only [maxFileSize] at hmax
  obtain ⟨start, rfl⟩ := Int.eq_ofNat_of_zero_le h0
  simp only [Int.toNat_natCast] at hcopy ⊢
  by_cases hpos : 0 < size
  · have hend : ((start + size : ℕ) : ℤ) ≤ st.ino.din.iSize := by exact_mod_cast hle
    rw [testfsReadData_within hr.nonneg _ hpos hend fun o _ ho =>
      hr.shows (by simp only [maxBlocks]; omega)] at hcopy
    split at hcopy
    · rename_i hlast
      obtain ⟨hret, hbytes⟩ := Prod.mk.inj (Except.ok.inj hcopy)
      refine ⟨hlast, toInt_eq_iff.mp hret, fun hno => absurd hno.1 (by omega), fun k hk => ?_⟩
      have hbyte := congrFun hbytes k
      rw [copied, copied, if_pos hk, if_pos hk] at hbyte
      exact shown_eq_content_iff.mp hbyte
    · cases hcopy
  · obtain rfl : size = 0 := by omega
    refine ⟨by omega, by omega, fun hno => ?_, fun k hk => absurd hk (Nat.not_lt_zero k)⟩
    rw [testfsReadData_empty hr _ (by omega), if_neg (by omega)] at hcopy
    exact absurd (Prod.mk.inj (Except.ok.inj hcopy)).1 (by decide)

theorem ReadSafe.noWrap (hr : Readable st) (h : ReadSafe st offset size) (h0 : 0 ≤ offset) :
    NoWrap st offset size := by
  obtain ⟨hstop, hwithin⟩ := h h0
  have hmax := hr.size_le
  simp only [maxFileSize] at hmax
  obtain ⟨start, rfl⟩ := Int.eq_ofNat_of_zero_le h0
  refine ⟨(addOff_exact_iff h0).mpr hstop, fun hle => ?_, fun hle i hi => ?_, fun hle => ?_⟩
  · simp only [tmod_blockSize, Int.toNat_natCast]
    rw [← Nat.cast_add, toSizeT_natCast (by omega)]
  · have hlast := (hwithin hle).1
    simp only [blockSize, intMax]
    omega
  · exact toInt_natCast (hwithin hle).2.1

theorem ReadSafe.copies (hr : Readable st) (h : ReadSafe st offset size) (h0 : 0 ≤ offset)
    (hle : offset + size ≤ st.ino.din.iSize) (buf : Nat → UInt8) :
    testfsReadData st.ino.din st.sb.dev buf offset size =
      .ok ((size : ℤ), copied buf st.content offset.toNat size) := by
  obtain ⟨hlast, hint, hempty, hholes⟩ := (h h0).2 hle
  have hmax := hr.size_le
  simp only [maxFileSize] at hmax
  obtain ⟨start, rfl⟩ := Int.eq_ofNat_of_zero_le h0
  simp only [Int.toNat_natCast] at hlast hholes ⊢
  by_cases hpos : 0 < size
  · have hend : ((start + size : ℕ) : ℤ) ≤ st.ino.din.iSize := by exact_mod_cast hle
    have hbytes : copied buf st.shown start size = copied buf st.content start size := by
      funext k
      by_cases hk : k < size
      · rw [copied, copied, if_pos hk, if_pos hk, shown_eq_content_iff.mpr (hholes k hk)]
      · rw [copied, copied, if_neg hk, if_neg hk]
    have hread := testfsReadData_within hr.nonneg buf hpos hend fun o _ ho =>
      hr.shows (by simp only [maxBlocks]; omega)
    rw [if_pos hlast, toInt_natCast hint, hbytes] at hread
    exact hread
  · obtain rfl : size = 0 := by omega
    refine (testfsReadData_empty hr buf (by omega)).trans ?_
    have hne : start ≠ maxFileSize := fun he => hempty ⟨rfl, by exact_mod_cast he⟩
    simp only [maxFileSize] at hne ⊢
    rw [if_pos (by omega)]
    rfl

/-- `cmd_read` is exact under the conditions, and only there. -/
theorem readExact_iff (hr : Readable st) (offset : Int) (size : Nat) :
    ReadExact st offset size ↔ ReadSafe st offset size := by
  refine ⟨fun h => h.safe hr, fun h => ⟨fun hout => ?_, h.copies hr, fun h0 hle => ?_, h.noWrap hr⟩⟩
  · rw [readAt]
    by_cases hneg : offset < 0
    · rw [if_pos hneg]
    · have h0 : 0 ≤ offset := not_lt.mp hneg
      rw [if_neg hneg, readFile, (addOff_exact_iff h0).mpr (h h0).1, Program.except_ok_bind,
        if_pos (hout.resolve_left hneg)]
      rfl
  · have hread := h.copies hr h0 hle fun _ => 0
    have hmax := hr.size_le
    simp only [maxFileSize] at hmax
    obtain ⟨start, rfl⟩ := Int.eq_ofNat_of_zero_le h0
    rw [readAt, if_neg (not_lt.mpr h0)]
    exact readFile_within (by exact_mod_cast hle) (by omega) (Int.natCast_nonneg size) hread

/-- `cmd_read` on the file `st` is exact under the conditions, and only there. -/
theorem cmdRead_exact (hr : Readable st) (offset : Int) (size : Nat) :
    (ReadExact st offset size ↔ ReadSafe st offset size) ∧
      ∀ (s s₁ : FileSystem) (filename offsetArg sizeArg : Token) (nr : Nat) (n : HashNode)
        (log : List Event) (ret : Int) (text : List UInt8),
        strToOffset offsetArg.bytes = (0, offset) → strToSize sizeArg.bytes = (0, size) →
        (testfsGetFileInode filename).run s = .ok ⟨(0, nr), s₁, log⟩ →
        inodeHashFind s₁.hash nr = some n → n.inode = st.ino → s₁.sb = st.sb →
        st.ino.dirty = false → readAt st.ino.din st.sb.dev offset size = .ok (ret, text) →
        ∃ s₂ l, (cmdRead [filename, offsetArg, sizeArg]).run s = .ok ⟨ret, s₂, l⟩ := by
  refine ⟨readExact_iff hr offset size, fun s s₁ filename offsetArg sizeArg nr n log ret text
    hoffset hsize hfile hn hino hsb hclean hread => ?_⟩
  rw [← hino] at hclean hread
  rw [← hsb] at hread
  exact cmdRead_run hoffset hsize hfile hn hclean hread

/-- Ten bytes of a file without blocks. -/
theorem cmdRead_exact_hole : ReadExact ((emptyFile 128).grow 0 10) 0 10 := by
  have hptr : ∀ σ, ((emptyFile 128).grow 0 10).ptr σ = 0 := emptyFile_ptr 128
  have hr : Readable ((emptyFile 128).grow 0 10) :=
    ⟨fun σ => (hptr σ).ge, fun σ hne => absurd (hptr σ) hne, by decide, by decide⟩
  refine (cmdRead_exact hr 0 10).1.mpr fun _ => ⟨by norm_num, fun _ => ⟨by decide, by decide,
    by decide, fun k _ _ hshow => absurd rfl hshow.2.2.1⟩⟩

/-- The size -1 passes the range check, and the read fails with another error. -/
theorem negative_size_passes :
    Readable (emptyFile 128) ∧ strToSize (asciiBytes "-1") = (0, 2 ^ 64 - 1) ∧
      readAt (emptyFile 128).ino.din (emptyFile 128).sb.dev 0 (2 ^ 64 - 1) = .ok (-EFBIG, []) ∧
      ¬ ReadExact (emptyFile 128) 0 (2 ^ 64 - 1) := by
  have hr : Readable (emptyFile 128) := ⟨fun σ => (emptyFile_ptr 128 σ).ge,
    fun σ hne => absurd (emptyFile_ptr 128 σ) hne, by decide, by decide⟩
  have hread : readAt (emptyFile 128).ino.din (emptyFile 128).sb.dev 0 (2 ^ 64 - 1) =
      .ok (-EFBIG, []) := by
    rfl
  refine ⟨hr, by decide +kernel, hread, fun h => ?_⟩
  have hrefused := h.refused (Or.inr (by decide))
  rw [hread] at hrefused
  exact absurd (Prod.mk.inj (Except.ok.inj hrefused)).1 (by decide)

end Exact

end Ece344Lab.Fs
