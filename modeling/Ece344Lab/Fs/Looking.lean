import Ece344Lab.Fs.Volume

/-!
# Commands that only look

While a command reads inodes and directories nothing on the disk changes, and every inode in memory
is as it is there. Such commands are known to return, with what they print: `pwd` goes up the tree,
`ls` goes over one directory, `lsr` goes down.
-/
namespace Ece344Lab.Fs

open Ece344Lab.Library

/-- While a command only looks: the inodes in memory are those on disk, and there are the
references `refs` to them. -/
structure Looks (sb : SuperBlock) (dir : Nat) (refs : Multiset Nat) (s : FileSystem) : Prop where
  held : Held dir refs s
  super : s.sb = sb
  layout : Layout sb
  clean : ∀ m n, inodeHashFind s.hash m = some n → m < nrInodes ∧ n.inode = ⟨onDisk sb m, false, m⟩

section Looks

variable {sb : SuperBlock} {dir nr : Nat} {refs : Multiset Nat} {s s' : FileSystem}

namespace Looks

theorem find (h : Looks sb dir refs s) (hmem : nr ∈ refs) :
    ∃ i, inodeHashFind s.hash nr = some ⟨⟨onDisk sb nr, false, nr⟩, i⟩ := by
  obtain ⟨⟨ino, i⟩, hn⟩ := h.held.find hmem
  obtain rfl := (h.clean nr _ hn).2
  exact ⟨i, hn⟩

theorem lt (h : Looks sb dir refs s) (hmem : nr ∈ refs) : nr < nrInodes := by
  obtain ⟨i, hn⟩ := h.find hmem
  exact (h.clean nr _ hn).1

/-- Taking a reference to an inode. -/
theorem get (h : Looks sb dir refs s) (hnr : nr < nrInodes) :
    ∃ s', (testfsGetInode nr).run s = .ok ⟨(), s', []⟩ ∧ Looks sb dir (nr ::ₘ refs) s' := by
  cases hn : inodeHashFind s.hash nr with
  | none =>
    have hrun := testfsGetInode_disk (by rw [h.super]; exact h.layout) hnr hn
    refine ⟨_, hrun, (held_get nr).of_ok h.held hrun, h.super, h.layout, fun m n hm => ?_⟩
    dsimp only at hm
    rw [inodeHashFind_insert, h.super] at hm
    split_ifs at hm with heq
    · obtain rfl := Option.some.inj hm
      obtain rfl : nr = m := heq
      exact ⟨hnr, rfl⟩
    · exact h.clean m n hm
  | some n =>
    have hrun := testfsGetInode_memory hn
    refine ⟨_, hrun, (held_get nr).of_ok h.held hrun, h.super, h.layout, fun m n' hm => ?_⟩
    dsimp only at hm
    rw [inodeHashFind_modify (f := fun n => { n with iCount := n.iCount + 1 }) fun _ heq => heq] at hm
    split_ifs at hm with heq
    · obtain ⟨n₀, hn₀, rfl⟩ := Option.map_eq_some_iff.mp hm
      exact h.clean m n₀ hn₀
    · exact h.clean m n' hm

/-- Dropping a reference to an inode. -/
theorem put (h : Looks sb dir (nr ::ₘ refs) s) :
    ∃ s', (testfsPutInode nr).run s = .ok ⟨(), s', []⟩ ∧ Looks sb dir refs s' := by
  obtain ⟨i, hn⟩ := h.find (Multiset.mem_cons_self nr refs)
  have hrun := testfsPutInode_clean hn rfl
  refine ⟨_, hrun, (held_put nr).of_ok h.held hrun, h.super, h.layout, fun m n hm => ?_⟩
  dsimp only at hm
  rw [dropped] at hm
  split_ifs at hm with hone
  · rw [inodeHashFind_remove] at hm
    split_ifs at hm
    exact h.clean m n hm
  · rw [inodeHashFind_modify (f := fun n => { n with iCount := n.iCount - 1 }) fun _ heq => heq] at hm
    split_ifs at hm with heq
    · obtain ⟨n₀, hn₀, rfl⟩ := Option.map_eq_some_iff.mp hm
      exact h.clean m n₀ hn₀
    · exact h.clean m n hm

/-- Reading an inode to which there is a reference. -/
theorem read {α : Type} {f : Dinode → Dev → Except Halt α} {a : α} (h : Looks sb dir refs s)
    (hmem : nr ∈ refs) (hf : f (onDisk sb nr) sb.dev = .ok a) :
    (onInodeRead nr f).run s = .ok ⟨a, s, []⟩ := by
  obtain ⟨i, hn⟩ := h.find hmem
  refine Program.reads_run ?_
  rw [hn, h.super]
  exact hf

theorem type (h : Looks sb dir refs s) (hmem : nr ∈ refs) :
    (testfsInodeGetType nr).run s = .ok ⟨(onDisk sb nr).iType, s, []⟩ := h.read hmem rfl

/-- The inodes are those on disk. -/
theorem dinodes (h : Looks sb dir refs s) (hnr : nr < nrInodes) : s.dinodes nr = onDisk sb nr := by
  rw [dinodes_of_lt hnr]
  cases hn : inodeHashFind s.hash nr with
  | none => rw [value_disk hn, h.super]
  | some n => rw [value_memory hn, (h.clean nr n hn).2]

theorem cached (h : Looks sb dir refs s) : Cached s where
  layout := by
    rw [h.super]
    exact h.layout
  filed := h.held.filed
  node m n hm := by
    obtain ⟨hlt, hino⟩ := h.clean m n hm
    rw [hino]
    refine ⟨hlt, ?_, fun _ => by rw [h.super]⟩
    exact fits_loaded sb m

end Looks

end Looks

section Prompt

variable {s s' : FileSystem} {V : Volume} {d n nr : Nat} {refs : Multiset Nat}

/-- Between two commands the inodes in memory are those on disk. -/
theorem AtPrompt.looks (h : AtPrompt s V) : Looks s.sb s.curDir {s.curDir} s := by
  have hclean : ∀ m n, inodeHashFind s.hash m = some n →
      m = s.curDir ∧ n = ⟨⟨s.dinodes s.curDir, false, s.curDir⟩, 1⟩ := by
    intro m n hm
    by_cases heq : m = s.curDir
    · subst heq
      exact ⟨rfl, Option.some.inj (hm.symm.trans h.here)⟩
    · rw [h.others m heq] at hm
      cases hm
  refine ⟨⟨rfl, h.stored.sound.kept.cached.filed, fun m => ?_, fun m n hm => ?_⟩, rfl, h.layout,
    fun m n hm => ?_⟩
  · by_cases heq : m = s.curDir
    · rw [heq, h.here, Multiset.count_singleton_self]
      rfl
    · rw [h.others m heq, Multiset.count_eq_zero_of_notMem (by simpa using heq)]
      rfl
  · rw [(hclean m n hm).2]
    exact Nat.one_pos
  · obtain ⟨hlt, -, hdisk⟩ := h.stored.sound.kept.cached.node m n hm
    obtain ⟨rfl, rfl⟩ := hclean m n hm
    exact ⟨hlt, by rw [← hdisk rfl]⟩

/-- What is stored stays the same. -/
theorem Looks.sound (h : AtPrompt s V) (hl : Looks s.sb d refs s') :
    Sound s' V.tree.nodes ∧ ∀ m, SameInode s s' m := by
  refine h.stored.sound.congr_sb hl.cached (fun m hm => ?_) hl.super
  rw [← dinodes_of_lt hm, hl.dinodes hm, ← h.looks.dinodes hm, dinodes_of_lt hm]

/-- An inode with one reference. -/
theorem Looks.find_one (hl : Looks s.sb d refs s') (hcount : refs.count n = 1) :
    inodeHashFind s'.hash n = some ⟨⟨Fs.onDisk s.sb n, false, n⟩, 1⟩ := by
  have hmem : n ∈ refs := Multiset.count_pos.mp (by omega)
  obtain ⟨i, hn⟩ := hl.find hmem
  rw [hn, show i = 1 from (hl.held.node hn).trans hcount]

/-- An inode without references is not in memory. -/
theorem Looks.find_none (hl : Looks s.sb d refs s') (hn : n ∉ refs) :
    inodeHashFind s'.hash n = none := by
  by_contra hne
  obtain ⟨x, hx⟩ := Option.ne_none_iff_exists'.mp hne
  have hpos := hl.held.pos n x hx
  rw [hl.held.node hx, Multiset.count_eq_zero_of_notMem hn] at hpos
  exact absurd hpos (lt_irrefl 0)

/-- After a command that only looks, the volume is the same. -/
theorem Looks.atPrompt (h : AtPrompt s V) (hl : Looks s.sb d {d} s') (hd : d ∈ V.tree.branches) :
    AtPrompt s' V := by
  obtain ⟨hsound, hsame⟩ := hl.sound h
  have hcur := hl.held.curDir
  refine ⟨h.stored.congr hsound fun m _ => hsame m, by rwa [hcur], ?_, fun m hm => ?_⟩
  · rw [hcur, hl.find_one (Multiset.count_singleton_self d),
      hl.dinodes (h.stored.lt (V.tree.branches_sub hd))]
  · rw [hcur] at hm
    exact hl.find_none (by simpa using hm)

theorem AtPrompt.onDisk (h : AtPrompt s V) (hn : n ∈ V.tree.nodes) :
    Fs.onDisk s.sb n = s.dinodes n := (h.looks.dinodes (h.stored.lt hn)).symm

/-- Looking a name up in a directory to which there is a reference. -/
theorem Looks.lookup (h : AtPrompt s V) (hl : Looks s.sb nr refs s') (hmem : d ∈ refs)
    (hd : d ∈ V.tree.branches) (x : Name) :
    (onInodeRead d fun i dev => testfsDirNameToInodeNr i dev x).run s' =
      .ok ⟨(listing V.tree d x).getD (-ENOENT), s', []⟩ := by
  refine hl.read hmem ?_
  rw [h.onDisk (V.tree.branches_sub hd)]
  exact h.stored.lookup hd x

/-- The type tells the directories. -/
theorem AtPrompt.isDir_iff (h : AtPrompt s V) (hn : n ∈ V.tree.nodes) :
    (Fs.onDisk s.sb n).iType = InodeType.dir.val ↔ n ∈ V.tree.branches := by
  rw [h.onDisk hn]
  exact h.stored.isDir_iff hn

/-- The node that a name leads to, if it leads anywhere. -/
theorem AtPrompt.target (h : AtPrompt s V) (name : Token) :
    listing V.tree s.curDir name.bytes = none ∧
      (lookupCurDir name).run s = .ok ⟨-ENOENT, s, []⟩ ∨
    ∃ n : ℕ, listing V.tree s.curDir name.bytes = some (n : ℤ) ∧ n ∈ V.tree.nodes ∧
      (lookupCurDir name).run s = .ok ⟨(n : ℤ), s, []⟩ := by
  have hrun := h.lookup name
  rcases Option.eq_none_or_eq_some (listing V.tree s.curDir name.bytes) with hx | ⟨v, hx⟩
  · rw [hx] at hrun
    exact Or.inl ⟨hx, hrun⟩
  · obtain ⟨n, rfl, hn, -⟩ := listing_some h.cur hx
    rw [hx] at hrun
    exact Or.inr ⟨n, hx, hn, hrun⟩

end Prompt

/-- What has been printed. -/
def printed (log : List Event) : List UInt8 :=
  log.flatMap fun event =>
    match event with
    | .printf text => text
    | .allocBlockFailed => []

theorem printed_append (log log' : List Event) : printed (log ++ log') = printed log ++ printed log' :=
  List.flatMap_append

theorem printed_printf (text : List UInt8) : printed [.printf text] = text := by
  simp [printed]

section Commands

variable {s s' : FileSystem} {V : Volume} {d n : Nat} {name : Token}

theorem Looks.setCurDir {sb : SuperBlock} {dir : Nat} {refs : Multiset Nat}
    (h : Looks sb dir refs s) (d : Nat) : Looks sb d refs { s with curDir := d } where
  held := ⟨rfl, h.held.filed, h.held.count, h.held.pos⟩
  super := h.super
  layout := h.layout
  clean := h.clean

/-- `cd` goes to the directory of the name, which may be `.` or `..`. -/
theorem AtPrompt.cd (h : AtPrompt s V) (name : Token) :
    ∃ ret s', (cmdCd [name]).run s = .ok ⟨ret, s', []⟩ ∧ AtPrompt s' V ∧
      (listing V.tree s.curDir name.bytes = none ∧ ret = -ENOENT ∧ s'.curDir = s.curDir ∨
        ∃ n : ℕ, listing V.tree s.curDir name.bytes = some (n : ℤ) ∧
          (n ∉ V.tree.branches ∧ ret = -ENOTDIR ∧ s'.curDir = s.curDir ∨
            n ∈ V.tree.branches ∧ ret = 0 ∧ s'.curDir = n)) := by
  rcases h.target name with ⟨hx, hrun⟩ | ⟨n, hx, hn, hrun⟩
  · refine ⟨-ENOENT, s, ?_, h, Or.inl ⟨hx, rfl, rfl⟩⟩
    rw [cmdCd, Program.bind_run_nil hrun]
    rfl
  obtain ⟨s₁, hget, hl₁⟩ := h.looks.get (h.stored.lt hn)
  have htype := hl₁.type (Multiset.mem_cons_self n _)
  rw [cmdCd, Program.bind_run_nil hrun, if_neg (not_lt.mpr (Int.natCast_nonneg n)),
    Int.toNat_natCast, Program.bind_run_nil hget, Program.bind_run_nil htype]
  by_cases hbranch : n ∈ V.tree.branches
  · rw [if_neg (not_not.mpr ((h.isDir_iff hn).mpr hbranch)), Program.get_bind, hl₁.held.curDir]
    have hswap : n ::ₘ {s.curDir} = s.curDir ::ₘ ({n} : Multiset ℕ) := Multiset.pair_comm n s.curDir
    obtain ⟨s₂, hput, hl₂⟩ := (hswap ▸ hl₁).put
    rw [Program.bind_run_nil hput, Program.modify_bind]
    exact ⟨0, { s₂ with curDir := n }, rfl, (hl₂.setCurDir n).atPrompt h hbranch,
      Or.inr ⟨n, hx, Or.inr ⟨hbranch, rfl, rfl⟩⟩⟩
  · rw [if_pos fun heq => hbranch ((h.isDir_iff hn).mp heq)]
    obtain ⟨s₂, hput, hl₂⟩ := hl₁.put
    rw [Program.bind_run_nil hput]
    exact ⟨-ENOTDIR, s₂, rfl, hl₂.atPrompt h h.cur,
      Or.inr ⟨n, hx, Or.inl ⟨hbranch, rfl, hl₂.held.curDir⟩⟩⟩

/-- `testfs_get_file_inode` takes a reference to a file, and keeps none to a directory. -/
theorem AtPrompt.getFileInode (h : AtPrompt s V) (name : Token) :
    listing V.tree s.curDir name.bytes = none ∧
      (testfsGetFileInode name).run s = .ok ⟨(-ENOENT, 0), s, []⟩ ∨
    ∃ n : ℕ, listing V.tree s.curDir name.bytes = some (n : ℤ) ∧ n ∈ V.tree.nodes ∧ ∃ s₁,
      (n ∈ V.tree.branches ∧ (testfsGetFileInode name).run s = .ok ⟨(-EISDIR, 0), s₁, []⟩ ∧
          Looks s.sb s.curDir {s.curDir} s₁ ∨
        n ∉ V.tree.branches ∧ (testfsGetFileInode name).run s = .ok ⟨(0, n), s₁, []⟩ ∧
          Looks s.sb s.curDir (n ::ₘ {s.curDir}) s₁) := by
  rcases h.target name with ⟨hx, hrun⟩ | ⟨n, hx, hn, hrun⟩
  · refine Or.inl ⟨hx, ?_⟩
    rw [testfsGetFileInode, Program.bind_run_nil hrun]
    rfl
  obtain ⟨s₁, hget, hl₁⟩ := h.looks.get (h.stored.lt hn)
  have htype := hl₁.type (Multiset.mem_cons_self n _)
  refine Or.inr ⟨n, hx, hn, ?_⟩
  rw [testfsGetFileInode, Program.bind_run_nil hrun, if_neg (not_lt.mpr (Int.natCast_nonneg n)),
    Int.toNat_natCast, Program.bind_run_nil hget, Program.bind_run_nil htype]
  by_cases hbranch : n ∈ V.tree.branches
  · obtain ⟨s₂, hput, hl₂⟩ := hl₁.put
    rw [if_pos ((h.isDir_iff hn).mpr hbranch), Program.bind_run_nil hput]
    exact ⟨s₂, Or.inl ⟨hbranch, rfl, hl₂⟩⟩
  · rw [if_neg fun heq => hbranch ((h.isDir_iff hn).mp heq)]
    exact ⟨s₁, Or.inr ⟨hbranch, rfl, hl₁⟩⟩

/-- The line that `stat` prints. -/
def statLine (name : Name) (nr type size count : Int) : List UInt8 :=
  name ++ asciiBytes ": i_nr = " ++ decimal nr ++ asciiBytes ", i_type = " ++ decimal type ++
    asciiBytes ", i_size = " ++ decimal size ++ asciiBytes ", block_count = " ++ decimal count ++
    newline

/-- `stat` prints the type of a node and the size of a file. -/
theorem AtPrompt.stat (h : AtPrompt s V) {name : Token} {n : ℕ}
    (hx : listing V.tree s.curDir name.bytes = some (n : ℤ)) (hn : n ∈ V.tree.nodes) :
    ∃ s' log size count, (cmdStat [name]).run s = .ok ⟨0, s', log⟩ ∧ AtPrompt s' V ∧
      s'.curDir = s.curDir ∧
      printed log = statLine name.bytes n (if n ∈ V.tree.branches then InodeType.dir.val
        else InodeType.file.val) size count ∧
      (n ∉ V.tree.branches → size = V.size n) := by
  have hrun := h.lookup name
  rw [hx, Option.getD_some] at hrun
  obtain ⟨s₁, hget, hl₁⟩ := h.looks.get (h.stored.lt hn)
  have hmem := Multiset.mem_cons_self n {s.curDir}
  have htype := hl₁.type hmem
  have hsize := hl₁.read (f := fun d _ => .ok d.iSize) hmem rfl
  have hcount := hl₁.read (f := fun d _ => .ok d.blockCount) hmem rfl
  obtain ⟨s₂, hput, hl₂⟩ := hl₁.put
  have hval : (Fs.onDisk s.sb n).iType =
      if n ∈ V.tree.branches then InodeType.dir.val else InodeType.file.val := by
    rw [h.onDisk hn]
    split_ifs with hb
    · exact h.stored.isDir hb
    · exact h.stored.isFile hn hb
  refine ⟨s₂, [.printf (statLine name.bytes n (Fs.onDisk s.sb n).iType (Fs.onDisk s.sb n).iSize
    (Fs.onDisk s.sb n).blockCount)], (Fs.onDisk s.sb n).iSize, (Fs.onDisk s.sb n).blockCount, ?_,
    hl₂.atPrompt h h.cur, hl₂.held.curDir, by rw [printed_printf, hval], fun hb => ?_⟩
  · rw [cmdStat, Program.bind_run_nil hrun, if_neg (not_lt.mpr (Int.natCast_nonneg n))]
    simp only [Int.toNat_natCast]
    rw [Program.bind_run_nil hget, Program.bind_run_nil htype, testfsInodeGetSize,
      Program.bind_run_nil hsize, testfsInodeGetBlockCount, Program.bind_run_nil hcount,
      Program.emit_bind, Program.bind_run_nil hput]
    rfl
  · rw [h.onDisk hn]
    exact (h.stored.files n hn hb).iSize

/-- A read of bytes that have all been written. -/
theorem FileHolds.readFile {st : InodeSt} {data : Nat → Option UInt8} {size start : ℕ}
    {bytes : List UInt8} (h : FileHolds st data size) (h0 : ∀ σ, 0 ≤ st.ptr σ)
    (hbytes : ∀ k, k < bytes.length → data (start + k) = bytes[k]?) (hpos : 0 < bytes.length)
    (hlen : bytes.length ≤ 2 ^ 30) :
    Fs.readFile st.ino.din st.sb.dev start bytes.length =
      .ok ((bytes.length : ℤ), bytes.takeWhile (· ≠ 0) ++ newline) := by
  have hstored : ∀ o, start ≤ o → o < start + bytes.length →
      o < size ∧ Stores st o (bytes.getD (o - start) 0) := by
    intro o hlo hhi
    have hk : o - start < bytes.length := by omega
    have ho : start + (o - start) = o := by omega
    refine h.stores o _ ?_
    rw [← ho, hbytes _ hk, ho, List.getElem?_eq_getElem hk, List.getD_eq_getElem _ _ hk]
  have hlast := (hstored (start + bytes.length - 1) (by omega) (by omega)).1
  have hsize := h.iSize
  have hend : ((start + bytes.length : ℕ) : ℤ) ≤ st.ino.din.iSize := by omega
  have hshown : ∀ o, start ≤ o → o < start + bytes.length →
      Shows st o (bytes.getD (o - start) 0) := fun o hlo hhi => (hstored o hlo hhi).2.shows
  have hstart := (hshown start (le_refl _) (by omega)).lt
  simp only [maxBlocks] at hstart
  have hread := testfsReadData_within h0 (fun _ => 0) hpos hend hshown
  rw [if_pos (by omega), toInt_natCast (by omega)] at hread
  have hmap : (List.range bytes.length).map
      (copied (fun _ => 0) (fun o => bytes.getD (o - start) 0) start bytes.length) = bytes := by
    refine List.ext_getElem (by simp) fun k hk hk' => ?_
    rw [List.getElem_map, List.getElem_range, copied, if_pos hk', Nat.add_sub_cancel_left,
      List.getD_eq_getElem _ _ hk']
  have htext : cString (bytes ++ [0]) = .ok (bytes.takeWhile (· ≠ 0)) := by
    rw [cString, if_pos (by simp)]
    refine congrArg Except.ok ?_
    rw [List.takeWhile_append]
    split_ifs with hall
    · rw [(List.takeWhile_prefix _).eq_of_length hall]
      simp
    · rfl
  have hstop : ¬ ((start + bytes.length : ℕ) : ℤ) > st.ino.din.iSize := by omega
  have hmalloc : ¬ mallocFails ((bytes.length + 1) % 2 ^ 64) = true := by
    simp only [mallocFails, decide_eq_true_eq]
    omega
  rw [Fs.readFile, addOff_of_lt (by omega) (by omega), Program.except_ok_bind, if_neg hstop]
  dsimp only
  rw [if_neg hmalloc, hread, Program.except_ok_bind]
  dsimp only
  rw [if_pos (Int.natCast_nonneg _), hmap, htext]
  rfl

/-- A read of a range that the file does not reach. -/
theorem FileHolds.readFile_beyond {st : InodeSt} {data : Nat → Option UInt8} {size start n : ℕ}
    (h : FileHolds st data size) (hend : start + n < 2 ^ 63) (hout : size < start + n) :
    Fs.readFile st.ino.din st.sb.dev start n = .ok (-EINVAL, []) := by
  have hsize := h.iSize
  have hstop : ((start + n : ℕ) : ℤ) > st.ino.din.iSize := by omega
  rw [Fs.readFile, addOff_of_lt hend (by omega), Program.except_ok_bind, if_pos hstop]
  rfl

/-- `read` of a file that has been found. -/
theorem AtPrompt.read (h : AtPrompt s V) {name offsetArg sizeArg : Token} {start size n : ℕ}
    (hoffset : strToOffset offsetArg.bytes = (0, (start : ℤ)))
    (hsize : strToSize sizeArg.bytes = (0, size))
    (hx : listing V.tree s.curDir name.bytes = some (n : ℤ)) (hfile : n ∉ V.tree.branches)
    {ret : ℤ} {text : List UInt8}
    (hread : readFile (s.dinodes n) s.sb.dev start size = .ok (ret, text)) :
    ∃ s' log, (cmdRead [name, offsetArg, sizeArg]).run s = .ok ⟨ret, s', log⟩ ∧ AtPrompt s' V ∧
      s'.curDir = s.curDir ∧ printed log = if 0 ≤ ret then text else [] := by
  rcases h.getFileInode name with ⟨hnone, -⟩ | ⟨m, hm, hnode, s₁, hcase⟩
  · rw [hnone] at hx
    cases hx
  obtain rfl : m = n := Nat.cast_injective (Option.some.inj (hm.symm.trans hx))
  rcases hcase with ⟨hbranch, -⟩ | ⟨-, hrun, hl₁⟩
  · exact absurd hbranch hfile
  rw [← h.onDisk hnode] at hread
  have hread₁ := hl₁.read (f := fun d dev => readFile d dev start size)
    (Multiset.mem_cons_self m _) hread
  obtain ⟨s₂, hput, hl₂⟩ := hl₁.put
  have hzero : ¬ (0 : ℤ) < 0 := lt_irrefl 0
  have hneg : ¬ (start : ℤ) < 0 := not_lt.mpr (Int.natCast_nonneg start)
  refine ⟨s₂, if 0 ≤ ret then [.printf text] else [], ?_, hl₂.atPrompt h h.cur, hl₂.held.curDir, ?_⟩
  · simp only [cmdRead, hoffset, hsize, hneg, hzero, if_false]
    rw [Program.bind_run_nil hrun]
    dsimp only
    rw [if_neg hzero, Program.bind_run_nil hread₁]
    dsimp only
    by_cases hpos : 0 ≤ ret
    · rw [if_pos hpos, if_pos hpos, Program.emit_bind, Program.bind_run_nil hput]
      rfl
    · rw [if_neg hpos, if_neg hpos, Program.bind_run_nil hput]
      rfl
  · split_ifs
    · exact printed_printf text
    · rfl

end Commands

theorem intercalate_concat (sep : Name) (p : List Name) (x : Name) :
    List.intercalate sep (p ++ [x]) =
      List.intercalate sep p ++ ((if p = [] then [] else sep) ++ x) := by
  induction p with
  | nil => simp
  | cons y p ih =>
    cases p with
    | nil => simp [List.intercalate_cons_cons]
    | cons z p =>
      rw [List.cons_append, List.cons_append, List.intercalate_cons_cons, List.intercalate_cons_cons,
        ← List.cons_append, ih]
      simp

section Pwd

variable {D : Nat → Dinode} {st : InodeSt} {rs : List Dirent} {M : Name → Option Int}
  {s s₁ : FileSystem} {V : Volume} {d dir : Nat} {refs : Multiset Nat}

theorem Laid.wf {st : InodeSt} {off : Nat} {rs : List Dirent} (h : Laid st off rs) :
    ∀ r ∈ rs, r.Wf := by
  intro r hr
  obtain ⟨pre, post, rfl⟩ := List.append_of_mem hr
  exact (laid_append.mp h).2.1

theorem Dirent.cString_name {r : Dirent} (h : r.Wf) : cString r.name = .ok r.str := if_pos h.nul

/-- `testfs_find_dirent` finds the one name of an inode. -/
theorem DirHolds.findDirent (h : DirHolds D d st rs M) {x : Name} {n : ℕ} (hx : M x = some (n : ℤ))
    (hone : ∀ y, M y = some (n : ℤ) → y = x) :
    ∃ r, testfsFindDirent st.ino.din st.sb.dev n = .ok (some r) ∧ cString r.name = .ok x := by
  obtain ⟨res, hsearch, hends⟩ :=
    h.search (w := fun r => decide (r.inodeNr = n)) fun r _ =>
      @Eq.refl (Except Halt Bool) (.ok (r.inodeNr = n))
  rw [testfsFindDirent, assertC_pos h.isDir, Program.except_ok_bind,
    assertC_pos (Int.natCast_nonneg n), Program.except_ok_bind, hsearch, Program.except_ok_bind]
  rcases hends with ⟨pre, r, post, rfl, -, hr, rfl⟩ | ⟨hall, -⟩
  · have hmem : r ∈ pre ++ r :: post := List.mem_append_right _ List.mem_cons_self
    have hnr : r.inodeNr = n := of_decide_eq_true hr
    have hget := h.maps.eq_some hmem (decide_eq_true (by rw [hnr]; exact Int.natCast_nonneg n))
    have hstr : r.str = x := hone r.str (hget.trans (congrArg some hnr))
    exact ⟨r, rfl, hstr ▸ Dirent.cString_name (h.laid.wf r hmem)⟩
  · obtain ⟨r, hr, -, -, hval⟩ := (h.maps.get x n).mp hx
    exact absurd hval (of_decide_eq_false (hall r hr))

/-- In its parent, a directory has one name. -/
theorem listing_name_unique {T : NameTree Nat Name} {e n : Nat} {x y : Name}
    (hx : T.child e x = some n) (hy : listing T e y = some (n : ℤ)) : y = x := by
  have hn := T.child_node hx
  have hroot := T.child_ne_root hx
  have hparent := T.child_parent hx
  rw [listing] at hy
  split_ifs at hy
  · -- `.` is the parent itself
    rw [← hparent] at hy
    exact absurd (Nat.cast_injective (Option.some.inj hy)) (T.parent_ne hn hroot)
  · rw [← hparent] at hy
    exact absurd (Nat.cast_injective (Option.some.inj hy)) (T.parent_parent_ne hn hroot)
  · obtain ⟨m, hm, heq⟩ := Option.map_eq_some_iff.mp hy
    obtain rfl : m = n := Nat.cast_injective heq
    exact T.name_unique hm hx

/-- `testfs_pwd` prints the path of a directory. -/
theorem AtPrompt.testfsPwd_run (h : AtPrompt s V) (p : List Name) :
    ∀ (depth d : Nat) (refs : Multiset Nat) (s₁ : FileSystem), p.length < depth →
      V.tree.walk V.tree.root p = some d → d ∈ V.tree.branches →
      Looks s.sb dir (d ::ₘ refs) s₁ →
      ∃ ret s₂ log, (testfsPwd depth d).run s₁ = .ok ⟨ret, s₂, log⟩ ∧
        Looks s.sb dir (d ::ₘ refs) s₂ ∧ (ret = 1 ↔ p = []) ∧
        printed log = slash ++ List.intercalate slash p := by
  induction p using List.reverseRecOn with
  | nil =>
    intro depth d refs s₁ hdepth hd hbranch hl
    obtain ⟨depth, rfl⟩ := Nat.exists_eq_succ_of_ne_zero (Nat.ne_of_gt (Nat.zero_lt_of_lt hdepth))
    obtain rfl : V.tree.root = d := Option.some.inj hd
    have hup := hl.lookup h (Multiset.mem_cons_self _ _) hbranch dotdot
    rw [listing_dotdot, V.tree.parent_root, Option.getD_some] at hup
    rw [testfsPwd, Program.bind_run_nil hup, Program.reads_bind, assertC_pos (Int.natCast_nonneg _),
      Program.except_ok_bind, if_pos rfl]
    exact ⟨1, s₁, [.printf slash], rfl, hl, by simp, by simp [printed_printf]⟩
  | append_singleton p x ih =>
    intro depth d refs s₁ hdepth hd hbranch hl
    obtain ⟨depth, rfl⟩ := Nat.exists_eq_succ_of_ne_zero (Nat.ne_of_gt (Nat.zero_lt_of_lt hdepth))
    rw [V.tree.walk_concat] at hd
    obtain ⟨e, he, hchild⟩ := Option.bind_eq_some_iff.mp hd
    have hdn := V.tree.child_node hchild
    have hdroot := V.tree.child_ne_root hchild
    have hparent := V.tree.child_parent hchild
    have hebranch := V.tree.child_branch hchild
    have hup := hl.lookup h (Multiset.mem_cons_self _ _) hbranch dotdot
    rw [listing_dotdot, hparent, Option.getD_some] at hup
    have hne : ¬ (e : ℤ) = d := fun heq => by
      have hpe := V.tree.parent_ne hdn hdroot
      rw [hparent] at hpe
      exact hpe (Nat.cast_injective heq)
    rw [testfsPwd, Program.bind_run_nil hup, Program.reads_bind, assertC_pos (Int.natCast_nonneg _),
      Program.except_ok_bind, if_neg hne, Int.toNat_natCast]
    obtain ⟨s₂, hget, hl₂⟩ := hl.get (h.stored.lt (V.tree.branches_sub hebranch))
    rw [Program.bind_run_nil hget]
    -- the name of the directory in its parent
    obtain ⟨rs, hdir⟩ := h.stored.dirs e hebranch
    obtain ⟨hdot, hdotdot⟩ := h.stored.names e x d hchild
    obtain ⟨r, hfind, hname⟩ := hdir.findDirent (x := x) (n := d)
      (by rw [listing_name hdot hdotdot, hchild]; rfl) fun y hy => listing_name_unique hchild hy
    rw [view_din, view_sb, ← h.onDisk (V.tree.branches_sub hebranch)] at hfind
    have hread := hl₂.read (f := fun i dev => testfsFindDirent i dev d)
      (Multiset.mem_cons_self _ _) hfind
    rw [Program.bind_run_nil hread]
    -- the path of the parent
    rw [List.length_append, List.length_singleton] at hdepth
    obtain ⟨ret, s₃, log, hrun, hl₃, hret, hlog⟩ :=
      ih depth e (d ::ₘ refs) s₂ (by omega) he hebranch hl₂
    obtain ⟨s₄, hput, hl₄⟩ := hl₃.put
    dsimp only
    rw [Program.bind_run_ok hrun, Program.bind_run_nil hput, Program.reads_bind, hname,
      Program.except_ok_bind, Program.emit_bind]
    refine ⟨0, s₄, _, rfl, hl₄, by simp, ?_⟩
    rw [printed_append, List.append_nil, printed_printf, hlog, intercalate_concat]
    simp only [hret, List.append_assoc]

/-- `pwd` prints the path of the current directory. The recursion that goes up is never deeper than
the number of inodes. -/
theorem AtPrompt.pwd (h : AtPrompt s V) {p : List Name}
    (hp : V.tree.walk V.tree.root p = some s.curDir) :
    ∃ s' log, (cmdPwd []).run s = .ok ⟨0, s', log⟩ ∧ AtPrompt s' V ∧ s'.curDir = s.curDir ∧
      printed log = slash ++ List.intercalate slash p ++ newline := by
  have hdepth : p.length < maxDepth := lt_of_lt_of_le (V.tree.path_length_lt hp) h.stored.card_le
  obtain ⟨ret, s₁, log, hrun, hl, -, hlog⟩ :=
    h.testfsPwd_run p maxDepth s.curDir 0 s hdepth hp h.cur h.looks
  rw [cmdPwd, Program.get_bind, Program.bind_run_ok hrun, Program.emit_bind]
  refine ⟨s₁, _, rfl, hl.atPrompt h h.cur, hl.held.curDir, ?_⟩
  rw [printed_append, List.append_nil, printed_printf, hlog]

end Pwd

/-- The line that `ls` prints for a name of the directory `d`: a slash marks the directories. -/
def Volume.line (V : Volume) (d : Nat) (x : Name) : List UInt8 :=
  x ++ (if ∃ n ∈ V.tree.branches, listing V.tree d x = some (n : ℤ) then slash else []) ++ newline

/-- The text lists the directory `d`: a line for each name, once, and after the line of a directory
below, if the listing is recursive, what lists that. -/
inductive Lists (V : Volume) (recursive : Bool) : Nat → List UInt8 → Prop
  | dir {d : Nat} {names : List Name} {sub : Name → List UInt8} (hd : d ∈ V.tree.branches)
      (once : names.Nodup) (all : ∀ x, x ∈ names ↔ ∃ v, listing V.tree d x = some v)
      (below : ∀ x n, recursive = true → V.tree.child d x = some n → n ∈ V.tree.branches →
        Lists V recursive n (sub x))
      (leaf : ∀ x, ¬ (recursive = true ∧ ∃ n ∈ V.tree.branches, V.tree.child d x = some n) →
        sub x = []) :
      Lists V recursive d (names.flatMap fun x => V.line d x ++ sub x)

section Ls

variable {s : FileSystem} {V : Volume} {d dir : Nat} {refs : Multiset Nat} {recursive : Bool}
  {recurse : Nat → FsM Unit} {sub : Name → List UInt8}

/-- One entry of the loop of `testfs_ls`. -/
theorem AtPrompt.lsEntry_run (h : AtPrompt s V)
    (hsub : ∀ x m refs s₁, recursive = true → V.tree.child d x = some m → m ∈ V.tree.branches →
      m ∈ refs → Looks s.sb dir refs s₁ → ∃ s₂ log, (recurse m).run s₁ = .ok ⟨(), s₂, log⟩ ∧
        Looks s.sb dir refs s₂ ∧ printed log = sub x)
    (hleaf : ∀ x, ¬ (recursive = true ∧ ∃ n ∈ V.tree.branches, V.tree.child d x = some n) →
      sub x = [])
    {x : Name} {m : ℕ} (hx : listing V.tree d x = some (m : ℤ)) (hm : m ∈ V.tree.nodes)
    {s₁ : FileSystem} (hl : Looks s.sb dir refs s₁) (rest : FsM Unit) :
    ∃ s₂ log, Looks s.sb dir refs s₂ ∧ printed log = V.line d x ++ sub x ∧
      (do
        testfsGetInode m
        let type ← testfsInodeGetType m
        let name ← Program.reads fun _ => .ok x
        Program.emit (.printf (name ++ (if type = InodeType.dir.val then slash else []) ++ newline))
        if recursive ∧ type = InodeType.dir.val ∧ name ≠ dot ∧ name ≠ dotdot then
          recurse m
        testfsPutInode m
        rest : FsM Unit).run s₁ = Program.logged log (rest.run s₂) := by
  obtain ⟨s₂, hget, hl₂⟩ := hl.get (h.stored.lt hm)
  have htype := hl₂.type (Multiset.mem_cons_self m _)
  have hbranch := h.isDir_iff hm
  have hline : x ++ (if (Fs.onDisk s.sb m).iType = InodeType.dir.val then slash else []) ++ newline =
      V.line d x := by
    have hiff : (Fs.onDisk s.sb m).iType = InodeType.dir.val ↔
        ∃ n ∈ V.tree.branches, listing V.tree d x = some (n : ℤ) := by
      refine hbranch.trans ⟨fun hb => ⟨m, hb, hx⟩, ?_⟩
      rintro ⟨n, hb, hn⟩
      have heq : (m : ℤ) = n := Option.some.inj (hx.symm.trans hn)
      rwa [Nat.cast_injective heq]
    simp only [Volume.line, hiff]
  rw [Program.bind_run_nil hget, Program.bind_run_nil htype, Program.reads_bind,
    Program.except_ok_bind, Program.emit_bind, hline]
  by_cases hdown : recursive ∧ (Fs.onDisk s.sb m).iType = InodeType.dir.val ∧ x ≠ dot ∧ x ≠ dotdot
  · obtain ⟨hrec, hdir, hdot, hdotdot⟩ := hdown
    rw [listing_name hdot hdotdot] at hx
    obtain ⟨n, hn, heq⟩ := Option.map_eq_some_iff.mp hx
    obtain rfl : n = m := Nat.cast_injective heq
    obtain ⟨s₃, log, hrun, hl₃, hlog⟩ :=
      hsub x n _ s₂ hrec hn (hbranch.mp hdir) (Multiset.mem_cons_self n _) hl₂
    obtain ⟨s₄, hput, hl₄⟩ := hl₃.put
    refine ⟨s₄, [.printf (V.line d x)] ++ log, hl₄, ?_, ?_⟩
    · rw [printed_append, printed_printf, hlog]
    · rw [if_pos ⟨hrec, hdir, hdot, hdotdot⟩, Program.bind_run_ok hrun, Program.bind_run_nil hput]
      cases rest.run s₄ <;> rfl
  · obtain ⟨s₄, hput, hl₄⟩ := hl₂.put
    refine ⟨s₄, [.printf (V.line d x)], hl₄, ?_, ?_⟩
    · rw [printed_printf, hleaf, List.append_nil]
      rintro ⟨hrec, n, hn, hchild⟩
      obtain ⟨hdot, hdotdot⟩ := h.stored.names d x n hchild
      rw [listing_name hdot hdotdot, hchild] at hx
      obtain rfl : n = m := Nat.cast_injective (Option.some.inj hx)
      exact hdown ⟨hrec, hbranch.mpr hn, hdot, hdotdot⟩
    · rw [if_neg hdown, Program.bind_run_nil hput]

/-- The loop of `testfs_ls` prints the lines of the names in the order of their records. -/
theorem AtPrompt.lsLoop_run (h : AtPrompt s V)
    (hsub : ∀ x m refs s₁, recursive = true → V.tree.child d x = some m → m ∈ V.tree.branches →
      m ∈ refs → Looks s.sb dir refs s₁ → ∃ s₂ log, (recurse m).run s₁ = .ok ⟨(), s₂, log⟩ ∧
        Looks s.sb dir refs s₂ ∧ printed log = sub x)
    (hleaf : ∀ x, ¬ (recursive = true ∧ ∃ n ∈ V.tree.branches, V.tree.child d x = some n) →
      sub x = []) (hd : d ∈ V.tree.branches) (hmem : d ∈ refs) (rs : List Dirent) :
    ∀ (n : ℕ) (off : ℤ) (s₁ : FileSystem), rs.length < n →
      Iterates (Fs.onDisk s.sb d) s.sb.dev off rs → (∀ r ∈ rs, r.Wf) →
      (∀ r ∈ rs, direntView.live r = true → listing V.tree d r.str = some r.inodeNr) →
      Looks s.sb dir refs s₁ →
      ∃ s₂ log, (lsLoop recurse recursive d n off).run s₁ = .ok ⟨(), s₂, log⟩ ∧
        Looks s.sb dir refs s₂ ∧
        printed log = (direntView.keys rs).flatMap fun x => V.line d x ++ sub x := by
  induction rs with
  | nil =>
    intro n off s₁ hn hiter hwf hlisted hl
    obtain ⟨n, rfl⟩ := Nat.exists_eq_succ_of_ne_zero (Nat.ne_of_gt (Nat.zero_lt_of_lt hn))
    have hread := hl.read (f := fun i dev => testfsNextDirent i dev off) hmem hiter.1
    rw [lsLoop, Program.bind_run_nil hread]
    exact ⟨s₁, [], rfl, hl, rfl⟩
  | cons r rs ih =>
    intro n off s₁ hn hiter hwf hlisted hl
    obtain ⟨n, rfl⟩ := Nat.exists_eq_succ_of_ne_zero (Nat.ne_of_gt (Nat.zero_lt_of_lt hn))
    obtain ⟨next, hnext, hrest⟩ := hiter
    have hlen : rs.length < n := by
      rw [List.length_cons] at hn
      omega
    have hread := hl.read (f := fun i dev => testfsNextDirent i dev off) hmem hnext
    rw [lsLoop, Program.bind_run_nil hread]
    dsimp only
    have hwf' : ∀ x ∈ rs, x.Wf := fun x hx => hwf x (List.mem_cons_of_mem r hx)
    have hlisted' : ∀ x ∈ rs, direntView.live x = true → listing V.tree d x.str = some x.inodeNr :=
      fun x hx => hlisted x (List.mem_cons_of_mem r hx)
    by_cases hneg : r.inodeNr < 0
    · -- a removed record
      have hdead : direntView.live r = false := decide_eq_false (not_le.mpr hneg)
      have hkeys : direntView.keys (r :: rs) = direntView.keys rs := by simp [SlotView.keys, hdead]
      rw [if_pos hneg, hkeys]
      exact ih n next s₁ hlen hrest hwf' hlisted' hl
    · have hlive : direntView.live r = true := decide_eq_true (not_lt.mp hneg)
      have hx := hlisted r List.mem_cons_self hlive
      obtain ⟨m, hm, hnode, -⟩ := listing_some hd hx
      rw [hm] at hx
      have hkeys : direntView.keys (r :: rs) = r.str :: direntView.keys rs := by
        rw [SlotView.keys, List.filter_cons, if_pos hlive]
        rfl
      rw [if_neg hneg, hkeys, List.flatMap_cons, hm, Int.toNat_natCast,
        Dirent.cString_name (hwf r List.mem_cons_self)]
      obtain ⟨s₂, log, hl₂, hlog, hentry⟩ := h.lsEntry_run hsub hleaf hx hnode hl
        (lsLoop recurse recursive d n next)
      obtain ⟨s₃, log', hrun, hl₃, hlog'⟩ := ih n next s₂ hlen hrest hwf' hlisted' hl₂
      refine ⟨s₃, log ++ log', ?_, hl₃, by rw [printed_append, hlog, hlog']⟩
      rw [hrun] at hentry
      exact hentry

/-- `testfs_ls` lists the directory. A path repeats no node, so the recursion ends before `depth`
does. -/
theorem AtPrompt.testfsLs_run (h : AtPrompt s V) (recursive : Bool) (depth : ℕ) :
    ∀ (p : List Name) (d : ℕ), V.tree.walk V.tree.root p = some d → d ∈ V.tree.branches →
      V.tree.nodes.card ≤ depth + p.length →
      ∃ text, Lists V recursive d text ∧ ∀ refs s₁, d ∈ refs → Looks s.sb dir refs s₁ →
        ∃ s₂ log, (testfsLs recursive depth d).run s₁ = .ok ⟨(), s₂, log⟩ ∧
          Looks s.sb dir refs s₂ ∧ printed log = text := by
  induction depth with
  | zero =>
    intro p d hp _ hcard
    have hlt := V.tree.path_length_lt hp
    omega
  | succ depth ih =>
    intro p d hp hd hcard
    -- the texts of the directories below
    have hsub : ∀ x, ∃ text, (∀ m, recursive = true → V.tree.child d x = some m →
        m ∈ V.tree.branches → Lists V recursive m text ∧ ∀ refs s₁, m ∈ refs →
          Looks s.sb dir refs s₁ → ∃ s₂ log, (testfsLs recursive depth m).run s₁ =
            .ok ⟨(), s₂, log⟩ ∧ Looks s.sb dir refs s₂ ∧ printed log = text) ∧
        (¬ (recursive = true ∧ ∃ n ∈ V.tree.branches, V.tree.child d x = some n) → text = []) := by
      intro x
      by_cases hdown : recursive = true ∧ ∃ n ∈ V.tree.branches, V.tree.child d x = some n
      · obtain ⟨hrec, n, hn, hchild⟩ := hdown
        have hpath : V.tree.walk V.tree.root (p ++ [x]) = some n := by
          rw [V.tree.walk_concat, hp]
          exact hchild
        obtain ⟨text, htext⟩ := ih (p ++ [x]) n hpath hn (by
          rw [List.length_append, List.length_singleton]
          omega)
        refine ⟨text, fun m _ hm _ => ?_, fun hnot => absurd ⟨hrec, n, hn, hchild⟩ hnot⟩
        obtain rfl : n = m := Option.some.inj (hchild.symm.trans hm)
        exact htext
      · exact ⟨[], fun m hrec hm hb => absurd ⟨hrec, m, hb, hm⟩ hdown, fun _ => rfl⟩
    choose sub hbelow hleaf using hsub
    have hnode := V.tree.branches_sub hd
    obtain ⟨rs, hdir⟩ := h.stored.dirs d hd
    have hiter := iterates_of_laid hdir.own.sane.nonneg hdir.isDir hdir.small hdir.laid
      (by rw [hdir.size, Nat.zero_add])
    rw [view_din, view_sb, ← h.onDisk hnode] at hiter
    have hwf : ∀ r ∈ rs, r.Wf := hdir.laid.wf
    refine ⟨(direntView.keys rs).flatMap fun x => V.line d x ++ sub x,
      .dir hd hdir.maps.nodup (fun x => ?_)
        (fun x n hrec hchild hn => (hbelow x n hrec hchild hn).1) hleaf,
      fun refs s₁ hmem hl => ?_⟩
    · rw [SlotView.mem_keys]
      constructor
      · rintro ⟨r, hr, hlive, rfl⟩
        exact ⟨r.inodeNr, hdir.maps.eq_some hr hlive⟩
      · rintro ⟨v, hv⟩
        obtain ⟨r, hr, hlive, hkey, -⟩ := (hdir.maps.get x v).mp hv
        exact ⟨r, hr, hlive, hkey⟩
    · have hsize := hl.read (f := fun i _ => .ok i.iSize) hmem rfl
      have hlen : rs.length < (Fs.onDisk s.sb d).iSize.toNat + 1 := by
        have hle := hdir.laid.length_le
        have hspan := hdir.size
        rw [view_din, ← h.onDisk hnode] at hspan
        omega
      rw [testfsLs, testfsInodeGetSize, Program.bind_run_nil hsize]
      exact h.lsLoop_run (fun x m refs s₁ hrec hchild hm hmem hl =>
        (hbelow x m hrec hchild hm).2 refs s₁ hmem hl) hleaf hd hmem rs _ 0 s₁ hlen hiter hwf
        (fun r hr hlive => hdir.maps.eq_some hr hlive) hl

/-- `ls` and `lsr` of a directory list it. -/
theorem AtPrompt.ls (h : AtPrompt s V) (recursive : Bool) {name : Token} {n : ℕ}
    (hx : listing V.tree s.curDir name.bytes = some (n : ℤ)) (hn : n ∈ V.tree.branches) :
    ∃ s' log, (cmdLsInternal recursive [name]).run s = .ok ⟨0, s', log⟩ ∧ AtPrompt s' V ∧
      s'.curDir = s.curDir ∧ Lists V recursive n (printed log) := by
  have hnode := V.tree.branches_sub hn
  have hrun := h.lookup name
  rw [hx, Option.getD_some] at hrun
  obtain ⟨s₁, hget, hl₁⟩ := h.looks.get (h.stored.lt hnode)
  have htype := hl₁.type (Multiset.mem_cons_self n _)
  obtain ⟨p, hp⟩ := V.tree.exists_path hnode
  have hcard : V.tree.nodes.card ≤ maxDepth + p.length :=
    le_trans h.stored.card_le (Nat.le_add_right _ _)
  obtain ⟨text, htext, hls⟩ := h.testfsLs_run recursive maxDepth p n hp hn hcard
  obtain ⟨s₂, log, hls, hl₂, hlog⟩ := hls _ s₁ (Multiset.mem_cons_self n _) hl₁
  obtain ⟨s₃, hput, hl₃⟩ := hl₂.put
  refine ⟨s₃, log, ?_, hl₃.atPrompt h h.cur, hl₃.held.curDir, hlog ▸ htext⟩
  rw [cmdLsInternal, Program.bind_run_nil hrun, if_neg (not_lt.mpr (Int.natCast_nonneg n)),
    Int.toNat_natCast, Program.bind_run_nil hget, Program.bind_run_nil htype,
    if_pos ((h.isDir_iff hnode).mpr hn), Program.bind_run_ok hls, Program.bind_run_nil hput]
  simp

end Ls

end Ece344Lab.Fs
