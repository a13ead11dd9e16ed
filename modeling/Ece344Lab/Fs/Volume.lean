import Ece344Lab.Library.NameTree
import Ece344Lab.Fs.Frames

/-!
# A file system as a tree with files

A volume is what the file system is for: directories that form a tree, files below them, and the
bytes written to each file. `Represents` says that the inodes and blocks of a state store a
volume, and `AtPrompt` adds what holds between two commands.
-/
namespace Ece344Lab.Fs

open Ece344Lab.Library

abbrev Name := List UInt8

/-- A tree of directories and files, with what has been written to the files and their sizes. A
position that nothing was written to has no byte. -/
structure Volume where
  tree : NameTree Nat Name
  data : Nat → Nat → Option UInt8
  size : Nat → Nat

/-- What a directory knows: itself, its parent and its children. -/
def listing (T : NameTree Nat Name) (d : Nat) (x : Name) : Option Int :=
  if x = dot then some d
  else if x = dotdot then some (T.parent d)
  else (T.child d x).map Int.ofNat

/-- The file `st` has the size and the bytes given. -/
structure FileHolds (st : InodeSt) (data : Nat → Option UInt8) (size : Nat) : Prop where
  isFile : st.ino.din.iType = InodeType.file.val
  iSize : st.ino.din.iSize = size
  stores : ∀ off v, data off = some v → off < size ∧ Stores st off v

/-- A size that offsets in a directory, which are of type `int`, stay away from. -/
abbrev maxDirSize : Int := 2 ^ 30

/-- The file system `s` stores the volume `V`. -/
structure Represents (s : FileSystem) (V : Volume) : Prop where
  sound : Sound s V.tree.nodes
  root : V.tree.root = 0
  dirs : ∀ d ∈ V.tree.branches, ∃ rs, DirHolds s.dinodes d (s.view d) rs (listing V.tree d)
  small : ∀ d ∈ V.tree.branches, (s.dinodes d).iSize ≤ maxDirSize
  files : ∀ f ∈ V.tree.nodes, f ∉ V.tree.branches → FileHolds (s.view f) (V.data f) (V.size f)
  names : ∀ d x n, V.tree.child d x = some n → x ≠ dot ∧ x ≠ dotdot

/-- Between two commands: the current directory is the one inode in memory, as it is on disk. -/
structure AtPrompt (s : FileSystem) (V : Volume) : Prop where
  stored : Represents s V
  cur : s.curDir ∈ V.tree.branches
  here : inodeHashFind s.hash s.curDir = some ⟨⟨s.dinodes s.curDir, false, s.curDir⟩, 1⟩
  others : ∀ m, m ≠ s.curDir → inodeHashFind s.hash m = none

section Listing

variable {T : NameTree Nat Name} {d n k : Nat} {x : Name}

@[simp] theorem listing_dot (T : NameTree Nat Name) (d : Nat) : listing T d dot = some (d : ℤ) :=
  if_pos rfl

@[simp] theorem listing_dotdot (T : NameTree Nat Name) (d : Nat) :
    listing T d dotdot = some (T.parent d : ℤ) := by
  rw [listing, if_neg (by decide), if_pos rfl]

theorem listing_name (hdot : x ≠ dot) (hdotdot : x ≠ dotdot) :
    listing T d x = (T.child d x).map Int.ofNat := by
  rw [listing, if_neg hdot, if_neg hdotdot]

/-- A name that a directory does not know. -/
theorem listing_none (h : listing T d x = none) :
    x ≠ dot ∧ x ≠ dotdot ∧ T.child d x = none := by
  have hdot : x ≠ dot := by
    rintro rfl
    rw [listing_dot] at h
    cases h
  have hdotdot : x ≠ dotdot := by
    rintro rfl
    rw [listing_dotdot] at h
    cases h
  rw [listing_name hdot hdotdot, Option.map_eq_none_iff] at h
  exact ⟨hdot, hdotdot, h⟩

/-- What a directory knows are nodes. -/
theorem listing_some (hd : d ∈ T.branches) {v : Int} (h : listing T d x = some v) :
    ∃ n : ℕ, v = n ∧ n ∈ T.nodes ∧ (n ∈ T.branches ∨ T.child d x = some n) := by
  rw [listing] at h
  split_ifs at h with hdot hdotdot
  · cases h
    exact ⟨d, rfl, T.branches_sub hd, Or.inl hd⟩
  · cases h
    have hparent := T.parent_branch (T.branches_sub hd)
    exact ⟨T.parent d, rfl, T.branches_sub hparent, Or.inl hparent⟩
  · obtain ⟨n, hn, rfl⟩ := Option.map_eq_some_iff.mp h
    exact ⟨n, rfl, T.child_node hn, Or.inr hn⟩

/-- The listing of a directory that gets a child. -/
theorem listing_update (hdot : x ≠ dot) (hdotdot : x ≠ dotdot) {T' : NameTree Nat Name}
    {v : Option Nat} (hparent : T'.parent d = T.parent d)
    (hchild : T'.child d = Function.update (T.child d) x v) :
    listing T' d = Function.update (listing T d) x (v.map Int.ofNat) := by
  funext y
  by_cases hy : y = x
  · subst hy
    rw [Function.update_self, listing_name hdot hdotdot, hchild, Function.update_self]
  · rw [Function.update_of_ne hy, listing, listing, hparent, hchild, Function.update_of_ne hy]

theorem listing_congr {T' : NameTree Nat Name} (hparent : T'.parent d = T.parent d)
    (hchild : T'.child d = T.child d) : listing T' d = listing T d := by
  funext y
  rw [listing, listing, hparent, hchild]

end Listing

section Represents

variable {s s' : FileSystem} {V : Volume} {d f n : Nat} {x : Name}

namespace Represents

theorem lt (h : Represents s V) (hn : n ∈ V.tree.nodes) : n < nrInodes := h.sound.kept.lt n hn

theorem card_le (h : Represents s V) : V.tree.nodes.card ≤ nrInodes := by
  have hsub : V.tree.nodes ⊆ Finset.range nrInodes := fun n hn => Finset.mem_range.mpr (h.lt hn)
  exact (Finset.card_le_card hsub).trans_eq (Finset.card_range _)

/-- Looking a name up in a directory. -/
theorem lookup (h : Represents s V) (hd : d ∈ V.tree.branches) (x : Name) :
    testfsDirNameToInodeNr (s.dinodes d) s.sb.dev x = .ok ((listing V.tree d x).getD (-ENOENT)) := by
  obtain ⟨rs, hdir⟩ := h.dirs d hd
  exact hdir.lookup x

theorem isDir (h : Represents s V) (hd : d ∈ V.tree.branches) :
    (s.dinodes d).iType = InodeType.dir.val := by
  obtain ⟨rs, hdir⟩ := h.dirs d hd
  exact hdir.isDir

theorem isDir_iff (h : Represents s V) (hn : n ∈ V.tree.nodes) :
    (s.dinodes n).iType = InodeType.dir.val ↔ n ∈ V.tree.branches := by
  constructor
  · intro htype
    by_contra hnot
    have hfile := (h.files n hn hnot).isFile
    rw [view_din, htype] at hfile
    exact absurd hfile (by decide)
  · exact h.isDir

theorem isFile (h : Represents s V) (hn : n ∈ V.tree.nodes) (hnot : n ∉ V.tree.branches) :
    (s.dinodes n).iType = InodeType.file.val := (h.files n hn hnot).isFile

/-- A state with the same inodes stores the same volume. -/
theorem congr (h : Represents s V) (hsound : Sound s' V.tree.nodes)
    (hsame : ∀ m ∈ V.tree.nodes, SameInode s s' m) : Represents s' V where
  sound := hsound
  root := h.root
  dirs d hd := by
    obtain ⟨rs, hdir⟩ := h.dirs d hd
    exact ⟨rs, (hsame d (V.tree.branches_sub hd)).dirHolds hsound.kept.own hdir⟩
  small d hd := by
    rw [(hsame d (V.tree.branches_sub hd)).din]
    exact h.small d hd
  files f hf hnot := by
    have hfile := h.files f hf hnot
    have hs := hsame f hf
    refine ⟨?_, ?_, fun off v hv => ⟨(hfile.stores off v hv).1, hs.stores (hfile.stores off v hv).2⟩⟩
    · rw [view_din, hs.din]
      exact hfile.isFile
    · rw [view_din, hs.din]
      exact hfile.iSize
  names := h.names

end Represents

theorem SameInode.fileHolds {m : Nat} {data : Nat → Option UInt8} {size : Nat}
    (h : SameInode s s' m) (hf : FileHolds (s.view m) data size) : FileHolds (s'.view m) data size where
  isFile := by
    rw [view_din, h.din]
    exact hf.isFile
  iSize := by
    rw [view_din, h.din]
    exact hf.iSize
  stores off v hv := ⟨(hf.stores off v hv).1, h.stores (hf.stores off v hv).2⟩

namespace AtPrompt

theorem layout (h : AtPrompt s V) : Layout s.sb := h.stored.sound.layout

theorem cur_node (h : AtPrompt s V) : s.curDir ∈ V.tree.nodes := V.tree.branches_sub h.cur

/-- An inode in memory that is no node of the tree: there is none. -/
theorem absent (h : AtPrompt s V) : ∀ m ∉ V.tree.nodes, inodeHashFind s.hash m = none :=
  fun m hm => h.others m fun heq => hm (heq ▸ h.cur_node)

/-- What `testfs_dir_name_to_inode_nr(c->cur_dir, name)` finds. -/
theorem lookup (h : AtPrompt s V) (name : Token) :
    (lookupCurDir name).run s =
      .ok ⟨(listing V.tree s.curDir name.bytes).getD (-ENOENT), s, []⟩ := by
  rw [lookupCurDir, Program.get_bind]
  refine Program.reads_run ?_
  rw [h.here]
  exact h.stored.lookup h.cur name.bytes

end AtPrompt

end Represents

section Add

variable {D : Nat → Dinode} {st : InodeSt} {dir nr : Nat} {rs : List Dirent} {M : Name → Option Int}
  {name : Name}

/-- `testfs_add_dirent` of a new name writes a record, over a removed one or at the end. -/
theorem DirHolds.add_eq (h : DirHolds D dir st rs M) (nr : Nat) (hM : M name = none)
    (hlen : name.length + 9 ≤ 2 ^ 30) :
    ∃ start : ℕ, (start : ℤ) ≤ st.ino.din.iSize ∧
      (testfsAddDirent name nr).run st =
        (testfsWriteData (newDirent name nr).byte start (newDirent name nr).size).run st := by
  obtain ⟨res, hsearch, hends⟩ :=
    h.search fun r hr => Dirent.taken_eq hr name (toInt (name.length + 1 : ℕ))
  have hspan := h.size
  have hsmall := h.small
  have hsz := newDirent_size name nr
  have hwrite : ∀ start : ℕ,
      (testfsWriteDirent name (toInt (name.length + 1 : ℕ)) nr (start : ℕ)).run st =
      (testfsWriteData (newDirent name nr).byte start (newDirent name nr).size).run st := by
    intro start
    have hsize : toSizeT ((sizeofDirent : ℕ) + ((name.length + 1 : ℕ) : ℤ)) =
        (newDirent name nr).size := by
      rw [← Nat.cast_add, toSizeT_natCast (by simp only [sizeofDirent]; omega), hsz]
    rw [testfsWriteDirent, toInt_natCast (by omega), hsize, mallocFails,
      if_neg (by simp only [decide_eq_true_eq]; omega), Program.reads_bind,
      assertC_pos (Int.natCast_nonneg nr), Program.except_ok_bind, Program.reads_bind,
      if_pos (show (name.length : ℤ) + 1 ≤ ((name.length + 1 : ℕ) : ℤ) by omega),
      Program.except_ok_bind]
    rfl
  rw [testfsAddDirent, Program.reads_bind, assertC_pos h.isDir, Program.except_ok_bind,
    Program.reads_bind, hsearch, Program.except_ok_bind]
  rcases hends with ⟨pre, r, post, rfl, -, hr, rfl⟩ | ⟨-, rfl⟩
  · -- a removed record of the same length
    have hnot : r.isLive name = false := by
      by_contra hlive
      have hfound := h.found (List.mem_append_right _ List.mem_cons_self) (Bool.of_not_eq_false hlive)
      rw [hM] at hfound
      cases hfound
    dsimp only at hr
    rw [hnot, Bool.false_or, decide_eq_true_eq, not_or] at hr
    rw [span_append, span_cons] at hspan
    refine ⟨span pre, by omega, ?_⟩
    dsimp only
    rw [if_neg hr.1, Nat.zero_add, toInt_natCast (n := span pre) (by omega)]
    exact hwrite (span pre)
  · -- the end of the directory
    refine ⟨span rs, by omega, ?_⟩
    dsimp only
    rw [Program.reads_bind, assertC_pos rfl, Program.except_ok_bind, hspan,
      toInt_natCast (n := span rs) (by omega)]
    exact hwrite (span rs)

/-- Adding a new name to a directory in memory: there is no space, or it is a step on the directory
after which it has the entry. -/
theorem Sound.addDirent {s : FileSystem} {live : Finset ℕ} {n : HashNode} (h : Sound s live)
    (name : Name) (hlive : dir ∈ live) (hn : inodeHashFind s.hash dir = some n)
    (hd : DirHolds s.dinodes dir (s.view dir) rs M) (hM : M name = none) (hname : 0 ∉ name)
    (hnr : nr < nrInodes) (hroom : (s.dinodes dir).iSize + (name.length + 9) ≤ maxDirSize) :
    ∃ ret s' log, (onInode dir (testfsAddDirent name nr)).run s = .ok ⟨ret, s', log⟩ ∧
      (ret = -ENOSPC ∨ 0 ≤ ret ∧ ∃ ino, ino.dirty = true ∧
        StepOn dir (some { n with inode := ino }) live s s' ∧
        (∃ rs', DirHolds s'.dinodes dir (s'.view dir) rs' (Function.update M name (some (nr : ℤ)))) ∧
        (s'.dinodes dir).iSize ≤ (s.dinodes dir).iSize + (name.length + 9)) := by
  have hlt := h.lt hn
  have hi : n.inode.iNr = dir := inodeHashFind_iNr hn
  have ho := h.kept.own_memory hn hlt
  have hdin := memory_din hn hlt
  have hd' : DirHolds s.dinodes dir ⟨s.sb, n.inode⟩ rs M := hd.congr rfl hdin hi ho
  have hspan := hd.size
  rw [view_din] at hspan
  simp only [maxDirSize] at hroom
  have hlen : name.length + 9 ≤ 2 ^ 30 := by omega
  obtain ⟨start, hstart, heq⟩ := hd'.add_eq nr hM hlen
  have hsz := newDirent_size name nr
  dsimp only at hstart
  rw [hdin] at hstart
  have hend : start + (newDirent name nr).size ≤ maxFileSize := by
    simp only [maxFileSize]
    omega
  obtain ⟨ret, st', log, hwrite, hcase⟩ :=
    h.write hlive hn (newDirent name nr).byte hend (by omega) (by omega)
  have hadd := heq.trans hwrite
  rcases hcase with ⟨hret, -⟩ | ⟨hret, s', hrun, hsb, hself, hdirty, hstep, hto⟩
  · exact ⟨ret, _, log, onInode_run hn hadd, Or.inl hret⟩
  have hpos : 0 ≤ ret := hret ▸ Int.natCast_nonneg _
  refine ⟨ret, s', log, (onInode_congr hn heq).trans hrun, Or.inr ⟨hpos, st'.ino, hdirty, hstep, ?_⟩⟩
  have hsize := hto.iSize
  have hnr31 : (nr : ℤ) < 2 ^ 31 := by
    simp only [nrInodes, nrInodeBlocks, inodesPerBlock] at hnr
    omega
  obtain ⟨rs', hd''⟩ := hd'.add hname hnr31 hM hadd hpos (by rw [← hself, hsize]; omega)
  refine ⟨⟨rs', hd''.congr hsb hself rfl ?_⟩, ?_⟩
  · rw [view_inodes]
    exact hstep.sound.kept.own
  · rw [hsize]
    omega

end Add

end Ece344Lab.Fs
