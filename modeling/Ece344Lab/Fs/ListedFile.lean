import Ece344Lab.Fs.SmallDir

/-!
# Listing something that is no directory

`cmd_ls_internal` gets the inode of its argument and puts it again only if it is a directory. A
file that is listed stays in the table, and `inode_hash_destroy` finds it there at the end. On a
new file system `create` and `ls` are enough.
-/
namespace Ece344Lab.Fs

open Ece344Lab.Library

section Forgotten

variable {dir nr : Nat} {s : FileSystem}

/-- A second reference shows: the table is not the current directory with one reference. -/
theorem Held.not_single (h : Held dir (nr ::ₘ {dir}) s) (ino : Inode) :
    inMemory s.hash ≠ [⟨ino, 1⟩] := by
  intro hmem
  have hsame : ∀ m, m ∈ nr ::ₘ ({dir} : Multiset Nat) → inodeHashFind s.hash m = some ⟨ino, 1⟩ := by
    intro m hm
    obtain ⟨n, hn⟩ := h.find hm
    have hin : n ∈ inMemory s.hash := (mem_inMemory h.filed).mpr (by rwa [inodeHashFind_iNr hn])
    rw [hmem, List.mem_singleton] at hin
    rwa [← hin]
  have hnr := hsame nr (Multiset.mem_cons_self _ _)
  have hdir := hsame dir (Multiset.mem_cons_of_mem (Multiset.mem_singleton_self _))
  have heq : nr = dir := (inodeHashFind_iNr hnr).symm.trans (inodeHashFind_iNr hdir)
  have hcount := h.node hnr
  rw [heq, Multiset.count_cons_self, Multiset.count_singleton_self] at hcount
  exact absurd (Nat.succ.inj hcount) (Nat.zero_ne_one)

/-- `ls` of something that is no directory fails and keeps a reference. -/
theorem cmdLsInternal_file (hs : AtRest s) {name : Token} {ret t : Int}
    (hlookup : s.lookup name = .ok ret) (hret : 0 ≤ ret) (htype : s.typeOf ret.toNat = .ok t)
    (hfile : t ≠ InodeType.dir.val) (recursive : Bool) :
    ∃ s', (cmdLsInternal recursive [name]).run s = .ok ⟨-ENOTDIR, s', []⟩ ∧
      Held s.curDir (ret.toNat ::ₘ {s.curDir}) s' := by
  have hfound : (lookupCurDir name).run s = .ok ⟨ret, s, []⟩ := by
    rw [lookupCurDir, Program.get_bind]
    exact Program.reads_run hlookup
  obtain ⟨s', hget⟩ : ∃ s', (testfsGetInode ret.toNat).run s = .ok ⟨(), s', []⟩ := by
    cases hn : inodeHashFind s.hash ret.toNat with
    | some n => exact ⟨_, testfsGetInode_memory hn⟩
    | none =>
      rw [FileSystem.typeOf, hn] at htype
      dsimp only at htype
      cases hblock : testfsReadInodeBlock s.sb ret.toNat with
      | error e =>
        rw [hblock] at htype
        cases htype
      | ok block =>
        rw [testfsGetInode, Program.get_bind, hn]
        dsimp only
        rw [Program.reads_bind, hblock, Program.except_ok_bind]
        exact ⟨_, rfl⟩
  obtain ⟨hheld, n, hn, ht⟩ := (wp_testfsGetInode hs ret.toNat).of_ok hget
  have hfinal : (testfsInodeGetType ret.toNat).run s' = .ok ⟨t, s', []⟩ := by
    refine Program.reads_run ?_
    rw [hn]
    exact ht.symm.trans htype
  refine ⟨s', ?_, hheld⟩
  rw [cmdLsInternal, Program.bind_run_nil hfound, if_neg (not_lt.mpr hret),
    Program.bind_run_nil hget, Program.bind_run_nil hfinal, if_neg hfile]
  rfl

end Forgotten

instance : DecidableEq Dinode := fun d e =>
  decidable_of_iff (d.iType = e.iType ∧ (∀ i, d.iBlockNr i = e.iBlockNr i) ∧
    d.iIndirect = e.iIndirect ∧ d.iDindirect = e.iDindirect ∧ d.blockCount = e.blockCount ∧
    d.iSize = e.iSize) (by rw [Dinode.ext_iff, funext_iff])

instance : DecidableEq HashNode := fun a b =>
  decidable_of_iff (a.inode.din = b.inode.din ∧ a.inode.dirty = b.inode.dirty ∧
    a.inode.iNr = b.inode.iNr ∧ a.iCount = b.iCount) (by
      obtain ⟨⟨_, _, _⟩, _⟩ := a
      obtain ⟨⟨_, _, _⟩, _⟩ := b
      simp only [HashNode.mk.injEq, Inode.mk.injEq, and_assoc])

section New

variable {dev : Dev} {sb : SuperBlock} {s : FileSystem}

/-- Beyond the blocks read, a bitmap stays empty. -/
theorem readFreemap_rest {n start nr : Nat} {b : Bitmap} (hn : n % 8 = 0)
    (hnr : n = 8 * (nr * 8192)) (h : readFreemap dev (bitmapCreate n) start nr = .ok b) :
    b.nbits = n ∧ ∀ i, n ≤ i → b.isset i = false := by
  cases hread : dev.readMany start nr with
  | error e =>
    rw [readFreemap, hread] at h
    cases h
  | ok buf =>
    rw [readFreemap, hread, Program.except_ok_bind, bitmapCreate_aligned hn] at h
    cases h
    refine ⟨rfl, fun i hi => ?_⟩
    rw [Bitmap.isset]
    dsimp only
    rw [if_neg (by simp only [blockSize]; omega)]
    exact Nat.zero_testBit _

/-- Opening a device whose super block has the usual layout. -/
theorem layout_init (h : testfsInitSuperBlock dev = .ok sb) (hinode : sb.sb.inodeFreemapStart = 1)
    (hblock : sb.sb.blockFreemapStart = 2) (hinodes : sb.sb.inodeBlocksStart = 18)
    (hdata : sb.sb.dataBlocksStart = 146) (hsize : 146 ≤ sb.dev.size) : Layout sb := by
  cases hread : dev.read 0 with
  | error e =>
    rw [testfsInitSuperBlock, hread] at h
    cases h
  | ok block =>
    rw [testfsInitSuperBlock, hread, Program.except_ok_bind] at h
    dsimp only at h
    cases hi : readFreemap dev (bitmapCreate (blockSize * inodeFreemapSize * bitsPerWord))
        (DsuperBlock.decode block).inodeFreemapStart inodeFreemapSize with
    | error e =>
      rw [hi] at h
      cases h
    | ok imap =>
      cases hb : readFreemap dev (bitmapCreate (blockSize * blockFreemapSize * bitsPerWord))
          (DsuperBlock.decode block).blockFreemapStart blockFreemapSize with
      | error e =>
        rw [hi, Program.except_ok_bind, hb] at h
        cases h
      | ok bmap =>
        rw [hi, Program.except_ok_bind, hb] at h
        cases h
        have hirest := readFreemap_rest (by norm_num) (by norm_num) hi
        have hbrest := readFreemap_rest (by norm_num) (by norm_num) hb
        exact ⟨hinode, hblock, hinodes, hdata, hirest.1, hirest.2, hbrest.1, hbrest.2, hsize⟩

/-- Taking a reference leaves the super block alone. -/
theorem testfsGetInode_super {nr : Nat} {r : Ret Event FileSystem Unit}
    (h : (testfsGetInode nr).run s = .ok r) : r.st.sb = s.sb := by
  cases hn : inodeHashFind s.hash nr with
  | some n =>
    rw [testfsGetInode_memory hn] at h
    cases h
    rfl
  | none =>
    cases hblock : testfsReadInodeBlock s.sb nr with
    | error e =>
      rw [testfsGetInode, Program.get_bind, hn] at h
      dsimp only at h
      rw [Program.reads_bind, hblock] at h
      cases h
    | ok block =>
      rw [testfsGetInode, Program.get_bind, hn] at h
      dsimp only at h
      rw [Program.reads_bind, hblock, Program.except_ok_bind] at h
      cases h
      rfl

/-- The super block that testfs starts with comes from the device. -/
theorem start_super {size : FsSize} (h : startTestfs size = .ok s) :
    ∃ dev, testfsInitSuperBlock dev = .ok s.sb := by
  cases hdev : mktestfs size with
  | error e =>
    rw [startTestfs, hdev] at h
    cases h
  | ok dev =>
    rw [startTestfs, hdev, Program.except_ok_bind] at h
    cases hsb : testfsInitSuperBlock dev with
    | error e =>
      rw [openTestfs, hsb] at h
      cases h
    | ok sb =>
      cases hget : (testfsGetInode 0).run { sb := sb, hash := inodeHashInit, curDir := 0 } with
      | error e =>
        rw [openTestfs, hsb, Program.except_ok_bind, hget] at h
        cases h
      | ok r =>
        rw [openTestfs, hsb, Program.except_ok_bind, hget, Program.except_ok_bind] at h
        cases h
        have hsame : r.st.sb = sb := testfsGetInode_super hget
        exact ⟨dev, by rw [hsb]; exact congrArg _ hsame.symm⟩

/-- The smallest file system. -/
def oneMb : FsSize := ⟨1, le_refl 1, by decide⟩

/-- The entries of a new root directory. -/
def rootDirents : List Dirent := [newDirent dot 0, newDirent dotdot 0]

def rootInode : Inode := ⟨smallDin 146 (span rootDirents), false, 0⟩

/-- What a new file system has in memory and on disk. -/
def IsNew (s : FileSystem) : Prop :=
  (s.sb.sb.inodeFreemapStart = 1 ∧ s.sb.sb.blockFreemapStart = 2 ∧ s.sb.sb.inodeBlocksStart = 18 ∧
    s.sb.sb.dataBlocksStart = 146 ∧ s.sb.dev.size = 147) ∧
  (s.curDir = 0 ∧ (inodeHashFind s.hash 0).any (· = ⟨rootInode, 1⟩) = true ∧
    inodeHashFind s.hash 1 = none) ∧
  (s.sb.dev.blocks 146).holds 0 rootDirents = true ∧ onDisk s.sb 1 = Dinode.zero ∧
  s.sb.inodeFreemap.isset 0 = true ∧ s.sb.inodeFreemap.isset 1 = false

instance (s : FileSystem) : Decidable (IsNew s) := inferInstanceAs (Decidable (_ ∧ _))

theorem start_isNew : ∃ s, startTestfs oneMb = .ok s ∧ IsNew s := by
  have hcheck : (startTestfs oneMb).toOption.any (fun s => decide (IsNew s)) = true := by
    decide +kernel
  cases hs : startTestfs oneMb with
  | error e =>
    rw [hs] at hcheck
    cases hcheck
  | ok s =>
    rw [hs] at hcheck
    exact ⟨s, rfl, of_decide_eq_true hcheck⟩

/-- In a new file system the next inode is number 1. -/
theorem IsNew.room {size : FsSize} (hs : startTestfs size = .ok s) (h : IsNew s) :
    Room 146 1 rootDirents rootInode s := by
  obtain ⟨⟨hinode, hblock, hinodes, hdata, hsize⟩, ⟨hcur, hroot, habsent⟩, hholds, hzero, h0, h1⟩ := h
  obtain ⟨dev, hinit⟩ := start_super hs
  have hwf : ∀ r ∈ rootDirents, r.Wf := by
    simp only [rootDirents, List.forall_mem_cons, List.not_mem_nil, false_implies, implies_true,
      and_true]
    exact ⟨newDirent_wf (le_refl _) (by norm_num), newDirent_wf (le_refl _) (by norm_num)⟩
  exact
    { layout := layout_init hinit hinode hblock hinodes hdata (by omega)
      current := by
        obtain ⟨n, hn, heq⟩ := (Option.any_eq_true _ _).mp hroot
        rw [hcur, hn, of_decide_eq_true heq]
      small := ⟨by norm_num, rfl, by dsimp only; omega, hwf, hholds, by decide⟩
      data := le_refl _
      curDir_lt := by rw [hcur]; decide
      live := by decide
      lt := by decide
      taken := fun j hj => by
        obtain rfl : j = 0 := by omega
        exact h0
      clear := h1
      absent := habsent
      zero := hzero }

end New

/-- If no `ls` or `lsr` is of something that is no directory, then between two commands the table
holds one inode, the current directory, with one reference; and once that is clean, `quit` leaves
the table empty. -/
theorem references_balance {s : FileSystem} (h : Reachable (fun s c _ => ListsDir s c) s) :
    ∃ ino : Inode, ino.iNr = s.curDir ∧ Fs.inMemory s.hash = [⟨ino, 1⟩] ∧
      (ino.dirty = false → ∃ r, (testfsPutInode s.curDir).run s = .ok r ∧
        Fs.inMemory r.st.hash = [] ∧ inodeHashDestroy r.st.hash = .ok ()) := by
  have hrest := atRest_of_reachable h
  obtain ⟨ino, hiNr, hmem⟩ := hrest.inMemory
  exact ⟨ino, hiNr, hmem, hrest.put hmem⟩

/-- A command other than `ls` and `lsr`. -/
theorem listsDir_of_ne {s : FileSystem} {c : Command} (hls : c.name ≠ .ls) (hlsr : c.name ≠ .lsr) :
    ListsDir s c := fun h => absurd h (not_or_intro hls hlsr)

/-- The name `a`. -/
def nameA : Token := ⟨[97], by decide, by decide⟩

/-- A file `a` in a new file system. -/
theorem created_isFile {s : FileSystem} (hs : startTestfs oneMb = .ok s) (h : IsNew s) :
    ∃ s', (cmdCreate [nameA]).run s = .ok ⟨0, s', []⟩ ∧ s'.lookup nameA = .ok (1 : ℕ) ∧
      s'.typeOf 1 = .ok InodeType.file.val :=
  cmdCreate_small (h.room hs) (by decide) (by decide)

/-- After `create a` on a new file system. -/
theorem references_balance_created : ∃ s s' : FileSystem, startTestfs oneMb = .ok s ∧
    (cmdCreate [nameA]).run s = .ok ⟨0, s', []⟩ ∧
    ∃ ino : Inode, ino.iNr = s'.curDir ∧ Fs.inMemory s'.hash = [⟨ino, 1⟩] ∧
      (ino.dirty = false → ∃ r, (testfsPutInode s'.curDir).run s' = .ok r ∧
        Fs.inMemory r.st.hash = [] ∧ inodeHashDestroy r.st.hash = .ok ()) := by
  obtain ⟨s, hs, hnew⟩ := start_isNew
  obtain ⟨s', hrun, -, -⟩ := created_isFile hs hnew
  have hok : ListsDir s ⟨.create, [nameA]⟩ := listsDir_of_ne (by simp) (by simp)
  exact ⟨s, s', hs, hrun,
    references_balance (.step (.start hs) (c := ⟨.create, [nameA]⟩) hrun hok)⟩

/-- `create a` and `ls a` on a new file system: the file stays in the table. -/
theorem listed_file_stays : ¬ ∀ s : FileSystem, Reachable (fun _ _ _ => True) s →
    ∃ ino : Inode, ino.iNr = s.curDir ∧ Fs.inMemory s.hash = [⟨ino, 1⟩] := by
  intro hclaim
  obtain ⟨s, hs, hnew⟩ := start_isNew
  obtain ⟨s₁, hcreate, hlookup, htype⟩ := created_isFile hs hnew
  have hok : ListsDir s ⟨.create, [nameA]⟩ := listsDir_of_ne (by simp) (by simp)
  have hrest : AtRest s₁ :=
    atRest_of_reachable (.step (.start hs) (c := ⟨.create, [nameA]⟩) hcreate hok)
  obtain ⟨s₂, hls, hheld⟩ :=
    cmdLsInternal_file hrest hlookup (Int.natCast_nonneg 1) htype (by decide) false
  have hreach : Reachable (fun _ _ _ => True) s₂ :=
    .step (.step (.start hs) (c := ⟨.create, [nameA]⟩) hcreate trivial)
      (c := ⟨.ls, [nameA]⟩) hls trivial
  obtain ⟨ino, -, hmem⟩ := hclaim s₂ hreach
  exact hheld.not_single ino hmem

end Ece344Lab.Fs
