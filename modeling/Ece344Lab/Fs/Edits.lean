import Ece344Lab.Fs.Changes
import Ece344Lab.Fs.Looking

/-!
# Removing and writing

`rm` and `write` between two prompts: the volume loses a leaf, or a file of it gets other bytes.
-/
namespace Ece344Lab.Fs

open Ece344Lab.Library
open Program (wp)

section Peek

variable {s : FileSystem} {live : Finset ℕ} {nr : Nat} {rs : List Dirent} {M : Name → Option Int}
  {type : InodeType}

theorem Dirent.keeps_eq {r : Dirent} (h : r.Wf) :
    r.keeps = .ok (direntView.live r && !decide (r.str = dot) && !decide (r.str = dotdot)) := by
  rw [Dirent.keeps, Dirent.nameIs_eq h, Dirent.nameIs_eq h]
  by_cases hneg : r.inodeNr < 0
  · have hdead : direntView.live r = false := decide_eq_false (not_le.mpr hneg)
    rw [if_pos hneg, hdead]
    rfl
  · have hlive : direntView.live r = true := decide_eq_true (not_lt.mp hneg)
    rw [if_neg hneg, hlive]
    by_cases hdot : r.str = dot <;> by_cases hdotdot : r.str = dotdot <;>
      simp only [hdot, hdotdot, decide_true, decide_false] <;> rfl

/-- The search of `testfs_remove_dirent_allowed` finds an entry if there is one besides `.` and
`..`. -/
theorem DirHolds.keeps {D : Nat → Dinode} {st : InodeSt} (h : DirHolds D nr st rs M) :
    (∃ r p, searchDir st.ino.din st.sb.dev Dirent.keeps = .ok (.found r p) ∧
      ∃ y v, M y = some v ∧ y ≠ dot ∧ y ≠ dotdot) ∨
    ∃ p, searchDir st.ino.din st.sb.dev Dirent.keeps = .ok (.atEnd p) ∧
      ∀ y v, M y = some v → y = dot ∨ y = dotdot := by
  obtain ⟨res, hsearch, hends⟩ := h.search fun r hr => Dirent.keeps_eq hr
  rcases hends with ⟨pre, r, post, rfl, -, hr, rfl⟩ | ⟨hall, rfl⟩
  · simp only [Bool.and_eq_true, Bool.not_eq_true', decide_eq_false_iff_not] at hr
    obtain ⟨⟨hlive, hdot⟩, hdotdot⟩ := hr
    exact Or.inl ⟨r, _, hsearch, r.str, r.inodeNr,
      h.maps.eq_some (List.mem_append_right _ List.mem_cons_self) hlive, hdot, hdotdot⟩
  · refine Or.inr ⟨_, hsearch, fun y v hy => ?_⟩
    obtain ⟨r, hr, hlive, rfl, -⟩ := (h.maps.get y v).mp hy
    have hnot := hall r hr
    dsimp only at hnot
    rw [hlive, Bool.true_and, Bool.and_eq_false_iff, Bool.not_eq_false', Bool.not_eq_false',
      decide_eq_true_eq, decide_eq_true_eq] at hnot
    exact hnot

/-- A look at an inode that is not in memory. -/
theorem Sound.peek {α : Type} {f : Dinode → Dev → Except Halt α} {a : α} (h : Sound s live)
    (hnr : nr < nrInodes) (hnone : inodeHashFind s.hash nr = none)
    (hf : f (s.dinodes nr) s.sb.dev = .ok a) :
    ∃ s', (testfsGetInode nr >>= fun _ => onInodeRead nr f >>= fun a =>
        testfsPutInode nr >>= fun _ => pure a).run s = .ok ⟨a, s', []⟩ ∧
      StepOn nr none live s s' ∧ SameInode s s' nr := by
  obtain ⟨s₁, hget, hsb, hmoved⟩ := testfsGetInode_moved h.layout hnr hnone
  obtain ⟨s₁', hget', hstep₁, hsame₁⟩ := h.load hnr hnone
  rw [hget] at hget'
  cases hget'
  obtain ⟨s₂, hput, hstep₂, hsame₂⟩ := hstep₁.sound.drop hstep₁.moved.here rfl
  refine ⟨s₂, ?_, hstep₁.trans hstep₂, hsame₁.trans hsame₂⟩
  have hread : (onInodeRead nr f).run s₁ = .ok ⟨a, s₁, []⟩ := by
    refine Program.reads_run ?_
    rw [hstep₁.moved.here, hsb]
    exact hf
  rw [Program.bind_run_nil hget, Program.bind_run_nil hread, Program.bind_run_nil hput]
  rfl

end Peek

section Created

variable {s : FileSystem} {st : InodeSt} {type : InodeType} {nr : Nat} {live : Finset ℕ}

/-- An inode that was created and not written to has no blocks to free. -/
theorem testfsFreeBlocks_created (hdin : st.ino.din = created type) :
    testfsFreeBlocks.run st = .ok ⟨(), { st with ino.din.iSize := 0, ino.dirty := true }, []⟩ := by
  have hend : toInt ((st.ino.din.iSize + blockSize - 1).tdiv blockSize) = 0 := by
    rw [hdin]
    rfl
  have hind : ¬ st.ino.din.iIndirect > 0 := by
    rw [hdin]
    exact lt_irrefl 0
  have hdirect : freeDirect 0 nrDirectBlocks 0 = pure () := if_neg (lt_irrefl 0)
  rw [testfsFreeBlocks, Program.get_bind]
  dsimp only
  rw [hend, hdirect, Program.pure_bind, Program.get_bind, if_neg hind]
  rw [if_neg (by decide)]
  rfl

/-- Up to its `testfs_put_inode`, `testfs_remove_inode` of such an inode returns. -/
theorem clearInode_created (hl : Layout st.sb) (hdin : st.ino.din = created type)
    (hnr : st.ino.iNr < nrInodes) (hset : st.sb.inodeFreemap.isset st.ino.iNr = true)
    (hpos : 0 < st.sb.sb.usedInodeCount) :
    ∃ sb', clearInode.run st = .ok ⟨(), ⟨sb', ⟨Dinode.zero, false, st.ino.iNr⟩⟩, []⟩ := by
  have hk : st.ino.iNr < 65536 := by
    simp only [nrInodes, nrInodeBlocks, inodesPerBlock] at hnr
    omega
  have hcount : st.ino.din.blockCount = 0 := by
    rw [hdin]
    rfl
  have hput : (onSb (testfsPutInodeFreemap st.ino.iNr)).run ⟨st.sb, ⟨Dinode.zero, true, st.ino.iNr⟩⟩ =
      .ok ⟨(), ⟨st.sb.releaseInode st.ino.iNr, ⟨Dinode.zero, true, st.ino.iNr⟩⟩, []⟩ :=
    onSb_run (testfsPutInodeFreemap_run hl hk hset hpos)
  have hsync := @testfsSyncInode_dirty ⟨st.sb.releaseInode st.ino.iNr, ⟨Dinode.zero, true, st.ino.iNr⟩⟩
    (releaseInode_frame hl hk).layout hnr rfl
  refine ⟨synced (st.sb.releaseInode st.ino.iNr) st.ino.iNr Dinode.zero, ?_⟩
  rw [clearInode, Program.bind_run_nil (testfsFreeBlocks_created hdin), Program.reads_bind]
  dsimp only
  rw [assertC_pos hcount, Program.except_ok_bind, setDin, Program.modify_bind, setDirty,
    Program.modify_bind, Program.get_bind, Program.bind_run_nil hput]
  exact hsync

/-- An inode that was created and not written to can be removed. -/
theorem Sound.remove_created {ino : Inode} (h : Sound s live) (hlive : nr ∈ live)
    (hn : inodeHashFind s.hash nr = some ⟨ino, 1⟩) (hdin : s.dinodes nr = created type) :
    ∃ s', (testfsRemoveInode nr).run s = .ok ⟨(), s', []⟩ := by
  have hlt := h.lt hn
  have hi : ino.iNr = nr := inodeHashFind_iNr hn
  obtain ⟨sb', hclear⟩ := @clearInode_created ⟨s.sb, ino⟩ type h.layout
    ((memory_din hn hlt).trans hdin) (by rwa [hi]) (by rwa [hi, h.kept.bits])
    (h.kept.used_pos hlive)
  obtain ⟨s₁, hrun₁, -, hmoved₁⟩ := onInode_moved hn hclear hi
  obtain ⟨s₂, hrun₂, -⟩ := testfsPutInode_moved hmoved₁.here rfl
  exact ⟨s₂, by rw [testfsRemoveInode, Program.bind_run_nil hrun₁, hrun₂]⟩

end Created

section Remove

variable {s s' : FileSystem} {V : Volume} {n : Nat}

/-- Only `.` and `..` are in a directory without children. -/
theorem listing_leaf {T : NameTree Nat Name} {d : Nat} :
    (∀ y v, listing T d y = some v → y = dot ∨ y = dotdot) ↔
      ∀ y, y ≠ dot → y ≠ dotdot → T.child d y = none := by
  constructor
  · intro h y hdot hdotdot
    by_contra hne
    obtain ⟨m, hm⟩ := Option.ne_none_iff_exists'.mp hne
    rcases h y m (by rw [listing_name hdot hdotdot, hm]; rfl) with heq | heq
    · exact hdot heq
    · exact hdotdot heq
  · intro h y v hy
    by_contra hnot
    rw [not_or] at hnot
    rw [listing_name hnot.1 hnot.2, h y hnot.1 hnot.2] at hy
    cases hy

/-- `testfs_remove_dirent_allowed` of a node that is not in memory: files and empty directories may
be removed. -/
theorem Represents.removeDirentAllowed (h : Represents s V) (hn : n ∈ V.tree.nodes)
    (hnone : inodeHashFind s.hash n = none) :
    ∃ ret s', (testfsRemoveDirentAllowed n).run s = .ok ⟨ret, s', []⟩ ∧
      StepOn n none V.tree.nodes s s' ∧ SameInode s s' n ∧
      (ret = 0 ∧ (∀ y, V.tree.child n y = none) ∨
        ret = -ENOTEMPTY ∧ ∃ y m, V.tree.child n y = some m) := by
  by_cases hbranch : n ∈ V.tree.branches
  · obtain ⟨rs, hdir⟩ := h.dirs n hbranch
    have htype : ¬ (s.dinodes n).iType ≠ InodeType.dir.val := not_not.mpr (h.isDir hbranch)
    rcases hdir.keeps with ⟨r, p, hsearch, y, v, hy, hdot, hdotdot⟩ | ⟨p, hsearch, hall⟩
    · rw [view_din, view_sb] at hsearch
      rw [listing_name hdot hdotdot] at hy
      obtain ⟨m, hm, -⟩ := Option.map_eq_some_iff.mp hy
      obtain ⟨s', hrun, hstep, hsame⟩ : ∃ s', (testfsRemoveDirentAllowed n).run s =
          .ok ⟨-ENOTEMPTY, s', []⟩ ∧ StepOn n none V.tree.nodes s s' ∧ SameInode s s' n :=
        h.sound.peek (h.lt hn) hnone (by rw [if_neg htype, hsearch]; rfl)
      exact ⟨-ENOTEMPTY, s', hrun, hstep, hsame, Or.inr ⟨rfl, y, m, hm⟩⟩
    · rw [view_din, view_sb] at hsearch
      obtain ⟨s', hrun, hstep, hsame⟩ : ∃ s', (testfsRemoveDirentAllowed n).run s =
          .ok ⟨0, s', []⟩ ∧ StepOn n none V.tree.nodes s s' ∧ SameInode s s' n :=
        h.sound.peek (h.lt hn) hnone (by rw [if_neg htype, hsearch]; rfl)
      refine ⟨0, s', hrun, hstep, hsame, Or.inl ⟨rfl, fun y => ?_⟩⟩
      by_contra hne
      obtain ⟨m, hm⟩ := Option.ne_none_iff_exists'.mp hne
      obtain ⟨hdot, hdotdot⟩ := h.names n y m hm
      exact hne (listing_leaf.mp hall y hdot hdotdot)
  · have htype : (s.dinodes n).iType ≠ InodeType.dir.val := fun heq =>
      hbranch ((h.isDir_iff hn).mp heq)
    obtain ⟨s', hrun, hstep, hsame⟩ : ∃ s', (testfsRemoveDirentAllowed n).run s =
        .ok ⟨0, s', []⟩ ∧ StepOn n none V.tree.nodes s s' ∧ SameInode s s' n :=
      h.sound.peek (h.lt hn) hnone (by rw [if_pos htype]; rfl)
    exact ⟨0, s', hrun, hstep, hsame, Or.inl ⟨rfl, V.tree.child_none hbranch⟩⟩

/-- The child of the current directory that a name leads to. -/
theorem AtPrompt.child (h : AtPrompt s V) {name : Name} (hdot : name ≠ dot) (hdotdot : name ≠ dotdot)
    {v : Int} (hv : listing V.tree s.curDir name = some v) :
    ∃ n : ℕ, v = n ∧ V.tree.child s.curDir name = some n ∧ n ≠ s.curDir ∧
      inodeHashFind s.hash n = none := by
  rw [listing_name hdot hdotdot] at hv
  obtain ⟨n, hn, rfl⟩ := Option.map_eq_some_iff.mp hv
  have hne : n ≠ s.curDir := by
    have hparent := V.tree.parent_ne (V.tree.child_node hn) (V.tree.child_ne_root hn)
    rw [V.tree.child_parent hn] at hparent
    exact hparent.symm
  exact ⟨n, rfl, hn, hne, h.others n hne⟩

/-- The directory entry of a leaf is marked as removed. The record is there, so its blocks are, and
writing it takes no space. -/
theorem Sound.unlink {live : Finset ℕ} {d : Nat} {pre post : List Dirent} {M : Name → Option Int}
    {node : HashNode} {r : Dirent} (h : Sound s live) (hd : d ∈ live)
    (hnode : inodeHashFind s.hash d = some node)
    (hdir : DirHolds s.dinodes d (s.view d) (pre ++ r :: post) M)
    (hlive : direntView.live r = true) (hsmall : (s.dinodes d).iSize ≤ maxDirSize) :
    wp (onInode d (testfsWriteData { r with inodeNr := invalidInodeNr }.byte (span pre : ℕ)
        (toSizeT (sizeofDirent + r.nameLen)))) s
      (fun ret s' _ => 0 ≤ ret ∧ ∃ ino, ino.dirty = true ∧
        StepOn d (some { node with inode := ino }) live s s' ∧
        (s'.dinodes d).iSize ≤ maxDirSize ∧
        ∃ rs', DirHolds s'.dinodes d (s'.view d) rs' (Function.update M r.str none))
      fun _ => False := by
  have hlt := h.lt hnode
  have hi : node.inode.iNr = d := inodeHashFind_iNr hnode
  have hdin := memory_din hnode hlt
  have ho := h.kept.own_memory hnode hlt
  have hdir' : DirHolds s.dinodes d ⟨s.sb, node.inode⟩ (pre ++ r :: post) M :=
    hdir.congr rfl hdin hi ho
  have hwf : r.Wf := (laid_append.mp hdir.laid).2.1
  have hspan := hdir.size
  have hpos := Dirent.eight_lt_size hwf
  rw [view_din, span_append, span_cons] at hspan
  simp only [maxDirSize] at hsmall
  have hsize : toSizeT ((sizeofDirent : ℕ) + r.nameLen) = r.size := by
    rw [hwf.len, ← Nat.cast_add, toSizeT_natCast (by
      simp only [Dirent.size, sizeofDirent] at hspan hsmall ⊢
      omega), Dirent.size]
  have hend : span pre + r.size ≤ maxFileSize := by
    simp only [maxFileSize]
    omega
  obtain ⟨ret, st', log, hwrite, hcase⟩ :=
    h.write hd hnode r.removed.byte hend (by omega) (by omega)
  change wp (onInode d (testfsWriteData r.removed.byte _ _)) s _ _
  rw [hsize]
  rcases hcase with ⟨-, l, hfirst, hcovers, hhole⟩ | ⟨hret, s', hrun, hsb, hself, hdirty, hstep, hto⟩
  · obtain ⟨k, hk, hkl⟩ : ∃ k, k < r.size ∧ (span pre + k) / 8192 = l :=
      ⟨max (span pre) (8192 * l) - span pre, by omega, by omega⟩
    have hmapped := ((laid_append.mp hdir.laid).2.2.1 k (by omega)).mapped
    rw [Nat.zero_add, hkl] at hmapped
    exact absurd hhole hmapped
  rw [Program.wp_ok hrun]
  have hret : 0 ≤ ret := hret ▸ Int.natCast_nonneg _
  refine ⟨hret, st'.ino, hdirty, hstep, ?_, ?_⟩
  · rw [hto.iSize]
    simp only [maxDirSize]
    omega
  · rw [← hsize] at hwrite
    obtain ⟨rs', hd''⟩ := hdir'.remove hlive hwrite hret
    refine ⟨rs', hd''.congr hsb hself rfl ?_⟩
    rw [view_inodes]
    exact hstep.sound.kept.own

/-- What is left to do of `rm` once the entry is removed. It stops only at an inode that has been
written to. -/
theorem AtPrompt.release {s₂ : FileSystem} {ino : Inode} {name : Name} (h : AtPrompt s V)
    (hchild : V.tree.child s.curDir name = some n) (hleaf : ∀ y, V.tree.child n y = none)
    (hsound : Sound s₂ V.tree.nodes) (hcurDir : s₂.curDir = s.curDir)
    (hhere : inodeHashFind s₂.hash s.curDir = some ⟨ino, 1⟩) (hdirty : ino.dirty = true)
    (hothers : ∀ m, m ≠ s.curDir → inodeHashFind s₂.hash m = none)
    (hsame : ∀ m, m ≠ s.curDir → SameInode s s₂ m) (hne : n ≠ s.curDir)
    (hdir : ∃ rs, DirHolds s₂.dinodes s.curDir (s₂.view s.curDir) rs
      (Function.update (listing V.tree s.curDir) name none))
    (hsmall : (s₂.dinodes s.curDir).iSize ≤ maxDirSize) :
    wp (testfsGetInode n >>= fun _ => testfsRemoveInode n >>= fun _ =>
        onInode s.curDir testfsSyncInode >>= fun _ => pure (0 : Int)) s₂
      (fun ret s' _ => ret = 0 ∧ s'.curDir = s.curDir ∧
        AtPrompt s' (V.remove n (V.tree.child_ne_root hchild) hleaf))
      fun _ => ∀ type, s.dinodes n ≠ created type := by
  have hn := V.tree.child_node hchild
  obtain ⟨s₃, hrun₃, hstep₃, hsame₃⟩ := hsound.load (h.stored.lt hn) (hothers n hne)
  rw [Program.wp_bind, Program.wp_ok hrun₃, Program.wp_bind]
  refine Program.wp_intro (fun ⟨_, s₄, _⟩ hrun₄ => ?_) fun e hrun₄ type htype => ?_
  swap
  · rw [← ((hsame n hne).trans hsame₃).din] at htype
    obtain ⟨s₄, hremove⟩ := hstep₃.sound.remove_created hn hstep₃.moved.here htype
    rw [hremove] at hrun₄
    cases hrun₄
  have hstep₄ := hstep₃.trans (hstep₃.sound.remove hn hstep₃.moved.here hrun₄)
  have hhere₄ := (hstep₄.moved.others s.curDir hne.symm).trans hhere
  obtain ⟨s₅, hrun₅, hstep₅, hsame₅⟩ := hstep₄.sound.sync hhere₄ hdirty
  dsimp only
  rw [Program.wp_bind, Program.wp_ok hrun₅]
  have hcur : s₅.curDir = s.curDir :=
    (hstep₅.moved.curDir.trans hstep₄.moved.curDir).trans hcurDir
  have hsameCur : SameInode s₂ s₅ s.curDir := (hstep₄.same _ hne.symm).trans hsame₅
  refine ⟨rfl, hcur, ?_, ?_, ?_, ?_⟩
  · refine h.stored.remove hchild hleaf hstep₅.sound (fun m _ hm hmn => ?_) ?_ ?_
    · exact ((hsame m hm).trans (hstep₄.same m hmn)).trans (hstep₅.same m hm)
    · obtain ⟨rs, hrs⟩ := hdir
      exact ⟨rs, hsameCur.dirHolds hstep₅.sound.kept.own hrs⟩
    · rw [hsameCur.din]
      exact hsmall
  · rw [hcur]
    exact Finset.mem_erase.mpr ⟨hne.symm, h.cur⟩
  · rw [hcur]
    exact clean_memory hstep₅.moved.here rfl (h.stored.lt h.cur_node)
  · intro m hm
    rw [hcur] at hm
    rw [hstep₅.moved.others m hm]
    by_cases hmn : m = n
    · rw [hmn]
      exact hstep₄.moved.here
    · exact (hstep₄.moved.others m hmn).trans (hothers m hm)

/-- An inode that is looked at and dropped again: nothing has changed. -/
theorem AtPrompt.looked (h : AtPrompt s V) (hstep : StepOn n none V.tree.nodes s s')
    (hsame : SameInode s s' n) (hne : n ≠ s.curDir) : (∀ m, SameInode s s' m) ∧ AtPrompt s' V := by
  have hcur : s'.curDir = s.curDir := hstep.moved.curDir
  have hall : ∀ m, SameInode s s' m := by
    intro m
    by_cases hm : m = n
    · rw [hm]
      exact hsame
    · exact hstep.same m hm
  refine ⟨hall, h.stored.congr hstep.sound fun m _ => hall m, hcur ▸ h.cur, ?_, fun m hm => ?_⟩
  · rw [hcur, hstep.moved.others _ hne.symm, h.here, (hall s.curDir).din]
  · rw [hcur] at hm
    by_cases hmn : m = n
    · rw [hmn]
      exact hstep.moved.here
    · exact (hstep.moved.others m hmn).trans (h.others m hm)

/-- `rm` between two prompts: `.` and `..` and directories with entries stay, and what is removed
is a leaf. It stops only at an inode that has been written to. -/
theorem AtPrompt.rm (h : AtPrompt s V) {name : Token} :
    wp (cmdRm [name]) s (fun ret s' _ =>
      (name.bytes = dot ∨ name.bytes = dotdot) ∧ ret = -EINVAL ∧ s' = s ∨
      listing V.tree s.curDir name.bytes = none ∧ ret = -ENOENT ∧ s' = s ∨
      (∃ n y m, V.tree.child s.curDir name.bytes = some n ∧ V.tree.child n y = some m ∧
        ret = -ENOTEMPTY ∧ s'.curDir = s.curDir ∧ AtPrompt s' V) ∨
      ∃ n, ∃ hchild : V.tree.child s.curDir name.bytes = some n,
        ∃ hleaf : ∀ y, V.tree.child n y = none, ret = 0 ∧ s'.curDir = s.curDir ∧
          AtPrompt s' (V.remove n (V.tree.child_ne_root hchild) hleaf))
      fun _ => ∃ n, V.tree.child s.curDir name.bytes = some n ∧ ∀ type, s.dinodes n ≠ created type := by
  rw [cmdRm, Program.wp_bind, Program.wp_get, Program.wp_bind, testfsRemoveDirent]
  by_cases hdots : name.bytes = dot ∨ name.bytes = dotdot
  · rw [if_pos hdots]
    exact Or.inl ⟨hdots, rfl, rfl⟩
  rw [if_neg hdots]
  rw [not_or] at hdots
  obtain ⟨rs, hdir⟩ := h.stored.dirs s.curDir h.cur
  obtain ⟨res, hsearch, hends⟩ := hdir.search fun r hr => Dirent.liveNamed_eq hr name.bytes
  rw [view_din, view_sb] at hsearch
  have hread : (onInodeRead s.curDir fun d dev => searchDir d dev (Dirent.liveNamed name.bytes)).run s =
      .ok ⟨res, s, []⟩ := by
    refine Program.reads_run ?_
    rw [h.here]
    exact hsearch
  rw [Program.wp_bind, Program.wp_ok hread]
  rcases hends with ⟨pre, r, post, rfl, -, hr, rfl⟩ | ⟨hall, rfl⟩
  swap
  · have hnone := hdir.missing hall
    exact Or.inr (Or.inl ⟨hnone, rfl, rfl⟩)
  have hfound := hdir.found (List.mem_append_right _ List.mem_cons_self) hr
  obtain ⟨n, hv, hchild, hne, hnone⟩ := h.child hdots.1 hdots.2 hfound
  have hn := V.tree.child_node hchild
  obtain ⟨ret₁, s₁, hrun₁, hstep₁, hsame₁, hallowed⟩ := h.stored.removeDirentAllowed hn hnone
  have hcur₁ : s₁.curDir = s.curDir := hstep₁.moved.curDir
  obtain ⟨hsame, hat₁⟩ := h.looked hstep₁ hsame₁ hne
  have hhere₁ := (hstep₁.moved.others s.curDir hne.symm).trans h.here
  dsimp only
  rw [hv, Int.toNat_natCast, Nat.zero_add, Program.wp_bind, Program.wp_ok hrun₁]
  rcases hallowed with ⟨rfl, hleaf⟩ | ⟨rfl, y, m, hm⟩
  swap
  · dsimp only
    rw [if_pos (by decide)]
    exact Or.inr (Or.inr (Or.inl ⟨n, y, m, hchild, hm, rfl, hcur₁, hat₁⟩))
  dsimp only
  rw [if_neg (by decide), Program.wp_bind]
  have hdir₁ := (hsame s.curDir).dirHolds hstep₁.sound.kept.own hdir
  have hlive : direntView.live r = true := (Bool.and_eq_true_iff.mp hr).1
  have hstr : r.str = name.bytes := of_decide_eq_true (Bool.and_eq_true_iff.mp hr).2
  refine (hstep₁.sound.unlink h.cur_node hhere₁ hdir₁ hlive
    (by rw [(hsame s.curDir).din]; exact h.stored.small _ h.cur)).mono (fun ret₂ s₂ _ hpost => ?_)
    fun _ he => he.elim
  obtain ⟨hpos, ino, hdirty, hstep₂, hsmall₂, hdir₂⟩ := hpost
  rw [if_pos hpos, Program.wp_pure, if_neg (not_lt.mpr (Int.natCast_nonneg n)), Int.toNat_natCast]
  refine (h.release hchild hleaf hstep₂.sound (hstep₂.moved.curDir.trans hcur₁) hstep₂.moved.here
    hdirty (fun m hm => (hstep₂.moved.others m hm).trans (hat₁.others m (hcur₁ ▸ hm)))
    (fun m hm => (hsame m).trans (hstep₂.same m hm)) hne (hstr ▸ hdir₂) hsmall₂).mono
    (fun ret s₃ _ hfin => ?_) fun _ hwritten => ⟨n, hchild, hwritten⟩
  exact Or.inr (Or.inr (Or.inr ⟨n, hchild, hleaf, hfin⟩))

end Remove

section Write

variable {s s₁ : FileSystem} {V : Volume} {n start : Nat}

/-- What is left to do of `write` once the file has been found. -/
theorem AtPrompt.writeFile (h : AtPrompt s V) (hn : n ∈ V.tree.nodes) (hfile : n ∉ V.tree.branches)
    (hl : Looks s.sb s.curDir (n ::ₘ {s.curDir}) s₁) (data : Token)
    (hend : start + data.bytes.length ≤ maxFileSize) (hlen : data.bytes.length ≤ 2 ^ 30) :
    wp (onInode n (testfsWriteData (fun k => data.bytes.getD k 0) start data.bytes.length) >>=
        fun ret => onInode n testfsSyncInode >>= fun _ => testfsPutInode n >>= fun _ => pure ret) s₁
      (fun ret s' _ => ret ≠ -ENOSPC → ret = data.bytes.length ∧ s'.curDir = s.curDir ∧
        AtPrompt s' (V.write n start data.bytes)) fun _ => True := by
  have hne : s.curDir ≠ n := fun heq => hfile (heq ▸ h.cur)
  have hnotmem : n ∉ ({s.curDir} : Multiset ℕ) := by simpa using hne.symm
  have hpos : 0 < data.bytes.length := List.length_pos_of_ne_nil data.ne_nil
  obtain ⟨hsound, hsame⟩ := hl.sound h
  have hfind := hl.find_one (n := n) (by
    rw [Multiset.count_cons_self, Multiset.count_eq_zero_of_notMem hnotmem])
  obtain ⟨ret, st', log, hwrite, hcase⟩ :=
    hsound.write hn hfind (fun k => data.bytes.getD k 0) hend hpos hlen
  rcases hcase with ⟨rfl, -⟩ | ⟨hret, s₂, hrun₂, -, -, hdirty, hstep₂, hto⟩
  · rw [Program.wp_bind, Program.wp_ok (onInode_run hfind hwrite)]
    dsimp only
    rw [Program.wp_bind]
    refine Program.wp_intro (fun _ _ => ?_) fun _ _ => trivial
    rw [Program.wp_bind]
    refine Program.wp_intro (fun _ _ => ?_) fun _ _ => trivial
    exact fun hne => absurd rfl hne
  rw [Program.wp_bind, Program.wp_ok hrun₂]
  obtain ⟨s₃, hrun₃, hstep₃, hsame₃⟩ := hstep₂.sound.sync hstep₂.moved.here hdirty
  obtain ⟨s₄, hrun₄, hstep₄, hsame₄⟩ := hstep₃.sound.drop hstep₃.moved.here rfl
  rw [Program.wp_bind, Program.wp_ok hrun₃, Program.wp_bind, Program.wp_ok hrun₄]
  have hstep := (hstep₂.trans hstep₃).trans hstep₄
  have hfileSame := hsame₃.trans hsame₄
  have hcur : s₄.curDir = s.curDir := hstep.moved.curDir.trans hl.held.curDir
  refine fun _ => ⟨hret, hcur, ?_, hcur ▸ h.cur, ?_, fun m hm => ?_⟩
  · refine h.stored.write hn hfile hstep.sound (fun m _ hm => (hsame m).trans (hstep.same m hm)) ?_ ?_
      (fun p hlo hhi => hfileSame.stores (hto.inside p hlo hhi)) fun p v hp hs =>
      hfileSame.stores (hto.outside p v hp ((hsame n).stores hs))
    · rw [hfileSame.din, hto.iType, (hsame n).din]
    · rw [hfileSame.din, hto.iSize, (hsame n).din]
  · have hone : inodeHashFind s₁.hash s.curDir = some _ := hl.find_one (by
      rw [Multiset.count_cons_of_ne hne, Multiset.count_singleton_self])
    rw [hcur]
    exact clean_memory ((hstep.moved.others _ hne).trans hone) rfl (h.stored.lt h.cur_node)
  · rw [hcur] at hm
    by_cases hmn : m = n
    · rw [hmn]
      exact hstep.moved.here
    · rw [hstep.moved.others m hmn]
      exact hl.find_none (by
        rw [Multiset.mem_cons, Multiset.mem_singleton, not_or]
        exact ⟨hmn, hm⟩)

/-- `write` of a file between two prompts, where there is space and the end is within the maximum
file size. -/
theorem AtPrompt.write (h : AtPrompt s V) {name offsetArg data : Token}
    (hoffset : strToOffset offsetArg.bytes = (0, (start : ℤ)))
    (hx : listing V.tree s.curDir name.bytes = some (n : ℤ)) (hfile : n ∉ V.tree.branches)
    (hend : start + data.bytes.length ≤ maxFileSize) (hlen : data.bytes.length ≤ 2 ^ 30) :
    wp (cmdWrite [name, offsetArg, data]) s (fun ret s' _ => ret ≠ -ENOSPC →
      ret = data.bytes.length ∧ s'.curDir = s.curDir ∧
        AtPrompt s' (V.write n start data.bytes)) fun _ => True := by
  rcases h.getFileInode name with ⟨hnone, -⟩ | ⟨m, hm, hnode, s₁, hcase⟩
  · rw [hnone] at hx
    cases hx
  obtain rfl : m = n := Nat.cast_injective (Option.some.inj (hm.symm.trans hx))
  rcases hcase with ⟨hbranch, -⟩ | ⟨-, hrun, hl₁⟩
  · exact absurd hbranch hfile
  have hzero : ¬ (0 : ℤ) < 0 := lt_irrefl 0
  have hneg : ¬ (start : ℤ) < 0 := not_lt.mpr (Int.natCast_nonneg start)
  simp only [cmdWrite, hoffset, hneg, hzero, if_false]
  rw [Program.wp_bind, Program.wp_ok hrun]
  dsimp only
  rw [if_neg hzero]
  exact h.writeFile hnode hfile hl₁ data hend hlen

end Write

end Ece344Lab.Fs
