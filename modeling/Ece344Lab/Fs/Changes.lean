import Ece344Lab.Fs.Volume

/-!
# The commands that change the volume

`create`, `mkdir`, `rm` and `write` between two prompts. Each is followed through its steps: one
inode at a time changes, and in the end the state stores the volume with one leaf more, one leaf
less, or other bytes in one file.
-/
namespace Ece344Lab.Fs

open Ece344Lab.Library
open Program (wp)

/-- A new leaf, empty, called `x` in the directory `d`. -/
def Volume.make (V : Volume) (d : Nat) (x : Name) (k : Nat) (type : InodeType)
    (hd : d ∈ V.tree.branches) (hx : V.tree.child d x = none) (hk : k ∉ V.tree.nodes) : Volume where
  tree := V.tree.add d x k (type = .dir) hd hx hk
  data := Function.update V.data k fun _ => none
  size := Function.update V.size k 0

/-- The volume without the leaf `n`. -/
def Volume.remove (V : Volume) (n : Nat) (hr : n ≠ V.tree.root)
    (hleaf : ∀ x, V.tree.child n x = none) : Volume :=
  { V with tree := V.tree.remove n hr hleaf }

/-- The bytes written to the file `f` at `start`. -/
def Volume.write (V : Volume) (f start : Nat) (bytes : List UInt8) : Volume :=
  { V with
    data := Function.update V.data f fun p =>
      if start ≤ p ∧ p < start + bytes.length then bytes[p - start]? else V.data f p
    size := Function.update V.size f (max (V.size f) (start + bytes.length)) }

/-- What is in a directory just made. -/
def emptyListing (k p : Nat) : Name → Option Int :=
  Function.update (Function.update (fun _ => none) dot (some (k : ℤ))) dotdot (some (p : ℤ))

section Represents

variable {s s' : FileSystem} {V : Volume} {d k n : Nat} {x : Name} {type : InodeType}

theorem make_tree {hd : d ∈ V.tree.branches} {hx : V.tree.child d x = none} {hk : k ∉ V.tree.nodes} :
    (V.make d x k type hd hx hk).tree = V.tree.add d x k (type = .dir) hd hx hk := rfl

theorem remove_tree {hr : n ≠ V.tree.root} {hleaf : ∀ x, V.tree.child n x = none} :
    (V.remove n hr hleaf).tree = V.tree.remove n hr hleaf := rfl

/-- The state after a leaf has been made and entered. -/
theorem Represents.make (h : Represents s V) (hd : d ∈ V.tree.branches)
    (hx : listing V.tree d x = none) (hk : k ∉ V.tree.nodes)
    (hsound : Sound s' (insert k V.tree.nodes))
    (hsame : ∀ m ∈ V.tree.nodes, m ≠ d → SameInode s s' m)
    (hdir : ∃ rs, DirHolds s'.dinodes d (s'.view d) rs
      (Function.update (listing V.tree d) x (some (k : ℤ))))
    (hsmall : (s'.dinodes d).iSize ≤ maxDirSize)
    (hnew : type = .dir → (s'.dinodes k).iSize ≤ maxDirSize ∧
      ∃ rs, DirHolds s'.dinodes k (s'.view k) rs (emptyListing k d))
    (hfile : type ≠ .dir → s'.dinodes k = created .file) :
    Represents s' (V.make d x k type hd (listing_none hx).2.2 hk) where
  sound := hsound
  root := h.root
  dirs e he := by
    rw [make_tree] at he ⊢
    have hdk : d ≠ k := fun heq => hk (heq ▸ V.tree.branches_sub hd)
    rcases NameTree.mem_add_branches.mp he with ⟨htype, rfl⟩ | he
    · obtain ⟨-, rs, hrs⟩ := hnew (of_decide_eq_true htype)
      refine ⟨rs, ?_⟩
      convert hrs using 1
      funext y
      rw [emptyListing, listing, NameTree.add_parent_new, NameTree.add_child_ne hdk.symm,
        V.tree.child_none (fun hmem => hk (V.tree.branches_sub hmem)) y, Option.map_none,
        Function.update_apply, Function.update_apply]
      by_cases hdotdot : y = dotdot
      · rw [if_neg (by rw [hdotdot]; decide), if_pos hdotdot, if_pos hdotdot]
      · rw [if_neg hdotdot, if_neg hdotdot]
    · have hek : e ≠ k := fun heq => hk (heq ▸ V.tree.branches_sub he)
      by_cases hed : e = d
      · subst hed
        obtain ⟨rs, hrs⟩ := hdir
        refine ⟨rs, ?_⟩
        rwa [listing_update (listing_none hx).1 (listing_none hx).2.1 (NameTree.add_parent_old hek)
          NameTree.add_child_self]
      · obtain ⟨rs, hrs⟩ := h.dirs e he
        refine ⟨rs, ?_⟩
        rw [listing_congr (NameTree.add_parent_old hek) (NameTree.add_child_ne hed)]
        exact (hsame e (V.tree.branches_sub he) hed).dirHolds hsound.kept.own hrs
  small e he := by
    rw [make_tree] at he
    rcases NameTree.mem_add_branches.mp he with ⟨htype, rfl⟩ | he
    · exact (hnew (of_decide_eq_true htype)).1
    · by_cases hed : e = d
      · rw [hed]
        exact hsmall
      · rw [(hsame e (V.tree.branches_sub he) hed).din]
        exact h.small e he
  files f hf hnot := by
    rw [make_tree] at hf hnot
    have hdata : (V.make d x k type hd (listing_none hx).2.2 hk).data =
        Function.update V.data k fun _ => none := rfl
    have hsize : (V.make d x k type hd (listing_none hx).2.2 hk).size =
        Function.update V.size k 0 := rfl
    rw [hdata, hsize]
    rcases Finset.mem_insert.mp hf with rfl | hf
    · have htype : type ≠ .dir := fun heq =>
        hnot (NameTree.mem_add_branches.mpr (Or.inl ⟨decide_eq_true heq, rfl⟩))
      have hdin := hfile htype
      rw [Function.update_self, Function.update_self]
      refine ⟨?_, ?_, fun off v hv => ?_⟩
      · rw [view_din, hdin]
        rfl
      · rw [view_din, hdin]
        rfl
      · cases hv
    · have hfk : f ≠ k := fun heq => hk (heq ▸ hf)
      have hold : f ∉ V.tree.branches := fun hmem => hnot (NameTree.mem_add_branches.mpr (Or.inr hmem))
      have hfd : f ≠ d := fun heq => hold (heq ▸ hd)
      rw [Function.update_of_ne hfk, Function.update_of_ne hfk]
      exact (hsame f hf hfd).fileHolds (h.files f hf hold)
  names e y m hm := by
    rw [make_tree] at hm
    rcases NameTree.add_child.mp hm with hm | ⟨rfl, rfl, rfl⟩
    · exact h.names e y m hm
    · exact ⟨(listing_none hx).1, (listing_none hx).2.1⟩

/-- The state after a leaf has been taken out of its directory and removed. -/
theorem Represents.remove (h : Represents s V) (hchild : V.tree.child d x = some n)
    (hleaf : ∀ y, V.tree.child n y = none) (hsound : Sound s' (V.tree.nodes.erase n))
    (hsame : ∀ m ∈ V.tree.nodes, m ≠ d → m ≠ n → SameInode s s' m)
    (hdir : ∃ rs, DirHolds s'.dinodes d (s'.view d) rs
      (Function.update (listing V.tree d) x none))
    (hsmall : (s'.dinodes d).iSize ≤ maxDirSize) :
    Represents s' (V.remove n (V.tree.child_ne_root hchild) hleaf) where
  sound := hsound
  root := h.root
  dirs e he := by
    rw [remove_tree] at he ⊢
    obtain ⟨hne, he⟩ := Finset.mem_erase.mp he
    obtain ⟨hdot, hdotdot⟩ := h.names d x n hchild
    by_cases hed : e = d
    · subst hed
      obtain ⟨rs, hrs⟩ := hdir
      refine ⟨rs, ?_⟩
      rwa [listing_update (T := V.tree) (v := none) hdot hdotdot (congrFun NameTree.remove_parent e)
        (NameTree.remove_child_self hchild)]
    · obtain ⟨rs, hrs⟩ := h.dirs e he
      refine ⟨rs, ?_⟩
      rw [listing_congr (congrFun NameTree.remove_parent e) (NameTree.remove_child_ne hchild hed)]
      exact (hsame e (V.tree.branches_sub he) hed hne).dirHolds hsound.kept.own hrs
  small e he := by
    obtain ⟨hne, he⟩ := Finset.mem_erase.mp he
    by_cases hed : e = d
    · rw [hed]
      exact hsmall
    · rw [(hsame e (V.tree.branches_sub he) hed hne).din]
      exact h.small e he
  files f hf hnot := by
    obtain ⟨hne, hf⟩ := Finset.mem_erase.mp hf
    have hold : f ∉ V.tree.branches := fun hmem => hnot (Finset.mem_erase.mpr ⟨hne, hmem⟩)
    have hfd : f ≠ d := fun heq => hold (heq ▸ V.tree.child_branch hchild)
    exact (hsame f hf hfd hne).fileHolds (h.files f hf hold)
  names e y m hm := by
    rw [remove_tree] at hm
    exact h.names e y m (NameTree.remove_child.mp hm).1

/-- The state after bytes have been written to a file. -/
theorem Represents.write (h : Represents s V) {f start : Nat} {bytes : List UInt8}
    (hf : f ∈ V.tree.nodes) (hnot : f ∉ V.tree.branches) (hsound : Sound s' V.tree.nodes)
    (hsame : ∀ m ∈ V.tree.nodes, m ≠ f → SameInode s s' m)
    (htype : (s'.dinodes f).iType = (s.dinodes f).iType)
    (hsize : (s'.dinodes f).iSize = max (s.dinodes f).iSize (start + bytes.length : ℕ))
    (hin : ∀ p, start ≤ p → p < start + bytes.length →
      Stores (s'.view f) p (bytes.getD (p - start) 0))
    (hout : ∀ p v, ¬ (start ≤ p ∧ p < start + bytes.length) → Stores (s.view f) p v →
      Stores (s'.view f) p v) :
    Represents s' (V.write f start bytes) where
  sound := hsound
  root := h.root
  dirs e he := by
    obtain ⟨rs, hrs⟩ := h.dirs e he
    have hne : e ≠ f := fun heq => hnot (heq ▸ he)
    exact ⟨rs, (hsame e (V.tree.branches_sub he) hne).dirHolds hsound.kept.own hrs⟩
  small e he := by
    rw [(hsame e (V.tree.branches_sub he) fun heq => hnot (heq ▸ he)).din]
    exact h.small e he
  files g hg hgnot := by
    have hdata : (V.write f start bytes).data = Function.update V.data f fun p =>
      if start ≤ p ∧ p < start + bytes.length then bytes[p - start]? else V.data f p := rfl
    have hnewSize : (V.write f start bytes).size =
      Function.update V.size f (max (V.size f) (start + bytes.length)) := rfl
    rw [hdata, hnewSize]
    by_cases hgf : g = f
    · subst hgf
      have hold := h.files g hg hgnot
      rw [Function.update_self, Function.update_self]
      refine ⟨?_, ?_, fun p v hv => ?_⟩
      · rw [view_din, htype]
        exact hold.isFile
      · have hiSize := hold.iSize
        rw [view_din] at hiSize
        rw [view_din, hsize, hiSize]
        push_cast
        rfl
      · split_ifs at hv with hp
        · have hlt : p - start < bytes.length := by omega
          rw [List.getElem?_eq_getElem hlt] at hv
          obtain rfl := Option.some.inj hv
          have hs := hin p hp.1 hp.2
          rw [List.getD_eq_getElem _ _ hlt] at hs
          exact ⟨lt_of_lt_of_le hp.2 (le_max_right _ _), hs⟩
        · obtain ⟨hlt, hs⟩ := hold.stores p v hv
          exact ⟨lt_of_lt_of_le hlt (le_max_left _ _), hout p v hp hs⟩
    · rw [Function.update_of_ne hgf, Function.update_of_ne hgf]
      exact (hsame g hg hgf).fileHolds (h.files g hg hgnot)
  names := h.names

end Represents

section Make

variable {s s' s'' : FileSystem} {V : Volume} {nr k p : Nat} {live live' : Finset ℕ}
  {x y : Option HashNode} {n : HashNode} {type : InodeType}

theorem StepOn.trans (h : StepOn nr x live s s') (h' : StepOn nr y live' s' s'') :
    StepOn nr y live' s s'' where
  sound := h'.sound
  moved :=
    { curDir := h'.moved.curDir.trans h.moved.curDir
      here := h'.moved.here
      others := fun m hm => (h'.moved.others m hm).trans (h.moved.others m hm) }
  same m hm := (h.same m hm).trans (h'.same m hm)

/-- A new directory is empty. -/
theorem Sound.created_dirHolds (h : Sound s live) (hdin : s.dinodes k = created .dir) :
    DirHolds s.dinodes k (s.view k) [] fun _ => none where
  iNr := rfl
  own := h.own k
  isDir := by
    rw [view_din, hdin]
    rfl
  laid := trivial
  size := by
    rw [view_din, hdin]
    rfl
  small := by
    rw [view_din, hdin]
    decide
  maps := .nil

/-- `testfs_create_empty_dir` on a new inode. -/
theorem Sound.emptyDir (h : Sound s live) (hk : k ∈ live) (hn : inodeHashFind s.hash k = some n)
    (hdin : s.dinodes k = created .dir) (hp : p < nrInodes) :
    wp (testfsCreateEmptyDir p k) s (fun ret s' _ => ret ≠ -ENOSPC → ret = 0 ∧
      ∃ ino, ino.dirty = true ∧ StepOn k (some { n with inode := ino }) live s s' ∧
        (s'.dinodes k).iSize ≤ maxDirSize ∧
        ∃ rs, DirHolds s'.dinodes k (s'.view k) rs (emptyListing k p)) fun _ => True := by
  have hlt := h.lt hn
  have htype : (testfsInodeGetType k).run s = .ok ⟨InodeType.dir.val, s, []⟩ := by
    refine Program.reads_run ?_
    rw [hn]
    dsimp only
    rw [memory_din hn hlt, hdin]
    rfl
  have hsize : (s.dinodes k).iSize = 0 := by
    rw [hdin]
    rfl
  rw [testfsCreateEmptyDir, Program.wp_bind, Program.wp_ok htype, Program.wp_bind, Program.wp_reads]
  refine ⟨fun _ _ => ?_, fun _ _ => trivial⟩
  -- the entry `.`
  obtain ⟨ret₁, s₁, log₁, hrun₁, hcase₁⟩ := h.addDirent dot hk hn (h.created_dirHolds hdin)
    rfl (by decide) hlt (by rw [hsize]; decide)
  rw [Program.wp_bind, Program.wp_ok hrun₁]
  rcases hcase₁ with rfl | ⟨hret₁, ino₁, -, hstep₁, ⟨rs₁, hd₁⟩, hsize₁⟩
  · dsimp only
    rw [if_pos (by decide)]
    exact fun hne => absurd rfl hne
  dsimp only
  rw [if_neg (not_lt.mpr hret₁)]
  -- the entry `..`
  have hroom : (s₁.dinodes k).iSize + ((dotdot.length : ℕ) + 9) ≤ maxDirSize := by
    rw [hsize] at hsize₁
    simp only [dot, dotdot, List.length_cons, List.length_nil, maxDirSize] at hsize₁ ⊢
    omega
  obtain ⟨ret₂, s₂, log₂, hrun₂, hcase₂⟩ := hstep₁.sound.addDirent dotdot hk
    hstep₁.moved.here hd₁ (by rw [Function.update_of_ne (by decide)]) (by decide) hp hroom
  rw [Program.wp_bind, Program.wp_ok hrun₂]
  rcases hcase₂ with rfl | ⟨hret₂, ino₂, hdirty₂, hstep₂, ⟨rs₂, hd₂⟩, hsize₂⟩
  · dsimp only
    rw [if_pos (by decide), Program.wp_bind]
    refine Program.wp_intro (fun _ _ => ?_) fun _ _ => trivial
    exact fun hne => absurd rfl hne
  dsimp only
  rw [if_neg (not_lt.mpr hret₂)]
  exact fun _ => ⟨rfl, ino₂, hdirty₂, hstep₁.trans hstep₂, hsize₂.trans hroom, rs₂, hd₂⟩

/-- What `find` gives for a clean inode with one reference. -/
theorem clean_memory {ino : Inode} (hn : inodeHashFind s.hash nr = some ⟨ino, 1⟩)
    (hclean : ino.dirty = false) (hnr : nr < nrInodes) :
    inodeHashFind s.hash nr = some ⟨⟨s.dinodes nr, false, nr⟩, 1⟩ := by
  have hdin : ino.din = s.dinodes nr := memory_din hn hnr
  have hi : ino.iNr = nr := inodeHashFind_iNr hn
  rw [hn, ← hdin]
  obtain ⟨din, dirty, iNr⟩ := ino
  dsimp only at hclean hi
  rw [hclean, hi]

/-- The entry of a new inode in a directory, which is then written to disk. -/
theorem Sound.enter {d : Nat} {rs : List Dirent} {M : Name → Option Int} {name : Name}
    (h : Sound s live) (hd : d ∈ live) (hn : inodeHashFind s.hash d = some n)
    (hdir : DirHolds s.dinodes d (s.view d) rs M) (hM : M name = none) (hname : 0 ∉ name)
    (hk : k < nrInodes)
    (hroom : (s.dinodes d).iSize + (name.length + 9) ≤ maxDirSize) :
    wp (onInode d (testfsAddDirent name k) >>= fun ret =>
        if ret < 0 then pure ret else onInode d testfsSyncInode >>= fun _ => pure (0 : Int)) s
      (fun ret s' _ => ret ≠ -ENOSPC → ret = 0 ∧ ∃ ino, ino.dirty = false ∧
        StepOn d (some { n with inode := ino }) live s s' ∧ (s'.dinodes d).iSize ≤ maxDirSize ∧
        ∃ rs', DirHolds s'.dinodes d (s'.view d) rs' (Function.update M name (some (k : ℤ))))
      fun _ => True := by
  obtain ⟨ret₁, s₁, log₁, hrun₁, hcase₁⟩ := h.addDirent name hd hn hdir hM hname hk hroom
  rw [Program.wp_bind, Program.wp_ok hrun₁]
  rcases hcase₁ with rfl | ⟨hret₁, ino₁, hdirty₁, hstep₁, ⟨rs₁, hd₁⟩, hsize₁⟩
  · dsimp only
    rw [if_pos (by decide)]
    exact fun hne => absurd rfl hne
  dsimp only
  rw [if_neg (not_lt.mpr hret₁)]
  obtain ⟨s₂, hrun₂, hstep₂, hsame₂⟩ := hstep₁.sound.sync hstep₁.moved.here hdirty₁
  rw [Program.wp_bind, Program.wp_ok hrun₂]
  exact fun _ => ⟨rfl, _, rfl, hstep₁.trans hstep₂, by rw [hsame₂.din]; exact hsize₁.trans hroom,
    rs₁, hsame₂.dirHolds hstep₂.sound.kept.own hd₁⟩

/-- A new inode and its entry, up to the point where `testfs_create_file_or_dir` can no longer
fail. -/
structure Entered (s s' : FileSystem) (V : Volume) (x : Name) (k : Nat) (type : InodeType) : Prop where
  sound : Sound s' (insert k V.tree.nodes)
  curDir : s'.curDir = s.curDir
  here : ∃ ino, ino.dirty = false ∧ inodeHashFind s'.hash s.curDir = some ⟨ino, 1⟩
  new : ∃ ino, ino.dirty = true ∧ inodeHashFind s'.hash k = some ⟨ino, 1⟩
  others : ∀ m, m ≠ s.curDir → m ≠ k → inodeHashFind s'.hash m = none
  same : ∀ m, m ≠ s.curDir → m ≠ k → SameInode s s' m
  dir : ∃ rs, DirHolds s'.dinodes s.curDir (s'.view s.curDir) rs
    (Function.update (listing V.tree s.curDir) x (some (k : ℤ)))
  small : (s'.dinodes s.curDir).iSize ≤ maxDirSize
  newDir : type = .dir → (s'.dinodes k).iSize ≤ maxDirSize ∧
    ∃ rs, DirHolds s'.dinodes k (s'.view k) rs (emptyListing k s.curDir)
  newFile : type ≠ .dir → s'.dinodes k = created type

/-- The entry of the new inode, once that is prepared. -/
theorem AtPrompt.enter {s₂ : FileSystem} {ino : Inode} {name : Name} (h : AtPrompt s V)
    (hk : k ∉ V.tree.nodes) (hlt : k < nrInodes) (hdirty : ino.dirty = true)
    (hstep : StepOn k (some ⟨ino, 1⟩) (insert k V.tree.nodes) s s₂)
    (hnewDir : type = .dir → (s₂.dinodes k).iSize ≤ maxDirSize ∧
      ∃ rs, DirHolds s₂.dinodes k (s₂.view k) rs (emptyListing k s.curDir))
    (hnewFile : type ≠ .dir → s₂.dinodes k = created type)
    (hx : listing V.tree s.curDir name = none) (hname : 0 ∉ name)
    (hroom : (s.dinodes s.curDir).iSize + (name.length + 9) ≤ maxDirSize) :
    wp (onInode s.curDir (testfsAddDirent name k) >>= fun ret =>
        if ret < 0 then pure ret else onInode s.curDir testfsSyncInode >>= fun _ => pure (0 : Int)) s₂
      (fun ret s' _ => ret ≠ -ENOSPC → ret = 0 ∧ Entered s s' V name k type) fun _ => True := by
  have hcur : s.curDir ≠ k := fun heq => hk (heq ▸ h.cur_node)
  have hsame := hstep.same s.curDir hcur
  obtain ⟨rs, hd⟩ := h.stored.dirs s.curDir h.cur
  refine (hstep.sound.enter (Finset.mem_insert_of_mem h.cur_node)
    ((hstep.moved.others _ hcur).trans h.here) (hsame.dirHolds hstep.sound.kept.own hd) hx hname
    hlt (by rw [hsame.din]; exact hroom)).imp fun ret s' _ hpost hret => ?_
  obtain ⟨hzero, ino', hclean, hstep', hsmall, hd'⟩ := hpost hret
  have hk' := hstep'.same k hcur.symm
  exact ⟨hzero,
    { sound := hstep'.sound
      curDir := hstep'.moved.curDir.trans hstep.moved.curDir
      here := ⟨ino', hclean, hstep'.moved.here⟩
      new := ⟨ino, hdirty, (hstep'.moved.others k hcur.symm).trans hstep.moved.here⟩
      others := fun m hm hmk =>
        ((hstep'.moved.others m hm).trans (hstep.moved.others m hmk)).trans (h.others m hm)
      same := fun m hm hmk => (hstep.same m hmk).trans (hstep'.same m hm)
      dir := hd'
      small := hsmall
      newDir := fun htype => by
        obtain ⟨hsize, rs', hrs'⟩ := hnewDir htype
        exact ⟨by rw [hk'.din]; exact hsize, rs', hk'.dirHolds hstep'.sound.kept.own hrs'⟩
      newFile := fun htype => by rw [hk'.din, hnewFile htype] }⟩

theorem AtPrompt.fill {s₁ : FileSystem} {name : Name} (h : AtPrompt s V) (hk : k ∉ V.tree.nodes)
    (hlt : k < nrInodes)
    (hstep : StepOn k (some ⟨⟨created type, true, k⟩, 1⟩) (insert k V.tree.nodes) s s₁)
    (hdin : s₁.dinodes k = created type) (hx : listing V.tree s.curDir name = none)
    (hname : 0 ∉ name)
    (hroom : (s.dinodes s.curDir).iSize + (name.length + 9) ≤ maxDirSize) :
    wp (fillInode (some s.curDir) type name k) s₁
      (fun ret s' _ => ret ≠ -ENOSPC → ret = 0 ∧ Entered s s' V name k type) fun _ => True := by
  have hcurlt := h.stored.lt h.cur_node
  rw [fillInode]
  by_cases htype : type = .dir
  · subst htype
    rw [if_pos rfl, Program.wp_bind]
    refine (hstep.sound.emptyDir (Finset.mem_insert_self _ _) hstep.moved.here hdin hcurlt).imp
      fun ret s₂ _ hpost => ?_
    by_cases hret : ret = -ENOSPC
    · rw [hret, if_pos (by decide)]
      exact fun hne => absurd rfl hne
    · obtain ⟨rfl, ino, hdirty, hstep₂, hd₂⟩ := hpost hret
      rw [if_neg (by decide)]
      exact (h.enter hk hlt hdirty (hstep.trans hstep₂) (fun _ => hd₂) (fun hne => absurd rfl hne) hx
        hname hroom).imp fun _ _ _ hpost => hpost
  · rw [if_neg htype]
    exact h.enter hk hlt rfl hstep (fun heq => absurd heq htype) (fun _ => hdin) hx hname hroom

/-- The new inode is written to disk and put: the state is at the prompt again. -/
theorem Entered.finish {name : Name} (h : AtPrompt s V) (he : Entered s s' V name k type)
    (hk : k ∉ V.tree.nodes) (hx : listing V.tree s.curDir name = none) (htype : type ≠ .none) :
    wp (onInode k testfsSyncInode >>= fun _ => testfsPutInode k >>= fun _ => pure (0 : Int)) s'
      (fun ret s'' _ => ret = 0 ∧ s''.curDir = s.curDir ∧
        (type ≠ .dir → s''.dinodes k = created type) ∧
        AtPrompt s'' (V.make s.curDir name k type h.cur (listing_none hx).2.2 hk)) fun _ => True := by
  have hcur : s.curDir ≠ k := fun heq => hk (heq ▸ h.cur_node)
  obtain ⟨ino, hdirty, hn⟩ := he.new
  obtain ⟨s₁, hrun₁, hstep₁, hsame₁⟩ := he.sound.sync hn hdirty
  obtain ⟨s₂, hrun₂, hstep₂, hsame₂⟩ := hstep₁.sound.drop hstep₁.moved.here rfl
  rw [Program.wp_bind, Program.wp_ok hrun₁, Program.wp_bind, Program.wp_ok hrun₂]
  have hstep := hstep₁.trans hstep₂
  have hown := hstep.sound.kept.own
  have hcurDir : s₂.curDir = s.curDir := hstep.moved.curDir.trans he.curDir
  have hnew := hsame₁.trans hsame₂
  obtain ⟨ino', hclean, hhere⟩ := he.here
  refine ⟨rfl, hcurDir, fun hne => hnew.din.trans (he.newFile hne), ?_, ?_, ?_, ?_⟩
  · refine h.stored.make h.cur hx hk hstep.sound (fun m hm hne => ?_) ?_ ?_ (fun heq => ?_)
      fun hne => ?_
    · have hmk : m ≠ k := fun heq => hk (heq ▸ hm)
      exact (he.same m hne hmk).trans (hstep.same m hmk)
    · obtain ⟨rs, hrs⟩ := he.dir
      exact ⟨rs, (hstep.same _ hcur).dirHolds hown hrs⟩
    · rw [(hstep.same _ hcur).din]
      exact he.small
    · obtain ⟨hsize, rs, hrs⟩ := he.newDir heq
      exact ⟨by rw [hnew.din]; exact hsize, rs, hnew.dirHolds hown hrs⟩
    · have hfile : type = .file := by
        cases type with
        | none => exact absurd rfl htype
        | file => rfl
        | dir => exact absurd rfl hne
      rw [hnew.din, he.newFile hne, hfile]
  · rw [hcurDir, make_tree]
    exact NameTree.mem_add_branches.mpr (Or.inr h.cur)
  · rw [hcurDir]
    exact clean_memory ((hstep.moved.others _ hcur).trans hhere) hclean (h.stored.lt h.cur_node)
  · intro m hm
    rw [hcurDir] at hm
    by_cases hmk : m = k
    · subst hmk
      exact hstep.moved.here
    · exact (hstep.moved.others m hmk).trans (he.others m hm hmk)

/-- `create` and `mkdir` between two prompts: the name is taken, there is no space, or the tree has
a new leaf. -/
theorem AtPrompt.make (h : AtPrompt s V) {name : Token} (htype : type ≠ .none)
    (hroom : (s.dinodes s.curDir).iSize + (name.bytes.length + 9) ≤ maxDirSize) :
    wp (cmdMake type [name]) s (fun ret s' _ => ret ≠ -ENOSPC →
      (∃ v, listing V.tree s.curDir name.bytes = some v ∧ ret = -EEXIST ∧ s' = s) ∨
      ∃ (hx : listing V.tree s.curDir name.bytes = none) (k : Nat) (hk : k ∉ V.tree.nodes),
        ret = 0 ∧ s'.curDir = s.curDir ∧ (type ≠ .dir → s'.dinodes k = created type) ∧
        AtPrompt s' (V.make s.curDir name.bytes k type h.cur (listing_none hx).2.2 hk))
      fun _ => True := by
  have hlookup : (onInodeRead s.curDir fun d dev => testfsDirNameToInodeNr d dev name.bytes).run s =
      .ok ⟨(listing V.tree s.curDir name.bytes).getD (-ENOENT), s, []⟩ := by
    refine Program.reads_run ?_
    rw [h.here]
    exact h.stored.lookup h.cur name.bytes
  rw [cmdMake, Program.wp_bind, Program.wp_get, testfsCreateFileOrDir, Program.wp_bind,
    Program.wp_ok hlookup]
  dsimp only
  rcases Option.eq_none_or_eq_some (listing V.tree s.curDir name.bytes) with hx | ⟨v, hx⟩
  swap
  · obtain ⟨n, rfl, -⟩ := listing_some h.cur hx
    rw [show (listing V.tree s.curDir name.bytes).getD (-ENOENT) = n by rw [hx]; rfl,
      if_pos (Int.natCast_nonneg n)]
    exact fun _ => Or.inl ⟨_, hx, rfl, rfl⟩
  · rw [show (listing V.tree s.curDir name.bytes).getD (-ENOENT) = -ENOENT by rw [hx]; rfl,
      if_neg (by decide), Program.wp_bind]
    rcases h.stored.sound.create h.absent type with ⟨s₁, hrun⟩ | ⟨k, s₁, hrun, hk, hlt, hstep, hdin, -⟩
    · rw [Program.wp_ok hrun]
      dsimp only
      rw [if_pos (by decide)]
      exact fun hne => absurd rfl hne
    rw [Program.wp_ok hrun]
    dsimp only
    rw [if_neg (by decide), Program.wp_bind]
    refine (h.fill hk hlt hstep hdin hx name.no_nul hroom).imp fun ret s₂ _ hpost => ?_
    by_cases hret : ret = -ENOSPC
    · rw [hret, if_pos (by decide), Program.wp_bind]
      refine Program.wp_intro (fun _ _ => ?_) fun _ _ => trivial
      exact fun hne => absurd rfl hne
    · obtain ⟨rfl, he⟩ := hpost hret
      rw [if_neg (by decide)]
      refine (he.finish h hk hx htype).imp fun ret s₃ _ hfin _ => ?_
      exact Or.inr ⟨hx, k, hk, hfin⟩

end Make

end Ece344Lab.Fs
