import Ece344Lab.Library.Runs
import Ece344Lab.Fs.Atomic

/-!
# The inodes in memory and on disk

`testfs_get_inode`, `testfs_sync_inode` and `testfs_put_inode` on any inodes in any order. The hash
table holds each inode once; an inode in memory that is clean equals the one on disk; the block of
the inode table that a sync reads, changes and writes back keeps the other inodes in it.
-/
namespace Ece344Lab.Fs

open Ece344Lab.Library

/-- The number of inodes that the inode blocks hold. -/
abbrev nrInodes : Nat := nrInodeBlocks * inodesPerBlock

/-- The inode on disk. -/
def onDisk (sb : SuperBlock) (nr : Nat) : Dinode :=
  Dinode.decode (sb.dev.blocks (18 + nr / 128)) (nr % 128 * 64)

namespace Dinode

/-- The fields are `s32`, the size is an `s64`. -/
structure Fits (d : Dinode) : Prop where
  word : ∀ j, -2 ^ 31 ≤ d.word j ∧ d.word j < 2 ^ 31
  iSize : -2 ^ 63 ≤ d.iSize ∧ d.iSize < 2 ^ 63

variable {d : Dinode} {b : Block} {offset offset' : Nat}

/-- A word written to a block reads back. -/
theorem word_copyIn (hd : d.Fits) (hoffset : offset + 64 ≤ 8192) {j : Nat} (hj : j < 14) :
    leInt (fun k => (b.copyIn offset d.byte 64).get (offset + 4 * j + k)) 4 = d.word j := by
  have hbytes : ∀ k, k < 4 → (b.copyIn offset d.byte 64).get (offset + 4 * j + k) =
      leByte (leRep 4 (d.word j)) k := by
    intro k hk
    have hsub : offset + 4 * j + k - offset = 4 * j + k := by omega
    have hq : (4 * j + k) / 4 = j := by omega
    have hr : (4 * j + k) % 4 = k := by omega
    rw [Block.get_copyIn _ _ _ _ (by omega), if_pos (by omega), hsub, byte, if_pos (by omega), hq,
      hr]
  obtain ⟨hlo, hhi⟩ := hd.word j
  rw [leInt_congr hbytes]
  exact leInt_leRep (by norm_num; omega) (by norm_num; omega)

theorem iSize_copyIn (hd : d.Fits) (hoffset : offset + 64 ≤ 8192) :
    leInt (fun k => (b.copyIn offset d.byte 64).get (offset + 56 + k)) 8 = d.iSize := by
  have hbytes : ∀ k, k < 8 → (b.copyIn offset d.byte 64).get (offset + 56 + k) =
      leByte (leRep 8 d.iSize) k := by
    intro k hk
    have hsub : offset + 56 + k - offset = 56 + k := by omega
    have hr : 56 + k - 56 = k := by omega
    rw [Block.get_copyIn _ _ _ _ (by omega), if_pos (by omega), hsub, byte, if_neg (by omega), hr]
  obtain ⟨hlo, hhi⟩ := hd.iSize
  rw [leInt_congr hbytes]
  exact leInt_leRep (by norm_num; omega) (by norm_num; omega)

theorem word_succ (d : Dinode) (i : Fin nrDirectBlocks) : d.word (i.val + 1) = d.iBlockNr i := by
  have hi : i.val < 10 := i.isLt
  rw [word, if_neg (by omega), if_pos (by omega), blockNr, Nat.add_sub_cancel, dif_pos i.isLt]

/-- The inode written to a block is read back. -/
theorem decode_copyIn (hd : d.Fits) (hoffset : offset + 64 ≤ 8192) :
    decode (b.copyIn offset d.byte 64) offset = d := by
  have hword := fun j (hj : j < 14) => word_copyIn (b := b) hd hoffset hj
  have hdirect : ∀ i : Fin nrDirectBlocks,
      leInt (fun k => (b.copyIn offset d.byte 64).get (offset + 4 * (i.val + 1) + k)) 4 =
        d.iBlockNr i := fun i => by
    have hi : i.val < 10 := i.isLt
    rw [hword _ (by omega), word_succ]
  rw [decode]
  simp only [hword 0 (by omega), hdirect, hword 11 (by omega), hword 12 (by omega),
    hword 13 (by omega), iSize_copyIn hd hoffset]
  rfl

/-- The bytes of one inode are its alone. -/
theorem decode_copyIn_ne (hoffset' : offset' + 64 ≤ 8192)
    (h : offset' + 64 ≤ offset ∨ offset + 64 ≤ offset') (src : Nat → UInt8) :
    decode (b.copyIn offset src 64) offset' = decode b offset' := by
  have hget : ∀ i, offset' ≤ i → i < offset' + 64 → (b.copyIn offset src 64).get i = b.get i := by
    intro i hlo hhi
    rw [Block.get_copyIn _ _ _ _ (by omega), if_neg (by omega)]
  have hword : ∀ j, j < 14 → leInt (fun k => (b.copyIn offset src 64).get (offset' + 4 * j + k)) 4 =
      leInt (fun k => b.get (offset' + 4 * j + k)) 4 := fun j hj =>
    leInt_congr fun k hk => hget _ (by omega) (by omega)
  have hdirect : ∀ i : Fin nrDirectBlocks,
      leInt (fun k => (b.copyIn offset src 64).get (offset' + 4 * (i.val + 1) + k)) 4 =
        leInt (fun k => b.get (offset' + 4 * (i.val + 1) + k)) 4 := fun i => by
    have hi : i.val < 10 := i.isLt
    exact hword _ (by omega)
  have hsize : leInt (fun k => (b.copyIn offset src 64).get (offset' + 56 + k)) 8 =
      leInt (fun k => b.get (offset' + 56 + k)) 8 :=
    leInt_congr fun k hk => hget _ (by omega) (by omega)
  simp only [decode, hword 0 (by omega), hdirect, hword 11 (by omega), hword 12 (by omega),
    hword 13 (by omega), hsize]

theorem leInt_range (f : Nat → UInt8) (w : Nat) :
    -((256 ^ w : Nat) / 2 : Int) ≤ leInt f w ∧ leInt f w < ((256 ^ w : Nat) + 1) / 2 :=
  ⟨Int.le_bmod (by positivity), Int.bmod_lt (by positivity)⟩

theorem leInt_four (f : Nat → UInt8) : -2 ^ 31 ≤ leInt f 4 ∧ leInt f 4 < 2 ^ 31 := by
  obtain ⟨hlo, hhi⟩ := leInt_range f 4
  norm_num at hlo hhi ⊢
  omega

/-- What is read from the disk fits its fields. -/
theorem fits_decode (b : Block) (offset : Nat) : (decode b offset).Fits where
  word j := by
    simp only [word, decode, blockNr]
    split_ifs
    · exact leInt_four _
    · exact leInt_four _
    · norm_num
    · exact leInt_four _
    · exact leInt_four _
    · exact leInt_four _
  iSize := by
    obtain ⟨hlo, hhi⟩ := leInt_range (fun k => b.get (offset + 56 + k)) 8
    simp only [decode]
    norm_num at hlo hhi ⊢
    omega

end Dinode

section Hash

variable {h : HashTable} {n : HashNode} {nr m : Nat} {f : HashNode → HashNode}

theorem inodeHashfn_lt (nr : Nat) : inodeHashfn nr < inodeHashSize := by
  simp only [inodeHashfn, inodeHashSize]
  omega

theorem inodeHashFind_iNr (hn : inodeHashFind h nr = some n) : n.inode.iNr = nr := by
  rw [inodeHashFind] at hn
  simpa using List.find?_some hn

theorem inodeHashFind_insert (h : HashTable) (n : HashNode) (m : Nat) :
    inodeHashFind (inodeHashInsert h n) m =
      if n.inode.iNr = m then some n else inodeHashFind h m := by
  rw [inodeHashFind, inodeHashInsert]
  by_cases hm : n.inode.iNr = m
  · subst hm
    rw [Function.update_self, List.find?_cons_of_pos (by simp), if_pos rfl]
  · rw [if_neg hm]
    by_cases hb : inodeHashfn m = inodeHashfn n.inode.iNr
    · rw [hb, Function.update_self, List.find?_cons_of_neg (by simpa using hm), ← hb]
      rfl
    · rw [Function.update_of_ne hb]
      rfl

theorem find?_filter_ne {l : List HashNode} :
    (l.filter fun n => n.inode.iNr ≠ nr).find? (fun n => n.inode.iNr = m) =
      if m = nr then none else l.find? fun n => n.inode.iNr = m := by
  rw [List.find?_filter]
  split_ifs with hm
  · subst hm
    rw [List.find?_eq_none]
    intro n _
    simp
  · congr 1
    funext n
    by_cases hn : n.inode.iNr = m
    · simp [hn, hm]
    · simp [hn]

theorem inodeHashFind_remove (h : HashTable) (nr m : Nat) :
    inodeHashFind (inodeHashRemove h nr) m = if m = nr then none else inodeHashFind h m := by
  rw [inodeHashFind, inodeHashRemove]
  by_cases hb : inodeHashfn m = inodeHashfn nr
  · rw [hb, Function.update_self, find?_filter_ne, ← hb]
    rfl
  · rw [Function.update_of_ne hb, if_neg fun hm => hb (congrArg _ hm)]
    rfl

theorem inodeHashFind_modify (hf : ∀ n, n.inode.iNr = nr → (f n).inode.iNr = nr) (h : HashTable)
    (m : Nat) : inodeHashFind (inodeHashModify h nr f) m =
      if m = nr then (inodeHashFind h m).map f else inodeHashFind h m := by
  rw [inodeHashFind, inodeHashModify]
  by_cases hb : inodeHashfn m = inodeHashfn nr
  · rw [hb, Function.update_self, List.find?_map]
    have hkey : ((fun n : HashNode => decide (n.inode.iNr = m)) ∘
        fun n => if n.inode.iNr = nr then f n else n) = fun n => decide (n.inode.iNr = m) := by
      funext n
      simp only [Function.comp_apply]
      split_ifs with hn
      · rw [hf n hn, hn]
      · rfl
    rw [hkey, ← hb]
    change (inodeHashFind h m).map _ = _
    cases hfind : inodeHashFind h m with
    | none => simp
    | some n =>
      have hn := inodeHashFind_iNr hfind
      by_cases hm : m = nr
      · rw [if_pos hm, Option.map_some, if_pos (hn.trans hm), Option.map_some]
      · rw [if_neg hm, Option.map_some, if_neg fun h => hm (hn.symm.trans h)]
  · rw [Function.update_of_ne hb, if_neg fun hm => hb (congrArg _ hm)]
    rfl

/-- The inodes in memory. -/
def inMemory (h : HashTable) : List HashNode := (List.range inodeHashSize).flatMap h

/-- Each inode in memory is in the chain of its number, and in it once. -/
structure Filed (h : HashTable) : Prop where
  place : ∀ i, ∀ n ∈ h i, inodeHashfn n.inode.iNr = i
  once : ∀ i, ((h i).map fun n => n.inode.iNr).Nodup

/-- At most one inode in memory for each number. -/
theorem Filed.nodup (hf : Filed h) : ((inMemory h).map fun n => n.inode.iNr).Nodup := by
  rw [inMemory, List.map_flatMap, List.nodup_flatMap]
  refine ⟨fun i _ => hf.once i, List.nodup_range.imp fun {i j} hij x hi hj => ?_⟩
  obtain ⟨n, hn, rfl⟩ := List.mem_map.1 hi
  obtain ⟨n', hn', heq⟩ := List.mem_map.1 hj
  exact hij ((hf.place i n hn).symm.trans (heq ▸ hf.place j n' hn'))

theorem filed_init : Filed inodeHashInit := ⟨fun _ _ hn => (by cases hn), fun _ => List.nodup_nil⟩

theorem Filed.insert (hf : Filed h) (hnew : inodeHashFind h n.inode.iNr = none) :
    Filed (inodeHashInsert h n) := by
  constructor
  · intro i x hx
    rw [inodeHashInsert] at hx
    by_cases hi : i = inodeHashfn n.inode.iNr
    · subst hi
      rw [Function.update_self] at hx
      rcases List.mem_cons.1 hx with rfl | hx
      · rfl
      · exact hf.place _ x hx
    · rw [Function.update_of_ne hi] at hx
      exact hf.place i x hx
  · intro i
    rw [inodeHashInsert]
    by_cases hi : i = inodeHashfn n.inode.iNr
    · subst hi
      rw [Function.update_self, List.map_cons, List.nodup_cons]
      refine ⟨fun hmem => ?_, hf.once _⟩
      obtain ⟨x, hx, heq⟩ := List.mem_map.1 hmem
      exact absurd heq (by simpa using List.find?_eq_none.1 hnew x hx)
    · rw [Function.update_of_ne hi]
      exact hf.once i

theorem Filed.remove (hf : Filed h) (nr : Nat) : Filed (inodeHashRemove h nr) := by
  constructor
  · intro i x hx
    rw [inodeHashRemove] at hx
    by_cases hi : i = inodeHashfn nr
    · subst hi
      rw [Function.update_self] at hx
      exact hf.place _ x (List.mem_of_mem_filter hx)
    · rw [Function.update_of_ne hi] at hx
      exact hf.place i x hx
  · intro i
    rw [inodeHashRemove]
    by_cases hi : i = inodeHashfn nr
    · subst hi
      rw [Function.update_self]
      exact (hf.once _).sublist (List.filter_sublist.map _)
    · rw [Function.update_of_ne hi]
      exact hf.once i

theorem Filed.modify (hf : Filed h) (hk : ∀ n, n.inode.iNr = nr → (f n).inode.iNr = nr) :
    Filed (inodeHashModify h nr f) := by
  have hkey : ∀ n : HashNode, (if n.inode.iNr = nr then f n else n).inode.iNr = n.inode.iNr := by
    intro n
    split_ifs with hn
    · rw [hk n hn, hn]
    · rfl
  constructor
  · intro i x hx
    rw [inodeHashModify] at hx
    by_cases hi : i = inodeHashfn nr
    · subst hi
      rw [Function.update_self] at hx
      obtain ⟨n, hn, rfl⟩ := List.mem_map.1 hx
      rw [hkey]
      exact hf.place _ n hn
    · rw [Function.update_of_ne hi] at hx
      exact hf.place i x hx
  · intro i
    rw [inodeHashModify]
    by_cases hi : i = inodeHashfn nr
    · subst hi
      rw [Function.update_self, List.map_map]
      have hcomp : ((fun n : HashNode => n.inode.iNr) ∘ fun n => if n.inode.iNr = nr then f n else n) =
          fun n => n.inode.iNr := funext hkey
      rw [hcomp]
      exact hf.once _
    · rw [Function.update_of_ne hi]
      exact hf.once i

end Hash

section Calls

variable {s s' : FileSystem} {n : HashNode} {nr m : Nat}

/-- An inode in memory before its first change: the one on disk. -/
def loaded (sb : SuperBlock) (nr : Nat) : HashNode := ⟨⟨onDisk sb nr, false, nr⟩, 1⟩

theorem fits_loaded (sb : SuperBlock) (nr : Nat) : (loaded sb nr).inode.din.Fits :=
  Dinode.fits_decode _ _

theorem testfsGetInode_memory (hn : inodeHashFind s.hash nr = some n) :
    (testfsGetInode nr).run s = .ok ⟨(), { s with
      hash := inodeHashModify s.hash nr fun n => { n with iCount := n.iCount + 1 } }, []⟩ := by
  rw [testfsGetInode, Program.get_bind, hn]
  rfl

theorem testfsReadInodeBlock_ok {sb : SuperBlock} (hl : Layout sb) (hnr : nr < nrInodes) :
    testfsReadInodeBlock sb nr = .ok (sb.dev.blocks (18 + nr / 128)) := by
  have hdiv : nr / 128 < 128 := by
    simp only [nrInodes, nrInodeBlocks, inodesPerBlock] at hnr
    omega
  have hsize := hl.devSize
  have hread : sb.dev.read ((18 + nr / 128 : Nat) : Int) = .ok (sb.dev.blocks (18 + nr / 128)) :=
    Dev.read_ok (by omega)
  rw [testfsReadInodeBlock, testfsInodeToBlockNr]
  simp only [inodesPerBlock, nrInodeBlocks, assertC_pos hdiv, hl.inodeBlocksStart]
  exact hread

theorem testfsGetInode_disk (hl : Layout s.sb) (hnr : nr < nrInodes)
    (hn : inodeHashFind s.hash nr = none) :
    (testfsGetInode nr).run s =
      .ok ⟨(), { s with hash := inodeHashInsert s.hash (loaded s.sb nr) }, []⟩ := by
  rw [testfsGetInode, Program.get_bind, hn]
  dsimp only
  rw [Program.reads_bind, testfsReadInodeBlock_ok hl hnr]
  rfl

/-- The super block after the inode `nr` was written to its place. -/
def synced (sb : SuperBlock) (nr : Nat) (d : Dinode) : SuperBlock :=
  { sb with
    dev := sb.dev.write (18 + nr / 128)
      ((sb.dev.blocks (18 + nr / 128)).copyIn (nr % 128 * 64) d.byte 64) }

theorem testfsSyncInode_clean {st : InodeSt} (hclean : st.ino.dirty = false) :
    testfsSyncInode.run st = .ok ⟨(), st, []⟩ := by
  rw [testfsSyncInode, Program.get_bind, hclean]
  rfl

theorem testfsSyncInode_dirty {st : InodeSt} (hl : Layout st.sb) (hnr : st.ino.iNr < nrInodes)
    (hdirty : st.ino.dirty = true) :
    testfsSyncInode.run st =
      .ok ⟨(), ⟨synced st.sb st.ino.iNr st.ino.din, { st.ino with dirty := false }⟩, []⟩ := by
  have hdiv : st.ino.iNr / inodesPerBlock < nrInodeBlocks := by
    simp only [nrInodes, nrInodeBlocks, inodesPerBlock] at hnr ⊢
    omega
  rw [testfsSyncInode, Program.get_bind, if_pos hdirty, Program.reads_bind,
    testfsReadInodeBlock_ok hl hnr, Program.except_ok_bind]
  dsimp only
  rw [Program.reads_bind, testfsWriteInodeBlock, testfsInodeToBlockNr, assertC_pos hdiv,
    hl.inodeBlocksStart]
  rfl

/-- A sync writes the inode and no other. -/
theorem onDisk_synced (sb : SuperBlock) {d : Dinode} (hd : d.Fits) (m nr : Nat) :
    onDisk (synced sb nr d) m = if m = nr then d else onDisk sb m := by
  rw [onDisk, synced, Dev.write_blocks]
  by_cases hblock : 18 + m / 128 = 18 + nr / 128
  · rw [if_pos hblock]
    by_cases hm : m = nr
    · rw [if_pos hm, hm]
      exact Dinode.decode_copyIn hd (by omega)
    · rw [if_neg hm, Dinode.decode_copyIn_ne (by omega) (by omega), onDisk, hblock]
  · rw [if_neg hblock, if_neg fun hm => hblock (by rw [hm])]
    rfl

theorem layout_synced {sb : SuperBlock} (hl : Layout sb) (nr : Nat) (d : Dinode) :
    Layout (synced sb nr d) :=
  { hl with devSize := le_max_of_le_left hl.devSize }

/-- A program on an inode in memory. -/
theorem onInode_run {α : Type} {p : InodeM α} {r : Ret Event InodeSt α}
    (hn : inodeHashFind s.hash nr = some n) (hp : p.run ⟨s.sb, n.inode⟩ = .ok r) :
    (onInode nr p).run s = .ok ⟨r.val, { s with
      sb := r.st.sb
      hash := inodeHashModify s.hash nr fun n => { n with inode := r.st.ino } }, r.log⟩ := by
  rw [onInode, Program.run]
  dsimp only
  rw [hn]
  dsimp only
  rw [hp]

theorem onInode_none {α : Type} {p : InodeM α} (hn : inodeHashFind s.hash nr = none) :
    (onInode nr p).run s = .error .undefined := by
  rw [onInode, Program.run]
  dsimp only
  rw [hn]

/-- A program on an inode that returns has found it. -/
theorem onInode_inv {α : Type} {nr : Nat} {p : InodeM α} {a : α} {log : List Event}
    (h : (onInode nr p).run s = .ok ⟨a, s', log⟩) :
    ∃ n st', inodeHashFind s.hash nr = some n ∧ p.run ⟨s.sb, n.inode⟩ = .ok ⟨a, st', log⟩ ∧
      s'.sb = st'.sb ∧
      s'.hash = inodeHashModify s.hash nr fun n => { n with inode := st'.ino } := by
  cases hn : inodeHashFind s.hash nr with
  | none =>
    rw [onInode_none hn] at h
    cases h
  | some n =>
    cases hp : p.run ⟨s.sb, n.inode⟩ with
    | error e =>
      have hrun : (onInode nr p).run s = .error e := by
        rw [onInode, Program.run]
        dsimp only
        rw [hn]
        dsimp only
        rw [hp]
      rw [hrun] at h
      cases h
    | ok r =>
      rw [onInode_run hn hp] at h
      cases h
      exact ⟨n, r.st, rfl, hp, rfl, rfl⟩

theorem testfsPutInode_none (hn : inodeHashFind s.hash nr = none) :
    (testfsPutInode nr).run s = .error .undefined := by
  rw [testfsPutInode, Program.reads_bind, hn]
  rfl

theorem testfsPutInode_dirty (hn : inodeHashFind s.hash nr = some n)
    (hdirty : n.inode.dirty = true) :
    (testfsPutInode nr).run s = .error (.assertion .putInodeClean) := by
  rw [testfsPutInode, Program.reads_bind, hn]
  dsimp only
  rw [Program.except_ok_bind, Program.reads_bind, assertC_neg (by simp [hdirty])]
  rfl

/-- The hash table after a reference to a clean inode is dropped. -/
def dropped (h : HashTable) (nr : Nat) (n : HashNode) : HashTable :=
  if n.iCount = 1 then inodeHashRemove h nr
  else inodeHashModify h nr fun n => { n with iCount := n.iCount - 1 }

theorem testfsPutInode_clean (hn : inodeHashFind s.hash nr = some n)
    (hclean : n.inode.dirty = false) :
    (testfsPutInode nr).run s = .ok ⟨(), { s with hash := dropped s.hash nr n }, []⟩ := by
  rw [testfsPutInode, Program.reads_bind, hn]
  dsimp only
  rw [Program.except_ok_bind, Program.reads_bind, assertC_pos hclean, Program.except_ok_bind,
    dropped]
  split_ifs
  · rfl
  · rfl

end Calls

/-- What an inode taken from the freemap becomes. -/
def created (type : InodeType) : Dinode := { Dinode.zero with iType := type.val }

theorem fits_created (type : InodeType) : (created type).Fits where
  word j := by
    have hnr : ∀ i, (created type).blockNr i = 0 := by
      intro i
      unfold Dinode.blockNr
      split <;> rfl
    have htype : 0 ≤ type.val ∧ type.val ≤ 2 := by cases type <;> decide
    simp only [Dinode.word, hnr]
    simp only [created, Dinode.zero]
    split_ifs <;> omega
  iSize := by norm_num [created, Dinode.zero]

/-- A call on the inode table; `modify` assigns to the fields of an inode in memory and sets its
dirty flag. -/
inductive InodeCall
  | get (nr : Nat)
  | modify (nr : Nat) (d : Dinode)
  | sync (nr : Nat)
  | put (nr : Nat)

def InodeCall.perform : InodeCall → FsM Unit
  | .get nr => testfsGetInode nr
  | .modify nr d => onInode nr do
      setDin fun _ => d
      setDirty
  | .sync nr => onInode nr testfsSyncInode
  | .put nr => testfsPutInode nr

/-- Inode numbers are those of the inode blocks, and fields hold what their types can. -/
def InodeCall.Allowed : InodeCall → Prop
  | .get nr => nr < nrInodes
  | .modify _ d => d.Fits
  | _ => True

/-- Runs on an open file system with no inode in memory at first. -/
def inodeTable : System FileSystem InodeCall where
  start s := Layout s.sb ∧ s.hash = inodeHashInit
  step s call s' := call.Allowed ∧ ∃ out, call.perform.run s = .ok ⟨(), s', out⟩

/-- The inode as its users see it: in memory if it is there, else on disk. -/
def FileSystem.value (s : FileSystem) (nr : Nat) : Dinode :=
  match inodeHashFind s.hash nr with
  | none => onDisk s.sb nr
  | some n => n.inode.din

/-- What holds of the inodes in memory: a clean one is the one on disk. -/
structure Cached (s : FileSystem) : Prop where
  layout : Layout s.sb
  filed : Filed s.hash
  node : ∀ nr n, inodeHashFind s.hash nr = some n → nr < nrInodes ∧ n.inode.din.Fits ∧
    (n.inode.dirty = false → n.inode.din = onDisk s.sb nr)

section Steps

variable {s s' : FileSystem} {n : HashNode} {nr m : Nat} {call : InodeCall}

theorem value_memory (hn : inodeHashFind s.hash nr = some n) : s.value nr = n.inode.din := by
  rw [FileSystem.value, hn]

theorem value_disk (hn : inodeHashFind s.hash nr = none) : s.value nr = onDisk s.sb nr := by
  rw [FileSystem.value, hn]

/-- What the users of the inodes see depends on the inodes in memory and on those on disk. -/
theorem value_congr (hfind : (inodeHashFind s'.hash nr).map HashNode.inode =
    (inodeHashFind s.hash nr).map HashNode.inode) (hdisk : onDisk s'.sb nr = onDisk s.sb nr) :
    s'.value nr = s.value nr := by
  cases hn : inodeHashFind s.hash nr with
  | none =>
    rw [hn, Option.map_none, Option.map_eq_none_iff] at hfind
    rw [value_disk hn, value_disk hfind, hdisk]
  | some n =>
    rw [hn, Option.map_some, Option.map_eq_some_iff] at hfind
    obtain ⟨n', hn', heq⟩ := hfind
    rw [value_memory hn, value_memory hn', heq]

/-- A change of the reference counts. -/
theorem Cached.count (h : Cached s) {f : HashNode → HashNode} (hf : ∀ n, (f n).inode = n.inode) :
    Cached { s with hash := inodeHashModify s.hash nr f } ∧
      ∀ m, FileSystem.value { s with hash := inodeHashModify s.hash nr f } m = s.value m := by
  have hkey : ∀ n, n.inode.iNr = nr → (f n).inode.iNr = nr := fun n hn => by rw [hf, hn]
  have hfind : ∀ m, (inodeHashFind (inodeHashModify s.hash nr f) m).map HashNode.inode =
      (inodeHashFind s.hash m).map HashNode.inode := by
    intro m
    rw [inodeHashFind_modify hkey]
    split_ifs
    · rw [Option.map_map]
      exact congrArg (Option.map · _) (funext hf)
    · rfl
  refine ⟨⟨h.layout, h.filed.modify hkey, fun m n hn => ?_⟩, fun m => value_congr (hfind m) rfl⟩
  have heq := hfind m
  rw [hn, Option.map_some, eq_comm, Option.map_eq_some_iff] at heq
  obtain ⟨n', hn', heq⟩ := heq
  exact heq ▸ h.node m n' hn'

theorem find_load (s : FileSystem) (nr m : Nat) :
    inodeHashFind (inodeHashInsert s.hash (loaded s.sb nr)) m =
      if nr = m then some (loaded s.sb nr) else inodeHashFind s.hash m :=
  inodeHashFind_insert ..

/-- An inode read from the disk. -/
theorem Cached.load (h : Cached s) (hnr : nr < nrInodes) (hn : inodeHashFind s.hash nr = none) :
    Cached { s with hash := inodeHashInsert s.hash (loaded s.sb nr) } ∧
      ∀ m, FileSystem.value { s with hash := inodeHashInsert s.hash (loaded s.sb nr) } m =
        s.value m := by
  refine ⟨⟨h.layout, h.filed.insert hn, fun m n hm => ?_⟩, fun m => ?_⟩
  · dsimp only at hm ⊢
    by_cases heq : nr = m
    · rw [find_load, if_pos heq] at hm
      obtain rfl := Option.some.inj hm
      rw [← heq]
      exact ⟨hnr, fits_loaded s.sb nr, fun _ => rfl⟩
    · rw [find_load, if_neg heq] at hm
      exact h.node m n hm
  · by_cases hm : nr = m
    · have hnew : inodeHashFind (inodeHashInsert s.hash (loaded s.sb nr)) m =
          some (loaded s.sb nr) := by
        rw [find_load, if_pos hm]
      have hvalue := value_memory (s := { s with
        hash := inodeHashInsert s.hash (loaded s.sb nr) }) hnew
      rw [hvalue, ← hm, value_disk hn]
      rfl
    · refine value_congr ?_ rfl
      rw [find_load, if_neg hm]

/-- The last reference to a clean inode is dropped. -/
theorem Cached.unload (h : Cached s) (hn : inodeHashFind s.hash nr = some n)
    (hclean : n.inode.dirty = false) :
    Cached { s with hash := inodeHashRemove s.hash nr } ∧
      ∀ m, FileSystem.value { s with hash := inodeHashRemove s.hash nr } m = s.value m := by
  refine ⟨⟨h.layout, h.filed.remove nr, fun m n' hm => ?_⟩, fun m => ?_⟩
  · dsimp only at hm ⊢
    by_cases heq : m = nr
    · rw [inodeHashFind_remove, if_pos heq] at hm
      cases hm
    · rw [inodeHashFind_remove, if_neg heq] at hm
      exact h.node m n' hm
  · by_cases hm : m = nr
    · have hgone : inodeHashFind (inodeHashRemove s.hash nr) m = none := by
        rw [inodeHashFind_remove, if_pos hm]
      have hvalue := value_disk (s := { s with hash := inodeHashRemove s.hash nr }) hgone
      rw [hvalue, hm, value_memory hn, (h.node nr n hn).2.2 hclean]
    · refine value_congr ?_ rfl
      rw [inodeHashFind_remove, if_neg hm]

/-- An inode in memory is replaced, and no other inode on disk changes. -/
theorem Cached.replaced (h : Cached s) (hn : inodeHashFind s.hash nr = some n) (sb : SuperBlock)
    (ino : Inode) (hl : Layout sb) (hi : ino.iNr = nr) (hfits : ino.din.Fits)
    (hclean : ino.dirty = false → ino.din = onDisk sb nr)
    (hdisk : ∀ m, m ≠ nr → m < nrInodes → onDisk sb m = onDisk s.sb m) :
    Cached { s with
      sb := sb
      hash := inodeHashModify s.hash nr fun n => { n with inode := ino } } := by
  have hkey : ∀ n : HashNode, n.inode.iNr = nr → ino.iNr = nr := fun _ _ => hi
  refine ⟨hl, h.filed.modify hkey, fun m n' hm => ?_⟩
  dsimp only at hm ⊢
  rw [inodeHashFind_modify hkey] at hm
  by_cases heq : m = nr
  · rw [if_pos heq, heq, hn, Option.map_some] at hm
    obtain rfl := Option.some.inj hm
    rw [heq]
    exact ⟨(h.node nr n hn).1, hfits, hclean⟩
  · rw [if_neg heq] at hm
    obtain ⟨hlt, hfits', hclean'⟩ := h.node m n' hm
    rw [hdisk m heq hlt]
    exact ⟨hlt, hfits', hclean'⟩

theorem value_replaced (hn : inodeHashFind s.hash nr = some n) (sb : SuperBlock) (ino : Inode)
    (hi : ino.iNr = nr) (m : Nat) (hdisk : m ≠ nr → onDisk sb m = onDisk s.sb m) :
    FileSystem.value { s with
      sb := sb
      hash := inodeHashModify s.hash nr fun n => { n with inode := ino } } m =
        if m = nr then ino.din else s.value m := by
  have hkey : ∀ n : HashNode, n.inode.iNr = nr → ino.iNr = nr := fun _ _ => hi
  by_cases heq : m = nr
  · have hnew : inodeHashFind (inodeHashModify s.hash nr fun n => { n with inode := ino }) m =
        some { n with inode := ino } := by
      rw [inodeHashFind_modify hkey, if_pos heq, heq, hn, Option.map_some]
    have hvalue := value_memory (s := { s with
      sb := sb
      hash := inodeHashModify s.hash nr fun n => { n with inode := ino } }) hnew
    rw [hvalue, if_pos heq]
  · rw [if_neg heq]
    refine value_congr ?_ (hdisk heq)
    rw [inodeHashFind_modify hkey, if_neg heq]

/-- An inode in memory is replaced, and the disk changes at most where it lies. -/
theorem Cached.replace (h : Cached s) (hn : inodeHashFind s.hash nr = some n) (sb : SuperBlock)
    (ino : Inode) (hl : Layout sb) (hi : ino.iNr = nr) (hfits : ino.din.Fits)
    (hclean : ino.dirty = false → ino.din = onDisk sb nr)
    (hdisk : ∀ m, m ≠ nr → onDisk sb m = onDisk s.sb m) :
    Cached { s with
      sb := sb
      hash := inodeHashModify s.hash nr fun n => { n with inode := ino } } ∧
    ∀ m, FileSystem.value { s with
      sb := sb
      hash := inodeHashModify s.hash nr fun n => { n with inode := ino } } m =
        if m = nr then ino.din else s.value m :=
  ⟨h.replaced hn sb ino hl hi hfits hclean fun m hm _ => hdisk m hm,
    fun m => value_replaced hn sb ino hi m (hdisk m)⟩

/-- The super block changes, but no inode on disk. -/
theorem Cached.withSuper (h : Cached s) {sb : SuperBlock} (hl : Layout sb)
    (hdisk : ∀ m, m < nrInodes → onDisk sb m = onDisk s.sb m) :
    Cached { s with sb := sb } ∧ ∀ m, m < nrInodes →
      FileSystem.value { s with sb := sb } m = s.value m := by
  refine ⟨⟨hl, h.filed, fun m n hn => ?_⟩, fun m hm => value_congr rfl (hdisk m hm)⟩
  obtain ⟨hlt, hfits, hclean⟩ := h.node m n hn
  exact ⟨hlt, hfits, fun hd => (hclean hd).trans (hdisk m hlt).symm⟩

theorem Cached.get (h : Cached s) (hnr : nr < nrInodes) {out : List Event}
    (hrun : (testfsGetInode nr).run s = .ok ⟨(), s', out⟩) :
    Cached s' ∧ ∀ m, s'.value m = s.value m := by
  cases hn : inodeHashFind s.hash nr with
  | some n =>
    rw [testfsGetInode_memory hn] at hrun
    cases hrun
    exact h.count fun _ => rfl
  | none =>
    rw [testfsGetInode_disk h.layout hnr hn] at hrun
    cases hrun
    exact h.load hnr hn

theorem Cached.put (h : Cached s) {out : List Event}
    (hrun : (testfsPutInode nr).run s = .ok ⟨(), s', out⟩) :
    Cached s' ∧ ∀ m, s'.value m = s.value m := by
  cases hn : inodeHashFind s.hash nr with
  | none =>
    rw [testfsPutInode_none hn] at hrun
    cases hrun
  | some n =>
    cases hdirty : n.inode.dirty with
    | true =>
      rw [testfsPutInode_dirty hn hdirty] at hrun
      cases hrun
    | false =>
      rw [testfsPutInode_clean hn hdirty, dropped] at hrun
      cases hrun
      split_ifs
      · exact h.unload hn hdirty
      · exact h.count fun _ => rfl

theorem Cached.modify (h : Cached s) {d : Dinode} (hd : d.Fits) {out : List Event}
    (hrun : (InodeCall.modify nr d).perform.run s = .ok ⟨(), s', out⟩) :
    Cached s' ∧ ∀ m, m ≠ nr → s'.value m = s.value m := by
  rw [InodeCall.perform] at hrun
  cases hn : inodeHashFind s.hash nr with
  | none =>
    rw [onInode_none hn] at hrun
    cases hrun
  | some n =>
    rw [onInode_run (r := ⟨(), ⟨s.sb, { n.inode with din := d, dirty := true }⟩, []⟩) hn rfl] at hrun
    cases hrun
    have hi : n.inode.iNr = nr := inodeHashFind_iNr hn
    obtain ⟨hcached, hvalue⟩ := h.replace hn s.sb { n.inode with din := d, dirty := true }
      h.layout hi hd (fun h => by cases h) fun _ _ => rfl
    exact ⟨hcached, fun m hm => (hvalue m).trans (if_neg hm)⟩

/-- A sync of an inode in memory: the inode on disk becomes the one in memory, all others stay. -/
theorem Cached.sync (h : Cached s) (hn : inodeHashFind s.hash nr = some n) :
    ∃ s', (onInode nr testfsSyncInode).run s = .ok ⟨(), s', []⟩ ∧ Cached s' ∧
      (∀ m, s'.value m = s.value m) ∧ onDisk s'.sb nr = n.inode.din ∧
      ∀ m, m ≠ nr → onDisk s'.sb m = onDisk s.sb m := by
  have hi : n.inode.iNr = nr := inodeHashFind_iNr hn
  obtain ⟨hnr, hfits, hclean⟩ := h.node nr n hn
  have hsame : ∀ m, (if m = nr then n.inode.din else s.value m) = s.value m := by
    intro m
    split_ifs with hm
    · rw [hm, value_memory hn]
    · rfl
  cases hdirty : n.inode.dirty with
  | false =>
    obtain ⟨hcached, hvalue⟩ := h.replace hn s.sb n.inode h.layout hi hfits hclean fun _ _ => rfl
    exact ⟨_, onInode_run hn (testfsSyncInode_clean hdirty), hcached,
      fun m => (hvalue m).trans (hsame m), (hclean hdirty).symm, fun _ _ => rfl⟩
  | true =>
    have hrun : testfsSyncInode.run ⟨s.sb, n.inode⟩ = .ok ⟨(),
        ⟨synced s.sb n.inode.iNr n.inode.din, { n.inode with dirty := false }⟩, []⟩ :=
      testfsSyncInode_dirty h.layout (hi ▸ hnr) hdirty
    have hdisk : ∀ m, onDisk (synced s.sb n.inode.iNr n.inode.din) m =
        if m = nr then n.inode.din else onDisk s.sb m := fun m => by
      rw [onDisk_synced _ hfits, hi]
    obtain ⟨hcached, hvalue⟩ := h.replace hn (synced s.sb n.inode.iNr n.inode.din)
      { n.inode with dirty := false } (layout_synced h.layout _ _) hi hfits
      (fun _ => ((hdisk nr).trans (if_pos rfl)).symm) fun m hm => (hdisk m).trans (if_neg hm)
    exact ⟨_, onInode_run hn hrun, hcached, fun m => (hvalue m).trans (hsame m),
      (hdisk nr).trans (if_pos rfl), fun m hm => (hdisk m).trans (if_neg hm)⟩

/-- A step changes what the users of an inode see only when it assigns to that inode. -/
theorem Cached.step (h : Cached s) (hstep : inodeTable.step s call s') :
    Cached s' ∧ ∀ m, (∀ d, call ≠ .modify m d) → s'.value m = s.value m := by
  obtain ⟨allowed, out, hrun⟩ := hstep
  cases call with
  | get nr =>
    obtain ⟨hcached, hvalue⟩ := h.get allowed hrun
    exact ⟨hcached, fun m _ => hvalue m⟩
  | modify nr d =>
    obtain ⟨hcached, hvalue⟩ := h.modify allowed hrun
    exact ⟨hcached, fun m hm => hvalue m fun heq => hm d (heq ▸ rfl)⟩
  | sync nr =>
    cases hn : inodeHashFind s.hash nr with
    | none =>
      rw [InodeCall.perform, onInode_none hn] at hrun
      cases hrun
    | some n =>
      obtain ⟨s₁, heq, hcached, hvalue, -⟩ := h.sync hn
      rw [InodeCall.perform, heq] at hrun
      cases hrun
      exact ⟨hcached, fun m _ => hvalue m⟩
  | put nr =>
    obtain ⟨hcached, hvalue⟩ := h.put hrun
    exact ⟨hcached, fun m _ => hvalue m⟩

theorem inodeTable_cached {calls : List InodeCall} (run : inodeTable.Run calls s) : Cached s := by
  refine run.invariant_state (I := Cached) ?_ fun s call s' h hstep => (h.step hstep).1
  rintro s ⟨hlayout, hhash⟩
  refine ⟨hlayout, hhash ▸ filed_init, fun nr n hn => ?_⟩
  rw [hhash] at hn
  cases hn

/-- The runs that go on from a state. -/
def inodesFrom (s : FileSystem) : System FileSystem InodeCall :=
  { inodeTable with start := fun t => t = s }

/-- An inode that no call assigns to stays as its users see it. -/
theorem value_run {calls : List InodeCall} (h : Cached s) (run : (inodesFrom s).Run calls s')
    (huntouched : ∀ d, InodeCall.modify nr d ∉ calls) : Cached s' ∧ s'.value nr = s.value nr := by
  refine run.invariant (I := fun calls t => (∀ d, InodeCall.modify nr d ∉ calls) →
    Cached t ∧ t.value nr = s.value nr) ?_ ?_ huntouched
  · rintro t rfl -
    exact ⟨h, rfl⟩
  · intro calls t call t' ih hstep hcalls
    simp only [List.mem_append, List.mem_singleton, not_or] at hcalls
    obtain ⟨hcached, hvalue⟩ := ih fun d => (hcalls d).1
    obtain ⟨hcached', hvalue'⟩ := hcached.step hstep
    exact ⟨hcached', (hvalue' nr fun d heq => (hcalls d).2 heq.symm).trans hvalue⟩

/-- Taking a reference: the inode in memory with its count raised, or the one on disk. -/
theorem get_spec (hl : Layout s.sb) (hnr : nr < nrInodes) :
    ∃ s', (testfsGetInode nr).run s = .ok ⟨(), s', []⟩ ∧ s'.sb = s.sb ∧
      (∀ m, m ≠ nr → inodeHashFind s'.hash m = inodeHashFind s.hash m) ∧
      (∀ n, inodeHashFind s.hash nr = some n →
        inodeHashFind s'.hash nr = some { n with iCount := n.iCount + 1 }) ∧
      (inodeHashFind s.hash nr = none →
        inodeHashFind s'.hash nr = some ⟨⟨onDisk s.sb nr, false, nr⟩, 1⟩) := by
  cases hn : inodeHashFind s.hash nr with
  | some n =>
    have hkey : ∀ n : HashNode, n.inode.iNr = nr → n.inode.iNr = nr := fun _ => id
    have hfind := inodeHashFind_modify (f := fun n => { n with iCount := n.iCount + 1 }) hkey s.hash
    refine ⟨_, testfsGetInode_memory hn, rfl, fun m hm => ?_, fun n' hn' => ?_, fun h => ?_⟩
    · exact (hfind m).trans (if_neg hm)
    · cases hn'
      dsimp only
      rw [hfind, if_pos rfl, hn, Option.map_some]
    · cases h
  | none =>
    refine ⟨_, testfsGetInode_disk hl hnr hn, rfl, fun m hm => ?_, fun n' hn' => ?_, fun _ => ?_⟩
    · exact (find_load s nr m).trans (if_neg (Ne.symm hm))
    · cases hn'
    · exact (find_load s nr nr).trans (if_pos rfl)

/-- An assignment to an inode in memory. -/
theorem modify_spec (hn : inodeHashFind s.hash nr = some n) (d : Dinode) :
    ∃ s', (InodeCall.modify nr d).perform.run s = .ok ⟨(), s', []⟩ ∧
      inodeHashFind s'.hash nr = some ⟨⟨d, true, nr⟩, n.iCount⟩ := by
  have hi : n.inode.iNr = nr := inodeHashFind_iNr hn
  have hrun := onInode_run (p := (setDin fun _ => d) >>= fun _ => setDirty)
    (r := ⟨(), ⟨s.sb, ⟨d, true, n.inode.iNr⟩⟩, []⟩) hn rfl
  have hfind := inodeHashFind_modify
    (f := fun n' => { n' with inode := ⟨d, true, n.inode.iNr⟩ })
    (fun _ _ => hi) s.hash nr
  refine ⟨_, hrun, hfind.trans ?_⟩
  rw [if_pos rfl, hn, Option.map_some, hi]

/-- In every state reached: one inode in memory for each number; a repeated get returns the same
inode with its count raised; a sync leaves every other inode on disk as it was; and whatever calls
follow the sync, as long as none assigns to the inode, a get yields the inode that was synced. -/
theorem inode_persistence {calls : List InodeCall} (run : inodeTable.Run calls s) :
    ((inMemory s.hash).map fun n => n.inode.iNr).Nodup ∧
    (∀ nr < nrInodes, ∃ s', (testfsGetInode nr).run s = .ok ⟨(), s', []⟩ ∧ s'.sb = s.sb ∧
      (∀ m, m ≠ nr → inodeHashFind s'.hash m = inodeHashFind s.hash m) ∧
      ∀ n, inodeHashFind s.hash nr = some n →
        inodeHashFind s'.hash nr = some { n with iCount := n.iCount + 1 }) ∧
    ∀ nr n, inodeHashFind s.hash nr = some n →
      ∃ s', (onInode nr testfsSyncInode).run s = .ok ⟨(), s', []⟩ ∧
        onDisk s'.sb nr = n.inode.din ∧
        (∀ m, m ≠ nr → onDisk s'.sb m = onDisk s.sb m) ∧
        ∀ calls' t, (inodesFrom s').Run calls' t → (∀ d, InodeCall.modify nr d ∉ calls') →
          ∃ t' n', (testfsGetInode nr).run t = .ok ⟨(), t', []⟩ ∧
            inodeHashFind t'.hash nr = some n' ∧ n'.inode.din = n.inode.din := by
  have h := inodeTable_cached run
  refine ⟨h.filed.nodup, fun nr hnr => ?_, fun nr n hn => ?_⟩
  · obtain ⟨s', hrun, hsb, hother, hsame, -⟩ := get_spec h.layout hnr
    exact ⟨s', hrun, hsb, hother, hsame⟩
  · obtain ⟨s', hrun, hcached, hvalue, hdisk, hother⟩ := h.sync hn
    refine ⟨s', hrun, hdisk, hother, fun calls' t run' huntouched => ?_⟩
    obtain ⟨hcached', hvalue'⟩ := value_run hcached run' huntouched
    obtain ⟨t', hget, -, -, hmemory, hload⟩ := get_spec hcached'.layout (h.node nr n hn).1
    rw [hvalue nr, value_memory hn] at hvalue'
    cases hn' : inodeHashFind t.hash nr with
    | some n' =>
      rw [value_memory hn'] at hvalue'
      exact ⟨t', _, hget, hmemory n' hn', hvalue'⟩
    | none =>
      rw [value_disk hn'] at hvalue'
      exact ⟨t', _, hget, hload hn', hvalue'⟩

/-- Inodes 5 and 6 of a new file system: 5 is made a file and synced, 6 is made a directory, and a
second reference to 5 finds the file. -/
theorem inode_persistence_synced : ∃ s₂ s₃ t t' : FileSystem, ∃ n,
    inodeTable.Run [.get 5, .modify 5 (created .file)] s₂ ∧
    (onInode 5 testfsSyncInode).run s₂ = .ok ⟨(), s₃, []⟩ ∧ onDisk s₃.sb 5 = created .file ∧
    (inodesFrom s₃).Run [.get 6, .modify 6 (created .dir)] t ∧
    (testfsGetInode 5).run t = .ok ⟨(), t', []⟩ ∧ inodeHashFind t'.hash 5 = some n ∧
    n.inode.din = created .file := by
  have five : 5 < nrInodes := by decide
  have six : 6 < nrInodes := by decide
  have start : inodeTable.Run [] ⟨newSuperBlock 128, inodeHashInit, 0⟩ :=
    .start ⟨newSuperBlock_layout 128, rfl⟩
  obtain ⟨s₁, hget₁, -, -, -, hload⟩ := get_spec (inodeTable_cached start).layout five
  obtain ⟨s₂, hmodify₂, hfind₂⟩ := modify_spec (hload rfl) (created .file)
  have step₁ : inodeTable.step _ (.get 5) s₁ := ⟨five, _, hget₁⟩
  have step₂ : inodeTable.step s₁ (.modify 5 (created .file)) s₂ := ⟨fits_created _, _, hmodify₂⟩
  have run := (start.next step₁).next step₂
  obtain ⟨-, -, hsynced⟩ := inode_persistence run
  obtain ⟨s₃, hsync, hdisk, -, hkept⟩ := hsynced 5 _ hfind₂
  have step₃ : inodeTable.step s₂ (.sync 5) s₃ := ⟨trivial, _, hsync⟩
  have hcached := inodeTable_cached (run.next step₃)
  obtain ⟨t₁, hget, -, -, hmemory, hload'⟩ := get_spec hcached.layout six
  obtain ⟨n', hfind⟩ : ∃ n', inodeHashFind t₁.hash 6 = some n' := by
    cases hn : inodeHashFind s₃.hash 6 with
    | some n' => exact ⟨_, hmemory n' hn⟩
    | none => exact ⟨_, hload' hn⟩
  obtain ⟨t, hmodify, -⟩ := modify_spec hfind (created .dir)
  have step₄ : (inodesFrom s₃).step s₃ (.get 6) t₁ := ⟨six, _, hget⟩
  have step₅ : (inodesFrom s₃).step t₁ (.modify 6 (created .dir)) t :=
    ⟨fits_created _, _, hmodify⟩
  have later := ((System.Run.start (T := inodesFrom s₃) rfl).next step₄).next step₅
  obtain ⟨t', n, hagain, hn, hdin⟩ := hkept _ t later (by simp)
  exact ⟨s₂, s₃, t, t', n, run, hsync, hdisk, later, hagain, hn, hdin⟩

end Steps

end Ece344Lab.Fs
