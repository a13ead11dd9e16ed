import Mathlib.Data.Multiset.Count
import Ece344Lab.Fs.DirMap
import Ece344Lab.Fs.Testfs

/-!
# References to the inodes in memory

What the program holds is a multiset of inode numbers: `testfs_get_inode` adds one,
`testfs_put_inode` takes one away, and every other operation on an inode or on the super
block leaves the counts alone. Between two commands it is the current directory, once. The
one path that forgets a reference is `ls` of something that is no directory.
-/
namespace Ece344Lab.Fs

open Ece344Lab.Library
open Program (Preserves Leads)

/-- The program holds the references `refs`, and `dir` is the current directory. -/
structure Held (dir : Nat) (refs : Multiset Nat) (s : FileSystem) : Prop where
  curDir : s.curDir = dir
  filed : Filed s.hash
  count : ∀ nr, (inodeHashFind s.hash nr).elim 0 HashNode.iCount = refs.count nr
  pos : ∀ nr n, inodeHashFind s.hash nr = some n → 0 < n.iCount

section Counts

variable {dir nr : Nat} {refs : Multiset Nat} {s : FileSystem} {n : HashNode}

theorem Held.node (h : Held dir refs s) (hn : inodeHashFind s.hash nr = some n) :
    n.iCount = refs.count nr := by
  have hcount := h.count nr
  rwa [hn] at hcount

/-- An inode to which there is a reference is in memory. -/
theorem Held.find (h : Held dir refs s) (hmem : nr ∈ refs) :
    ∃ n, inodeHashFind s.hash nr = some n := by
  cases hn : inodeHashFind s.hash nr with
  | some n => exact ⟨n, rfl⟩
  | none =>
    have hcount := h.count nr
    rw [hn] at hcount
    exact absurd (Multiset.count_pos.mpr hmem) (by rw [← hcount]; exact lt_irrefl 0)

/-- A change to the inode `nr` and its count. -/
theorem Held.modify {refs' : Multiset Nat} (h : Held dir refs s)
    (hn : inodeHashFind s.hash nr = some n) {f : HashNode → HashNode}
    (hkey : ∀ n, n.inode.iNr = nr → (f n).inode.iNr = nr) (hcount : (f n).iCount = refs'.count nr)
    (hpos : 0 < (f n).iCount) (hother : ∀ m, m ≠ nr → refs'.count m = refs.count m)
    (sb : SuperBlock) :
    Held dir refs' { s with sb := sb, hash := inodeHashModify s.hash nr f } where
  curDir := h.curDir
  filed := h.filed.modify hkey
  count m := by
    dsimp only
    rw [inodeHashFind_modify hkey]
    split_ifs with hm
    · rw [hm, hn]
      exact hcount
    · rw [h.count, hother m hm]
  pos m n' hn' := by
    dsimp only at hn'
    rw [inodeHashFind_modify hkey] at hn'
    split_ifs at hn' with hm
    · rw [hm, hn] at hn'
      obtain rfl := Option.some.inj hn'
      exact hpos
    · exact h.pos m n' hn'

/-- The first reference to an inode. -/
theorem Held.insert (h : Held dir refs s) (hn : inodeHashFind s.hash nr = none) (ino : Inode)
    (hino : ino.iNr = nr) :
    Held dir (nr ::ₘ refs) { s with hash := inodeHashInsert s.hash ⟨ino, 1⟩ } where
  curDir := h.curDir
  filed := h.filed.insert (by rwa [hino])
  count m := by
    dsimp only
    rw [inodeHashFind_insert, Multiset.count_cons, ← h.count m, hino]
    by_cases hm : nr = m
    · rw [if_pos hm, if_pos hm.symm, ← hm, hn]
      rfl
    · rw [if_neg hm, if_neg (Ne.symm hm)]
      rfl
  pos m n' hn' := by
    dsimp only at hn'
    rw [inodeHashFind_insert] at hn'
    split_ifs at hn' with hm
    · obtain rfl := Option.some.inj hn'
      exact Nat.one_pos
    · exact h.pos m n' hn'

/-- The last reference to an inode is dropped. -/
theorem Held.remove (h : Held dir (nr ::ₘ refs) s) (hlast : refs.count nr = 0) :
    Held dir refs { s with hash := inodeHashRemove s.hash nr } where
  curDir := h.curDir
  filed := h.filed.remove nr
  count m := by
    dsimp only
    rw [inodeHashFind_remove]
    split_ifs with hm
    · rw [hm, hlast]
      rfl
    · rw [h.count, Multiset.count_cons_of_ne hm]
  pos m n' hn' := by
    dsimp only at hn'
    rw [inodeHashFind_remove] at hn'
    split_ifs at hn' with hm
    exact h.pos m n' hn'

end Counts

section Operations

variable {dir : Nat} {refs : Multiset Nat}

/-- The type of an inode, in memory if it is there, else on disk. -/
def FileSystem.typeOf (s : FileSystem) (nr : Nat) : Except Halt Int :=
  match inodeHashFind s.hash nr with
  | some n => .ok n.inode.din.iType
  | none => do
    let block ← testfsReadInodeBlock s.sb nr
    return (Dinode.decode block (testfsInodeToBlockOffset nr)).iType

theorem wp_testfsGetInode {s : FileSystem} (h : Held dir refs s) (nr : Nat) :
    Program.wp (testfsGetInode nr) s (fun _ s' _ => Held dir (nr ::ₘ refs) s' ∧
      ∃ n, inodeHashFind s'.hash nr = some n ∧ s.typeOf nr = .ok n.inode.din.iType)
      fun _ => True := by
  cases hn : inodeHashFind s.hash nr with
  | some n =>
    rw [Program.wp_ok (testfsGetInode_memory hn)]
    refine ⟨h.modify hn (f := fun n => { n with iCount := n.iCount + 1 }) (fun _ hk => hk) ?_
      (Nat.succ_pos _) (fun m hm => ?_) s.sb, ?_⟩
    · rw [Multiset.count_cons_self, h.node hn]
    · rw [Multiset.count_cons_of_ne hm]
    · refine ⟨{ n with iCount := n.iCount + 1 }, ?_, ?_⟩
      · dsimp only
        rw [inodeHashFind_modify (f := fun n => { n with iCount := n.iCount + 1 }) fun _ hk => hk,
          if_pos rfl, hn]
        rfl
      · rw [FileSystem.typeOf, hn]
  | none =>
    rw [testfsGetInode, Program.wp_bind]
    refine Program.wp_get.mpr ?_
    rw [hn]
    refine Program.wp_bind.mpr (Program.wp_reads.mpr ⟨fun block hblock => ?_, fun _ _ => trivial⟩)
    rw [Program.wp_modify]
    refine ⟨h.insert hn _ rfl,
      ⟨⟨Dinode.decode block (testfsInodeToBlockOffset nr), false, nr⟩, 1⟩, ?_, ?_⟩
    · dsimp only
      rw [inodeHashFind_insert, if_pos rfl]
    · rw [FileSystem.typeOf, hn]
      dsimp only
      rw [hblock]
      rfl

theorem held_get (nr : Nat) : Leads (Held dir refs) (Held dir (nr ::ₘ refs)) (testfsGetInode nr) :=
  fun _ hs => (wp_testfsGetInode hs nr).imp fun _ _ _ h => h.1

theorem held_put (nr : Nat) : Leads (Held dir (nr ::ₘ refs)) (Held dir refs) (testfsPutInode nr) := by
  intro s hs
  obtain ⟨n, hn⟩ := hs.find (Multiset.mem_cons_self nr refs)
  have hcount := hs.node hn
  rw [Multiset.count_cons_self] at hcount
  cases hdirty : n.inode.dirty with
  | true =>
    rw [Program.wp_error (testfsPutInode_dirty hn hdirty)]
    trivial
  | false =>
    rw [Program.wp_ok (testfsPutInode_clean hn hdirty), dropped]
    dsimp only
    split_ifs with hone
    · exact hs.remove (by omega)
    · refine hs.modify hn (f := fun n => { n with iCount := n.iCount - 1 }) (fun _ hk => hk) ?_ ?_
        (fun m hm => ?_) s.sb
      · dsimp only
        omega
      · have hpos := hs.pos nr n hn
        dsimp only
        omega
      · rw [Multiset.count_cons_of_ne hm]

/-- A program on an inode in memory that does not change its number. -/
theorem held_onInode {α : Type} {nr : Nat} {p : InodeM α}
    (hp : Preserves (fun st => st.ino.iNr = nr) p) : Preserves (Held dir refs) (onInode nr p) := by
  intro s hs
  refine Program.wp_intro (fun r hr => ?_) fun _ _ => trivial
  obtain ⟨a, s', log⟩ := r
  obtain ⟨n, st', hn, hrun, hsb, hhash⟩ := onInode_inv hr
  have hiNr : st'.ino.iNr = nr := hp.of_ok (inodeHashFind_iNr hn) hrun
  have hcur : s' = { s with
      sb := st'.sb, hash := inodeHashModify s.hash nr fun n => { n with inode := st'.ino } } := by
    rw [onInode_run hn hrun] at hr
    cases hr
    rfl
  have hcount := hs.node hn
  rw [hcur]
  exact hs.modify hn (f := fun n => { n with inode := st'.ino }) (fun _ _ => hiNr) hcount
    (hs.pos nr n hn) (fun _ _ => rfl) st'.sb

theorem held_onSuper {α : Type} (m : SbM α) : Preserves (Held dir refs) (onSuper m) :=
  .zoom fun _ _ hs => ⟨hs.curDir, hs.filed, hs.count, hs.pos⟩

theorem held_read {α : Type} (nr : Nat) (f : Dinode → Dev → Except Halt α) :
    Preserves (Held dir refs) (onInodeRead nr f) := .reads _

end Operations

section Number

variable {nr : Nat}

/-- The inode has the number `nr`. -/
def Numbered (nr : Nat) (st : InodeSt) : Prop := st.ino.iNr = nr

theorem Numbered.of_type {α : Type} {p : InodeM α} (hp : ∀ t, Preserves (OfType nr t) p) :
    Preserves (Numbered nr) p := fun st hst =>
  (hp st.ino.din.iType st ⟨hst, rfl⟩).imp fun _ _ _ h => h.1

theorem testfsWriteData_number (buf : Nat → UInt8) (start : Int) (size : Nat) :
    Preserves (Numbered nr) (testfsWriteData buf start size) :=
  Numbered.of_type fun _ => testfsWriteData_type _ _ _

theorem testfsAddDirent_number (name : List UInt8) (inodeNr : Int) :
    Preserves (Numbered nr) (testfsAddDirent name inodeNr) :=
  Numbered.of_type fun _ => testfsAddDirent_type _ _

theorem testfsFreeBlockFromInode_number (p : Int) :
    Preserves (Numbered nr) (testfsFreeBlockFromInode p) :=
  Numbered.of_type fun _ => testfsFreeBlockFromInode_type _

theorem setDin_number (f : Dinode → Dinode) : Preserves (Numbered nr) (setDin f) :=
  .modify fun _ hs => hs

theorem setDirty_number : Preserves (Numbered nr) setDirty := .modify fun _ hs => hs

theorem testfsSyncInode_number : Preserves (Numbered nr) testfsSyncInode :=
  .get_bind fun _ hs => .ite
    (fun _ => .bind (.reads _) fun _ => .bind (.reads _) fun _ _ _ => hs) fun _ => .pure _

theorem freeDirect_number (eBlockNr : Int) (n : Nat) :
    ∀ i : Nat, Preserves (Numbered nr) (freeDirect eBlockNr n i) := by
  induction n with
  | zero => exact fun _ => .pure _
  | succ n ih =>
    intro i
    refine .ite (fun _ => ?_) fun _ => .pure _
    refine .bind .get fun _ => .ite (fun _ => ?_) fun _ => ih _
    exact .bind (testfsFreeBlockFromInode_number _) fun _ => .bind (setDin_number _) fun _ => ih _

theorem freeTable_number (eBlockNr : Int) (table : Block) (n : Nat) :
    ∀ (j : Nat) (deleted : Int), Preserves (Numbered nr) (freeTable eBlockNr table n j deleted) := by
  induction n with
  | zero => exact fun _ _ => .pure _
  | succ n ih =>
    intro j deleted
    rw [freeTable]
    generalize table.int j = p
    refine .ite (fun _ => ?_) fun _ => .pure _
    exact .bind (testfsFreeBlockFromInode_number _) fun _ => ih _ _

theorem freeDouble_number (eBlockNr : Int) (block : Block) (n : Nat) :
    ∀ (i : Nat) (deleted : Int),
      Preserves (Numbered nr) (freeDouble eBlockNr block n i deleted) := by
  induction n with
  | zero => exact fun _ _ => .pure _
  | succ n ih =>
    intro i deleted
    rw [freeDouble]
    generalize block.int i = p
    refine .ite (fun _ => .ite (fun _ => ?_) fun _ => ih _ _) fun _ => .pure _
    refine .bind (.reads _) fun single => .bind ?_ fun _ => ?_
    · exact freeTable_number _ _ _ _ _
    · exact .bind (testfsFreeBlockFromInode_number _) fun _ => ih _ _

theorem testfsFreeBlocks_number : Preserves (Numbered nr) testfsFreeBlocks := by
  unfold testfsFreeBlocks
  -- each step is one of those above, or reads the state
  repeat' first
    | with_reducible exact testfsFreeBlockFromInode_number _
    | with_reducible exact setDin_number _
    | with_reducible exact freeDirect_number _ _ _
    | with_reducible exact freeTable_number _ _ _ _ _
    | with_reducible exact freeDouble_number _ _ _ _ _
    | with_reducible exact setDirty_number
    | with_reducible exact .pure _
    | with_reducible exact .reads _
    | with_reducible exact .get
    | with_reducible refine .ite (fun _ => ?_) fun _ => ?_
    | with_reducible refine .bind ?_ fun _ => ?_

theorem clearInode_number : Preserves (Numbered nr) clearInode := by
  refine .bind testfsFreeBlocks_number fun _ => .bind (.reads _) fun _ => ?_
  refine .bind (setDin_number _) fun _ => .bind setDirty_number fun _ => ?_
  refine .bind .get fun _ => .bind (.zoom fun _ _ hs => hs) fun _ => ?_
  exact testfsSyncInode_number

end Number

section Functions

variable {dir : Nat} {refs : Multiset Nat}

theorem held_testfsRemoveDirentAllowed (nr : Nat) :
    Preserves (Held dir refs) (testfsRemoveDirentAllowed nr) :=
  Leads.bind (held_get nr) fun _ => Leads.bind (held_read nr _) fun _ =>
    Leads.bind (held_put nr) fun _ => Preserves.pure _

theorem held_testfsRemoveDirent (d : Nat) (name : List UInt8) :
    Preserves (Held dir refs) (testfsRemoveDirent d name) := by
  refine .ite (fun _ => .pure _) fun _ => .bind (held_read _ _) fun r => ?_
  cases r with
  | atEnd pOffset => exact .pure _
  | found e pOffset =>
    refine .bind (held_testfsRemoveDirentAllowed _) fun ret => .ite (fun _ => .pure _) fun _ => ?_
    refine .bind (held_onInode (testfsWriteData_number _ _ _)) fun ret => ?_
    exact .ite (fun _ => .pure _) fun _ => .pure _

theorem held_testfsCreateEmptyDir (pInodeNr cdir : Nat) :
    Preserves (Held dir refs) (testfsCreateEmptyDir pInodeNr cdir) := by
  refine .bind (held_read _ _) fun type => .bind (.reads _) fun _ => ?_
  refine .bind (held_onInode (testfsAddDirent_number _ _)) fun _ => .ite (fun _ => .pure _) fun _ => ?_
  refine .bind (held_onInode (testfsAddDirent_number _ _)) fun _ => .ite (fun _ => ?_) fun _ => .pure _
  exact .bind (held_testfsRemoveDirent _ _) fun _ => .pure _

/-- The entry of the new inode in its directory. -/
theorem held_enter (d nr : Nat) (name : List UInt8) :
    Preserves (Held dir refs) (onInode d (testfsAddDirent name nr) >>= fun ret =>
      if ret < 0 then pure ret else onInode d testfsSyncInode >>= fun _ => pure (0 : Int)) := by
  refine .bind (held_onInode (testfsAddDirent_number _ _)) fun _ => ?_
  refine .ite (fun _ => .pure _) fun _ => ?_
  exact .bind (held_onInode testfsSyncInode_number) fun _ => .pure _

theorem held_fillInode (d : Option Nat) (type : InodeType) (name : List UInt8) (nr : Nat) :
    Preserves (Held dir refs) (fillInode d type name nr) := by
  cases d with
  | none =>
    refine .ite (fun _ => ?_) fun _ => .pure _
    exact .bind (held_testfsCreateEmptyDir _ _) fun _ => .ite (fun _ => .pure _) fun _ => .pure _
  | some d =>
    refine .ite (fun _ => ?_) fun _ => held_enter d nr name
    refine .bind (held_testfsCreateEmptyDir _ _) fun _ => .ite (fun _ => .pure _) fun _ => ?_
    exact held_enter d nr name

theorem held_testfsRemoveInode (nr : Nat) :
    Leads (Held dir (nr ::ₘ refs)) (Held dir refs) (testfsRemoveInode nr) :=
  Leads.bind (held_onInode clearInode_number) fun _ => held_put nr

/-- A created inode is referenced. -/
theorem wp_testfsCreateInode {s : FileSystem} (h : Held dir refs s) (type : InodeType) :
    Program.wp (testfsCreateInode type) s
      (fun a s' _ => Held dir (if a.1 < 0 then refs else a.2 ::ₘ refs) s') fun _ => True := by
  rw [testfsCreateInode, Program.wp_bind]
  refine (held_onSuper _ s h).imp fun nr s₁ _ h₁ => ?_
  rw [Program.wp_ite]
  refine ⟨fun hneg => ?_, fun _ => Program.wp_ite.mpr ⟨fun _ => ?_, fun _ => ?_⟩⟩
  · rw [Program.wp_pure]
    dsimp only
    rwa [if_pos hneg]
  · refine Program.wp_bind.mpr ((held_onSuper _ s₁ h₁).imp fun _ s₂ _ h₂ => ?_)
    rw [Program.wp_pure]
    dsimp only
    rwa [if_pos (by decide)]
  · refine Program.wp_bind.mpr ((held_get _ s₁ h₁).imp fun _ s₂ _ h₂ => ?_)
    have hset : Preserves (Numbered nr.toNat) (do
        setDin fun d => { d with iType := type.val }
        setDirty) := .bind (setDin_number _) fun _ => setDirty_number
    refine Program.wp_bind.mpr ((held_onInode hset s₂ h₂).imp fun _ s₃ _ h₃ => ?_)
    rw [Program.wp_pure]
    dsimp only
    rwa [if_neg (by decide)]

theorem held_testfsCreateFileOrDir (d : Option Nat) (type : InodeType) (name : List UInt8) :
    Preserves (Held dir refs) (testfsCreateFileOrDir d type name) := by
  have hcreate : Preserves (Held dir refs) (testfsCreateInode type >>= fun a =>
      if a.1 < 0 then pure a.1
      else fillInode d type name a.2 >>= fun ret =>
        if ret < 0 then testfsRemoveInode a.2 >>= fun _ => pure ret
        else onInode a.2 testfsSyncInode >>= fun _ => testfsPutInode a.2 >>= fun _ => pure 0) := by
    intro s hs
    refine Program.wp_bind.mpr ((wp_testfsCreateInode hs type).imp fun a s₁ _ h₁ => ?_)
    by_cases hneg : a.1 < 0
    · rw [if_pos hneg] at h₁ ⊢
      exact h₁
    rw [if_neg hneg] at h₁ ⊢
    have hrest : Leads (Held dir (a.2 ::ₘ refs)) (Held dir refs)
        (fillInode d type name a.2 >>= fun ret =>
          if ret < 0 then testfsRemoveInode a.2 >>= fun _ => pure ret
          else onInode a.2 testfsSyncInode >>= fun _ => testfsPutInode a.2 >>= fun _ => pure 0) := by
      refine Leads.bind (held_fillInode _ _ _ _) fun ret => Leads.ite (fun _ => ?_) fun _ => ?_
      · exact Leads.bind (held_testfsRemoveInode _) fun _ => Preserves.pure _
      · exact Leads.bind (held_onInode testfsSyncInode_number) fun _ =>
          Leads.bind (held_put _) fun _ => Preserves.pure _
    exact (hrest s₁ h₁).imp fun _ _ _ h => h
  cases d with
  | none =>
    exact .bind (.pure _) fun _ => .ite (fun _ => .pure _) fun _ => hcreate
  | some d =>
    exact .bind (held_read _ _) fun _ => .ite (fun _ => .pure _) fun _ => hcreate

theorem held_testfsPwd (depth : Nat) : ∀ (refs : Multiset Nat) (nr : Nat),
    Preserves (Held dir refs) (testfsPwd depth nr) := by
  induction depth with
  | zero => exact fun _ _ => .stop _
  | succ depth ih =>
    intro refs nr
    refine .bind (held_read _ _) fun p => .bind (.reads _) fun _ => ?_
    refine .ite (fun _ => .bind (fun _ hs => hs) fun _ => .pure _) fun _ => ?_
    refine Leads.bind (held_get _) fun _ => Leads.bind (held_read _ _) fun e => ?_
    cases e with
    | none => exact fun _ _ => trivial
    | some e =>
      refine Leads.bind (ih _ _) fun _ => Leads.bind (held_put _) fun _ => ?_
      refine Preserves.bind (.reads _) fun _ => ?_
      exact .bind (fun _ hs => hs) fun _ => .pure _

theorem held_lsLoop {recurse : Nat → FsM Unit}
    (hr : ∀ (refs : Multiset Nat) nr, Preserves (Held dir refs) (recurse nr)) (recursive : Bool)
    (nr n : Nat) : ∀ offset, Preserves (Held dir refs) (lsLoop recurse recursive nr n offset) := by
  induction n with
  | zero => exact fun _ => .stop _
  | succ n ih =>
    intro offset
    refine .bind (held_read _ _) fun next => ?_
    cases next with
    | none => exact .pure _
    | some next =>
      obtain ⟨d, offset⟩ := next
      refine .ite (fun _ => ih _) fun _ => ?_
      refine Leads.bind (held_get _) fun _ => Leads.bind (held_read _ _) fun type => ?_
      refine Leads.bind (Preserves.reads _) fun name => Leads.bind (J := Held dir (_ ::ₘ refs))
        (fun _ hs => hs) fun _ => ?_
      refine Leads.ite (fun _ => ?_) fun _ => ?_
      · exact Leads.bind (hr _ _) fun _ => Leads.bind (held_put _) fun _ => ih _
      · exact Leads.bind (held_put _) fun _ => ih _

theorem held_testfsLs (recursive : Bool) (depth : Nat) : ∀ (refs : Multiset Nat) (nr : Nat),
    Preserves (Held dir refs) (testfsLs recursive depth nr) := by
  induction depth with
  | zero => exact fun _ _ => .stop _
  | succ depth ih =>
    intro refs nr
    exact .bind (held_read _ _) fun size => held_lsLoop ih _ _ _ _

end Functions

section Commands

/-- Between two commands: the one reference is the current directory. -/
def AtRest (s : FileSystem) : Prop := Held s.curDir {s.curDir} s

/-- `testfs_dir_name_to_inode_nr(c->cur_dir, name)` on a state. -/
def FileSystem.lookup (s : FileSystem) (name : Token) : Except Halt Int :=
  match inodeHashFind s.hash s.curDir with
  | none => .error .undefined
  | some n => testfsDirNameToInodeNr n.inode.din s.sb.dev name.bytes

/-- The command is no `ls` or `lsr` of something that is no directory. -/
def ListsDir (s : FileSystem) (c : Command) : Prop :=
  c.name = .ls ∨ c.name = .lsr → ∀ name nr, c.args = [name] → s.lookup name = .ok nr → 0 ≤ nr →
    s.typeOf nr.toNat = .ok InodeType.dir.val

variable {dir : Nat} {refs : Multiset Nat}

theorem Held.atRest {s : FileSystem} (h : Held dir {dir} s) : AtRest s := by
  have hcur := h.curDir
  subst hcur
  exact h

/-- A command that keeps the current directory. -/
theorem atRest_of_held {α : Type} {m : FsM α} (h : ∀ dir, Preserves (Held dir {dir}) m) :
    Preserves AtRest m := fun s hs => (h s.curDir s hs).imp fun _ _ _ h' => h'.atRest

theorem held_lookupCurDir (name : Token) : Preserves (Held dir refs) (lookupCurDir name) :=
  .get_bind fun _ _ => held_read _ _

theorem held_cmdPwd (args : List Token) : Preserves (Held dir refs) (cmdPwd args) := by
  cases args with
  | nil =>
    refine .get_bind fun s _ => .bind (held_testfsPwd _ _ _) fun _ => ?_
    exact .bind (fun _ hs => hs) fun _ => .pure _
  | cons a args => exact .pure _

theorem held_cmdMake (type : InodeType) (args : List Token) :
    Preserves (Held dir refs) (cmdMake type args) := by
  rcases args with _ | ⟨name, _ | ⟨b, args⟩⟩
  · exact .pure _
  · exact .get_bind fun s _ => held_testfsCreateFileOrDir _ _ _
  · exact .pure _

theorem held_cmdRm (args : List Token) : Preserves (Held dir refs) (cmdRm args) := by
  rcases args with _ | ⟨name, _ | ⟨b, args⟩⟩
  · exact .pure _
  · refine .get_bind fun s _ => .bind (held_testfsRemoveDirent _ _) fun nr => ?_
    refine .ite (fun _ => .pure _) fun _ => ?_
    refine Leads.bind (held_get _) fun _ => Leads.bind (held_testfsRemoveInode _) fun _ => ?_
    exact Preserves.bind (held_onInode testfsSyncInode_number) fun _ => .pure _
  · exact .pure _

theorem held_cmdStat (args : List Token) : Preserves (Held dir refs) (cmdStat args) := by
  rcases args with _ | ⟨name, _ | ⟨b, args⟩⟩
  · exact .pure _
  · refine .bind (held_lookupCurDir _) fun nr => .ite (fun _ => .pure _) fun _ => ?_
    refine Leads.bind (held_get _) fun _ => Leads.bind (held_read _ _) fun type => ?_
    refine Leads.bind (held_read _ _) fun size => Leads.bind (held_read _ _) fun count => ?_
    refine Leads.bind (J := Held dir (_ ::ₘ refs)) (fun _ hs => hs) fun _ => ?_
    exact Leads.bind (held_put _) fun _ => Preserves.pure _
  · exact .pure _

theorem held_cmdFsstat (args : List Token) : Preserves (Held dir refs) (cmdFsstat args) := by
  cases args with
  | nil =>
    refine .get_bind fun s _ => .bind (fun _ hs => hs) fun _ => ?_
    exact .bind (fun _ hs => hs) fun _ => .pure _
  | cons a args => exact .pure _

/-- The inode of a file is referenced if there is one. -/
theorem wp_testfsGetFileInode {s : FileSystem} (h : Held dir refs s) (name : Token) :
    Program.wp (testfsGetFileInode name) s
      (fun a s' _ => Held dir (if a.1 < 0 then refs else a.2 ::ₘ refs) s') fun _ => True := by
  rw [testfsGetFileInode, Program.wp_bind]
  refine (held_lookupCurDir name s h).imp fun nr s₁ _ h₁ => ?_
  rw [Program.wp_ite]
  refine ⟨fun hneg => ?_, fun _ => ?_⟩
  · rw [Program.wp_pure]
    dsimp only
    rwa [if_pos hneg]
  · refine Program.wp_bind.mpr ((held_get _ s₁ h₁).imp fun _ s₂ _ h₂ => ?_)
    refine Program.wp_bind.mpr ((held_read _ _ s₂ h₂).imp fun type s₃ _ h₃ => ?_)
    rw [Program.wp_ite]
    refine ⟨fun _ => ?_, fun _ => ?_⟩
    · refine Program.wp_bind.mpr ((held_put _ s₃ h₃).imp fun _ s₄ _ h₄ => ?_)
      rw [Program.wp_pure]
      dsimp only
      rwa [if_pos (by decide)]
    · rw [Program.wp_pure]
      dsimp only
      rwa [if_neg (by decide)]

/-- The rest of a command on a file, which puts the inode. -/
theorem held_fileInode {name : Token} {f : Int × Nat → FsM Int}
    (hf : ∀ a, Leads (Held dir (a.2 ::ₘ refs)) (Held dir refs) (f a)) :
    Preserves (Held dir refs)
      (testfsGetFileInode name >>= fun a => if a.1 < 0 then pure a.1 else f a) := by
  intro s hs
  refine Program.wp_bind.mpr ((wp_testfsGetFileInode hs name).imp fun a s₁ _ h₁ => ?_)
  by_cases hneg : a.1 < 0
  · rw [if_pos hneg] at h₁ ⊢
    exact h₁
  · rw [if_neg hneg] at h₁ ⊢
    exact (hf a s₁ h₁).imp fun _ _ _ h => h

theorem held_cmdRead (args : List Token) : Preserves (Held dir refs) (cmdRead args) := by
  rcases args with _ | ⟨name, _ | ⟨offset, _ | ⟨size, _ | ⟨d, args⟩⟩⟩⟩
  · exact .pure _
  · exact .pure _
  · exact .pure _
  · refine .ite (fun _ => .pure _) fun _ => .ite (fun _ => .pure _) fun _ => ?_
    refine .ite (fun _ => .pure _) fun _ => held_fileInode fun a => ?_
    refine Leads.bind (held_read _ _) fun r => ?_
    refine Leads.ite (fun _ => ?_) fun _ => ?_
    · refine Leads.bind (J := Held dir (a.2 ::ₘ refs)) (fun _ hs => hs) fun _ => ?_
      exact Leads.bind (held_put _) fun _ => Preserves.pure _
    · exact Leads.bind (held_put _) fun _ => Preserves.pure _
  · exact .pure _

theorem held_cmdWrite (args : List Token) : Preserves (Held dir refs) (cmdWrite args) := by
  rcases args with _ | ⟨name, _ | ⟨offset, _ | ⟨data, _ | ⟨d, args⟩⟩⟩⟩
  · exact .pure _
  · exact .pure _
  · exact .pure _
  · refine .ite (fun _ => .pure _) fun _ => .ite (fun _ => .pure _) fun _ => ?_
    refine held_fileInode fun a => ?_
    refine Leads.bind (held_onInode (testfsWriteData_number _ _ _)) fun ret => ?_
    refine Leads.bind (held_onInode testfsSyncInode_number) fun _ => ?_
    exact Leads.bind (held_put _) fun _ => Preserves.pure _
  · exact .pure _

theorem atRest_cmdCd (args : List Token) : Preserves AtRest (cmdCd args) := by
  rcases args with _ | ⟨name, _ | ⟨b, args⟩⟩
  · exact .pure _
  · intro s hs
    have hcd : Leads (Held s.curDir {s.curDir}) AtRest (cmdCd [name]) := by
      refine Leads.bind (held_lookupCurDir _) fun nr => Leads.ite (fun _ => ?_) fun _ => ?_
      · exact fun _ h => h.atRest
      refine Leads.bind (held_get _) fun _ => Leads.bind (held_read _ _) fun type => ?_
      refine Leads.ite (fun _ => ?_) fun _ => ?_
      · exact Leads.bind (held_put _) fun _ => fun _ h => h.atRest
      refine Leads.get_bind fun t ht => ?_
      rw [ht.curDir]
      refine .weaken (J := Held s.curDir (s.curDir ::ₘ {nr.toNat})) ?_ fun _ hu => ?_
      · refine Leads.bind (held_put _) fun _ => Leads.bind (J := AtRest) (.modify fun u hu => ?_)
          fun _ => Preserves.pure _
        exact ⟨rfl, hu.filed, hu.count, hu.pos⟩
      · rw [hu]
        have hswap : s.curDir ::ₘ ({nr.toNat} : Multiset Nat) = nr.toNat ::ₘ {s.curDir} :=
          Multiset.pair_comm _ _
        rwa [hswap]
    exact hcd s hs
  · exact .pure _

theorem wp_lookupCurDir (s : FileSystem) (name : Token) :
    Program.wp (lookupCurDir name) s (fun nr s' _ => s' = s ∧ s.lookup name = .ok nr)
      fun _ => True := by
  refine Program.wp_bind.mpr (Program.wp_get.mpr (Program.wp_reads.mpr ⟨fun nr hnr => ?_,
    fun _ _ => trivial⟩))
  exact ⟨rfl, hnr⟩

theorem wp_cmdLsInternal {s : FileSystem} (hs : AtRest s) (recursive : Bool) (args : List Token)
    (hdir : ∀ name nr, args = [name] → s.lookup name = .ok nr → 0 ≤ nr →
      s.typeOf nr.toNat = .ok InodeType.dir.val) :
    Program.wp (cmdLsInternal recursive args) s (fun _ s' _ => AtRest s') fun _ => True := by
  rcases args with _ | ⟨name, _ | ⟨b, args⟩⟩
  · exact hs
  · refine Program.wp_bind.mpr ((wp_lookupCurDir s name).imp fun nr s₁ _ h₁ => ?_)
    obtain ⟨rfl, hnr⟩ := h₁
    refine Program.wp_ite.mpr ⟨fun _ => hs, fun hneg => ?_⟩
    refine Program.wp_bind.mpr ((wp_testfsGetInode hs nr.toNat).imp fun _ s₂ _ h₂ => ?_)
    obtain ⟨h₂, n, hn, htype⟩ := h₂
    refine Program.wp_bind.mpr (Program.wp_reads.mpr ⟨fun type ht => ?_, fun _ _ => trivial⟩)
    rw [hn] at ht
    have hval := hdir name nr rfl hnr (not_lt.mp hneg)
    rw [htype] at hval
    have hisDir : type = InodeType.dir.val := (Except.ok.inj ht).symm.trans (Except.ok.inj hval)
    rw [if_pos hisDir]
    have hrest : Leads (Held s₁.curDir (nr.toNat ::ₘ {s₁.curDir})) (Held s₁.curDir {s₁.curDir})
        (testfsLs recursive maxDepth nr.toNat >>= fun _ =>
          testfsPutInode nr.toNat >>= fun _ => pure (0 : Int)) :=
      Leads.bind (held_testfsLs _ _ _ _) fun _ => Leads.bind (held_put _) fun _ => Preserves.pure _
    exact (hrest s₂ h₂).imp fun _ _ _ h => h.atRest
  · exact hs

/-- A command puts what it gets. -/
theorem atRest_func {s : FileSystem} {c : Command} {r : Ret Event FileSystem Int} (hs : AtRest s)
    (hdir : ListsDir s c) (h : c.func.run s = .ok r) : AtRest r.st := by
  obtain ⟨name, args⟩ := c
  cases name with
  | cd => exact (atRest_cmdCd args).of_ok hs h
  | pwd => exact (atRest_of_held fun _ => held_cmdPwd args).of_ok hs h
  | ls => exact (wp_cmdLsInternal hs false args (hdir (Or.inl rfl))).of_ok h
  | lsr => exact (wp_cmdLsInternal hs true args (hdir (Or.inr rfl))).of_ok h
  | create => exact (atRest_of_held fun _ => held_cmdMake .file args).of_ok hs h
  | stat => exact (atRest_of_held fun _ => held_cmdStat args).of_ok hs h
  | rm => exact (atRest_of_held fun _ => held_cmdRm args).of_ok hs h
  | mkdir => exact (atRest_of_held fun _ => held_cmdMake .dir args).of_ok hs h
  | read => exact (atRest_of_held fun _ => held_cmdRead args).of_ok hs h
  | write => exact (atRest_of_held fun _ => held_cmdWrite args).of_ok hs h
  | fsstat => exact (atRest_of_held fun _ => held_cmdFsstat args).of_ok hs h

theorem held_init (sb : SuperBlock) (dir : Nat) :
    Held dir 0 { sb := sb, hash := inodeHashInit, curDir := dir } where
  curDir := rfl
  filed := filed_init
  count _ := rfl
  pos _ _ hn := by cases hn

theorem atRest_openTestfs {dev : Dev} {s : FileSystem} (h : openTestfs dev = .ok s) : AtRest s := by
  cases hsb : testfsInitSuperBlock dev with
  | error e =>
    rw [openTestfs, hsb] at h
    cases h
  | ok sb =>
    cases hget : (testfsGetInode 0).run { sb := sb, hash := inodeHashInit, curDir := 0 } with
    | error e =>
      rw [openTestfs, hsb, Program.except_ok_bind, hget] at h
      cases h
    | ok r =>
      rw [openTestfs, hsb, Program.except_ok_bind, hget, Program.except_ok_bind] at h
      cases h
      have hheld : Held 0 {0} r.st := (held_get 0).of_ok (held_init sb 0) hget
      exact hheld.atRest

theorem atRest_of_reachable {s : FileSystem} (h : Reachable (fun s c _ => ListsDir s c) s) :
    AtRest s := by
  induction h with
  | @start size s h =>
    cases hdev : mktestfs size with
    | error e =>
      rw [startTestfs, hdev] at h
      cases h
    | ok dev =>
      rw [startTestfs, hdev, Program.except_ok_bind] at h
      exact atRest_openTestfs h
  | step hs h hok ih => exact atRest_func ih hok h

/-- The inodes in memory are those the table finds. -/
theorem mem_inMemory {h : HashTable} (hf : Filed h) {n : HashNode} :
    n ∈ inMemory h ↔ inodeHashFind h n.inode.iNr = some n := by
  rw [inMemory, List.mem_flatMap]
  constructor
  · rintro ⟨i, -, hn⟩
    have hi := hf.place i n hn
    subst hi
    cases hfind : inodeHashFind h n.inode.iNr with
    | none =>
      have hno := List.find?_eq_none.mp hfind n hn
      simp at hno
    | some n' =>
      have hmem : n' ∈ h (inodeHashfn n.inode.iNr) := List.mem_of_find?_eq_some hfind
      have heq := List.inj_on_of_nodup_map (hf.once _) hmem hn (inodeHashFind_iNr hfind)
      rw [heq]
  · intro hfind
    exact ⟨_, List.mem_range.mpr (inodeHashfn_lt _), List.mem_of_find?_eq_some hfind⟩

theorem inMemory_eq_nil {h : HashTable} (hf : Filed h) :
    inMemory h = [] ↔ ∀ nr, inodeHashFind h nr = none := by
  rw [List.eq_nil_iff_forall_not_mem]
  constructor
  · intro hno nr
    cases hn : inodeHashFind h nr with
    | none => rfl
    | some n =>
      have hiNr := inodeHashFind_iNr hn
      exact absurd ((mem_inMemory hf).mpr (hiNr ▸ hn)) (hno n)
  · intro hno n hn
    rw [mem_inMemory hf, hno] at hn
    cases hn

theorem inodeHashDestroy_ok {h : HashTable} (hempty : inMemory h = []) :
    inodeHashDestroy h = .ok () := by
  refine assertC_pos fun i hi => ?_
  rw [inMemory, List.flatMap_eq_nil_iff] at hempty
  rw [hempty i (List.mem_range.mpr hi)]
  rfl

/-- Between two commands the current directory is the one inode in memory, referenced once. -/
theorem AtRest.inMemory {s : FileSystem} (h : AtRest s) :
    ∃ ino : Inode, ino.iNr = s.curDir ∧ inMemory s.hash = [⟨ino, 1⟩] := by
  obtain ⟨n, hn⟩ := h.find (Multiset.mem_singleton_self _)
  have hcount := h.node hn
  rw [Multiset.count_singleton_self] at hcount
  obtain ⟨ino, iCount⟩ := n
  dsimp only at hcount
  subst hcount
  have hiNr : ino.iNr = s.curDir := inodeHashFind_iNr hn
  refine ⟨ino, hiNr, List.perm_singleton.mp ?_⟩
  refine (List.perm_ext_iff_of_nodup h.filed.nodup.of_map (List.nodup_singleton _)).mpr fun m => ?_
  rw [mem_inMemory h.filed, List.mem_singleton]
  constructor
  · intro hm
    have hcur : m.inode.iNr = s.curDir := by
      by_contra hne
      have hzero := h.node hm
      rw [Multiset.count_eq_zero.mpr (by simpa using hne)] at hzero
      exact absurd (h.pos _ _ hm) (by omega)
    rw [hcur, hn] at hm
    exact (Option.some.inj hm).symm
  · rintro rfl
    rw [hiNr]
    exact hn

/-- At the end a current directory that is not dirty leaves the table empty. -/
theorem AtRest.put {s : FileSystem} (h : AtRest s) {ino : Inode}
    (hmem : Fs.inMemory s.hash = [⟨ino, 1⟩]) (hclean : ino.dirty = false) :
    ∃ r, (testfsPutInode s.curDir).run s = .ok r ∧ Fs.inMemory r.st.hash = [] ∧
      inodeHashDestroy r.st.hash = .ok () := by
  obtain ⟨n, hn⟩ := h.find (Multiset.mem_singleton_self _)
  have hn' : n ∈ Fs.inMemory s.hash := (mem_inMemory h.filed).mpr (by rwa [inodeHashFind_iNr hn])
  rw [hmem, List.mem_singleton] at hn'
  subst hn'
  have hrun := testfsPutInode_clean hn hclean
  have hheld : Held s.curDir 0 { s with hash := dropped s.hash s.curDir ⟨ino, 1⟩ } :=
    (held_put s.curDir).of_ok h hrun
  have hempty : Fs.inMemory (dropped s.hash s.curDir ⟨ino, 1⟩) = [] := by
    refine (inMemory_eq_nil hheld.filed).mpr fun nr => ?_
    cases hfind : inodeHashFind (dropped s.hash s.curDir ⟨ino, 1⟩) nr with
    | none => rfl
    | some m =>
      have hzero := hheld.node hfind
      exact absurd (hheld.pos nr m hfind) (by rw [hzero, Multiset.count_zero]; exact lt_irrefl 0)
  exact ⟨_, hrun, hempty, inodeHashDestroy_ok hempty⟩

end Commands

end Ece344Lab.Fs
