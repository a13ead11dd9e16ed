import Ece344Lab.Library.Logs
import Ece344Lab.Fs.Looking

/-!
# Commands that print nothing

`create`, `mkdir`, `rm` and `write` change the file system and print nothing. The one event they may
log is that a block could not be allocated.
-/
namespace Ece344Lab.Fs

open Ece344Lab.Library
open Program (Logs)

/-- The program prints nothing. -/
abbrev Silent {σ α : Type} (m : Program Halt Event σ α) : Prop := Logs (· = Event.allocBlockFailed) m

theorem Silent.printed_nil {σ α : Type} {m : Program Halt Event σ α} (h : Silent m) {s : σ}
    {r : Ret Event σ α} (hr : m.run s = .ok r) : printed r.log = [] := by
  rw [printed, List.flatMap_eq_nil_iff]
  intro event hevent
  rw [h s r hr event hevent]

section Blocks

theorem silent_getBlockFreemap : Silent testfsGetBlockFreemap :=
  .bind (.reads _) fun _ => .ite (fun _ => .pure _) fun _ => .bind (.modify _) fun _ => .pure _

theorem silent_putBlockFreemap (n : Nat) : Silent (testfsPutBlockFreemap n) :=
  .bind (.reads _) fun _ => .modify _

theorem silent_getInodeFreemap : Silent testfsGetInodeFreemap :=
  .bind (.reads _) fun _ => .ite (fun _ => .pure _) fun _ =>
    .bind (.modify _) fun _ => .bind (.modify _) fun _ => .pure _

theorem silent_putInodeFreemap (n : Nat) : Silent (testfsPutInodeFreemap n) :=
  .bind (.reads _) fun _ => .bind (.modify _) fun _ => .bind (.reads _) fun _ => .modify _

theorem silent_allocBlock : Silent testfsAllocBlock := by
  refine .bind .get fun s => .ite (fun _ => .bind (.emit rfl) fun _ => .pure _) fun _ => ?_
  refine .bind silent_getBlockFreemap fun p => ?_
  exact .ite (fun _ => .bind (.emit rfl) fun _ => .pure _) fun _ => .bind (.modify _) fun _ => .pure _

theorem silent_freeBlock (n : Int) : Silent (testfsFreeBlock n) :=
  .bind (.reads _) fun _ => .bind (.modify _) fun _ => .bind .get fun _ => .bind (.reads _) fun _ =>
    .bind (silent_putBlockFreemap _) fun _ => .bind (.reads _) fun _ => .modify _

theorem silent_allocBlockForInode : Silent testfsAllocBlockForInode :=
  .bind (.zoom silent_allocBlock) fun _ =>
    .ite (fun _ => .bind (.modify _) fun _ => .bind (.modify _) fun _ => .pure _) fun _ => .pure _

theorem silent_freeBlockFromInode (p : Int) : Silent (testfsFreeBlockFromInode p) :=
  .ite (fun _ => .pure _) fun _ =>
    .bind (.zoom (silent_freeBlock p)) fun _ => .bind (.modify _) fun _ => .modify _

theorem silent_setDin (f : Dinode → Dinode) : Silent (setDin f) := .modify _

theorem silent_setDirty : Silent setDirty := .modify _

theorem silent_writeBlock (n : Int) (b : Block) : Silent (writeBlock n b) :=
  .bind (.reads _) fun _ => .modify _

theorem silent_syncInode : Silent testfsSyncInode :=
  .bind .get fun _ => .ite
    (fun _ => .bind (.reads _) fun _ => .bind (.reads _) fun _ => .set _) fun _ => .pure _

end Blocks

section Data

theorem silent_allocateBlock (l : Int) : Silent (testfsAllocateBlock l) := by
  unfold testfsAllocateBlock allocateDouble allocateDouble.allocateEntry allocateSingle
  -- each step is one of those above, or reads the state
  repeat' first
    | with_reducible exact silent_allocBlockForInode
    | with_reducible exact silent_freeBlockFromInode _
    | with_reducible exact silent_writeBlock _ _
    | with_reducible exact silent_setDin _
    | with_reducible exact .pure _
    | with_reducible exact .reads _
    | with_reducible exact .get
    | with_reducible refine .ite (fun _ => ?_) fun _ => ?_
    | with_reducible refine .bind ?_ fun _ => ?_

theorem silent_growSize (start : Int) (size : Nat) : Silent (growSize start size) :=
  .ite (fun _ => .bind (.reads _) fun _ => .bind (silent_setDin _) fun _ => silent_setDirty)
    fun _ => silent_setDirty

theorem silent_writeRest (buf : Nat → UInt8) (start blockNr blockIx : Int) (size n : Nat) :
    ∀ (i : Nat) (rem : Int), Silent (writeRest buf start blockNr blockIx size n i rem) := by
  induction n with
  | zero => exact fun _ _ => .stop _
  | succ n ih =>
    intro i rem
    refine .bind (silent_allocateBlock _) fun a => .ite (fun _ => ?_) fun _ => ?_
    · refine .ite (fun _ => .pure _) fun _ => .bind (.reads _) fun _ => ?_
      exact .bind (silent_writeBlock _ _) fun _ => ih _ _
    · refine .ite (fun _ => ?_) fun _ => .bind (.reads _) fun _ => ?_
      · exact .bind (silent_setDin _) fun _ => .bind silent_setDirty fun _ => .pure _
      · exact .bind (silent_writeBlock _ _) fun _ => .bind (silent_growSize _ _) fun _ => .pure _

theorem silent_writeData (buf : Nat → UInt8) (start : Int) (size : Nat) :
    Silent (testfsWriteData buf start size) := by
  refine .ite (fun _ => ?_) fun _ => ?_
  · refine .bind (silent_allocateBlock _) fun a => .ite (fun _ => .pure _) fun _ => ?_
    refine .bind (.reads _) fun _ => .bind (silent_writeBlock _ _) fun _ => ?_
    exact silent_writeRest _ _ _ _ _ _ _ _
  · refine .bind (silent_allocateBlock _) fun a => .ite (fun _ => .pure _) fun _ => ?_
    refine .bind (.reads _) fun _ => .bind (silent_writeBlock _ _) fun _ => ?_
    exact .bind (silent_growSize _ _) fun _ => .pure _

theorem silent_freeDirect (eBlockNr : Int) (n : Nat) : ∀ i : Nat, Silent (freeDirect eBlockNr n i) := by
  induction n with
  | zero => exact fun _ => .pure _
  | succ n ih =>
    intro i
    refine .ite (fun _ => .bind .get fun s => ?_) fun _ => .pure _
    refine .ite (fun _ => ?_) fun _ => ih _
    exact .bind (silent_freeBlockFromInode _) fun _ => .bind (silent_setDin _) fun _ => ih _

theorem silent_freeTable (eBlockNr : Int) (table : Block) (n : Nat) :
    ∀ (j : Nat) (deleted : Int), Silent (freeTable eBlockNr table n j deleted) := by
  induction n with
  | zero => exact fun _ _ => .pure _
  | succ n ih =>
    intro j deleted
    exact .ite (fun _ => .bind (silent_freeBlockFromInode _) fun _ => ih _ _) fun _ => .pure _

theorem silent_freeDouble (eBlockNr : Int) (block : Block) (n : Nat) :
    ∀ (i : Nat) (deleted : Int), Silent (freeDouble eBlockNr block n i deleted) := by
  induction n with
  | zero => exact fun _ _ => .pure _
  | succ n ih =>
    intro i deleted
    refine .ite (fun _ => .ite (fun _ => ?_) fun _ => ih _ _) fun _ => .pure _
    exact .bind (.reads _) fun _ => .bind (silent_freeTable _ _ _ _ _) fun _ =>
      .bind (silent_freeBlockFromInode _) fun _ => ih _ _

theorem silent_freeBlocks : Silent testfsFreeBlocks := by
  unfold testfsFreeBlocks
  repeat' first
    | with_reducible exact silent_freeDirect _ _ _
    | with_reducible exact silent_freeTable _ _ _ _ _
    | with_reducible exact silent_freeDouble _ _ _ _ _
    | with_reducible exact silent_freeBlockFromInode _
    | with_reducible exact silent_setDin _
    | with_reducible exact silent_setDirty
    | with_reducible exact .reads _
    | with_reducible exact .get
    | with_reducible refine .ite (fun _ => ?_) fun _ => ?_
    | with_reducible refine .bind ?_ fun _ => ?_

theorem silent_clearInode : Silent clearInode :=
  .bind silent_freeBlocks fun _ => .bind (.reads _) fun _ => .bind (silent_setDin _) fun _ =>
    .bind silent_setDirty fun _ => .bind .get fun _ => .bind (.zoom (silent_putInodeFreemap _)) fun _ =>
      silent_syncInode

end Data

section Commands

theorem silent_onInode {α : Type} (nr : Nat) {m : InodeM α} (h : Silent m) : Silent (onInode nr m) := by
  intro s r hr
  obtain ⟨a, s', log⟩ := r
  obtain ⟨n, st', -, hm, -⟩ := onInode_inv hr
  exact h _ _ hm

theorem silent_onInodeRead {α : Type} (nr : Nat) (f : Dinode → Dev → Except Halt α) :
    Silent (onInodeRead nr f) := .reads _

theorem silent_getInode (nr : Nat) : Silent (testfsGetInode nr) := by
  refine .bind .get fun s => ?_
  split
  · exact .modify _
  · exact .bind (.reads _) fun _ => .modify _

theorem silent_putInode (nr : Nat) : Silent (testfsPutInode nr) :=
  .bind (.reads _) fun _ => .bind (.reads _) fun _ => .ite (fun _ => .modify _) fun _ => .modify _

theorem silent_createInode (type : InodeType) : Silent (testfsCreateInode type) := by
  refine .bind (.zoom silent_getInodeFreemap) fun nr => .ite (fun _ => .pure _) fun _ => ?_
  refine .ite (fun _ => .bind (.zoom (silent_putInodeFreemap _)) fun _ => .pure _) fun _ => ?_
  refine .bind (silent_getInode _) fun _ => .bind (silent_onInode _ ?_) fun _ => .pure _
  exact .bind (silent_setDin _) fun _ => silent_setDirty

theorem silent_writeDirent (name : List UInt8) (len inodeNr offset : Int) :
    Silent (testfsWriteDirent name len inodeNr offset) :=
  .ite (fun _ => .pure _) fun _ => .bind (.reads _) fun _ => .bind (.reads _) fun _ =>
    silent_writeData _ _ _

theorem silent_addDirent (name : List UInt8) (inodeNr : Int) :
    Silent (testfsAddDirent name inodeNr) := by
  refine .bind (.reads _) fun _ => .bind (.reads _) fun r => ?_
  cases r with
  | found d pOffset => exact .ite (fun _ => .pure _) fun _ => silent_writeDirent _ _ _ _
  | atEnd pOffset => exact .bind (.reads _) fun _ => silent_writeDirent _ _ _ _

theorem silent_removeDirentAllowed (nr : Nat) : Silent (testfsRemoveDirentAllowed nr) :=
  .bind (silent_getInode _) fun _ => .bind (silent_onInodeRead _ _) fun _ =>
    .bind (silent_putInode _) fun _ => .pure _

theorem silent_removeDirent (d : Nat) (name : List UInt8) : Silent (testfsRemoveDirent d name) := by
  refine .ite (fun _ => .pure _) fun _ => .bind (silent_onInodeRead _ _) fun r => ?_
  cases r with
  | atEnd p => exact .pure _
  | found d p =>
    refine .bind (silent_removeDirentAllowed _) fun ret => .ite (fun _ => .pure _) fun _ => ?_
    exact .bind (silent_onInode _ (silent_writeData _ _ _)) fun _ =>
      .ite (fun _ => .pure _) fun _ => .pure _

theorem silent_createEmptyDir (p d : Nat) : Silent (testfsCreateEmptyDir p d) := by
  refine .bind (silent_onInodeRead _ _) fun _ => .bind (.reads _) fun _ => ?_
  refine .bind (silent_onInode _ (silent_addDirent _ _)) fun _ => .ite (fun _ => .pure _) fun _ => ?_
  refine .bind (silent_onInode _ (silent_addDirent _ _)) fun _ => .ite (fun _ => ?_) fun _ => .pure _
  exact .bind (silent_removeDirent _ _) fun _ => .pure _

theorem silent_enter (d nr : Nat) (name : List UInt8) :
    Silent (onInode d (testfsAddDirent name nr) >>= fun ret =>
      if ret < 0 then pure ret else onInode d testfsSyncInode >>= fun _ => pure (0 : Int)) :=
  .bind (silent_onInode _ (silent_addDirent _ _)) fun _ => .ite (fun _ => .pure _) fun _ =>
    .bind (silent_onInode _ silent_syncInode) fun _ => .pure _

theorem silent_fillInode (d : Option Nat) (type : InodeType) (name : List UInt8) (nr : Nat) :
    Silent (fillInode d type name nr) := by
  cases d with
  | none =>
    refine .ite (fun _ => ?_) fun _ => .pure _
    exact .bind (silent_createEmptyDir _ _) fun _ => .ite (fun _ => .pure _) fun _ => .pure _
  | some dir =>
    refine .ite (fun _ => ?_) fun _ => silent_enter _ _ _
    exact .bind (silent_createEmptyDir _ _) fun _ =>
      .ite (fun _ => .pure _) fun _ => silent_enter _ _ _

theorem silent_removeInode (nr : Nat) : Silent (testfsRemoveInode nr) :=
  .bind (silent_onInode _ silent_clearInode) fun _ => silent_putInode _

theorem silent_createFileOrDir (d : Option Nat) (type : InodeType) (name : List UInt8) :
    Silent (testfsCreateFileOrDir d type name) := by
  have hcreate : Silent (testfsCreateInode type >>= fun a =>
      if a.1 < 0 then pure a.1
      else fillInode d type name a.2 >>= fun ret =>
        if ret < 0 then testfsRemoveInode a.2 >>= fun _ => pure ret
        else onInode a.2 testfsSyncInode >>= fun _ => testfsPutInode a.2 >>= fun _ => pure 0) := by
    refine .bind (silent_createInode _) fun a => .ite (fun _ => .pure _) fun _ => ?_
    refine .bind (silent_fillInode _ _ _ _) fun _ => .ite (fun _ => ?_) fun _ => ?_
    · exact .bind (silent_removeInode _) fun _ => .pure _
    · exact .bind (silent_onInode _ silent_syncInode) fun _ =>
        .bind (silent_putInode _) fun _ => .pure _
  cases d with
  | none => exact .bind (.pure _) fun _ => .ite (fun _ => .pure _) fun _ => hcreate
  | some d => exact .bind (silent_onInodeRead _ _) fun _ => .ite (fun _ => .pure _) fun _ => hcreate

theorem silent_lookupCurDir (name : Token) : Silent (lookupCurDir name) :=
  .bind .get fun _ => silent_onInodeRead _ _

theorem silent_getFileInode (name : Token) : Silent (testfsGetFileInode name) := by
  refine .bind (silent_lookupCurDir _) fun nr => .ite (fun _ => .pure _) fun _ => ?_
  refine .bind (silent_getInode _) fun _ => .bind (silent_onInodeRead _ _) fun _ => ?_
  exact .ite (fun _ => .bind (silent_putInode _) fun _ => .pure _) fun _ => .pure _

theorem silent_cmdMake (type : InodeType) (name : Token) : Silent (cmdMake type [name]) :=
  .bind .get fun _ => silent_createFileOrDir _ _ _

theorem silent_cmdRm (name : Token) : Silent (cmdRm [name]) :=
  .bind .get fun _ => .bind (silent_removeDirent _ _) fun _ => .ite (fun _ => .pure _) fun _ =>
    .bind (silent_getInode _) fun _ => .bind (silent_removeInode _) fun _ =>
      .bind (silent_onInode _ silent_syncInode) fun _ => .pure _

theorem silent_cmdWrite (name offsetArg data : Token) : Silent (cmdWrite [name, offsetArg, data]) := by
  unfold cmdWrite
  obtain ⟨err, start⟩ := strToOffset offsetArg.bytes
  refine .ite (fun _ => .pure _) fun _ => ?_
  refine .ite (fun _ => .pure _) fun _ => ?_
  refine .bind (silent_getFileInode _) fun a => ?_
  obtain ⟨ret, nr⟩ := a
  refine .ite (fun _ => .pure _) fun _ => ?_
  exact .bind (silent_onInode _ (silent_writeData _ _ _)) fun _ =>
    .bind (silent_onInode _ silent_syncInode) fun _ => .bind (silent_putInode _) fun _ => .pure _

end Commands

end Ece344Lab.Fs
