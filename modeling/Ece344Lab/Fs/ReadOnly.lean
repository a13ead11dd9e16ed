import Ece344Lab.Fs.Testfs

/-!
# Commands that leave the device alone

`cd`, `pwd`, `ls`, `lsr`, `stat`, `fsstat` and `read` load inodes and count references to them. In no
state does one of them write a block or change the super block, not even where the file system is
broken and the command stops at an assertion.
-/
namespace Ece344Lab.Fs

open Ece344Lab.Library
open Program (Leaves)

/-- The program keeps the super block with its free maps, and the device, where it returns and
where it stops. -/
def ReadOnly {α : Type} (m : FsM α) : Prop := ∀ sb, Leaves (fun s => s.sb = sb) m

namespace ReadOnly

variable {α β : Type} {m m' : FsM α}

theorem pure (a : α) : ReadOnly (Pure.pure a : FsM α) := fun _ => .pure a

theorem stop (e : Halt) : ReadOnly (Program.stop e : FsM α) := fun _ => .stop e

theorem reads (f : FileSystem → Except Halt α) : ReadOnly (Program.reads f : FsM α) :=
  fun _ => .reads f

theorem get : ReadOnly (Program.get : FsM FileSystem) := fun _ => .get

theorem emit (e : Event) : ReadOnly (Program.emit e : FsM Unit) := fun _ => .emit e

theorem bind {f : α → FsM β} (hm : ReadOnly m) (hf : ∀ a, ReadOnly (f a)) : ReadOnly (m >>= f) :=
  fun sb => .bind (hm sb) fun a => hf a sb

theorem ite {c : Prop} [Decidable c] (h : c → ReadOnly m) (h' : ¬ c → ReadOnly m') :
    ReadOnly (if c then m else m') := fun sb => .ite (fun hc => h hc sb) fun hc => h' hc sb

theorem final (h : ReadOnly m) (s : FileSystem) : (m.final s).sb = s.sb := h s.sb s rfl

end ReadOnly

section Inodes

theorem readOnly_onInodeRead {α : Type} (nr : Nat) (f : Dinode → Dev → Except Halt α) :
    ReadOnly (onInodeRead nr f) := .reads _

theorem readOnly_getInode (nr : Nat) : ReadOnly (testfsGetInode nr) := by
  refine .bind .get fun s => ?_
  cases inodeHashFind s.hash nr with
  | some n => exact fun _ => .modify fun _ hs => hs
  | none => exact .bind (.reads _) fun _ _ => .modify fun _ hs => hs

theorem readOnly_putInode (nr : Nat) : ReadOnly (testfsPutInode nr) :=
  .bind (.reads _) fun _ => .bind (.reads _) fun _ =>
    .ite (fun _ _ => .modify fun _ hs => hs) fun _ _ => .modify fun _ hs => hs

theorem readOnly_lookupCurDir (name : Token) : ReadOnly (lookupCurDir name) :=
  .bind .get fun _ => readOnly_onInodeRead _ _

end Inodes

section Directories

theorem readOnly_pwd (depth : Nat) : ∀ nr, ReadOnly (testfsPwd depth nr) := by
  induction depth with
  | zero => exact fun _ => .stop _
  | succ depth ih =>
    intro nr
    refine .bind (readOnly_onInodeRead _ _) fun p => .bind (.reads _) fun _ => ?_
    refine .ite (fun _ => .bind (.emit _) fun _ => .pure _) fun _ => ?_
    refine .bind (readOnly_getInode _) fun _ => .bind (readOnly_onInodeRead _ _) fun e => ?_
    cases e with
    | none => exact .stop _
    | some e =>
      refine .bind (ih _) fun _ => .bind (readOnly_putInode _) fun _ => ?_
      exact .bind (.reads _) fun _ => .bind (.emit _) fun _ => .pure _

theorem readOnly_lsLoop {recurse : Nat → FsM Unit} (hr : ∀ nr, ReadOnly (recurse nr))
    (recursive : Bool) (nr n : Nat) :
    ∀ offset, ReadOnly (lsLoop recurse recursive nr n offset) := by
  induction n with
  | zero => exact fun _ => .stop _
  | succ n ih =>
    intro offset
    refine .bind (readOnly_onInodeRead _ _) fun next => ?_
    cases next with
    | none => exact .pure _
    | some next =>
      obtain ⟨d, offset⟩ := next
      refine .ite (fun _ => ih _) fun _ => ?_
      refine .bind (readOnly_getInode _) fun _ => .bind (readOnly_onInodeRead _ _) fun type => ?_
      refine .bind (.reads _) fun name => .bind (.emit _) fun _ => ?_
      refine .ite (fun _ => ?_) fun _ => ?_
      · exact .bind (hr _) fun _ => .bind (readOnly_putInode _) fun _ => ih _
      · exact .bind (readOnly_putInode _) fun _ => ih _

theorem readOnly_ls (recursive : Bool) (depth : Nat) :
    ∀ nr, ReadOnly (testfsLs recursive depth nr) := by
  induction depth with
  | zero => exact fun _ => .stop _
  | succ depth ih =>
    exact fun nr => .bind (readOnly_onInodeRead _ _) fun _ => readOnly_lsLoop ih _ _ _ _

end Directories

section Commands

theorem readOnly_cmdCd (name : Token) : ReadOnly (cmdCd [name]) := by
  refine .bind (readOnly_lookupCurDir name) fun nr => .ite (fun _ => .pure _) fun _ => ?_
  refine .bind (readOnly_getInode _) fun _ => .bind (readOnly_onInodeRead _ _) fun type => ?_
  refine .ite (fun _ => .bind (readOnly_putInode _) fun _ => .pure _) fun _ => .bind .get fun s => ?_
  refine .bind (readOnly_putInode _) fun _ => .bind ?_ fun _ => .pure _
  exact fun _ => .modify fun _ hs => hs

theorem readOnly_cmdPwd : ReadOnly (cmdPwd []) :=
  .bind .get fun _ => .bind (readOnly_pwd _ _) fun _ => .bind (.emit _) fun _ => .pure _

theorem readOnly_cmdLs (recursive : Bool) (name : Token) :
    ReadOnly (cmdLsInternal recursive [name]) := by
  refine .bind (readOnly_lookupCurDir name) fun nr => .ite (fun _ => .pure _) fun _ => ?_
  refine .bind (readOnly_getInode _) fun _ => .bind (readOnly_onInodeRead _ _) fun type => ?_
  refine .ite (fun _ => ?_) fun _ => .pure _
  exact .bind (readOnly_ls _ _ _) fun _ => .bind (readOnly_putInode _) fun _ => .pure _

theorem readOnly_cmdStat (name : Token) : ReadOnly (cmdStat [name]) := by
  refine .bind (readOnly_lookupCurDir name) fun nr => .ite (fun _ => .pure _) fun _ => ?_
  refine .bind (readOnly_getInode _) fun _ => .bind (readOnly_onInodeRead _ _) fun type => ?_
  refine .bind (readOnly_onInodeRead _ _) fun _ => .bind (readOnly_onInodeRead _ _) fun _ => ?_
  exact .bind (.emit _) fun _ => .bind (readOnly_putInode _) fun _ => .pure _

theorem readOnly_cmdFsstat : ReadOnly (cmdFsstat []) :=
  .bind .get fun _ => .bind (.emit _) fun _ => .bind (.emit _) fun _ => .pure _

theorem readOnly_getFileInode (name : Token) : ReadOnly (testfsGetFileInode name) := by
  refine .bind (readOnly_lookupCurDir name) fun nr => .ite (fun _ => .pure _) fun _ => ?_
  refine .bind (readOnly_getInode _) fun _ => .bind (readOnly_onInodeRead _ _) fun type => ?_
  exact .ite (fun _ => .bind (readOnly_putInode _) fun _ => .pure _) fun _ => .pure _

theorem readOnly_cmdRead (name offset size : Token) : ReadOnly (cmdRead [name, offset, size]) := by
  refine .ite (fun _ => .pure _) fun _ => .ite (fun _ => .pure _) fun _ => ?_
  refine .ite (fun _ => .pure _) fun _ => .bind (readOnly_getFileInode name) fun a => ?_
  refine .ite (fun _ => .pure _) fun _ => .bind (readOnly_onInodeRead _ _) fun b => ?_
  refine .ite (fun _ => .bind (.emit _) fun _ => ?_) fun _ => ?_ <;>
    exact .bind (readOnly_putInode _) fun _ => .pure _

end Commands

end Ece344Lab.Fs
