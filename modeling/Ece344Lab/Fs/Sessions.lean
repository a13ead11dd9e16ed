import Ece344Lab.Fs.Machine
import Ece344Lab.Fs.Start
import Mathlib.Data.List.TakeWhile

/-!
# Runs of testfs

A run makes a file system with mktestfs and works on it with one testfs after the other: commands
in any order, and restarts, where one testfs quits and the next opens the device. Every such run is
a run of the operations on volumes, from which the properties of whole runs follow.
-/
namespace Ece344Lab.Fs

open Ece344Lab.Library

/-- What happens between two prompts: a command with what it returns and prints, or a restart. -/
inductive Turn
  | command (cmd : Command) (ret : Int) (text : List UInt8)
  | restart

/-- A turn of testfs. -/
inductive Turns : FileSystem → Turn → FileSystem → Prop
  | command {s : FileSystem} {cmd : Command} {r : Ret Event FileSystem Int}
      (h : cmd.func.run s = .ok r) (hreg : Regular s cmd r) :
      Turns s (.command cmd r.val (printed r.log)) r.st
  | restart {s s' : FileSystem} {dev : Dev} (hquit : quitTestfs s = .ok dev)
      (hopen : openTestfs dev = .ok s') : Turns s .restart s'

/-- testfs on the file systems that mktestfs makes. -/
def testfs : System FileSystem Turn where
  start s := ∃ size, startTestfs size = .ok s
  step := Turns

/-- A turn on a volume with a current directory. -/
inductive VolumeTurns : Volume × Nat → Turn → Volume × Nat → Prop
  | command {V V' : Volume} {d d' : Nat} {cmd : Command} {ret : Int} {text : List UInt8}
      (h : Does V d cmd ret text V' d') : VolumeTurns (V, d) (.command cmd ret text) (V', d')
  | restart {V : Volume} {d : Nat} : VolumeTurns (V, d) .restart (V, V.tree.root)

/-- Volumes under the commands, from the one with the root alone. -/
def volumes : System (Volume × Nat) Turn where
  start t := t = (.new, 0)
  step := VolumeTurns

/-- The state is at the prompt, with this volume and current directory. -/
def IsAt (s : FileSystem) (t : Volume × Nat) : Prop := AtPrompt s t.1 ∧ s.curDir = t.2

theorem testfs_simulates : testfs.Simulates volumes IsAt where
  start := by
    rintro s ⟨size, hs⟩
    obtain ⟨s', hs', hat, hcur⟩ := startTestfs_new size
    rw [hs] at hs'
    cases hs'
    exact ⟨(.new, 0), rfl, hat, hcur⟩
  step := by
    rintro s e s' ⟨V, d⟩ ⟨hat, hcur⟩ hstep
    dsimp only at hat hcur
    subst hcur
    cases hstep with
    | command h hreg =>
      obtain ⟨V', hdoes, hat'⟩ := hat.simulates h hreg
      exact ⟨(V', _), .command hdoes, hat', rfl⟩
    | restart hquit hopen =>
      obtain ⟨dev', s'', hquit', hopen', hat', hcur'⟩ := hat.reopen
      rw [hquit] at hquit'
      cases hquit'
      rw [hopen] at hopen'
      cases hopen'
      exact ⟨(V, V.tree.root), .restart, hat', hcur'⟩

section Changes

variable {V V' : Volume} {d d' : Nat} {cmd : Command} {ret : Int} {text : List UInt8}

/-- A command changes nothing of the volume, or makes a leaf, takes one away or writes to a file. The
last two are known to be done to what the command names. -/
inductive Change (V : Volume) (d : Nat) (cmd : Command) : Int → Volume → Prop
  | none {ret : Int} : Change V d cmd ret V
  | make {k : Nat} {name : Token} {type : InodeType} (hd : d ∈ V.tree.branches)
      (hx : listing V.tree d name.bytes = none) (hk : k ∉ V.tree.nodes) :
      Change V d cmd 0 (V.make d name.bytes k type hd (listing_none hx).2.2 hk)
  | remove {name : Token} {n : Nat} (hcmd : cmd = ⟨.rm, [name]⟩)
      (hchild : V.tree.child d name.bytes = some n) (hleaf : ∀ x, V.tree.child n x = none) :
      Change V d cmd 0 (V.remove n (V.tree.child_ne_root hchild) hleaf)
  | write {name x data : Token} {n start : Nat} (hcmd : cmd = ⟨.write, [name, x, data]⟩)
      (hx : listing V.tree d name.bytes = some (n : ℤ)) (hn : n ∉ V.tree.branches) :
      Change V d cmd data.bytes.length (V.write n start data.bytes)

theorem Does.change (h : Does V d cmd ret text V' d') : Change V d cmd ret V' := by
  cases h with
  | create hd hx hk => exact .make hd hx hk
  | mkdir hd hx hk => exact .make hd hx hk
  | rm hchild hleaf => exact .remove rfl hchild hleaf
  | write _ hx hn => exact .write rfl hx hn
  | _ => exact .none

/-- The current directory stays a directory. -/
theorem Does.cur (h : Does V d cmd ret text V' d') (hd : d ∈ V.tree.branches) :
    d' ∈ V'.tree.branches := by
  cases h with
  | cd _ hn => exact hn
  | create | mkdir =>
    rw [make_tree]
    exact NameTree.mem_add_branches.mpr (Or.inr hd)
  | @rm name n hchild hleaf =>
    refine Finset.mem_erase.mpr ⟨?_, hd⟩
    rintro rfl
    rw [hleaf] at hchild
    cases hchild
  | _ => exact hd

/-- A command that fails prints nothing and changes neither the volume nor the current directory. -/
theorem Does.failed (h : Does V d cmd ret text V' d') (hret : ret < 0) :
    text = [] ∧ V' = V ∧ d' = d := by
  cases h with
  | write => exact absurd hret (not_lt.mpr (Int.natCast_nonneg _))
  | read => exact absurd hret (not_lt.mpr (Int.natCast_nonneg _))
  | cd | pwd | ls | lsr | stat | fsstat | rm | create | mkdir => exact absurd hret (lt_irrefl 0)
  | readOpen _ _ _ _ _ _ hfail => exact ⟨hfail hret, rfl, rfl⟩
  | _ => exact ⟨rfl, rfl, rfl⟩

/-- A `create` or `mkdir` makes a leaf, or the name is taken. -/
theorem Does.made {name : CmdName} {arg : Token} (h : Does V d ⟨name, [arg]⟩ ret text V' d')
    (hcmd : name = .create ∨ name = .mkdir) (hd : d ∈ V.tree.branches) :
    d' = d ∧ (ret = -EEXIST ∧ V' = V ∨ ret = 0 ∧ ∃ k type,
      ∃ hx : listing V.tree d arg.bytes = none, ∃ hk : k ∉ V.tree.nodes,
        V' = V.make d arg.bytes k type hd (listing_none hx).2.2 hk) := by
  cases h with
  | usage huse => rcases hcmd with rfl | rfl <;> exact absurd rfl huse
  | taken _ _ => exact ⟨rfl, Or.inl ⟨rfl, rfl⟩⟩
  | create _ hx hk => exact ⟨rfl, Or.inr ⟨rfl, _, _, hx, hk, rfl⟩⟩
  | mkdir _ hx hk => exact ⟨rfl, Or.inr ⟨rfl, _, _, hx, hk, rfl⟩⟩
  | missing hmissing _ => rcases hcmd with rfl | rfl <;> simp at hmissing
  | _ => simp at hcmd

/-- An `rm` takes a leaf away, or fails. -/
theorem Does.removed {arg : Token} (h : Does V d ⟨.rm, [arg]⟩ ret text V' d') :
    d' = d ∧ (ret < 0 ∧ V' = V ∨ ret = 0 ∧ ∃ n, ∃ hchild : V.tree.child d arg.bytes = some n,
      ∃ hleaf : ∀ x, V.tree.child n x = none,
        V' = V.remove n (V.tree.child_ne_root hchild) hleaf) := by
  cases h with
  | usage huse => exact absurd rfl huse
  | rm hchild hleaf => exact ⟨rfl, Or.inr ⟨rfl, _, hchild, hleaf, rfl⟩⟩
  | missing _ _ => exact ⟨rfl, Or.inl ⟨by decide, rfl⟩⟩
  | rmDots _ => exact ⟨rfl, Or.inl ⟨by decide, rfl⟩⟩
  | rmFull _ _ => exact ⟨rfl, Or.inl ⟨by decide, rfl⟩⟩
  | taken hcmd _ => simp at hcmd

end Changes

section Volumes

variable {t t' : Volume × Nat} {turns : List Turn} {e : Turn}

/-- What is made in a run has the name that some command was given. -/
theorem volumes_names (run : volumes.Run turns t) :
    ∀ d x n, t.1.tree.child d x = some n → ∃ name : Token, name.bytes = x := by
  refine run.invariant_state (I := fun t => ∀ d x n, t.1.tree.child d x = some n →
    ∃ name : Token, name.bytes = x) ?_ ?_
  · rintro t rfl d x n hx
    cases hx
  · intro t e t' ih hstep
    cases hstep with
    | restart => exact ih
    | command h =>
      intro d x n hx
      cases h.change with
      | none | write => exact ih d x n hx
      | make hd hfree hk =>
        rw [make_tree] at hx
        rcases NameTree.add_child.mp hx with hx | ⟨rfl, rfl, rfl⟩
        · exact ih d x n hx
        · exact ⟨_, rfl⟩
      | remove _ _ _ =>
        rw [remove_tree] at hx
        exact ih d x n (NameTree.remove_child.mp hx).1

/-- The turn is no `write` to a file called `x` and no `rm` of it. -/
def Turn.Spares (x : Name) : Turn → Prop
  | .command cmd _ _ => cmd.name = .write ∨ cmd.name = .rm → ∀ name ∈ cmd.args.head?, name.bytes ≠ x
  | .restart => True

/-- The file `n` is called `x` in the directory `d`, and this is what has been written to it. -/
structure HasFile (t : Volume × Nat) (d : Nat) (x : Name) (n : Nat) (data : Nat → Option UInt8)
    (size : Nat) : Prop where
  cur : t.2 ∈ t.1.tree.branches
  child : t.1.tree.child d x = some n
  isFile : n ∉ t.1.tree.branches
  data : t.1.data n = data
  size : t.1.size n = size

/-- What is no directory is below one. -/
theorem listing_file {V : Volume} {d n : ℕ} {x : Name} (hd : d ∈ V.tree.branches)
    (hx : listing V.tree d x = some (n : ℤ)) (hn : n ∉ V.tree.branches) :
    V.tree.child d x = some n := by
  obtain ⟨m, hm, -, hcase⟩ := listing_some hd hx
  obtain rfl := Int.ofNat.inj hm
  exact hcase.resolve_left hn

/-- A `write` that does not fail. -/
theorem Does.wrote {V V' : Volume} {d d' : Nat} {name offset data : Token} {ret : Int}
    {text : List UInt8} {start : ℕ} (h : Does V d ⟨.write, [name, offset, data]⟩ ret text V' d')
    (hret : 0 ≤ ret) (hoffset : strToOffset offset.bytes = (0, (start : ℤ))) :
    ∃ n : ℕ, listing V.tree d name.bytes = some (n : ℤ) ∧ n ∉ V.tree.branches ∧
      V' = V.write n start data.bytes ∧ d' = d := by
  cases h with
  | usage huse => exact absurd rfl huse
  | write hparses hx hn =>
    have heq := hparses.offset
    rw [hoffset] at heq
    obtain rfl := Int.ofNat.inj (congrArg Prod.snd heq)
    exact ⟨_, hx, hn, rfl, rfl⟩
  | _ => exact absurd hret (by decide)

/-- A file has one name, so commands that name something else leave it. -/
theorem HasFile.turn {d n size : Nat} {x : Name} {data : Nat → Option UInt8}
    (h : HasFile t d x n data size) (he : e.Spares x) (hstep : VolumeTurns t e t') :
    HasFile t' d x n data size := by
  cases hstep with
  | restart => exact ⟨NameTree.root_mem _, h.child, h.isFile, h.data, h.size⟩
  | command hdoes =>
    have hcur := hdoes.cur h.cur
    cases hdoes.change with
    | none => exact ⟨hcur, h.child, h.isFile, h.data, h.size⟩
    | @write name _ _ m _ hcmd hx hm =>
      have hne : n ≠ m := by
        rintro rfl
        have hchild := listing_file h.cur hx hm
        exact he (Or.inl (by rw [hcmd])) name (by rw [hcmd]; rfl)
          (NameTree.child_inj _ hchild h.child).2
      refine ⟨hcur, h.child, h.isFile, ?_, ?_⟩
      · rw [← h.data]
        exact Function.update_of_ne hne _ _
      · rw [← h.size]
        exact Function.update_of_ne hne _ _
    | @remove name m hcmd hchild hleaf =>
      have hne : n ≠ m := by
        rintro rfl
        exact he (Or.inr (by rw [hcmd])) name (by rw [hcmd]; rfl)
          (NameTree.child_inj _ hchild h.child).2
      refine ⟨hcur, ?_, fun hmem => h.isFile (Finset.mem_of_mem_erase hmem), h.data, h.size⟩
      rw [remove_tree]
      exact NameTree.remove_child.mpr ⟨h.child, hne⟩
    | @make k name type hd hx hk =>
      have hnode := NameTree.child_node _ h.child
      have hnk : n ≠ k := fun heq => hk (heq ▸ hnode)
      refine ⟨hcur, ?_, fun hmem => ?_, ?_, ?_⟩
      · rw [make_tree]
        exact NameTree.add_child.mpr (Or.inl h.child)
      · rw [make_tree] at hmem
        rcases NameTree.mem_add_branches.mp hmem with ⟨-, heq⟩ | hmem
        · exact hnk heq
        · exact h.isFile hmem
      · rw [← h.data]
        exact Function.update_of_ne hnk _ _
      · rw [← h.size]
        exact Function.update_of_ne hnk _ _

theorem HasFile.run {d n size : Nat} {x : Name} {data : Nat → Option UInt8}
    (h : HasFile t d x n data size) (hrun : (volumes.after t).Run turns t')
    (hspares : ∀ e ∈ turns, e.Spares x) : HasFile t' d x n data size :=
  hrun.keeps h (P := fun t => HasFile t d x n data size) (fun _ _ _ hu he hstep => hu.turn he hstep)
    hspares

end Volumes

end Ece344Lab.Fs
