import Ece344Lab.Fs.Machine

/-!
# Paths in a file system

`resolve` follows a path in a state of testfs with the lookups of the code. Where the state stores
a volume that is the walk in its tree.
-/
namespace Ece344Lab.Fs

open Ece344Lab.Library

/-- The inode that the names of a path lead to from the inode `nr`, one lookup after the other.
The entries `.` and `..` are not part of paths. -/
def FileSystem.resolve (s : FileSystem) : Nat → List Name → Option Nat
  | nr, [] => some nr
  | nr, x :: p =>
    if x = dot ∨ x = dotdot then none
    else match testfsDirNameToInodeNr (s.dinodes nr) s.sb.dev x with
      | .ok v => if v < 0 then none else s.resolve v.toNat p
      | .error _ => none

/-- The inode has no other path. -/
def FileSystem.IsPath (s : FileSystem) (p : List Name) (nr : Nat) : Prop :=
  s.resolve 0 p = some nr ∧ ∀ q, s.resolve 0 q = some nr → q = p

section Paths

variable {s : FileSystem} {V : Volume} {d n : Nat} {p : List Name}

/-- A lookup in a file fails its assertion. -/
theorem lookup_file {din : Dinode} (h : din.iType ≠ InodeType.dir.val) (dev : Dev) (x : Name) :
    testfsDirNameToInodeNr din dev x = .error (.assertion .direntDirectory) := by
  rw [testfsDirNameToInodeNr, assertC, if_neg h]
  rfl

/-- Paths in the state are paths in the tree. -/
theorem Represents.resolve (h : Represents s V) (hn : n ∈ V.tree.nodes) (p : List Name) :
    s.resolve n p = V.tree.walk n p := by
  induction p generalizing n with
  | nil => rfl
  | cons x p ih =>
    rw [FileSystem.resolve, NameTree.walk]
    by_cases hdots : x = dot ∨ x = dotdot
    · rw [if_pos hdots]
      cases hx : V.tree.child n x with
      | none => rfl
      | some m =>
        obtain ⟨hdot, hdotdot⟩ := h.names n x m hx
        exact absurd hdots (not_or_intro hdot hdotdot)
    rw [if_neg hdots]
    obtain ⟨hdot, hdotdot⟩ := not_or.mp hdots
    by_cases hbranch : n ∈ V.tree.branches
    · rw [h.lookup hbranch, listing_name hdot hdotdot]
      cases hx : V.tree.child n x with
      | none => rfl
      | some m =>
        dsimp only [Option.map_some, Option.getD_some, Option.bind_some]
        rw [if_neg (show ¬ Int.ofNat m < 0 from not_lt.mpr (Int.natCast_nonneg m))]
        exact ih (NameTree.child_node _ hx)
    · rw [lookup_file (fun htype => hbranch ((h.isDir_iff hn).mp htype)), V.tree.child_none hbranch]
      rfl

/-- Paths from the root. -/
theorem Represents.resolve_root (h : Represents s V) : s.resolve 0 = V.tree.walk V.tree.root := by
  funext p
  rw [← h.root, h.resolve V.tree.root_node]

/-- Two states with the same volume have the same paths. -/
theorem AtPrompt.resolve_eq {s' : FileSystem} (h : AtPrompt s V) (h' : AtPrompt s' V) :
    s'.resolve 0 = s.resolve 0 := h'.stored.resolve_root.trans h.stored.resolve_root.symm

/-- The lookup of a name in the current directory. -/
theorem AtPrompt.lookup_eq (h : AtPrompt s V) (name : Token) :
    s.lookup name = .ok ((listing V.tree s.curDir name.bytes).getD (-ENOENT)) := by
  rw [FileSystem.lookup, h.here]
  exact h.stored.lookup h.cur name.bytes

theorem AtPrompt.listing_of_lookup (h : AtPrompt s V) {name : Token}
    (hname : s.lookup name = .ok (n : ℤ)) : listing V.tree s.curDir name.bytes = some (n : ℤ) := by
  rw [h.lookup_eq] at hname
  cases hx : listing V.tree s.curDir name.bytes with
  | none =>
    rw [hx] at hname
    have hneg : -ENOENT = (n : ℤ) := Except.ok.inj hname
    exact absurd (Int.natCast_nonneg n) (by rw [← hneg]; decide)
  | some v =>
    rw [hx] at hname
    exact congrArg some (Except.ok.inj hname)

/-- The allocated inodes are those that a path leads to, and there is one path to each. -/
theorem Represents.allocated_iff (h : Represents s V) (k : Nat) :
    s.sb.inodeFreemap.isset k = true ↔ ∃ p, s.IsPath p k := by
  simp only [FileSystem.IsPath, h.resolve_root, h.sound.kept.bits]
  constructor
  · intro hk
    obtain ⟨p, hp⟩ := V.tree.exists_path hk
    exact ⟨p, hp, fun q hq => V.tree.path_unique hq hp⟩
  · rintro ⟨p, hp, -⟩
    exact V.tree.walk_node V.tree.root_node hp

/-- What `.` and `..` say of a directory. -/
theorem Represents.dots (h : Represents s V) {x : Name} (hp : s.resolve 0 (p ++ [x]) = some d)
    (hdir : (s.dinodes d).iType = InodeType.dir.val) :
    testfsDirNameToInodeNr (s.dinodes d) s.sb.dev dot = .ok (d : ℤ) ∧
      ∃ e : ℕ, s.resolve 0 p = some e ∧
        testfsDirNameToInodeNr (s.dinodes d) s.sb.dev dotdot = .ok (e : ℤ) := by
  rw [h.resolve_root] at hp ⊢
  have hd := (h.isDir_iff (V.tree.walk_node V.tree.root_node hp)).mp hdir
  rw [NameTree.walk_concat, Option.bind_eq_some_iff] at hp
  obtain ⟨e, he, hx⟩ := hp
  constructor
  · rw [h.lookup hd, listing_dot]
    rfl
  · refine ⟨e, he, ?_⟩
    rw [h.lookup hd, listing_dotdot, V.tree.child_parent hx]
    rfl

end Paths

end Ece344Lab.Fs
