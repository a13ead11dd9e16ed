import Ece344Lab.Fs.Paths
import Ece344Lab.Fs.ReadOnly
import Ece344Lab.Fs.Sessions
import Ece344Lab.Fs.Space
import Mathlib.Data.Set.List

/-!
# What holds of every run of testfs

The main results about the file system, for every state that commands and restarts lead to from a
new file system of any size. The steps of a run are `Regular`: no command runs out of space, `ls` and
`lsr` are not given a file (`create a`, `ls a`, `quit` is no such run), and the directories and the
writes stay within the size bounds.
-/
namespace Ece344Lab.Fs

open Ece344Lab.Library

/-- A command that neither lists nor makes nor writes is regular unless it runs out of space. -/
theorem regular_of_name {s : FileSystem} {cmd : Command} {r : Ret Event FileSystem Int}
    (hspace : r.val ≠ -ENOSPC)
    (hcmd : cmd.name ≠ .ls ∧ cmd.name ≠ .lsr ∧ cmd.name ≠ .create ∧ cmd.name ≠ .mkdir ∧
      cmd.name ≠ .write) : Regular s cmd r where
  space := hspace
  listsDir := listsDir_of_ne hcmd.1 hcmd.2.1
  room h := absurd h (not_or_intro hcmd.2.2.1 hcmd.2.2.2.1)
  fits h := absurd h hcmd.2.2.2.2

/-- A `read` prints the bytes that the file holds. -/
theorem AtPrompt.read_data {s : FileSystem} {V : Volume} (h : AtPrompt s V)
    {name offset size data : Token} {n start : ℕ}
    (hoffset : strToOffset offset.bytes = (0, (start : ℤ)))
    (hsize : strToSize size.bytes = (0, data.bytes.length))
    (hx : listing V.tree s.curDir name.bytes = some (n : ℤ)) (hfile : n ∉ V.tree.branches)
    (hdata : ∀ k, k < data.bytes.length → V.data n (start + k) = data.bytes[k]?)
    (hlen : data.bytes.length ≤ 2 ^ 30) :
    ∃ s' log, (cmdRead [name, offset, size]).run s = .ok ⟨data.bytes.length, s', log⟩ ∧
      printed log = data.bytes ++ newline := by
  obtain ⟨m, hm, hnode, -⟩ := listing_some h.cur hx
  obtain rfl := Int.ofNat.inj hm
  have hread := (h.stored.files n hnode hfile).readFile (h.stored.sound.sane n).nonneg hdata
    (List.length_pos_of_ne_nil data.ne_nil) hlen
  obtain ⟨s', log, hrun, -, -, htext⟩ := h.read hoffset hsize hx hfile hread
  refine ⟨s', log, hrun, ?_⟩
  -- an argument has no NUL at which printing would stop
  rw [htext, if_pos (Int.natCast_nonneg _), List.takeWhile_eq_self_iff.mpr]
  intro v hv
  exact decide_eq_true fun hzero => data.no_nul (hzero ▸ hv)

section Samples

/-- A new file system has space left, and its root is small. -/
theorem sample_new : ∃ s, startTestfs oneMb = .ok s ∧ AtPrompt s .new ∧ s.curDir = 0 ∧
    (s.dinodes s.curDir).iSize ≤ 1000 ∧ 100 ≤ s.sb.free := by
  have hcheck : (startTestfs oneMb).toOption.any (fun s =>
      decide ((s.dinodes s.curDir).iSize ≤ 1000 ∧ 100 ≤ s.sb.free)) = true := by
    decide +kernel
  obtain ⟨s, hs, hat, hcur⟩ := startTestfs_new oneMb
  rw [hs] at hcheck
  exact ⟨s, hs, hat, hcur, of_decide_eq_true hcheck⟩

/-- The name `.`. -/
def nameDot : Token := ⟨dot, by decide, by decide⟩

/-- The turn `create a`. -/
def createA : Turn := .command ⟨.create, [nameA]⟩ 0 []

/-- `create a` succeeds on a new file system. -/
theorem sample_create : ∃ (s s' : FileSystem) (log : List Event) (V : Volume) (k : ℕ),
    testfs.Run [] s ∧ (cmdCreate [nameA]).run s = .ok ⟨0, s', log⟩ ∧
    Regular s ⟨.create, [nameA]⟩ ⟨0, s', log⟩ ∧ AtPrompt s' V ∧
    listing V.tree s'.curDir nameA.bytes = some (k : ℤ) ∧ k ∉ V.tree.branches ∧
    s'.dinodes k = created .file ∧ 3 ≤ s'.sb.free ∧ s'.curDir = 0 := by
  obtain ⟨s, hs, hat, hcur, hsmall, hfree⟩ := sample_new
  have hx : listing Volume.new.tree s.curDir nameA.bytes = none := rfl
  have hfits : (s.dinodes s.curDir).iSize + (nameA.bytes.length + 9) ≤ 8192 := by
    simp only [nameA, List.length_cons, List.length_nil]
    omega
  have hcard : Volume.new.tree.nodes.card < nrInodes := by
    rw [show Volume.new.tree.nodes.card = 1 from rfl]
    decide
  have hfile : InodeType.file ≠ .none := by decide
  obtain ⟨s', log, k, hk, hrun, hcur', hempty, hat', hleft⟩ :=
    hat.make_space hfile hx hcard hfits (by omega)
  have hreg : Regular s ⟨.create, [nameA]⟩ ⟨0, s', log⟩ := by
    refine ⟨(by decide : (0 : ℤ) ≠ -ENOSPC), listsDir_of_ne (by simp) (by simp), ?_,
      fun h => by cases h⟩
    rintro - name ⟨⟩
    simp only [maxDirSize]
    omega
  refine ⟨s, s', log, _, k, .start ⟨oneMb, hs⟩, hrun, hreg, hat', ?_, ?_, hempty (by decide), by omega,
    by omega⟩
  · rw [make_tree, hcur', listing_name (by decide) (by decide), NameTree.add_child_self,
      Function.update_self]
    rfl
  · rw [make_tree]
    intro hmem
    rcases NameTree.mem_add_branches.mp hmem with ⟨htype, -⟩ | hmem
    · cases htype
    · exact hk (Volume.new.tree.branches_sub hmem)

/-- A run with a file. -/
theorem sample_created : ∃ (s : FileSystem) (V : Volume) (k : ℕ), testfs.Run [createA] s ∧
    AtPrompt s V ∧ listing V.tree s.curDir nameA.bytes = some (k : ℤ) ∧ k ∉ V.tree.branches ∧
    s.dinodes k = created .file ∧ 3 ≤ s.sb.free ∧ s.curDir = 0 := by
  obtain ⟨s, s', log, V, k, hrun, hcreate, hreg, hrest⟩ := sample_create
  have hturn := @Turns.command s ⟨.create, [nameA]⟩ _ hcreate hreg
  dsimp only at hturn
  rw [(silent_cmdMake .file nameA).printed_nil hcreate] at hturn
  exact ⟨s', V, k, .next hrun hturn, hrest⟩

/-- The offset 0. -/
def zero : Token := ⟨[48], by decide, by decide⟩

/-- The size 1. -/
def one : Token := ⟨[49], by decide, by decide⟩

/-- `write a 0 a` after that. -/
theorem sample_written : ∃ (s s₁ : FileSystem) (V : Volume) (k : ℕ), testfs.Run [createA] s ∧
    testfs.step s (.command ⟨.write, [nameA, zero, nameA]⟩ 1 []) s₁ ∧
    AtPrompt s₁ (V.write k 0 nameA.bytes) ∧ listing V.tree s₁.curDir nameA.bytes = some (k : ℤ) ∧
    k ∉ V.tree.branches ∧ s.curDir = 0 := by
  obtain ⟨s, V, k, hrun, hat, hx, hk, -, hfree, hcur⟩ := sample_created
  have hoffset : strToOffset zero.bytes = (0, ((0 : ℕ) : ℤ)) := rfl
  obtain ⟨s₁, log, hwrite, hcur₁, hat₁, -⟩ := hat.write_space hoffset hx hk
    (show 0 + nameA.bytes.length ≤ maxFileSize by decide) (by decide) hfree
  have hreg : Regular s ⟨.write, [nameA, zero, nameA]⟩ ⟨nameA.bytes.length, s₁, log⟩ := by
    refine ⟨(by decide : (1 : ℤ) ≠ -ENOSPC), listsDir_of_ne (by simp) (by simp),
      fun h => by simp at h, ?_⟩
    rintro - name offset data start ⟨⟩ hstart
    rw [hoffset] at hstart
    obtain rfl := Int.ofNat.inj (congrArg Prod.snd hstart)
    decide
  have hturn := @Turns.command s ⟨.write, [nameA, zero, nameA]⟩ _ hwrite hreg
  dsimp only at hturn
  rw [(silent_cmdWrite nameA zero nameA).printed_nil hwrite] at hturn
  exact ⟨s, s₁, V, k, hrun, hturn, hat₁, hcur₁ ▸ hx, hk, hcur⟩

/-- `read a 0 1` after that. -/
theorem sample_read : ∃ s s' log, (cmdRead [nameA, zero, one]).run s = .ok ⟨1, s', log⟩ ∧
    printed log = nameA.bytes ++ newline := by
  obtain ⟨s, s₁, V, k, -, -, hat, hx, hk, -⟩ := sample_written
  have hdata : ∀ i, i < nameA.bytes.length →
      (V.write k 0 nameA.bytes).data k (0 + i) = nameA.bytes[i]? := by
    intro i hi
    rw [Volume.write]
    dsimp only
    rw [Function.update_self, if_pos ⟨by omega, by omega⟩, Nat.add_sub_cancel_left]
  obtain ⟨s', log, hread, htext⟩ :=
    @AtPrompt.read_data s₁ _ hat nameA zero one nameA k 0 rfl rfl hx hk hdata (by decide)
  exact ⟨s₁, s', log, hread, htext⟩

/-- A current directory without entries. -/
def noEntries : FileSystem where
  sb := newSuperBlock 128
  hash := inodeHashInsert inodeHashInit ⟨⟨created .dir, false, 0⟩, 1⟩
  curDir := 0

/-- `rm a` after `create a`. -/
theorem sample_removed : ∃ s r, testfs.Run [createA] s ∧ (cmdRm [nameA]).run s = .ok r ∧
    r.val = 0 := by
  obtain ⟨s, V, k, hrun, hat, hx, hk, hempty, -⟩ := sample_created
  obtain ⟨n, hn, hchild, -⟩ := hat.child (by decide) (by decide) hx
  obtain rfl := Int.ofNat.inj hn
  cases hrm : (cmdRm [nameA]).run s with
  | error e =>
    obtain ⟨m, hm, hwritten⟩ := hat.rm.of_error hrm
    obtain rfl := Option.some.inj (hchild.symm.trans hm)
    exact absurd hempty (hwritten .file)
  | ok r =>
    refine ⟨s, r, hrun, hrm, ?_⟩
    rcases hat.rm.of_ok hrm with ⟨hdots, -⟩ | ⟨hnone, -⟩ | ⟨m, y, v, hm, hv, -⟩ | ⟨m, -, -, hret, -⟩
    · exact absurd hdots (by decide)
    · rw [hx] at hnone
      cases hnone
    · obtain rfl := Option.some.inj (hchild.symm.trans hm)
      rw [V.tree.child_none hk] at hv
      cases hv
    · exact hret

end Samples

section Runs

/-- The state that a run ends in stores a volume, whose names have been given to commands. -/
theorem atPrompt_of_run {s : FileSystem} {turns : List Turn} (run : testfs.Run turns s) :
    ∃ V, AtPrompt s V ∧ ∀ d x n, V.tree.child d x = some n → ∃ name : Token, name.bytes = x := by
  obtain ⟨⟨V, d⟩, habstract, hat, -⟩ := testfs_simulates.run run
  exact ⟨V, hat, volumes_names habstract⟩

variable {s s₁ s₂ : FileSystem} {turns later : List Turn}

/-- Every run of testfs with regular steps is a run of the operations on volumes, with the same
results and the same output. At its end the state stores the volume, and is in the current
directory. -/
theorem testfs_refines (run : testfs.Run turns s) :
    ∃ V, volumes.Run turns (V, s.curDir) ∧ AtPrompt s V := by
  obtain ⟨⟨V, d⟩, habstract, hat, hcur⟩ := testfs_simulates.run run
  dsimp only at hcur
  exact ⟨V, by rw [hcur]; exact habstract, hat⟩

theorem testfs_refines_create : ∃ s, testfs.Run [createA] s ∧
    ∃ V, volumes.Run [createA] (V, s.curDir) ∧ AtPrompt s V := by
  obtain ⟨s, V, k, hrun, -⟩ := sample_created
  exact ⟨s, hrun, testfs_refines hrun⟩

/-- What a `write` has written to a file, a `read` of the same range prints later, after any other
regular commands and restarts, as long as no `write` or `rm` names the file. -/
theorem read_back {name offset data size : Token} {start : ℕ} {ret : Int} {text : List UInt8}
    (run : testfs.Run turns s)
    (hwrite : testfs.step s (.command ⟨.write, [name, offset, data]⟩ ret text) s₁) (hret : 0 ≤ ret)
    (hlater : (testfs.after s₁).Run later s₂) (hspares : ∀ e ∈ later, e.Spares name.bytes)
    (hcur : s₂.curDir = s.curDir) (hoffset : strToOffset offset.bytes = (0, (start : ℤ)))
    (hsize : strToSize size.bytes = (0, data.bytes.length)) :
    ∃ s₃ log, (cmdRead [name, offset, size]).run s₂ = .ok ⟨data.bytes.length, s₃, log⟩ ∧
      printed log = data.bytes ++ newline := by
  obtain ⟨⟨V, d⟩, -, hat⟩ := testfs_simulates.run run
  have hlen : data.bytes.length ≤ 2 ^ 30 := by
    cases show Turns _ _ _ from hwrite with
    | command _ hreg => exact (hreg.fits rfl name offset data start rfl hoffset).2
  obtain ⟨⟨V₁, d₁⟩, hturn, hat₁⟩ := testfs_simulates.step _ _ _ _ hat hwrite
  obtain ⟨⟨V₂, d₂⟩, habstract, hat₂, -⟩ := (testfs_simulates.after hat₁).run hlater
  obtain ⟨hat, rfl⟩ := hat
  dsimp only at hat
  cases hturn with
  | command hdoes =>
    obtain ⟨n, hx, hn, rfl, rfl⟩ := hdoes.wrote hret hoffset
    have hfile : HasFile (V.write n start data.bytes, s.curDir) s.curDir name.bytes n _ _ :=
      ⟨hat.cur, listing_file hat.cur hx hn, hn, rfl, rfl⟩
    have hfile₂ := hfile.run habstract hspares
    obtain ⟨hdot, hdotdot⟩ := hat₂.stored.names _ _ _ hfile₂.child
    have hx₂ : listing V₂.tree s₂.curDir name.bytes = some (n : ℤ) := by
      rw [hcur, listing_name hdot hdotdot, hfile₂.child]
      rfl
    have hdata : ∀ k, k < data.bytes.length → V₂.data n (start + k) = data.bytes[k]? := by
      intro k hk
      rw [hfile₂.data, Volume.write]
      dsimp only
      rw [Function.update_self, if_pos ⟨by omega, by omega⟩, Nat.add_sub_cancel_left]
    exact hat₂.read_data hoffset hsize hx₂ hfile₂.isFile hdata hlen

theorem read_back_restart : ∃ s s₁ s₂, testfs.Run [createA] s ∧
    testfs.step s (.command ⟨.write, [nameA, zero, nameA]⟩ 1 []) s₁ ∧
    (testfs.after s₁).Run [.restart] s₂ ∧
    ∃ s₃ log, (cmdRead [nameA, zero, one]).run s₂ = .ok ⟨1, s₃, log⟩ ∧
      printed log = nameA.bytes ++ newline := by
  obtain ⟨s, s₁, V, k, hrun, hwrite, hat₁, -, -, hcur⟩ := sample_written
  obtain ⟨dev, s₂, hquit, hopen, hat₂, hcur₂⟩ := hat₁.reopen
  have hlater : (testfs.after s₁).Run ([] ++ [.restart]) s₂ :=
    .next (.start rfl) (Turns.restart hquit hopen)
  refine ⟨s, s₁, s₂, hrun, hwrite, hlater, read_back hrun hwrite (by decide) hlater ?_ ?_ rfl rfl⟩
  · rintro e he
    obtain rfl := List.mem_singleton.mp he
    trivial
  · rw [hcur₂, hat₁.stored.root, hcur]

/-- In every run of regular steps the allocated inodes are those that a path from the root leads to.
There is one path to each: no inode has two names, none is lost and no directory is below itself.
In every directory but the root `.` is the directory and `..` the one before it on its path. -/
theorem one_path (run : testfs.Run turns s) :
    (∀ k, s.sb.inodeFreemap.isset k = true ↔ ∃ p, s.IsPath p k) ∧
      ∀ p x d, s.resolve 0 (p ++ [x]) = some d → (s.dinodes d).iType = InodeType.dir.val →
        testfsDirNameToInodeNr (s.dinodes d) s.sb.dev dot = .ok (d : ℤ) ∧
          ∃ e : ℕ, s.resolve 0 p = some e ∧
            testfsDirNameToInodeNr (s.dinodes d) s.sb.dev dotdot = .ok (e : ℤ) := by
  obtain ⟨V, hat, -⟩ := atPrompt_of_run run
  exact ⟨hat.stored.allocated_iff, fun p x d => hat.stored.dots⟩

theorem one_path_create : ∃ s, testfs.Run [createA] s ∧
    (∀ k, s.sb.inodeFreemap.isset k = true ↔ ∃ p, s.IsPath p k) ∧
      ∀ p x d, s.resolve 0 (p ++ [x]) = some d → (s.dinodes d).iType = InodeType.dir.val →
        testfsDirNameToInodeNr (s.dinodes d) s.sb.dev dot = .ok (d : ℤ) ∧
          ∃ e : ℕ, s.resolve 0 p = some e ∧
            testfsDirNameToInodeNr (s.dinodes d) s.sb.dev dotdot = .ok (e : ℤ) := by
  obtain ⟨s, V, k, hrun, -⟩ := sample_created
  exact ⟨s, hrun, one_path hrun⟩

/-- The turn `cd name`, where it succeeds. -/
def cdTurn (name : Token) : Turn := .command ⟨.cd, [name]⟩ 0 []

/-- `cd` goes along a path of directories, name by name. -/
theorem AtPrompt.cd_path {V : Volume} (h : AtPrompt s V) (names : List Token) :
    ∀ d, d ∈ V.tree.branches → V.tree.walk s.curDir (names.map Token.bytes) = some d →
      ∃ s', (testfs.after s).Run (names.map cdTurn) s' ∧ s'.curDir = d ∧ AtPrompt s' V := by
  induction names using List.reverseRecOn with
  | nil =>
    intro d _ hd
    exact ⟨s, .start rfl, Option.some.inj hd, h⟩
  | append_singleton names name ih =>
    intro d hd hwalk
    rw [List.map_append, List.map_singleton, NameTree.walk_concat, Option.bind_eq_some_iff] at hwalk
    obtain ⟨e, he, hx⟩ := hwalk
    obtain ⟨s₁, hrun, hcur₁, hat₁⟩ := ih e (V.tree.child_branch hx) he
    obtain ⟨hdot, hdotdot⟩ := h.stored.names _ _ _ hx
    have hlist : listing V.tree s₁.curDir name.bytes = some (d : ℤ) := by
      rw [hcur₁, listing_name hdot hdotdot, hx]
      rfl
    obtain ⟨ret, s₂, hcd, hat₂, hcase⟩ := hat₁.cd name
    rcases hcase with ⟨hnone, -⟩ | ⟨n, hn, ⟨hfile, -⟩ | ⟨-, rfl, hcur₂⟩⟩
    · rw [hlist] at hnone
      cases hnone
    · obtain rfl := Int.ofNat.inj (Option.some.inj (hlist.symm.trans hn))
      exact absurd hd hfile
    · obtain rfl := Int.ofNat.inj (Option.some.inj (hlist.symm.trans hn))
      rw [List.map_append, List.map_singleton]
      exact ⟨s₂, .next hrun (@Turns.command s₁ ⟨.cd, [name]⟩ _ hcd
        (regular_of_name (show (0 : ℤ) ≠ -ENOSPC by decide) (by simp))), hcur₂, hat₂⟩

/-- In every run of regular steps, `pwd` returns and prints a path, and after a restart, which
starts in the root, `cd` along the names of that path leads back to the same directory. -/
theorem pwd_leads_back (run : testfs.Run turns s) :
    ∃ (names : List Token) (s₁ : FileSystem) (log : List Event),
      (cmdPwd []).run s = .ok ⟨0, s₁, log⟩ ∧
      printed log = slash ++ List.intercalate slash (names.map Token.bytes) ++ newline ∧
      ∃ dev s₂ s₃, quitTestfs s₁ = .ok dev ∧ openTestfs dev = .ok s₂ ∧
        (testfs.after s₂).Run (names.map cdTurn) s₃ ∧ s₃.curDir = s.curDir := by
  obtain ⟨V, hat, hnames⟩ := atPrompt_of_run run
  obtain ⟨p, hp⟩ := V.tree.exists_path hat.cur_node
  obtain ⟨names, rfl⟩ : ∃ names : List Token, names.map Token.bytes = p := by
    have hmem : p ∈ Set.range (List.map Token.bytes) := by
      rw [Set.range_list_map]
      intro x hx
      obtain ⟨e, m, hchild⟩ := V.tree.walk_names hp x hx
      exact hnames e x m hchild
    exact hmem
  obtain ⟨s₁, log, hpwd, hat₁, hcur₁, htext⟩ := hat.pwd hp
  obtain ⟨dev, s₂, hquit, hopen, hat₂, hcur₂⟩ := hat₁.reopen
  rw [← hcur₂] at hp
  obtain ⟨s₃, hrun, hcur₃, -⟩ := hat₂.cd_path names s.curDir hat.cur hp
  exact ⟨names, s₁, log, hpwd, htext, dev, s₂, s₃, hquit, hopen, hrun, hcur₃⟩

theorem pwd_leads_back_create : ∃ s, testfs.Run [createA] s ∧
    ∃ (names : List Token) (s₁ : FileSystem) (log : List Event),
      (cmdPwd []).run s = .ok ⟨0, s₁, log⟩ ∧
      printed log = slash ++ List.intercalate slash (names.map Token.bytes) ++ newline ∧
      ∃ dev s₂ s₃, quitTestfs s₁ = .ok dev ∧ openTestfs dev = .ok s₂ ∧
        (testfs.after s₂).Run (names.map cdTurn) s₃ ∧ s₃.curDir = s.curDir := by
  obtain ⟨s, V, k, hrun, -⟩ := sample_created
  exact ⟨s, hrun, pwd_leads_back hrun⟩

/-- In every run of regular steps, `create` and `mkdir` that do not run out of space, in a directory
that has room for the entry, find the name taken and change no path, or add one path, from the
current directory to an inode that was free. -/
theorem make_adds_path {cmd : CmdName} {name : Token} {r : Ret Event FileSystem Int}
    (run : testfs.Run turns s) (hcmd : cmd = .create ∨ cmd = .mkdir)
    (h : (Command.func ⟨cmd, [name]⟩).run s = .ok r) (hreg : Regular s ⟨cmd, [name]⟩ r) :
    ∃ p, s.resolve 0 p = some s.curDir ∧ r.st.curDir = s.curDir ∧
      (r.val = -EEXIST ∧ r.st.resolve 0 = s.resolve 0 ∨
        r.val = 0 ∧ s.resolve 0 (p ++ [name.bytes]) = none ∧
          ∃ k, s.sb.inodeFreemap.isset k = false ∧ r.st.sb.inodeFreemap.isset k = true ∧
            r.st.resolve 0 = Function.update (s.resolve 0) (p ++ [name.bytes]) (some k)) := by
  obtain ⟨V, hat, -⟩ := atPrompt_of_run run
  obtain ⟨p, hp⟩ := V.tree.exists_path hat.cur_node
  obtain ⟨V', hdoes, hat'⟩ := hat.simulates h hreg
  obtain ⟨hcur, hcase⟩ := hdoes.made hcmd hat.cur
  have hpath : s.resolve 0 p = some s.curDir := by rw [hat.stored.resolve_root, hp]
  refine ⟨p, hpath, hcur, ?_⟩
  rcases hcase with ⟨hret, rfl⟩ | ⟨hret, k, type, hx, hk, rfl⟩
  · exact Or.inl ⟨hret, hat.resolve_eq hat'⟩
  have hfree : s.sb.inodeFreemap.isset k = false := by
    rw [← Bool.not_eq_true, hat.stored.sound.kept.bits]
    exact hk
  have hset : r.st.sb.inodeFreemap.isset k = true := by
    rw [hat'.stored.sound.kept.bits, make_tree]
    exact Finset.mem_insert_self k V.tree.nodes
  refine Or.inr ⟨hret, ?_, k, hfree, hset, ?_⟩
  · rw [hat.stored.resolve_root, NameTree.walk_concat, hp, Option.bind_some, (listing_none hx).2.2]
  · rw [hat.stored.resolve_root, hat'.stored.resolve_root, make_tree]
    exact NameTree.add_walk hp

theorem make_adds_path_create : ∃ s r, testfs.Run [] s ∧ (cmdCreate [nameA]).run s = .ok r ∧
    ∃ p, s.resolve 0 p = some s.curDir ∧ r.st.curDir = s.curDir ∧
      (r.val = -EEXIST ∧ r.st.resolve 0 = s.resolve 0 ∨
        r.val = 0 ∧ s.resolve 0 (p ++ [nameA.bytes]) = none ∧
          ∃ k, s.sb.inodeFreemap.isset k = false ∧ r.st.sb.inodeFreemap.isset k = true ∧
            r.st.resolve 0 = Function.update (s.resolve 0) (p ++ [nameA.bytes]) (some k)) := by
  obtain ⟨s, s', log, V, k, hrun, hcreate, hreg, -⟩ := sample_create
  exact ⟨s, _, hrun, hcreate, @make_adds_path s [] .create nameA _ hrun (Or.inl rfl) hcreate hreg⟩

/-- In every run of regular steps, `rm` fails and changes no path, or takes away one path, from the
current directory to an inode with nothing below it, which is free from then on. -/
theorem rm_removes_path {name : Token} {r : Ret Event FileSystem Int} (run : testfs.Run turns s)
    (h : (cmdRm [name]).run s = .ok r) :
    ∃ p, s.resolve 0 p = some s.curDir ∧ r.st.curDir = s.curDir ∧
      (r.val < 0 ∧ r.st.resolve 0 = s.resolve 0 ∨
        r.val = 0 ∧ (∀ x, s.resolve 0 (p ++ [name.bytes] ++ [x]) = none) ∧
          ∃ k, s.resolve 0 (p ++ [name.bytes]) = some k ∧ r.st.sb.inodeFreemap.isset k = false ∧
            r.st.resolve 0 = Function.update (s.resolve 0) (p ++ [name.bytes]) none) := by
  obtain ⟨V, hat, -⟩ := atPrompt_of_run run
  obtain ⟨p, hp⟩ := V.tree.exists_path hat.cur_node
  obtain ⟨V', hdoes, hat'⟩ := hat.simulates_rm h
  obtain ⟨hcur, hcase⟩ := hdoes.removed
  have hpath : s.resolve 0 p = some s.curDir := by rw [hat.stored.resolve_root, hp]
  refine ⟨p, hpath, hcur, ?_⟩
  rcases hcase with ⟨hret, rfl⟩ | ⟨hret, k, hchild, hleaf, rfl⟩
  · exact Or.inl ⟨hret, hat.resolve_eq hat'⟩
  have hwalk : V.tree.walk V.tree.root (p ++ [name.bytes]) = some k := by
    rw [NameTree.walk_concat, hp, Option.bind_some, hchild]
  have hfree : r.st.sb.inodeFreemap.isset k = false := by
    rw [← Bool.not_eq_true, hat'.stored.sound.kept.bits, remove_tree]
    exact Finset.notMem_erase k V.tree.nodes
  refine Or.inr ⟨hret, fun x => ?_, k, ?_, hfree, ?_⟩
  · rw [hat.stored.resolve_root, NameTree.walk_concat, hwalk, Option.bind_some, hleaf]
  · rw [hat.stored.resolve_root, hwalk]
  · rw [hat.stored.resolve_root, hat'.stored.resolve_root, remove_tree]
    exact NameTree.remove_walk hchild hp

theorem rm_removes_path_file : ∃ s r, testfs.Run [createA] s ∧ (cmdRm [nameA]).run s = .ok r ∧
    r.val = 0 ∧ ∃ p, s.resolve 0 p = some s.curDir ∧ r.st.curDir = s.curDir ∧
      (r.val < 0 ∧ r.st.resolve 0 = s.resolve 0 ∨
        r.val = 0 ∧ (∀ x, s.resolve 0 (p ++ [nameA.bytes] ++ [x]) = none) ∧
          ∃ k, s.resolve 0 (p ++ [nameA.bytes]) = some k ∧ r.st.sb.inodeFreemap.isset k = false ∧
            r.st.resolve 0 = Function.update (s.resolve 0) (p ++ [nameA.bytes]) none) := by
  obtain ⟨s, r, hrun, hrm, hret⟩ := sample_removed
  exact ⟨s, r, hrun, hrm, hret, rm_removes_path hrun hrm⟩

/-- In every run of regular steps, `ls` and `lsr` of a directory return and list it: each of its
names once, and `lsr` below each directory what is in that. -/
theorem ls_lists {name : Token} {n : ℕ} (run : testfs.Run turns s) (hname : s.lookup name = .ok n)
    (hdir : s.typeOf n = .ok InodeType.dir.val) (recursive : Bool) :
    ∃ V s' log, AtPrompt s V ∧ (cmdLsInternal recursive [name]).run s = .ok ⟨0, s', log⟩ ∧
      AtPrompt s' V ∧ s'.curDir = s.curDir ∧ Lists V recursive n (printed log) := by
  obtain ⟨V, hat, -⟩ := atPrompt_of_run run
  have hx := hat.listing_of_lookup hname
  obtain ⟨m, hm, hnode, -⟩ := listing_some hat.cur hx
  obtain rfl := Int.ofNat.inj hm
  rw [hat.typeOf hnode] at hdir
  have hbranch := (hat.stored.isDir_iff hnode).mp (Except.ok.inj hdir)
  obtain ⟨s', log, hls, hat', hcur, htext⟩ := hat.ls recursive hx hbranch
  exact ⟨V, s', log, hat, hls, hat', hcur, htext⟩

theorem ls_lists_dot : ∃ s n, testfs.Run [createA] s ∧ s.lookup nameDot = .ok (n : ℕ) ∧
    ∃ V s' log, AtPrompt s V ∧ (cmdLsInternal true [nameDot]).run s = .ok ⟨0, s', log⟩ ∧
      AtPrompt s' V ∧ s'.curDir = s.curDir ∧ Lists V true n (printed log) := by
  obtain ⟨s, V, k, hrun, hat, -⟩ := sample_created
  have hname : s.lookup nameDot = .ok (s.curDir : ℤ) := by
    rw [hat.lookup_eq, show nameDot.bytes = dot from rfl, listing_dot]
    rfl
  have hdir : s.typeOf s.curDir = .ok InodeType.dir.val := by
    rw [hat.typeOf hat.cur_node, hat.stored.isDir hat.cur]
  exact ⟨s, s.curDir, hrun, hname, ls_lists hrun hname hdir true⟩

/-- In no state does a command that is not there for changes write to the device or change the super
block, whether it returns or stops at an assertion. -/
theorem looking_leaves_device {cmd : Command}
    (hcmd : cmd.name ≠ .create ∧ cmd.name ≠ .mkdir ∧ cmd.name ≠ .rm ∧ cmd.name ≠ .write)
    (s : FileSystem) :
    (cmd.func.final s).sb = s.sb ∧ ∀ r, cmd.func.run s = .ok r → r.st.sb = s.sb := by
  suffices hreads : ReadOnly cmd.func by
    refine ⟨hreads.final s, fun r hr => ?_⟩
    rw [← cmd.func.final_eq s r hr]
    exact hreads.final s
  by_cases huse : cmd.args.length = cmd.name.arity
  swap
  · rw [func_usage huse]
    exact ReadOnly.pure _
  obtain ⟨name, args⟩ := cmd
  obtain ⟨hcreate, hmkdir, hrm, hwrite⟩ := hcmd
  cases name with
  | create => exact absurd rfl hcreate
  | mkdir => exact absurd rfl hmkdir
  | rm => exact absurd rfl hrm
  | write => exact absurd rfl hwrite
  | pwd =>
    obtain rfl := List.length_eq_zero_iff.mp huse
    exact readOnly_cmdPwd
  | fsstat =>
    obtain rfl := List.length_eq_zero_iff.mp huse
    exact readOnly_cmdFsstat
  | cd =>
    obtain ⟨arg, rfl⟩ := List.length_eq_one_iff.mp huse
    exact readOnly_cmdCd arg
  | ls =>
    obtain ⟨arg, rfl⟩ := List.length_eq_one_iff.mp huse
    exact readOnly_cmdLs false arg
  | lsr =>
    obtain ⟨arg, rfl⟩ := List.length_eq_one_iff.mp huse
    exact readOnly_cmdLs true arg
  | stat =>
    obtain ⟨arg, rfl⟩ := List.length_eq_one_iff.mp huse
    exact readOnly_cmdStat arg
  | read =>
    obtain ⟨name, offset, size, rfl⟩ := List.length_eq_three.mp huse
    exact readOnly_cmdRead name offset size

theorem looking_leaves_device_read :
    (∃ s s' log, (cmdRead [nameA, zero, one]).run s = .ok ⟨1, s', log⟩ ∧
      printed log = nameA.bytes ++ newline ∧ s'.sb = s.sb) ∧
    (cmdPwd []).run noEntries = .error (.assertion .pwdParentFound) ∧
      ((cmdPwd []).final noEntries).sb = noEntries.sb := by
  refine ⟨?_, rfl, (@looking_leaves_device ⟨.pwd, []⟩ (by simp) noEntries).1⟩
  obtain ⟨s, s', log, hread, htext⟩ := sample_read
  exact ⟨s, s', log, hread, htext,
    (@looking_leaves_device ⟨.read, [nameA, zero, one]⟩ (by simp) s).2 _ hread⟩

/-- In every run of regular steps, with nine free blocks and a free inode, `create` and `mkdir` of a
new name in a directory of one block succeed, and take nine blocks at most. -/
theorem make_finds_space {cmd : CmdName} {name : Token} (run : testfs.Run turns s)
    (hcmd : cmd = .create ∨ cmd = .mkdir) (hname : s.lookup name = .ok (-ENOENT))
    (hinodes : s.sb.sb.usedInodeCount < nrInodes)
    (hblock : (s.dinodes s.curDir).iSize + (name.bytes.length + 9) ≤ 8192) (hfree : 9 ≤ s.sb.free) :
    ∃ r, (Command.func ⟨cmd, [name]⟩).run s = .ok r ∧ r.val = 0 ∧
      s.sb.free ≤ r.st.sb.free + 9 := by
  obtain ⟨V, hat, -⟩ := atPrompt_of_run run
  have hx : listing V.tree s.curDir name.bytes = none := by
    rw [hat.lookup_eq] at hname
    cases hx : listing V.tree s.curDir name.bytes with
    | none => rfl
    | some v =>
      obtain ⟨n, rfl, -⟩ := listing_some hat.cur hx
      rw [hx] at hname
      have hneg : (n : ℤ) = -ENOENT := Except.ok.inj hname
      exact absurd (Int.natCast_nonneg n) (by rw [hneg]; decide)
  have hcard : V.tree.nodes.card < nrInodes := by
    rw [← hat.stored.sound.kept.count]
    exact hinodes
  have make : ∀ type, type ≠ InodeType.none → ∃ r, (cmdMake type [name]).run s = .ok r ∧ r.val = 0 ∧
      s.sb.free ≤ r.st.sb.free + 9 := fun type htype => by
    obtain ⟨s', log, k, hk, hmake, -, -, -, hleft⟩ := hat.make_space htype hx hcard hblock hfree
    exact ⟨_, hmake, rfl, hleft⟩
  rcases hcmd with rfl | rfl
  · exact make .file (by decide)
  · exact make .dir (by decide)

theorem make_finds_space_new : ∃ s, testfs.Run [] s ∧ ∃ r, (cmdMkdir [nameA]).run s = .ok r ∧
    r.val = 0 ∧ s.sb.free ≤ r.st.sb.free + 9 := by
  obtain ⟨s, hs, hat, hcur, hsmall, hfree⟩ := sample_new
  have hrun : testfs.Run [] s := .start ⟨oneMb, hs⟩
  have hname : s.lookup nameA = .ok (-ENOENT) := hat.lookup_eq nameA
  have hinodes : s.sb.sb.usedInodeCount < nrInodes := by
    rw [hat.stored.sound.kept.count, show Volume.new.tree.nodes.card = 1 from rfl]
    decide
  have hblock : (s.dinodes s.curDir).iSize + (nameA.bytes.length + 9) ≤ 8192 := by
    simp only [nameA, List.length_cons, List.length_nil]
    omega
  exact ⟨s, hrun, @make_finds_space s [] .mkdir nameA hrun (Or.inr rfl) hname hinodes hblock (by omega)⟩

/-- In every run of regular steps, with three free blocks, a `write` to a file within one block
succeeds, and takes three blocks at most. -/
theorem write_finds_space {name offset data : Token} {n start : ℕ} (run : testfs.Run turns s)
    (hname : s.lookup name = .ok (n : ℤ)) (hfile : s.typeOf n = .ok InodeType.file.val)
    (hoffset : strToOffset offset.bytes = (0, (start : ℤ)))
    (hend : start + data.bytes.length ≤ maxFileSize)
    (hblock : start % 8192 + data.bytes.length ≤ 8192) (hfree : 3 ≤ s.sb.free) :
    ∃ s' log, (cmdWrite [name, offset, data]).run s = .ok ⟨data.bytes.length, s', log⟩ ∧
      s.sb.free ≤ s'.sb.free + 3 := by
  obtain ⟨V, hat, -⟩ := atPrompt_of_run run
  have hx := hat.listing_of_lookup hname
  obtain ⟨m, hm, hnode, -⟩ := listing_some hat.cur hx
  obtain rfl := Int.ofNat.inj hm
  rw [hat.typeOf hnode] at hfile
  have hn : n ∉ V.tree.branches := fun hmem => by
    rw [hat.stored.isDir hmem] at hfile
    exact absurd (Except.ok.inj hfile) (by decide)
  obtain ⟨s', log, hwrite, -, -, hleft⟩ := hat.write_space hoffset hx hn hend hblock hfree
  exact ⟨s', log, hwrite, hleft⟩

theorem write_finds_space_create : ∃ s, testfs.Run [createA] s ∧
    ∃ s' log, (cmdWrite [nameA, zero, nameA]).run s = .ok ⟨1, s', log⟩ ∧
      s.sb.free ≤ s'.sb.free + 3 := by
  obtain ⟨s, V, k, hrun, hat, hx, hk, -, hfree, -⟩ := sample_created
  have hname : s.lookup nameA = .ok (k : ℤ) := by
    rw [hat.lookup_eq, hx]
    rfl
  obtain ⟨m, hm, hnode, -⟩ := listing_some hat.cur hx
  obtain rfl := Int.ofNat.inj hm
  have hfile : s.typeOf k = .ok InodeType.file.val := by
    rw [hat.typeOf hnode, hat.stored.isFile hnode hk]
  have hoffset : strToOffset zero.bytes = (0, ((0 : ℕ) : ℤ)) := rfl
  exact ⟨s, hrun, write_finds_space hrun hname hfile hoffset
    (show 0 + nameA.bytes.length ≤ maxFileSize by decide) (by decide) hfree⟩

/-- Whatever size mktestfs is given, it makes a file system that testfs opens, in a root without
files and with no other path. -/
theorem new_has_root (size : FsSize) : ∃ s, startTestfs size = .ok s ∧ s.curDir = 0 ∧
    (∀ p k, s.resolve 0 p = some k ↔ p = [] ∧ k = 0) ∧
    ∃ s' log, (cmdPwd []).run s = .ok ⟨0, s', log⟩ ∧ printed log = slash ++ newline := by
  obtain ⟨s, hs, hat, hcur⟩ := startTestfs_new size
  have hroot : Volume.new.tree.walk Volume.new.tree.root [] = some s.curDir := by
    rw [hcur]
    rfl
  obtain ⟨s', log, hpwd, -, -, htext⟩ := hat.pwd hroot
  refine ⟨s, hs, hcur, fun p k => ?_, s', log, hpwd, htext⟩
  rw [hat.stored.resolve_root]
  cases p with
  | nil =>
    rw [NameTree.walk_nil]
    exact ⟨fun h => ⟨rfl, (Option.some.inj h).symm⟩, fun h => congrArg some h.2.symm⟩
  | cons x p =>
    constructor
    · intro h
      cases h
    · rintro ⟨h, -⟩
      cases h

end Runs

end Ece344Lab.Fs
