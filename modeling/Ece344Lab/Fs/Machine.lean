import Ece344Lab.Library.Simulation
import Ece344Lab.Fs.Edits
import Ece344Lab.Fs.Silence

/-!
# The commands as operations on volumes

`Does` says what a command is for: what it may return and print, and what becomes of the volume and
the current directory. It knows nothing of inodes, blocks and records. Every command of testfs does
what it says, unless the device is full or a size is out of bounds.
-/
namespace Ece344Lab.Fs

open Ece344Lab.Library
open Program (wp)

/-- The number of arguments of a command. -/
def CmdName.arity : CmdName → Nat
  | .pwd | .fsstat => 0
  | .cd | .ls | .lsr | .create | .stat | .rm | .mkdir => 1
  | .read | .write => 3

/-- The second and third argument of `read` and `write` are of the right form; the offset is
`start`. -/
inductive Parses : CmdName → Token → Token → Nat → Prop
  | read {offset size : Token} {start n : Nat} (hoffset : strToOffset offset.bytes = (0, (start : ℤ)))
      (hsize : strToSize size.bytes = (0, n)) : Parses .read offset size start
  | write {offset data : Token} {start : Nat}
      (hoffset : strToOffset offset.bytes = (0, (start : ℤ))) : Parses .write offset data start

/-- The bytes written to the file `n` from `start` on are these. -/
def Volume.Has (V : Volume) (n start : Nat) (bytes : List UInt8) : Prop :=
  ∀ k, k < bytes.length → V.data n (start + k) = bytes[k]?

/-- A range of a file that `read` is known to print: it is not empty, not too long, and all of it
has been written. -/
def Volume.Readable (V : Volume) (n start size : Nat) : Prop :=
  0 < size ∧ size ≤ 2 ^ 30 ∧ ∃ bytes : List UInt8, bytes.length = size ∧ V.Has n start bytes

/-- What a command may return and print, and what it makes of a volume and the current directory.
Bytes that have not been written are left open, and so is the number of blocks in use. -/
inductive Does (V : Volume) (d : Nat) : Command → Int → List UInt8 → Volume → Nat → Prop
  | usage {cmd : Command} (h : cmd.args.length ≠ cmd.name.arity) : Does V d cmd (-EINVAL) [] V d
  | missing {cmd : CmdName} {name : Token}
      (hcmd : cmd = .cd ∨ cmd = .ls ∨ cmd = .lsr ∨ cmd = .stat ∨ cmd = .rm)
      (hx : listing V.tree d name.bytes = none) : Does V d ⟨cmd, [name]⟩ (-ENOENT) [] V d
  | cd {name : Token} {n : ℕ} (hx : listing V.tree d name.bytes = some (n : ℤ))
      (hn : n ∈ V.tree.branches) : Does V d ⟨.cd, [name]⟩ 0 [] V n
  | cdFile {name : Token} {n : ℕ} (hx : listing V.tree d name.bytes = some (n : ℤ))
      (hn : n ∉ V.tree.branches) : Does V d ⟨.cd, [name]⟩ (-ENOTDIR) [] V d
  | pwd {p : List Name} (hp : V.tree.walk V.tree.root p = some d) :
      Does V d ⟨.pwd, []⟩ 0 (slash ++ List.intercalate slash p ++ newline) V d
  | ls {name : Token} {n : ℕ} {text : List UInt8}
      (hx : listing V.tree d name.bytes = some (n : ℤ)) (htext : Lists V false n text) :
      Does V d ⟨.ls, [name]⟩ 0 text V d
  | lsr {name : Token} {n : ℕ} {text : List UInt8}
      (hx : listing V.tree d name.bytes = some (n : ℤ)) (htext : Lists V true n text) :
      Does V d ⟨.lsr, [name]⟩ 0 text V d
  | stat {name : Token} {n : ℕ} {size count : Int}
      (hx : listing V.tree d name.bytes = some (n : ℤ))
      (hsize : n ∉ V.tree.branches → size = V.size n) :
      Does V d ⟨.stat, [name]⟩ 0 (statLine name.bytes n (if n ∈ V.tree.branches then
        InodeType.dir.val else InodeType.file.val) size count) V d
  | fsstat {count : Int} :
      Does V d ⟨.fsstat, []⟩ 0 (asciiBytes "nr of allocated inodes = " ++
        decimal V.tree.nodes.card ++ newline ++ (asciiBytes "nr of allocated blocks = " ++
        decimal count ++ newline)) V d
  | taken {cmd : CmdName} {name : Token} {v : Int} (hcmd : cmd = .create ∨ cmd = .mkdir)
      (hx : listing V.tree d name.bytes = some v) : Does V d ⟨cmd, [name]⟩ (-EEXIST) [] V d
  | create {name : Token} {k : Nat} (hd : d ∈ V.tree.branches)
      (hx : listing V.tree d name.bytes = none) (hk : k ∉ V.tree.nodes) :
      Does V d ⟨.create, [name]⟩ 0 []
        (V.make d name.bytes k .file hd (listing_none hx).2.2 hk) d
  | mkdir {name : Token} {k : Nat} (hd : d ∈ V.tree.branches)
      (hx : listing V.tree d name.bytes = none) (hk : k ∉ V.tree.nodes) :
      Does V d ⟨.mkdir, [name]⟩ 0 []
        (V.make d name.bytes k .dir hd (listing_none hx).2.2 hk) d
  | rmDots {name : Token} (h : name.bytes = dot ∨ name.bytes = dotdot) :
      Does V d ⟨.rm, [name]⟩ (-EINVAL) [] V d
  | rmFull {name : Token} {n m : Nat} {y : Name} (hchild : V.tree.child d name.bytes = some n)
      (hm : V.tree.child n y = some m) : Does V d ⟨.rm, [name]⟩ (-ENOTEMPTY) [] V d
  | rm {name : Token} {n : Nat} (hchild : V.tree.child d name.bytes = some n)
      (hleaf : ∀ y, V.tree.child n y = none) :
      Does V d ⟨.rm, [name]⟩ 0 [] (V.remove n (V.tree.child_ne_root hchild) hleaf) d
  | badNumber {cmd : CmdName} {name x y : Token} (hcmd : cmd = .read ∨ cmd = .write)
      (h : ∀ start, ¬ Parses cmd x y start) : Does V d ⟨cmd, [name, x, y]⟩ (-EINVAL) [] V d
  | missingFile {cmd : CmdName} {name x y : Token} {start : Nat} (h : Parses cmd x y start)
      (hx : listing V.tree d name.bytes = none) : Does V d ⟨cmd, [name, x, y]⟩ (-ENOENT) [] V d
  | isDirectory {cmd : CmdName} {name x y : Token} {start n : Nat} (h : Parses cmd x y start)
      (hx : listing V.tree d name.bytes = some (n : ℤ)) (hn : n ∈ V.tree.branches) :
      Does V d ⟨cmd, [name, x, y]⟩ (-EISDIR) [] V d
  | read {name x y : Token} {start n : Nat} {bytes : List UInt8} (h : Parses .read x y start)
      (hsize : strToSize y.bytes = (0, bytes.length))
      (hx : listing V.tree d name.bytes = some (n : ℤ)) (hn : n ∉ V.tree.branches)
      (hread : V.Readable n start bytes.length) (hbytes : V.Has n start bytes) :
      Does V d ⟨.read, [name, x, y]⟩ bytes.length (bytes.takeWhile (· ≠ 0) ++ newline) V d
  | readBeyond {name x y : Token} {start size n : Nat} (h : Parses .read x y start)
      (hsize : strToSize y.bytes = (0, size))
      (hx : listing V.tree d name.bytes = some (n : ℤ)) (hn : n ∉ V.tree.branches)
      (hend : start + size < 2 ^ 63) (hout : V.size n < start + size) :
      Does V d ⟨.read, [name, x, y]⟩ (-EINVAL) [] V d
  | readOpen {name x y : Token} {start size n : Nat} {ret : Int} {text : List UInt8}
      (h : Parses .read x y start) (hsize : strToSize y.bytes = (0, size))
      (hx : listing V.tree d name.bytes = some (n : ℤ)) (hn : n ∉ V.tree.branches)
      (hopen : ¬ V.Readable n start size) (hin : start + size < 2 ^ 63 → start + size ≤ V.size n)
      (hfail : ret < 0 → text = []) :
      Does V d ⟨.read, [name, x, y]⟩ ret text V d
  | write {name x data : Token} {start n : Nat} (h : Parses .write x data start)
      (hx : listing V.tree d name.bytes = some (n : ℤ)) (hn : n ∉ V.tree.branches) :
      Does V d ⟨.write, [name, x, data]⟩ data.bytes.length [] (V.write n start data.bytes) d

/-- The step is none of those at which the volume is given up: the device has space left, `ls` and
`lsr` name a directory, the current directory stays below the bound, and a write ends within the
maximum file size. -/
structure Regular (s : FileSystem) (c : Command) (r : Ret Event FileSystem Int) : Prop where
  space : r.val ≠ -ENOSPC
  listsDir : ListsDir s c
  room : c.name = .create ∨ c.name = .mkdir → ∀ name, c.args = [name] →
    (s.dinodes s.curDir).iSize + (name.bytes.length + 9) ≤ maxDirSize
  fits : c.name = .write → ∀ (name offset data : Token) (start : ℕ), c.args = [name, offset, data] →
    strToOffset offset.bytes = (0, (start : ℤ)) →
    start + data.bytes.length ≤ maxFileSize ∧ data.bytes.length ≤ 2 ^ 30

/-- The step does what the command is for. -/
def Simulated (s : FileSystem) (V : Volume) (c : Command) (r : Ret Event FileSystem Int) : Prop :=
  ∃ V', Does V s.curDir c r.val (printed r.log) V' r.st.curDir ∧ AtPrompt r.st V'

section Parse

theorem strToOffset_cases (str : List UInt8) :
    (∃ v, strToOffset str = (0, v)) ∨ strToOffset str = (-EINVAL, 0) := by
  rw [strToOffset]
  split
  · exact Or.inl ⟨_, rfl⟩
  · exact Or.inr rfl
  · split
    · exact Or.inl ⟨0, rfl⟩
    · exact Or.inr rfl

theorem strToSize_cases (str : List UInt8) :
    (∃ n, strToSize str = (0, n)) ∨ strToSize str = (-EINVAL, 0) := by
  rw [strToSize]
  split
  · exact Or.inl ⟨_, rfl⟩
  · exact Or.inr rfl
  · split
    · exact Or.inl ⟨0, rfl⟩
    · exact Or.inr rfl

/-- An offset that both commands accept, or none. -/
theorem offset_cases (str : List UInt8) : (∃ start : ℕ, strToOffset str = (0, (start : ℤ))) ∨
    (strToOffset str = (-EINVAL, 0) ∨ ∃ v, strToOffset str = (0, v) ∧ v < 0) := by
  rcases strToOffset_cases str with ⟨v, hv⟩ | herr
  · rcases lt_or_ge v 0 with hneg | hpos
    · exact Or.inr (Or.inr ⟨v, hv, hneg⟩)
    · obtain ⟨n, rfl⟩ := Int.eq_ofNat_of_zero_le hpos
      exact Or.inl ⟨n, hv⟩
  · exact Or.inr (Or.inl herr)

theorem Parses.offset {cmd : CmdName} {x y : Token} {start : ℕ} (h : Parses cmd x y start) :
    strToOffset x.bytes = (0, (start : ℤ)) := by
  cases h <;> assumption

theorem not_parses {cmd : CmdName} {x y : Token}
    (herr : strToOffset x.bytes = (-EINVAL, 0) ∨ ∃ v, strToOffset x.bytes = (0, v) ∧ v < 0)
    (start : ℕ) :
    ¬ Parses cmd x y start := by
  intro h
  rcases herr with herr | ⟨v, hv, hneg⟩
  · rw [h.offset] at herr
    cases herr
  · rw [h.offset] at hv
    cases hv
    exact absurd hneg (not_lt.mpr (Int.natCast_nonneg start))

/-- A call with the wrong number of arguments does nothing. -/
theorem func_usage {c : Command} (h : c.args.length ≠ c.name.arity) : c.func = pure (-EINVAL) := by
  obtain ⟨name, args⟩ := c
  cases name <;> rcases args with _ | ⟨x, _ | ⟨y, _ | ⟨z, _ | ⟨u, args⟩⟩⟩⟩ <;>
    first
    | rfl
    | exact absurd rfl h

end Parse

section Steps

variable {s : FileSystem} {V : Volume} {name x y : Token} {r : Ret Event FileSystem Int}

theorem AtPrompt.simulates_cd (h : AtPrompt s V) (hr : (cmdCd [name]).run s = .ok r) :
    Simulated s V ⟨.cd, [name]⟩ r := by
  obtain ⟨ret, s', hrun, hat, hcase⟩ := h.cd name
  rw [hrun] at hr
  cases hr
  refine ⟨V, ?_, hat⟩
  rcases hcase with ⟨hx, rfl, hcur⟩ | ⟨n, hx, ⟨hn, rfl, hcur⟩ | ⟨hn, rfl, hcur⟩⟩
  · rw [hcur]
    exact .missing (Or.inl rfl) hx
  · rw [hcur]
    exact .cdFile hx hn
  · rw [hcur]
    exact .cd hx hn

theorem AtPrompt.simulates_pwd (h : AtPrompt s V) (hr : (cmdPwd []).run s = .ok r) :
    Simulated s V ⟨.pwd, []⟩ r := by
  obtain ⟨p, hp⟩ := V.tree.exists_path h.cur_node
  obtain ⟨s', log, hrun, hat, hcur, htext⟩ := h.pwd hp
  rw [hrun] at hr
  cases hr
  refine ⟨V, ?_, hat⟩
  rw [htext, hcur]
  exact .pwd hp

/-- The type that `ls` looks at. -/
theorem AtPrompt.typeOf (h : AtPrompt s V) {n : ℕ} (hn : n ∈ V.tree.nodes) :
    s.typeOf n = .ok (s.dinodes n).iType := by
  have hlt := h.stored.lt hn
  rw [FileSystem.typeOf]
  cases hfind : inodeHashFind s.hash n with
  | some x => rw [← memory_din hfind hlt]
  | none =>
    dsimp only
    rw [testfsReadInodeBlock_ok h.layout hlt, ← h.onDisk hn]
    rfl

theorem AtPrompt.simulates_ls (h : AtPrompt s V) {cmd : CmdName} {recursive : Bool}
    (hcmd : cmd = .ls ∧ recursive = false ∨ cmd = .lsr ∧ recursive = true)
    (hlists : ListsDir s ⟨cmd, [name]⟩) (hr : (cmdLsInternal recursive [name]).run s = .ok r) :
    Simulated s V ⟨cmd, [name]⟩ r := by
  rcases h.target name with ⟨hx, hrun⟩ | ⟨n, hx, hn, -⟩
  · rw [cmdLsInternal, Program.bind_run_nil hrun] at hr
    cases hr
    refine ⟨V, .missing ?_ hx, h⟩
    rcases hcmd with ⟨rfl, -⟩ | ⟨rfl, -⟩ <;> simp
  have hls : cmd = .ls ∨ cmd = .lsr := hcmd.imp And.left And.left
  have hlook : s.lookup name = .ok (n : ℤ) := by
    rw [FileSystem.lookup, h.here]
    dsimp only
    rw [h.stored.lookup h.cur, hx]
    rfl
  have htype := hlists hls name n rfl hlook (Int.natCast_nonneg n)
  rw [Int.toNat_natCast, h.typeOf hn] at htype
  have hbranch := (h.stored.isDir_iff hn).mp (Except.ok.inj htype)
  obtain ⟨s', log, hrun, hat, hcur, htext⟩ := h.ls recursive hx hbranch
  rw [hrun] at hr
  cases hr
  refine ⟨V, ?_, hat⟩
  rw [hcur]
  rcases hcmd with ⟨rfl, rfl⟩ | ⟨rfl, rfl⟩
  · exact .ls hx htext
  · exact .lsr hx htext

theorem AtPrompt.simulates_stat (h : AtPrompt s V) (hr : (cmdStat [name]).run s = .ok r) :
    Simulated s V ⟨.stat, [name]⟩ r := by
  rcases h.target name with ⟨hx, hrun⟩ | ⟨n, hx, hn, -⟩
  · rw [cmdStat, Program.bind_run_nil hrun] at hr
    cases hr
    exact ⟨V, .missing (by simp) hx, h⟩
  obtain ⟨s', log, size, count, hrun, hat, hcur, htext, hsize⟩ := h.stat hx hn
  rw [hrun] at hr
  cases hr
  refine ⟨V, ?_, hat⟩
  rw [htext, hcur]
  exact .stat hx hsize

theorem AtPrompt.simulates_fsstat (h : AtPrompt s V) (hr : (cmdFsstat []).run s = .ok r) :
    Simulated s V ⟨.fsstat, []⟩ r := by
  have hcount : s.sb.sb.usedInodeCount = V.tree.nodes.card := h.stored.sound.kept.count
  rw [cmdFsstat, Program.get_bind, Program.emit_bind, Program.emit_bind, Program.pure_run,
    Program.logged_ok, Program.logged_ok] at hr
  obtain rfl := Except.ok.inj hr
  refine ⟨V, ?_, h⟩
  dsimp only
  rw [List.append_nil, printed_append, printed_printf, printed_printf, hcount]
  exact .fsstat

theorem AtPrompt.simulates_make (h : AtPrompt s V) {cmd : CmdName} {type : InodeType}
    (hcmd : cmd = .create ∧ type = .file ∨ cmd = .mkdir ∧ type = .dir)
    (hreg : Regular s ⟨cmd, [name]⟩ r) (hr : (cmdMake type [name]).run s = .ok r) :
    Simulated s V ⟨cmd, [name]⟩ r := by
  have hmake : cmd = .create ∨ cmd = .mkdir := hcmd.imp And.left And.left
  have htype : type ≠ .none := by rcases hcmd with ⟨-, rfl⟩ | ⟨-, rfl⟩ <;> decide
  rw [Simulated, (silent_cmdMake type name).printed_nil hr]
  rcases (h.make htype (hreg.room hmake name rfl)).of_ok hr hreg.space with
    ⟨v, hx, hret, hst⟩ | ⟨hx, k, hk, hret, hcur, -, hat⟩
  · rw [hret, hst]
    exact ⟨V, .taken hmake hx, h⟩
  · rw [hret, hcur]
    refine ⟨_, ?_, hat⟩
    rcases hcmd with ⟨rfl, rfl⟩ | ⟨rfl, rfl⟩
    · exact .create h.cur hx hk
    · exact .mkdir h.cur hx hk

theorem AtPrompt.simulates_rm (h : AtPrompt s V) (hr : (cmdRm [name]).run s = .ok r) :
    Simulated s V ⟨.rm, [name]⟩ r := by
  rw [Simulated, (silent_cmdRm name).printed_nil hr]
  rcases h.rm.of_ok hr with ⟨hdots, hret, hst⟩ | ⟨hx, hret, hst⟩ |
    ⟨n, y, m, hchild, hm, hret, hcur, hat⟩ | ⟨n, hchild, hleaf, hret, hcur, hat⟩
  · rw [hret, hst]
    exact ⟨V, .rmDots hdots, h⟩
  · rw [hret, hst]
    exact ⟨V, .missing (by simp) hx, h⟩
  · rw [hret, hcur]
    exact ⟨V, .rmFull hchild hm, hat⟩
  · rw [hret, hcur]
    exact ⟨_, .rm hchild hleaf, hat⟩

end Steps

section Files

variable {s : FileSystem} {V : Volume} {name x y : Token} {r : Ret Event FileSystem Int}
  {start size n : ℕ}

/-- A read of a file that returns is one of those that `Does` allows. -/
theorem AtPrompt.simulates_readFile (h : AtPrompt s V)
    (hoffset : strToOffset x.bytes = (0, (start : ℤ))) (hsize : strToSize y.bytes = (0, size))
    (hx : listing V.tree s.curDir name.bytes = some (n : ℤ)) (hnode : n ∈ V.tree.nodes)
    (hn : n ∉ V.tree.branches) {ret : ℤ} {text : List UInt8}
    (hread : readFile (s.dinodes n) s.sb.dev start size = .ok (ret, text)) :
    Does V s.curDir ⟨.read, [name, x, y]⟩ ret (if 0 ≤ ret then text else []) V s.curDir := by
  have hfile := h.stored.files n hnode hn
  have hparses := Parses.read hoffset hsize
  by_cases hreadable : V.Readable n start size
  · have hcond := hreadable
    obtain ⟨hpos, hlen, bytes, rfl, hhas⟩ := hreadable
    have hexact := hfile.readFile (h.stored.sound.sane n).nonneg hhas hpos hlen
    rw [view_din, view_sb, hread] at hexact
    cases hexact
    rw [if_pos (Int.natCast_nonneg _)]
    exact .read hparses hsize hx hn hcond hhas
  by_cases hout : start + size < 2 ^ 63 ∧ V.size n < start + size
  · have hbeyond := hfile.readFile_beyond hout.1 hout.2
    rw [view_din, view_sb, hread] at hbeyond
    cases hbeyond
    exact .readBeyond hparses hsize hx hn hout.1 hout.2
  · rw [not_and, not_lt] at hout
    exact .readOpen hparses hsize hx hn hreadable hout fun hneg => if_neg (not_le.mpr hneg)

theorem AtPrompt.simulates_read (h : AtPrompt s V) (hr : (cmdRead [name, x, y]).run s = .ok r) :
    Simulated s V ⟨.read, [name, x, y]⟩ r := by
  have hzero : ¬ (0 : ℤ) < 0 := lt_irrefl 0
  have hbad : -EINVAL < 0 := by decide
  rcases offset_cases x.bytes with ⟨start, hoffset⟩ | herr
  swap
  · -- the offset is refused
    have hparses : ∀ start, ¬ Parses .read x y start := not_parses herr
    rcases herr with herr | ⟨v, hv, hneg⟩
    · simp only [cmdRead, herr, hbad, if_true] at hr
      cases hr
      exact ⟨V, .badNumber (Or.inl rfl) hparses, h⟩
    · simp only [cmdRead, hv, hzero, hneg, if_true, if_false] at hr
      cases hr
      exact ⟨V, .badNumber (Or.inl rfl) hparses, h⟩
  have hneg : ¬ (start : ℤ) < 0 := not_lt.mpr (Int.natCast_nonneg start)
  rcases strToSize_cases y.bytes with ⟨size, hsize⟩ | herr
  swap
  · simp only [cmdRead, hoffset, herr, hzero, hneg, hbad, if_true, if_false] at hr
    cases hr
    refine ⟨V, .badNumber (Or.inl rfl) ?_, h⟩
    rintro start' ⟨-, hsize⟩
    rw [herr] at hsize
    cases hsize
  have hparses := Parses.read hoffset hsize
  have hr' := hr
  simp only [cmdRead, hoffset, hsize, hzero, hneg, if_false] at hr
  rcases h.getFileInode name with ⟨hx, hrun⟩ | ⟨n, hx, hnode, s₁, ⟨hn, hrun, hl⟩ | ⟨hn, hrun, hl⟩⟩
  · rw [Program.bind_run_nil hrun] at hr
    cases hr
    exact ⟨V, .missingFile hparses hx, h⟩
  · rw [Program.bind_run_nil hrun] at hr
    cases hr
    refine ⟨V, ?_, hl.atPrompt h h.cur⟩
    rw [hl.held.curDir]
    exact .isDirectory hparses hx hn
  · cases hread : readFile (s.dinodes n) s.sb.dev start size with
    | error e =>
      -- the read does not return
      obtain ⟨i, hfind⟩ := hl.find (Multiset.mem_cons_self n _)
      have hfail : (onInodeRead n fun d dev => readFile d dev start size).run s₁ = .error e := by
        refine Program.reads_run_error ?_
        rw [hfind, hl.super]
        dsimp only
        rw [h.onDisk hnode, hread]
      rw [Program.bind_run_nil hrun] at hr
      dsimp only at hr
      rw [if_neg hzero, Program.bind_run_error hfail] at hr
      cases hr
    | ok a =>
      obtain ⟨ret, text⟩ := a
      obtain ⟨s', log, hrun', hat, hcur, htext⟩ := h.read hoffset hsize hx hn hread
      rw [hrun'] at hr'
      cases hr'
      refine ⟨V, ?_, hat⟩
      rw [htext, hcur]
      exact h.simulates_readFile hoffset hsize hx hnode hn hread

theorem AtPrompt.simulates_write (h : AtPrompt s V) (hreg : Regular s ⟨.write, [name, x, y]⟩ r)
    (hr : (cmdWrite [name, x, y]).run s = .ok r) : Simulated s V ⟨.write, [name, x, y]⟩ r := by
  have hzero : ¬ (0 : ℤ) < 0 := lt_irrefl 0
  have hbad : -EINVAL < 0 := by decide
  rcases offset_cases x.bytes with ⟨start, hoffset⟩ | herr
  swap
  · have hparses : ∀ start, ¬ Parses .write x y start := not_parses herr
    rcases herr with herr | ⟨v, hv, hneg⟩
    · simp only [cmdWrite, herr, hbad, if_true] at hr
      cases hr
      exact ⟨V, .badNumber (Or.inr rfl) hparses, h⟩
    · simp only [cmdWrite, hv, hzero, hneg, if_true, if_false] at hr
      cases hr
      exact ⟨V, .badNumber (Or.inr rfl) hparses, h⟩
  have hneg : ¬ (start : ℤ) < 0 := not_lt.mpr (Int.natCast_nonneg start)
  have hparses := @Parses.write x y start hoffset
  rcases h.getFileInode name with ⟨hx, hrun⟩ | ⟨n, hx, hnode, s₁, ⟨hn, hrun, hl⟩ | ⟨hn, hrun, hl⟩⟩
  · simp only [cmdWrite, hoffset, hzero, hneg, if_false] at hr
    rw [Program.bind_run_nil hrun] at hr
    cases hr
    exact ⟨V, .missingFile hparses hx, h⟩
  · simp only [cmdWrite, hoffset, hzero, hneg, if_false] at hr
    rw [Program.bind_run_nil hrun] at hr
    cases hr
    refine ⟨V, ?_, hl.atPrompt h h.cur⟩
    rw [hl.held.curDir]
    exact .isDirectory hparses hx hn
  · obtain ⟨hend, hlen⟩ := hreg.fits rfl name x y start rfl hoffset
    obtain ⟨hret, hcur, hat⟩ := (h.write hoffset hx hn hend hlen).of_ok hr hreg.space
    rw [Simulated, (silent_cmdWrite name x y).printed_nil hr, hret, hcur]
    exact ⟨_, .write hparses hx hn, hat⟩

/-- Every regular step of testfs does what its command is for. -/
theorem AtPrompt.simulates (h : AtPrompt s V) {c : Command} (hr : c.func.run s = .ok r)
    (hreg : Regular s c r) : Simulated s V c r := by
  by_cases huse : c.args.length = c.name.arity
  swap
  · rw [func_usage huse] at hr
    cases hr
    exact ⟨V, .usage huse, h⟩
  obtain ⟨cmd, args⟩ := c
  cases cmd with
  | cd =>
    obtain ⟨name, rfl⟩ := List.length_eq_one_iff.mp huse
    exact h.simulates_cd hr
  | pwd =>
    obtain rfl := List.length_eq_zero_iff.mp huse
    exact h.simulates_pwd hr
  | ls =>
    obtain ⟨name, rfl⟩ := List.length_eq_one_iff.mp huse
    exact h.simulates_ls (Or.inl ⟨rfl, rfl⟩) hreg.listsDir hr
  | lsr =>
    obtain ⟨name, rfl⟩ := List.length_eq_one_iff.mp huse
    exact h.simulates_ls (Or.inr ⟨rfl, rfl⟩) hreg.listsDir hr
  | create =>
    obtain ⟨name, rfl⟩ := List.length_eq_one_iff.mp huse
    exact h.simulates_make (Or.inl ⟨rfl, rfl⟩) hreg hr
  | stat =>
    obtain ⟨name, rfl⟩ := List.length_eq_one_iff.mp huse
    exact h.simulates_stat hr
  | rm =>
    obtain ⟨name, rfl⟩ := List.length_eq_one_iff.mp huse
    exact h.simulates_rm hr
  | mkdir =>
    obtain ⟨name, rfl⟩ := List.length_eq_one_iff.mp huse
    exact h.simulates_make (Or.inr ⟨rfl, rfl⟩) hreg hr
  | read =>
    obtain ⟨name, x, y, rfl⟩ := List.length_eq_three.mp huse
    exact h.simulates_read hr
  | write =>
    obtain ⟨name, x, y, rfl⟩ := List.length_eq_three.mp huse
    exact h.simulates_write hreg hr
  | fsstat =>
    obtain rfl := List.length_eq_zero_iff.mp huse
    exact h.simulates_fsstat hr

end Files

end Ece344Lab.Fs
