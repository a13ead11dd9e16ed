import Ece344Lab.Library.Tokens
import Ece344Lab.Fs.Sessions

/-!
# The prompt

`main` of `testfs.c` after its options are parsed: reading lines, splitting them into a command name
and arguments, calling the command and reporting its error. What is left out is the parsing of the
options and the test for memory leaks at the end.
-/
namespace Ece344Lab.Fs

open Ece344Lab.Library

/-- A C string. -/
structure CStr where
  bytes : List UInt8
  no_nul : 0 ∉ bytes

/-- The C string that a buffer begins with. -/
def CStr.ofBuffer (buf : List UInt8) : CStr :=
  ⟨buf.takeWhile (· ≠ 0), fun h => by simpa using List.mem_takeWhile_imp h⟩

def Token.str (t : Token) : CStr := ⟨t.bytes, t.no_nul⟩

/-- One call of `strtok_r`: the token, if there is one, and the string that is saved. -/
def strtok (delim : UInt8 → Bool) (s : CStr) : Option Token × CStr :=
  (if h : token delim s.bytes = [] then none
    else some ⟨token delim s.bytes, h, fun h0 => s.no_nul (token_sublist.subset h0)⟩,
   ⟨afterToken delim s.bytes, fun h0 => s.no_nul (afterToken_sublist.subset h0)⟩)

/-- `strtok_r(str, delim, &save)`, where `none` is `NULL`. With neither a string nor a saved one
it reads through a null pointer. -/
def strtokR (delim : UInt8 → Bool) (str save : Option CStr) : Except Halt (Option Token × CStr) :=
  match str.or save with
  | none => .error .undefined
  | some s => .ok (strtok delim s)

/-- `" \t\r\n"` -/
def isBlank (c : UInt8) : Bool := c = 32 ∨ c = 9 ∨ c = 13 ∨ c = 10

/-- `"\r\n"` -/
def isLineEnd (c : UInt8) : Bool := c = 13 ∨ c = 10

/-- A line end is a blank. -/
theorem isLineEnd_eq_false {c : UInt8} (h : isBlank c = false) : isLineEnd c = false := by
  simp only [isBlank, isLineEnd, decide_eq_false_iff_not] at h ⊢
  tauto

/-- The functions of `cmdtable`. -/
inductive CmdFunc
  | help | quit
  | fs (name : CmdName)

/-- `struct cmd` -/
structure Cmd where
  name : List UInt8
  func : CmdFunc
  maxArgs : Nat
  help : List UInt8
  usage : List UInt8

def cmdtable : List Cmd :=
  [⟨asciiBytes "help", .help, 1, asciiBytes "prints this help message.", asciiBytes "usage: help"⟩,
   ⟨asciiBytes "cd", .fs .cd, 2, asciiBytes "changes to directory DIR.",
    asciiBytes "usage: cd DIR"⟩,
   ⟨asciiBytes "pwd", .fs .pwd, 1, asciiBytes "prints current directory.", asciiBytes "usage: pwd"⟩,
   ⟨asciiBytes "ls", .fs .ls, 2, asciiBytes "lists files and directories in directory DIR.",
    asciiBytes "usage: ls DIR"⟩,
   ⟨asciiBytes "lsr", .fs .lsr, 2,
    asciiBytes "recursively lists files and directories in directory DIR.",
    asciiBytes "usage: lsr DIR"⟩,
   ⟨asciiBytes "create", .fs .create, 2,
    asciiBytes "creates a new file FILE in the current directory.",
    asciiBytes "usage: create FILE"⟩,
   ⟨asciiBytes "stat", .fs .stat, 2, asciiBytes "prints information on file or dir named NAME.",
    asciiBytes "usage: stat NAME"⟩,
   ⟨asciiBytes "rm", .fs .rm, 2, asciiBytes "removes a file or directory with name NAME.",
    asciiBytes "usage: rm NAME"⟩,
   ⟨asciiBytes "mkdir", .fs .mkdir, 2,
    asciiBytes "creates a new directory DIR in the current directory.",
    asciiBytes "usage: mkdir DIR"⟩,
   ⟨asciiBytes "read", .fs .read, 4,
    asciiBytes "reads SIZE bytes of ascii data from file FILE at offset OFFSET.",
    asciiBytes "usage: read FILE OFFSET SIZE"⟩,
   ⟨asciiBytes "write", .fs .write, 4,
    asciiBytes "write ascii data DATA to file FILE at offset OFFSET.",
    asciiBytes "usage: write FILE OFFSET DATA"⟩,
   ⟨asciiBytes "fsstat", .fs .fsstat, 1, asciiBytes "print inode and block usage.",
    asciiBytes "usage: fsstat"⟩,
   ⟨asciiBytes "quit", .quit, 1, asciiBytes "quits this program.", asciiBytes "usage: quit"⟩]

/-- One line of `cmd_help`, `"%8s - %s %s\n"`. -/
def Cmd.helpLine (cmd : Cmd) : List UInt8 :=
  List.replicate (8 - cmd.name.length) 32 ++ cmd.name ++ asciiBytes " - " ++ cmd.help ++ [32] ++
    cmd.usage ++ newline

/-- `cmd_help` -/
def cmdHelp : List UInt8 := asciiBytes "Commands:\n" ++ cmdtable.flatMap Cmd.helpLine

/-- The loop of `parse_command`, for at most so many tokens: the arguments, and what `args` and
`save` are behind them. -/
def parseArgs : Nat → Option CStr → Option CStr →
    Except Halt (List Token × Option CStr × Option CStr)
  | 0, args, save => .ok ([], args, save)
  | k + 1, args, save =>
    match strtokR isBlank args save with
    | .error halt => .error halt
    | .ok (none, save) => .ok ([], args, some save)
    | .ok (some arg, save) =>
      match parseArgs k none (some save) with
      | .error halt => .error halt
      | .ok (rest, last) => .ok (arg :: rest, last)

/-- `parse_command`: the arguments, `c->cmd[1]` up to `c->cmd[c->nargs - 1]`. What is left of the
line after `max_args` is one more argument. -/
def parseCommand (cmd : Cmd) (args : Option CStr) : Except Halt (List Token) :=
  match parseArgs (cmd.maxArgs - 1) args none with
  | .error halt => .error halt
  | .ok (found, args, save) =>
    match strtokR isLineEnd args save with
    | .error halt => .error halt
    | .ok (none, _) => .ok found
    | .ok (some arg, _) => .ok (found ++ [arg])

/-- What testfs writes: what its commands print, and what the loop itself writes to the standard
output and the standard error. -/
inductive Output
  | event (e : Event)
  | stdout (text : List UInt8)
  | stderr (text : List UInt8)

/-- The options, and the texts of the errors. -/
structure Setting where
  hidePrompt : Bool
  verbose : Bool
  strerror : Int → List UInt8

/-- `cmdtable[i]` for the name. -/
def findCmd (name : Token) : Option Cmd := cmdtable.find? fun cmd => cmd.name = name.bytes

/-- `handle_command`: what is written, whether to quit, and the state. -/
def handleCommand (o : Setting) (name : Token) (args : Option CStr) (s : FileSystem) :
    Except Halt (List Output × Bool × FileSystem) :=
  match findCmd name with
  | none =>
    .ok ([.stderr (name.bytes ++ asciiBytes ": command not found. type \x22help\x22\n")], false, s)
  | some cmd =>
    match parseCommand cmd args with
    | .error halt => .error halt
    | .ok args =>
      match cmd.func with
      | .help => .ok ([.stdout cmdHelp], false, s)
      | .quit => .ok ([.stdout (asciiBytes "Bye!\n")], true, s)
      | .fs c =>
        match (Command.func ⟨c, args⟩).run s with
        | .error halt => .error halt
        | .ok r =>
          .ok (r.log.map .event ++
            if r.val < 0 then
              [.stderr (name.bytes ++ asciiBytes ": " ++ o.strerror (-r.val) ++ newline),
               .stderr (cmd.usage ++ newline)]
            else [], false, r.st)

/-- The name of the command in a line, and the rest of the line. The first `strtok_r` has the line,
and leaves a string for the second. -/
def splitLine (line : List UInt8) : Option (Token × Option CStr) :=
  let first := strtok isBlank (.ofBuffer line)
  first.1.map fun name => (name, (strtok isLineEnd first.2).1.map Token.str)

/-- Is the line a comment? -/
def isComment (line : List UInt8) : Bool := line.head? = some 35

/-- The body of the loop, for a line that has been read. -/
def handleLine (o : Setting) (line : List UInt8) (s : FileSystem) :
    Except Halt (List Output × Bool × FileSystem) :=
  -- input files can have comments. we ignore them
  if isComment line then .ok ([], false, s)
  else
    let echo := if o.verbose then [.stdout (CStr.ofBuffer line).bytes] else []
    match splitLine line with
    | none => .ok (echo, false, s)
    | some (name, args) =>
      match handleCommand o name args s with
      | .error halt => .error halt
      | .ok (out, quit, s') => .ok (echo ++ out, quit, s')

def prompt (o : Setting) : List Output := if o.hidePrompt then [] else [.stdout (asciiBytes "% ")]

/-- The loop of `main`, over the lines of the input. -/
def mainLoop (o : Setting) : List (List UInt8) → FileSystem → Except Halt (List Output × FileSystem)
  | [], s => .ok (prompt o, s)
  | line :: lines, s =>
    match handleLine o line s with
    | .error halt => .error halt
    | .ok (out, true, s') => .ok (prompt o ++ out, s')
    | .ok (out, false, s') =>
      match mainLoop o lines s' with
      | .error halt => .error halt
      | .ok (out', s'') => .ok (prompt o ++ out ++ out', s'')

/-- `main` of testfs.c on a device, with this input. -/
def testfsMain (o : Setting) (dev : Dev) (input : List UInt8) :
    Except Halt (List Output × Dev) := do
  let s ← openTestfs dev
  let (out, s') ← mainLoop o (linesOf 10 input) s
  let dev' ← quitTestfs s'
  return (out, dev')

/-- The command of the table that a line names, and its arguments. -/
def parsedLine (line : List UInt8) : Option (Cmd × Except Halt (List Token)) :=
  if isComment line then none
  else
    match splitLine line with
    | none => none
    | some (name, args) => (findCmd name).map fun cmd => (cmd, parseCommand cmd args)

/-- What a line calls: a command of the file system, `quit`, or neither; or `parse_command` stops. -/
inductive Called
  | nothing
  | quit
  | command (c : Command)
  | stops (halt : Halt)

def called (line : List UInt8) : Called :=
  match parsedLine line with
  | none => .nothing
  | some (_, .error halt) => .stops halt
  | some (cmd, .ok args) =>
    match cmd.func with
    | .help => .nothing
    | .quit => .quit
    | .fs c => .command ⟨c, args⟩

section Words

variable {delim : UInt8 → Bool} {s : CStr} {t : Token} {ts : List Token}
  {args save : Option CStr}

theorem strtok_token (h : token delim s.bytes = t.bytes) : (strtok delim s).1 = some t := by
  obtain ⟨bytes, hne, hnul⟩ := t
  dsimp only at h
  subst h
  exact dif_neg hne

theorem strtok_none (h : token delim s.bytes = []) : (strtok delim s).1 = none := dif_pos h

/-- Words as they are typed, with a blank between them. -/
def spaced : List Token → List UInt8
  | [] => []
  | t :: ts => t.bytes ++ ts.flatMap fun t => 32 :: t.bytes

theorem spaced_cons_cons (t u : Token) (ts : List Token) :
    spaced (t :: u :: ts) = t.bytes ++ 32 :: spaced (u :: ts) := rfl

/-- The words of a command line. -/
def AreWords (ts : List Token) : Prop := ∀ t ∈ ts, IsWord isBlank t.bytes

theorem token_spaced (h : IsWord isBlank t.bytes) : token isBlank (spaced (t :: ts)) = t.bytes := by
  cases ts with
  | nil =>
    rw [spaced, List.flatMap_nil, List.append_nil]
    exact h.token_self
  | cons u ts =>
    rw [spaced_cons_cons]
    exact h.token rfl

theorem afterToken_spaced (h : IsWord isBlank t.bytes) :
    afterToken isBlank (spaced (t :: ts)) = spaced ts := by
  cases ts with
  | nil =>
    have hself : spaced [t] = t.bytes := List.append_nil _
    rw [hself, h.afterToken_self]
    rfl
  | cons u ts =>
    rw [spaced_cons_cons]
    exact h.afterToken rfl

/-- Every byte of a line of words is a blank or belongs to a word. -/
theorem mem_spaced {b : UInt8} (h : b ∈ spaced ts) : b = 32 ∨ ∃ t ∈ ts, b ∈ t.bytes := by
  cases ts with
  | nil => cases h
  | cons t ts =>
    rcases List.mem_append.mp h with h | h
    · exact Or.inr ⟨t, List.mem_cons_self, h⟩
    · obtain ⟨u, hu, h⟩ := List.mem_flatMap.mp h
      rcases List.mem_cons.mp h with rfl | h
      · exact Or.inl rfl
      · exact Or.inr ⟨u, List.mem_cons_of_mem _ hu, h⟩

theorem strtokR_some (h : args.or save = some s) : strtokR delim args save = .ok (strtok delim s) := by
  rw [strtokR, h]

theorem strtokR_inv {r : Option Token × CStr} (h : strtokR delim args save = .ok r) :
    ∃ s, args.or save = some s ∧ r = strtok delim s := by
  rw [strtokR] at h
  cases hstr : args.or save with
  | none =>
    rw [hstr] at h
    cases h
  | some s =>
    rw [hstr] at h
    cases h
    exact ⟨s, rfl, rfl⟩

/-- The loop finds a string to read and leaves one. -/
theorem parseArgs_ok (k : Nat) (h : args.or save = some s) :
    ∃ found args' save' s', parseArgs k args save = .ok (found, args', save') ∧
      args'.or save' = some s' := by
  induction k generalizing args save s with
  | zero => exact ⟨[], args, save, s, rfl, h⟩
  | succ k ih =>
    rw [parseArgs, strtokR_some h]
    cases hr : strtok isBlank s with
    | mk found save' =>
      cases found with
      | none =>
        cases args with
        | none => exact ⟨[], none, some save', save', rfl, rfl⟩
        | some a => exact ⟨[], some a, some save', a, rfl, rfl⟩
      | some t =>
        obtain ⟨ts, args', save'', s', heq, hsome⟩ := ih (@Option.none_or _ (some save'))
        refine ⟨t :: ts, args', save'', s', ?_, hsome⟩
        dsimp only
        rw [heq]

/-- `parse_command` is undefined exactly when nothing stands behind the name of the command. -/
theorem parseCommand_error {cmd : Cmd} {halt : Halt} :
    parseCommand cmd args = .error halt ↔ args = none ∧ halt = .undefined := by
  cases args with
  | none =>
    have hstop : parseCommand cmd none = .error .undefined := by
      rw [parseCommand]
      cases cmd.maxArgs - 1 <;> rfl
    rw [hstop, Except.error.injEq, eq_self_iff_true, true_and, eq_comm]
  | some a =>
    refine iff_of_false (fun h => ?_) (fun h => by cases h.1)
    obtain ⟨found, args', save', s', heq, hsome⟩ :=
      @parseArgs_ok a (some a) none (cmd.maxArgs - 1) rfl
    rw [parseCommand, heq] at h
    dsimp only at h
    rw [strtokR_some hsome] at h
    cases hr : strtok isLineEnd s' with
    | mk last save'' =>
      rw [hr] at h
      cases last <;> cases h

/-- What is left to read are these words. -/
def ToRead (str : Option CStr) (ts : List Token) : Prop := str.map CStr.bytes = some (spaced ts)

theorem toRead_some (h : ToRead args ts) : ∃ s, args = some s ∧ s.bytes = spaced ts :=
  Option.map_eq_some_iff.mp h

theorem strtokR_nil (h : ToRead (args.or save) []) :
    ∃ save', strtokR delim args save = .ok (none, save') ∧ ToRead (args.or (some save')) [] := by
  obtain ⟨s, hsome, hs⟩ := toRead_some h
  have hnil : s.bytes = [] := hs
  have hfirst : (strtok delim s).1 = none := strtok_none (by rw [hnil, token_nil])
  refine ⟨(strtok delim s).2, by rw [strtokR_some hsome, ← hfirst], ?_⟩
  cases args with
  | none =>
    refine congrArg some ?_
    change afterToken delim s.bytes = []
    rw [hnil, afterToken_nil]
  | some a =>
    cases hsome
    exact congrArg some hs

theorem strtokR_cons (h : ToRead (args.or save) (t :: ts)) (ht : IsWord isBlank t.bytes) :
    ∃ save', strtokR isBlank args save = .ok (some t, save') ∧ ToRead (some save') ts := by
  obtain ⟨s, hsome, hs⟩ := toRead_some h
  have hfirst : (strtok isBlank s).1 = some t := strtok_token (by rw [hs, token_spaced ht])
  refine ⟨(strtok isBlank s).2, by rw [strtokR_some hsome, ← hfirst], congrArg some ?_⟩
  change afterToken isBlank s.bytes = _
  rw [hs, afterToken_spaced ht]

/-- The loop takes as many words as there is room for, and leaves the others. -/
theorem parseArgs_words (k : Nat) (hwords : AreWords ts) (h : ToRead (args.or save) ts) :
    ∃ args' save', parseArgs k args save = .ok (ts.take k, args', save') ∧
      ToRead (args'.or save') (ts.drop k) := by
  induction k generalizing ts args save with
  | zero => exact ⟨args, save, rfl, h⟩
  | succ k ih =>
    cases ts with
    | nil =>
      obtain ⟨save', heq, hread⟩ := @strtokR_nil isBlank _ _ h
      exact ⟨args, some save', by rw [parseArgs, heq]; rfl, hread⟩
    | cons t ts =>
      rw [AreWords, List.forall_mem_cons] at hwords
      obtain ⟨save₁, heq, hread⟩ := strtokR_cons h hwords.1
      obtain ⟨args', save', hargs, hrest⟩ := @ih ts none (some save₁) hwords.2 hread
      refine ⟨args', save', ?_, hrest⟩
      rw [parseArgs, heq]
      dsimp only
      rw [hargs]
      rfl

/-- A word without blanks has no line ends. -/
theorem isWord_lineEnd {w : List UInt8} (h : IsWord isBlank w) : IsWord isLineEnd w :=
  ⟨h.ne_nil, fun b hb => isLineEnd_eq_false (h.plain b hb)⟩

/-- Words that the command has room for are its arguments, and one word more. -/
theorem parseCommand_words {cmd : Cmd} (hlen : ts.length ≤ cmd.maxArgs - 1 + 1)
    (hwords : AreWords ts) (h : ToRead args ts) : parseCommand cmd args = .ok ts := by
  rw [← @Option.or_none _ args] at h
  obtain ⟨args', save', hargs, hrest⟩ := parseArgs_words (cmd.maxArgs - 1) hwords h
  have hsplit := List.take_append_drop (cmd.maxArgs - 1) ts
  rw [parseCommand, hargs]
  dsimp only
  cases hdrop : ts.drop (cmd.maxArgs - 1) with
  | nil =>
    rw [hdrop] at hrest hsplit
    obtain ⟨save₁, heq, -⟩ := @strtokR_nil isLineEnd _ _ hrest
    rw [heq]
    rw [List.append_nil] at hsplit
    exact congrArg Except.ok hsplit
  | cons t us =>
    have hlast : us = [] := by
      have hdroplen := List.length_drop (l := ts) (i := cmd.maxArgs - 1)
      rw [hdrop, List.length_cons] at hdroplen
      exact List.length_eq_zero_iff.mp (by omega)
    subst hlast
    rw [hdrop] at hrest hsplit
    obtain ⟨s', hsome, hs⟩ := toRead_some hrest
    have hword : IsWord isBlank t.bytes := hwords t (by rw [← hsplit]; simp)
    have hself : s'.bytes = t.bytes := hs.trans (List.append_nil _)
    have hfirst : (strtok isLineEnd s').1 = some t :=
      strtok_token (by rw [hself, (isWord_lineEnd hword).token_self])
    have heq : strtokR isLineEnd args' save' = .ok (some t, (strtok isLineEnd s').2) := by
      rw [strtokR_some hsome, ← hfirst]
    rw [heq]
    exact congrArg Except.ok hsplit

end Words

section Lines

variable {name : Token} {args : List Token} {cmd : Cmd} {c : CmdName}

/-- A command as it is typed. -/
def typed (name : Token) (args : List Token) : List UInt8 := spaced (name :: args) ++ newline

theorem AreWords.isWord_spaced (h : AreWords args) (hne : args ≠ []) :
    IsWord isLineEnd (spaced args) where
  ne_nil := by
    obtain ⟨a, args, rfl⟩ := List.exists_cons_of_ne_nil hne
    exact List.append_ne_nil_of_left_ne_nil a.ne_nil _
  plain b hb := by
    rcases mem_spaced hb with rfl | ⟨t, ht, hb⟩
    · rfl
    · exact isLineEnd_eq_false ((h t ht).plain b hb)

theorem spaced_no_nul (args : List Token) : 0 ∉ spaced args := by
  intro h
  rcases mem_spaced h with h | ⟨t, -, h⟩
  · cases h
  · exact t.no_nul h

theorem ofBuffer_typed : (CStr.ofBuffer (typed name args)).bytes = typed name args := by
  refine List.takeWhile_eq_self_iff.mpr fun b hb => decide_eq_true ?_
  rintro rfl
  rcases List.mem_append.mp hb with hb | hb
  · exact spaced_no_nul _ hb
  · exact absurd hb (by decide)

theorem splitLine_typed (hname : IsWord isBlank name.bytes) (hargs : AreWords args)
    (hne : args ≠ []) :
    ∃ rest, splitLine (typed name args) = some (name, rest) ∧ ToRead rest args := by
  obtain ⟨a, args, rfl⟩ := List.exists_cons_of_ne_nil hne
  have htyped : typed name (a :: args) =
      name.bytes ++ 32 :: (spaced (a :: args) ++ 10 :: []) := by
    rw [typed, spaced_cons_cons, List.append_assoc]
    rfl
  have hfirst : (strtok isBlank (.ofBuffer (typed name (a :: args)))).1 = some name :=
    strtok_token (by rw [ofBuffer_typed, htyped, hname.token rfl])
  have hsecond : (strtok isBlank (.ofBuffer (typed name (a :: args)))).2.bytes =
      spaced (a :: args) ++ 10 :: [] := by
    change afterToken isBlank (CStr.ofBuffer (typed name (a :: args))).bytes = _
    rw [ofBuffer_typed, htyped, hname.afterToken rfl]
  have hword := hargs.isWord_spaced hne
  have hrest : (strtok isLineEnd (strtok isBlank (.ofBuffer (typed name (a :: args)))).2).1 =
      some ⟨spaced (a :: args), hword.ne_nil, spaced_no_nul _⟩ :=
    strtok_token (by rw [hsecond, hword.token rfl])
  refine ⟨_, by rw [splitLine, hfirst, hrest]; rfl, ?_⟩
  rfl

/-- The names of the commands are words, and none begins a comment. -/
theorem cmdtable_names : ∀ cmd ∈ cmdtable, cmd.name ≠ [] ∧
    ∀ b ∈ cmd.name, isBlank b = false ∧ b ≠ 35 := by
  decide +kernel

theorem findCmd_some (h : findCmd name = some cmd) : cmd ∈ cmdtable ∧ cmd.name = name.bytes := by
  rw [findCmd] at h
  have hname := List.find?_some h
  exact ⟨List.mem_of_find?_eq_some h, of_decide_eq_true hname⟩

theorem isWord_name (h : findCmd name = some cmd) : IsWord isBlank name.bytes := by
  obtain ⟨hmem, hname⟩ := findCmd_some h
  obtain ⟨hne, hplain⟩ := cmdtable_names cmd hmem
  rw [hname] at hne hplain
  exact ⟨hne, fun b hb => (hplain b hb).1⟩

theorem isComment_typed (h : findCmd name = some cmd) : isComment (typed name args) = false := by
  obtain ⟨hmem, hname⟩ := findCmd_some h
  obtain ⟨hne, hplain⟩ := cmdtable_names cmd hmem
  rw [hname] at hne hplain
  obtain ⟨b, bs, hb⟩ := List.exists_cons_of_ne_nil hne
  have hhead : (typed name args).head? = some b := by
    rw [typed, spaced, hb]
    rfl
  rw [isComment, hhead, decide_eq_false_iff_not, Option.some.injEq]
  exact (hplain b (by rw [hb]; exact List.mem_cons_self)).2

/-- A typed command is the one that is called. -/
theorem called_typed (hcmd : findCmd name = some cmd) (hfunc : cmd.func = .fs c)
    (hlen : args.length ≤ cmd.maxArgs - 1 + 1) (hargs : AreWords args) (hne : args ≠ []) :
    called (typed name args) = .command ⟨c, args⟩ := by
  obtain ⟨rest, hsplit, hrest⟩ := splitLine_typed (isWord_name hcmd) hargs hne
  have hparsed : parsedLine (typed name args) = some (cmd, .ok args) := by
    rw [parsedLine, isComment_typed hcmd, if_neg Bool.false_ne_true, hsplit]
    dsimp only
    rw [hcmd, Option.map_some, parseCommand_words hlen hargs hrest]
  rw [called, hparsed]
  dsimp only
  rw [hfunc]

end Lines

end Ece344Lab.Fs
