import Ece344Lab.Fs.Guarantees
import Ece344Lab.Fs.Shell

/-!
# Scripts

What testfs makes of its input. Every command with an argument can be typed, and a script of typed
commands is executed as it stands; a command of the table that stands alone on a line is undefined,
and the runs below have no such line. Whatever the input is, the commands that it calls are turns
of testfs, and the device that is left at the end stores the volume that they make.
-/
namespace Ece344Lab.Fs

open Ece344Lab.Library

section Arguments

variable {delim : UInt8 → Bool} {s : CStr} {t : Token} {cmd : Cmd} {c : CmdName}

/-- `MAX_ARGS`: `c->cmd` has one place more. -/
abbrev maxArgsPlaces : Nat := 6

/-- A command has room for its name and its arguments. -/
theorem maxArgs_eq (hmem : cmd ∈ cmdtable) (hfunc : cmd.func = .fs c) :
    cmd.maxArgs = c.arity + 1 := by
  simp only [cmdtable, List.mem_cons, List.not_mem_nil, or_false] at hmem
  rcases hmem with rfl | rfl | rfl | rfl | rfl | rfl | rfl | rfl | rfl | rfl | rfl | rfl | rfl <;>
    cases hfunc <;> rfl

theorem maxArgs_bounds : ∀ cmd ∈ cmdtable, 1 ≤ cmd.maxArgs ∧ cmd.maxArgs + 1 < maxArgsPlaces := by
  decide +kernel

/-- The bytes of a string that may be `NULL`. -/
def bytesOf (str : Option CStr) : List UInt8 := str.elim [] CStr.bytes

theorem strtok_some (h : (strtok delim s).1 = some t) : token delim s.bytes = t.bytes := by
  by_cases hnil : token delim s.bytes = []
  · rw [strtok_none hnil] at h
    cases h
  · rw [strtok, dif_neg hnil] at h
    cases h
    rfl

theorem isWord_strtok (h : (strtok delim s).1 = some t) : IsWord delim t.bytes := by
  have htoken := strtok_some h
  rw [← htoken]
  exact isWord_token (by rw [htoken]; exact t.ne_nil)

/-- A token and what is saved stand in the string in this order. -/
theorem strtok_sublist (h : (strtok delim s).1 = some t) :
    (t.bytes ++ (strtok delim s).2.bytes).Sublist s.bytes := by
  rw [← strtok_some h]
  exact token_append_sublist

/-- The arguments that the loop finds: not too many, words, and out of the string in order. -/
theorem parseArgs_spec (k : Nat) {args save args' save' : Option CStr} {found : List Token}
    (h : parseArgs k args save = .ok (found, args', save')) :
    found.length ≤ k ∧ AreWords found ∧
      (found.flatMap Token.bytes ++ bytesOf (args'.or save')).Sublist (bytesOf (args.or save)) := by
  induction k generalizing args save found with
  | zero =>
    cases h
    exact ⟨le_refl 0, fun _ h => (List.not_mem_nil h).elim, List.Sublist.refl _⟩
  | succ k ih =>
    rw [parseArgs] at h
    cases hr : strtokR isBlank args save with
    | error halt =>
      rw [hr] at h
      cases h
    | ok r =>
      obtain ⟨s, hsome, rfl⟩ := strtokR_inv hr
      rw [hr] at h
      rw [hsome]
      cases hfirst : (strtok isBlank s).1 with
      | none =>
        rw [show strtok isBlank s = (none, (strtok isBlank s).2) by rw [← hfirst]] at h
        cases h
        refine ⟨Nat.zero_le _, fun _ h => (List.not_mem_nil h).elim, ?_⟩
        cases args' with
        | none =>
          cases hsome
          exact afterToken_sublist
        | some a =>
          cases hsome
          exact List.Sublist.refl _
      | some t =>
        rw [show strtok isBlank s = (some t, (strtok isBlank s).2) by rw [← hfirst]] at h
        dsimp only at h
        cases hrest : parseArgs k none (some (strtok isBlank s).2) with
        | error halt =>
          rw [hrest] at h
          cases h
        | ok q =>
          obtain ⟨ts, args₁, save₁⟩ := q
          rw [hrest] at h
          cases h
          obtain ⟨hlen, hwords, hsub⟩ := ih hrest
          refine ⟨Nat.succ_le_succ hlen, List.forall_mem_cons.mpr ⟨isWord_strtok hfirst, hwords⟩, ?_⟩
          rw [List.flatMap_cons, List.append_assoc]
          exact (hsub.append_left t.bytes).trans (strtok_sublist hfirst)

theorem parseCommand_spec {args : Option CStr} {found : List Token}
    (h : parseCommand cmd args = .ok found) :
    found.length ≤ cmd.maxArgs - 1 + 1 ∧ (∀ t ∈ found, IsWord isLineEnd t.bytes) ∧
      (found.flatMap Token.bytes).Sublist (bytesOf args) := by
  rw [parseCommand] at h
  cases hargs : parseArgs (cmd.maxArgs - 1) args none with
  | error halt =>
    rw [hargs] at h
    cases h
  | ok q =>
    obtain ⟨ts, args', save'⟩ := q
    obtain ⟨hlen, hwords, hsub⟩ := parseArgs_spec _ hargs
    rw [Option.or_none] at hsub
    rw [hargs] at h
    dsimp only at h
    cases hr : strtokR isLineEnd args' save' with
    | error halt =>
      rw [hr] at h
      cases h
    | ok r =>
      obtain ⟨s, hsome, rfl⟩ := strtokR_inv hr
      rw [hr] at h
      rw [hsome] at hsub
      cases hlast : (strtok isLineEnd s).1 with
      | none =>
        rw [show strtok isLineEnd s = (none, (strtok isLineEnd s).2) by rw [← hlast]] at h
        cases h
        exact ⟨Nat.le_succ_of_le hlen, fun t ht => isWord_lineEnd (hwords t ht),
          (List.sublist_append_left _ _).trans hsub⟩
      | some t =>
        rw [show strtok isLineEnd s = (some t, (strtok isLineEnd s).2) by rw [← hlast]] at h
        cases h
        refine ⟨by rw [List.length_append]; exact Nat.succ_le_succ hlen, fun u hu => ?_, ?_⟩
        · rcases List.mem_append.mp hu with hu | hu
          · exact isWord_lineEnd (hwords u hu)
          · rw [List.mem_singleton.mp hu]
            exact isWord_strtok hlast
        · rw [List.flatMap_append, List.flatMap_singleton]
          have hpart := (List.sublist_append_left _ _).trans (strtok_sublist hlast)
          exact (hpart.append_left _).trans hsub

/-- What a line is made of that names a command of the table. -/
theorem parsedLine_inv {line : List UInt8} {parsed : Except Halt (List Token)}
    (h : parsedLine line = some (cmd, parsed)) :
    ∃ name args, splitLine line = some (name, args) ∧ findCmd name = some cmd ∧
      parsed = parseCommand cmd args := by
  rw [parsedLine] at h
  split at h
  · cases h
  cases hsplit : splitLine line with
  | none =>
    rw [hsplit] at h
    cases h
  | some p =>
    obtain ⟨name, args⟩ := p
    rw [hsplit] at h
    obtain ⟨cmd', hfind, heq⟩ := Option.map_eq_some_iff.mp h
    cases heq
    exact ⟨name, args, rfl, hfind, rfl⟩

/-- What follows the name of a command is a part of the line. -/
theorem splitLine_sublist {line : List UInt8} {name : Token} {args : Option CStr}
    (h : splitLine line = some (name, args)) : (bytesOf args).Sublist line := by
  obtain ⟨name', -, heq⟩ := Option.map_eq_some_iff.mp h
  obtain ⟨-, rfl⟩ := Prod.mk.inj heq
  have hbuf : (CStr.ofBuffer line).bytes.Sublist line := List.takeWhile_sublist _
  have hrest : (strtok isBlank (.ofBuffer line)).2.bytes.Sublist line :=
    afterToken_sublist.trans hbuf
  cases hp : (strtok isLineEnd (strtok isBlank (.ofBuffer line)).2).1 with
  | none => exact List.nil_sublist _
  | some t => exact ((List.sublist_append_left _ _).trans (strtok_sublist hp)).trans hrest

/-- Whatever a line is, the arguments of the command it calls, `help` and `quit` included, fit into
`c->cmd`, are parts of the line, in this order, and contain no line ends. A command of the file
system gets at most one too many. -/
theorem called_args {line : List UInt8} {args : List Token}
    (h : parsedLine line = some (cmd, .ok args)) :
    args.length ≤ cmd.maxArgs ∧ args.length + 1 ≤ maxArgsPlaces ∧
      (∀ t ∈ args, IsWord isLineEnd t.bytes) ∧ (args.flatMap Token.bytes).Sublist line ∧
      ∀ c, cmd.func = .fs c → called line = .command ⟨c, args⟩ ∧ args.length ≤ c.arity + 1 := by
  obtain ⟨name, rest, hsplit, hfind, hparsed⟩ := parsedLine_inv h
  obtain ⟨hlen, hwords, hsub⟩ := parseCommand_spec hparsed.symm
  have hmem := (findCmd_some hfind).1
  obtain ⟨hone, hplaces⟩ := maxArgs_bounds cmd hmem
  rw [Nat.sub_add_cancel hone] at hlen
  refine ⟨hlen, (Nat.succ_le_succ hlen).trans hplaces.le, hwords,
    hsub.trans (splitLine_sublist hsplit), fun c hfunc => ⟨?_, ?_⟩⟩
  · rw [called, h]
    dsimp only
    rw [hfunc]
  · rwa [← maxArgs_eq hmem hfunc]

/-- `ls` with two blanks behind it: the second one is an argument. -/
theorem called_args_blanks : ([⟨[32], by decide, by decide⟩] : List Token).length ≤ 1 + 1 ∧
    ([32] : List UInt8).Sublist (asciiBytes "ls  \n") := by
  have hparsed : ∃ cmd, cmd.func = .fs .ls ∧
      parsedLine (asciiBytes "ls  \n") = some (cmd, .ok [⟨[32], by decide, by decide⟩]) :=
    ⟨_, rfl, rfl⟩
  obtain ⟨cmd, hfunc, h⟩ := hparsed
  obtain ⟨-, -, -, hsub, hfs⟩ := called_args h
  exact ⟨(hfs .ls hfunc).2, hsub⟩

/-- A line stops the shell exactly when it is the name of a command and nothing else but line ends
behind it. -/
theorem called_stops {line : List UInt8} {halt : Halt} : called line = .stops halt ↔
    halt = .undefined ∧ isComment line = false ∧
      ∃ name cmd, splitLine line = some (name, none) ∧ findCmd name = some cmd := by
  constructor
  · intro h
    rw [called] at h
    cases hparsed : parsedLine line with
    | none =>
      rw [hparsed] at h
      cases h
    | some p =>
      obtain ⟨cmd, parsed⟩ := p
      obtain ⟨name, args, hsplit, hfind, heq⟩ := parsedLine_inv hparsed
      rw [hparsed] at h
      cases parsed with
      | error halt' =>
        cases h
        obtain ⟨rfl, rfl⟩ := parseCommand_error.mp heq.symm
        refine ⟨rfl, ?_, name, cmd, hsplit, hfind⟩
        by_contra hcomment
        rw [parsedLine, if_pos (by simpa using hcomment)] at hparsed
        cases hparsed
      | ok args' =>
        dsimp only at h
        cases hfunc : cmd.func <;>
        · rw [hfunc] at h
          cases h
  · rintro ⟨rfl, hcomment, name, cmd, hsplit, hfind⟩
    have hstop : parseCommand cmd none = .error .undefined := parseCommand_error.mpr ⟨rfl, rfl⟩
    rw [called, parsedLine, hcomment, if_neg Bool.false_ne_true, hsplit]
    dsimp only
    rw [hfind, Option.map_some, hstop]

end Arguments

section Typed

/-- The name of a command. -/
def CmdName.token : CmdName → Token
  | .cd => ⟨asciiBytes "cd", by decide, by decide⟩
  | .pwd => ⟨asciiBytes "pwd", by decide, by decide⟩
  | .ls => ⟨asciiBytes "ls", by decide, by decide⟩
  | .lsr => ⟨asciiBytes "lsr", by decide, by decide⟩
  | .create => ⟨asciiBytes "create", by decide, by decide⟩
  | .stat => ⟨asciiBytes "stat", by decide, by decide⟩
  | .rm => ⟨asciiBytes "rm", by decide, by decide⟩
  | .mkdir => ⟨asciiBytes "mkdir", by decide, by decide⟩
  | .read => ⟨asciiBytes "read", by decide, by decide⟩
  | .write => ⟨asciiBytes "write", by decide, by decide⟩
  | .fsstat => ⟨asciiBytes "fsstat", by decide, by decide⟩

theorem findCmd_token (c : CmdName) : ∃ cmd, findCmd c.token = some cmd ∧ cmd.func = .fs c := by
  cases c <;> exact ⟨_, rfl, rfl⟩

/-- The arguments are words, at least one, and at most one more than the command takes. Without any
the line would be undefined. -/
structure Command.Typable (c : Command) : Prop where
  some : c.args ≠ []
  few : c.args.length ≤ c.name.arity + 1
  words : AreWords c.args

/-- The commands as they are typed, each on its line. -/
def script (cs : List Command) : List UInt8 := cs.flatMap fun c => typed c.name.token c.args

theorem Command.Typable.called {c : Command} (h : c.Typable) :
    called (typed c.name.token c.args) = .command c := by
  obtain ⟨cmd, hfind, hfunc⟩ := findCmd_token c.name
  have hmax := maxArgs_eq (findCmd_some hfind).1 hfunc
  exact called_typed hfind hfunc (by rw [hmax]; exact h.few) h.words h.some

theorem Command.Typable.no_newline {c : Command} (h : c.Typable) :
    10 ∉ spaced (c.name.token :: c.args) := by
  obtain ⟨cmd, hfind, -⟩ := findCmd_token c.name
  intro hmem
  rcases mem_spaced hmem with heq | ⟨t, ht, hb⟩
  · cases heq
  · have hword : IsWord isBlank t.bytes := by
      rcases List.mem_cons.mp ht with rfl | ht
      · exact isWord_name hfind
      · exact h.words t ht
    exact absurd (hword.plain 10 hb) (by decide)

/-- The lines of a script call the commands that it was made of. -/
theorem called_script {cs : List Command} (h : ∀ c ∈ cs, c.Typable) :
    (linesOf 10 (script cs)).map called = cs.map .command := by
  have hlines : linesOf 10 (script cs) = cs.map fun c => typed c.name.token c.args :=
    linesOf_flatMap fun c hc => (h c hc).no_newline
  rw [hlines, List.map_map]
  exact List.map_congr_left fun c hc => (h c hc).called

end Typed

section Runs

variable {o : Setting} {s s' s₀ : FileSystem} {out : List Output} {line : List UInt8}
  {lines : List (List UInt8)} {quit : Bool} {turns : List Turn} {dev : Dev} {input : List UInt8}

/-- A command that has been executed, with the state before it and what it returned. -/
structure Executed where
  before : FileSystem
  cmd : Command
  result : Ret Event FileSystem Int

def Executed.turn (x : Executed) : Turn := .command x.cmd x.result.val (printed x.result.log)

/-- The step is not one of those at which the volume is given up. -/
def Executed.IsRegular (x : Executed) : Prop := Regular x.before x.cmd x.result

/-- The commands of the file system that the loop executes. -/
def executed : List (List UInt8) → FileSystem → List Executed
  | [], _ => []
  | line :: lines, s =>
    match called line with
    | .nothing => executed lines s
    | .quit => []
    | .stops _ => []
    | .command c =>
      match c.func.run s with
      | .error _ => []
      | .ok r => ⟨s, c, r⟩ :: executed lines r.st

def Output.event? : Output → Option Event
  | .event e => some e
  | _ => none

/-- What the commands have written. -/
def events (out : List Output) : List Event := out.filterMap Output.event?

theorem events_append (out out' : List Output) : events (out ++ out') = events out ++ events out' :=
  List.filterMap_append

theorem events_prompt (o : Setting) : events (prompt o) = [] := by
  rw [prompt]
  split <;> rfl

theorem events_log (log : List Event) : events (log.map .event) = log := by
  rw [events, List.filterMap_map]
  exact List.filterMap_some

/-- What one turn of the loop does: it executes the command that the line calls and stops where the
command does, or where the command stands alone; or it leaves the file system alone. -/
theorem handleLine_spec (o : Setting) (line : List UInt8) (s : FileSystem) :
    (∃ c, called line = .command c ∧
      ((∃ halt, c.func.run s = .error halt ∧ handleLine o line s = .error halt) ∨
        ∃ r out, c.func.run s = .ok r ∧ handleLine o line s = .ok (out, false, r.st) ∧
          events out = r.log)) ∨
    (∃ halt, called line = .stops halt ∧ handleLine o line s = .error halt) ∨
    ∃ quit out, (called line = .quit ∧ quit = true ∨ called line = .nothing ∧ quit = false) ∧
      handleLine o line s = .ok (out, quit, s) ∧ events out = [] := by
  rw [handleLine, called, parsedLine]
  by_cases hcomment : isComment line = true
  · rw [if_pos hcomment, if_pos hcomment]
    exact Or.inr (Or.inr ⟨false, [], Or.inr ⟨rfl, rfl⟩, rfl, rfl⟩)
  rw [if_neg hcomment, if_neg hcomment]
  have hecho : events (if o.verbose then [.stdout (CStr.ofBuffer line).bytes] else []) = [] := by
    split <;> rfl
  cases splitLine line with
  | none => exact Or.inr (Or.inr ⟨false, _, Or.inr ⟨rfl, rfl⟩, rfl, hecho⟩)
  | some p =>
    obtain ⟨name, args⟩ := p
    dsimp only
    rw [handleCommand]
    cases findCmd name with
    | none =>
      exact Or.inr (Or.inr ⟨false, _, Or.inr ⟨rfl, rfl⟩, rfl, by rw [events_append, hecho]; rfl⟩)
    | some cmd =>
      rw [Option.map_some]
      dsimp only
      cases parseCommand cmd args with
      | error halt => exact Or.inr (Or.inl ⟨halt, rfl, rfl⟩)
      | ok args' =>
        dsimp only
        cases cmd.func with
        | help =>
          exact Or.inr (Or.inr ⟨false, _, Or.inr ⟨rfl, rfl⟩, rfl, by
            rw [events_append, hecho]; rfl⟩)
        | quit =>
          exact Or.inr (Or.inr ⟨true, _, Or.inl ⟨rfl, rfl⟩, rfl, by
            rw [events_append, hecho]; rfl⟩)
        | fs n =>
          refine Or.inl ⟨_, rfl, ?_⟩
          cases hr : (Command.func ⟨n, args'⟩).run s with
          | error halt => exact Or.inl ⟨halt, rfl, by dsimp only; rw [hr]⟩
          | ok r =>
            refine Or.inr ⟨r, _, rfl, by dsimp only; rw [hr], ?_⟩
            have herr : ∀ texts : List Output, events (if r.val < 0 then texts else []) =
                if r.val < 0 then events texts else [] := fun texts => by split <;> rfl
            rw [events_append, events_append, hecho, events_log, herr]
            exact (List.nil_append _).trans (by split <;> exact List.append_nil _)

theorem handleLine_cases (hok : handleLine o line s = .ok (out, quit, s')) :
    (∃ c r, called line = .command c ∧ c.func.run s = .ok r ∧ quit = false ∧ s' = r.st ∧
      events out = r.log) ∨
    (called line = .quit ∧ quit = true ∨ called line = .nothing ∧ quit = false) ∧ s' = s ∧
      events out = [] := by
  rcases handleLine_spec o line s with ⟨c, hcalled, ⟨halt, -, herr⟩ | ⟨r, out', hr, hret, hlog⟩⟩ |
    ⟨halt, -, herr⟩ | ⟨quit', out', hcalled, hret, hlog⟩
  · rw [hok] at herr
    cases herr
  · rw [hok] at hret
    cases hret
    exact Or.inl ⟨c, r, hcalled, hr, rfl, rfl, hlog⟩
  · rw [hok] at herr
    cases herr
  · rw [hok] at hret
    cases hret
    exact Or.inr ⟨hcalled, rfl, hlog⟩

/-- The shell stops only where a command does, or at a command that stands alone. -/
theorem handleLine_error {halt : Halt} (h : handleLine o line s = .error halt) :
    (∃ c, called line = .command c ∧ c.func.run s = .error halt) ∨ called line = .stops halt := by
  rcases handleLine_spec o line s with ⟨c, hcalled, ⟨halt', hr, herr⟩ | ⟨r, out', -, hret, -⟩⟩ |
    ⟨halt', hcalled, herr⟩ | ⟨quit', out', -, hret, -⟩
  · rw [h] at herr
    cases herr
    exact Or.inl ⟨c, hcalled, hr⟩
  · rw [h] at hret
    cases hret
  · rw [h] at herr
    cases herr
    exact Or.inr hcalled
  · rw [h] at hret
    cases hret

/-- How the loop goes on behind a line. -/
theorem mainLoop_cons (hloop : mainLoop o (line :: lines) s = .ok (out, s')) :
    (∃ c r out', called line = .command c ∧ c.func.run s = .ok r ∧
      mainLoop o lines r.st = .ok (out', s') ∧ events out = r.log ++ events out') ∨
    (∃ out', called line = .nothing ∧ mainLoop o lines s = .ok (out', s') ∧
      events out = events out') ∨
    called line = .quit ∧ s' = s ∧ events out = [] := by
  rw [mainLoop] at hloop
  cases hline : handleLine o line s with
  | error halt =>
    rw [hline] at hloop
    cases hloop
  | ok t =>
    obtain ⟨out₁, quit, s₁⟩ := t
    rw [hline] at hloop
    have hgoes : quit = false → ∃ out₂, mainLoop o lines s₁ = .ok (out₂, s') ∧
        events out = events out₁ ++ events out₂ := by
      rintro rfl
      dsimp only at hloop
      cases hrest : mainLoop o lines s₁ with
      | error halt =>
        rw [hrest] at hloop
        cases hloop
      | ok t =>
        obtain ⟨out₂, s₂⟩ := t
        rw [hrest] at hloop
        cases hloop
        refine ⟨out₂, rfl, ?_⟩
        rw [events_append, events_append, events_prompt, List.nil_append]
    rcases handleLine_cases hline with ⟨c, r, hcalled, hr, hquit, rfl, hlog⟩ | ⟨hcalled, rfl, hlog⟩
    · obtain ⟨out₂, hrest, hevents⟩ := hgoes hquit
      exact Or.inl ⟨c, r, out₂, hcalled, hr, hrest, by rw [hevents, hlog]⟩
    · rcases hcalled with ⟨hcalled, rfl⟩ | ⟨hcalled, hquit⟩
      · cases hloop
        exact Or.inr (Or.inr ⟨hcalled, rfl, by rw [events_append, events_prompt, hlog]; rfl⟩)
      · obtain ⟨out₂, hrest, hevents⟩ := hgoes hquit
        exact Or.inr (Or.inl ⟨out₂, hcalled, hrest, by rw [hevents, hlog]; rfl⟩)

/-- The loop executes commands one after the other, and its output holds what they have written. If
they are regular, they are turns of testfs. -/
theorem mainLoop_executed (hloop : mainLoop o lines s = .ok (out, s')) :
    events out = (executed lines s).flatMap (fun x => x.result.log) ∧
      ((∀ x ∈ executed lines s, x.IsRegular) →
        (testfs.after s).Run ((executed lines s).map Executed.turn) s') := by
  induction lines generalizing s out with
  | nil =>
    rw [mainLoop] at hloop
    cases hloop
    exact ⟨events_prompt o, fun _ => .start rfl⟩
  | cons line lines ih =>
    rw [executed]
    rcases mainLoop_cons hloop with ⟨c, r, out', hcalled, hr, hrest, hevents⟩ |
      ⟨out', hcalled, hrest, hevents⟩ | ⟨hcalled, rfl, hevents⟩
    · obtain ⟨hlogs, hturns⟩ := ih hrest
      rw [hcalled]
      dsimp only
      rw [hr]
      refine ⟨by rw [hevents, hlogs]; rfl, fun hreg => ?_⟩
      rw [List.forall_mem_cons] at hreg
      have hturn : (testfs.after s).Run [Executed.turn ⟨s, c, r⟩] r.st :=
        Library.System.Run.next (.start rfl) (Turns.command hr hreg.1)
      exact hturn.append (hturns hreg.2)
    · rw [hcalled, hevents]
      exact ih hrest
    · rw [hcalled]
      exact ⟨hevents, fun _ => .start rfl⟩

/-- testfs starts on the device that mktestfs has made. -/
theorem startTestfs_inv {size : FsSize} (h : startTestfs size = .ok s) :
    ∃ dev, mktestfs size = .ok dev ∧ openTestfs dev = .ok s := by
  rw [startTestfs] at h
  cases hmk : mktestfs size with
  | error halt =>
    rw [hmk] at h
    cases h
  | ok dev =>
    rw [hmk] at h
    exact ⟨dev, rfl, h⟩

/-- What is printed at a turn. -/
def Turn.text : Turn → List UInt8
  | .command _ _ text => text
  | .restart => []

/-- A sitting with testfs, on a device that a run has left: it ends in order, and goes on with the
run. -/
theorem testfsMain_run (run : testfs.Run turns s) (hopen : openTestfs dev = .ok s)
    (hloop : mainLoop o (linesOf 10 input) s = .ok (out, s'))
    (hreg : ∀ x ∈ executed (linesOf 10 input) s, x.IsRegular) :
    ∃ dev' s₁, testfsMain o dev input = .ok (out, dev') ∧ openTestfs dev' = .ok s₁ ∧
      testfs.Run (turns ++ (executed (linesOf 10 input) s).map Executed.turn ++ [.restart]) s₁ ∧
      printed (events out) =
        ((executed (linesOf 10 input) s).map Executed.turn).flatMap Turn.text := by
  obtain ⟨hevents, hturns⟩ := mainLoop_executed hloop
  have hrun := Library.System.Run.append run (hturns hreg)
  obtain ⟨V, hat, -⟩ := atPrompt_of_run hrun
  obtain ⟨dev', s₁, hquit, hopen', -⟩ := hat.reopen
  refine ⟨dev', s₁, ?_, hopen', hrun.next (.restart hquit hopen'), ?_⟩
  · rw [testfsMain, hopen, Program.except_ok_bind, hloop, Program.except_ok_bind]
    dsimp only
    rw [hquit]
    rfl
  · rw [hevents, printed, List.flatMap_assoc, List.flatMap_map]
    rfl

/-- Sittings with testfs on one device, each with its input and its output, in which the commands
that are executed are regular. -/
def sittings (o : Setting) : System Dev (List UInt8 × List Output) where
  start dev := ∃ size, mktestfs size = .ok dev
  step dev e dev' := testfsMain o dev e.1 = .ok (e.2, dev') ∧
    ∀ s, openTestfs dev = .ok s → ∀ x ∈ executed (linesOf 10 e.1) s, x.IsRegular

/-- After any number of sittings the device opens, and stores the volume that all their commands
have made, one after the other. Their output is what the operations on volumes print. -/
theorem sittings_refine {es : List (List UInt8 × List Output)} (run : (sittings o).Run es dev) :
    ∃ s V turns, openTestfs dev = .ok s ∧ AtPrompt s V ∧ volumes.Run turns (V, s.curDir) ∧
      es.flatMap (fun e => printed (events e.2)) = turns.flatMap Turn.text := by
  have hkept : ∃ s turns, openTestfs dev = .ok s ∧ testfs.Run turns s ∧
      es.flatMap (fun e => printed (events e.2)) = turns.flatMap Turn.text := by
    induction run with
    | start h =>
      obtain ⟨size, hmk⟩ := h
      obtain ⟨s, hs, -⟩ := startTestfs_new size
      obtain ⟨dev, hmk', hopen⟩ := startTestfs_inv hs
      rw [hmk] at hmk'
      cases hmk'
      exact ⟨s, [], hopen, .start ⟨size, hs⟩, rfl⟩
    | next _ h ih =>
      obtain ⟨s, turns, hopen, hrun, htext⟩ := ih
      obtain ⟨hmain, hreg⟩ := h
      rename_i e dev'
      cases hloop : mainLoop o (linesOf 10 e.1) s with
      | error halt =>
        rw [testfsMain, hopen, Program.except_ok_bind, hloop] at hmain
        cases hmain
      | ok t =>
        obtain ⟨out, s'⟩ := t
        obtain ⟨dev'', s₁, hmain', hopen', hrun', htext'⟩ :=
          testfsMain_run hrun hopen hloop (hreg s hopen)
        rw [hmain] at hmain'
        cases hmain'
        refine ⟨s₁, _, hopen', hrun', ?_⟩
        rw [List.flatMap_append, List.flatMap_append, List.flatMap_append, htext, ← htext']
        simp only [List.flatMap_singleton, Turn.text, List.append_nil]
  obtain ⟨s, turns, hopen, hrun, htext⟩ := hkept
  obtain ⟨⟨V, d⟩, habstract, hat, rfl⟩ := testfs_simulates.run hrun
  exact ⟨s, V, turns, hopen, hat, habstract, htext⟩

/-- The script `cd .`. -/
def scriptCd : List Command := [⟨.cd, [nameDot]⟩]

theorem scriptCd_typable : ∀ c ∈ scriptCd, c.Typable := by
  intro c hc
  rw [scriptCd, List.mem_singleton] at hc
  subst hc
  refine ⟨List.cons_ne_nil _ _, by decide, fun t ht => ?_⟩
  rw [List.mem_singleton.mp ht]
  refine ⟨nameDot.ne_nil, fun b hb => ?_⟩
  obtain rfl := List.mem_singleton.mp hb
  rfl

/-- `cd .` as the input of testfs on a new file system. -/
theorem sample_script (o : Setting) : ∃ dev s₀ out s', mktestfs oneMb = .ok dev ∧
    openTestfs dev = .ok s₀ ∧ testfs.Run [] s₀ ∧
    mainLoop o (linesOf 10 (script scriptCd)) s₀ = .ok (out, s') ∧
    ∀ x ∈ executed (linesOf 10 (script scriptCd)) s₀, x.IsRegular := by
  obtain ⟨s₀, hs, hat₀, -⟩ := sample_new
  obtain ⟨dev, hmk, hopen⟩ := startTestfs_inv hs
  obtain ⟨ret, s₁, hcd, -, hcase⟩ := hat₀.cd nameDot
  have hret : ret ≠ -ENOSPC := by
    rcases hcase with ⟨-, rfl, -⟩ | ⟨n, -, ⟨-, rfl, -⟩ | ⟨-, rfl, -⟩⟩ <;> decide
  obtain ⟨line, hlines, hcalled⟩ :
      ∃ line, linesOf 10 (script scriptCd) = [line] ∧ called line = .command ⟨.cd, [nameDot]⟩ := by
    have h := called_script scriptCd_typable
    obtain ⟨line, rest, hline, hcalled, hrest⟩ := List.map_eq_cons_iff.mp h
    rw [List.map_eq_nil_iff.mp hrest] at hline
    exact ⟨line, hline, hcalled⟩
  rw [hlines]
  cases hline : handleLine o line s₀ with
  | error halt =>
    rcases handleLine_error hline with ⟨c, hc, herr⟩ | hstop
    · rw [hcalled] at hc
      cases hc
      rw [show (Command.func ⟨.cd, [nameDot]⟩).run s₀ = _ from hcd] at herr
      cases herr
    · rw [hcalled] at hstop
      cases hstop
  | ok t =>
    obtain ⟨out, quit, s'⟩ := t
    rcases handleLine_cases hline with ⟨c, r, hc, hr, rfl, rfl, -⟩ | ⟨hother, -⟩
    · rw [hcalled] at hc
      cases hc
      rw [show (Command.func ⟨.cd, [nameDot]⟩).run s₀ = _ from hcd] at hr
      cases hr
      refine ⟨dev, s₀, prompt o ++ out ++ prompt o, s₁, hmk, hopen, .start ⟨oneMb, hs⟩, ?_,
        fun x hx => ?_⟩
      · rw [mainLoop, hline]
        rfl
      · rw [executed, hcalled] at hx
        dsimp only at hx
        rw [show (Command.func ⟨.cd, [nameDot]⟩).run s₀ = _ from hcd] at hx
        obtain rfl := List.mem_singleton.mp hx
        exact regular_of_name hret (by simp)
    · rw [hcalled] at hother
      rcases hother with ⟨h, -⟩ | ⟨h, -⟩ <;> cases h

/-- Without prompt and echo. -/
def quiet : Setting := ⟨true, false, fun _ => []⟩

theorem sittings_refine_cd : ∃ out dev', (sittings quiet).Run [(script scriptCd, out)] dev' ∧
    ∃ s V, openTestfs dev' = .ok s ∧ AtPrompt s V := by
  obtain ⟨dev, s₀, out, s', hmk, hopen, hrun, hloop, hreg⟩ := sample_script quiet
  obtain ⟨dev', s₁, hmain, -⟩ := testfsMain_run hrun hopen hloop hreg
  have hstart : (sittings quiet).Run [] dev := .start ⟨oneMb, hmk⟩
  have hsat : (sittings quiet).Run [(script scriptCd, out)] dev' :=
    hstart.next ⟨hmain, fun s hs => by
      rw [hopen] at hs
      cases hs
      exact hreg⟩
  obtain ⟨s, V, -, hopen', hat, -⟩ := sittings_refine hsat
  exact ⟨out, dev', hsat, s, V, hopen', hat⟩

/-- A script is executed as it stands: the commands are the typed ones, in their order, and each
starts in the state that the one before it has left. -/
theorem script_executed {cs : List Command} (htyped : ∀ c ∈ cs, c.Typable)
    (hloop : mainLoop o (linesOf 10 (script cs)) s = .ok (out, s')) :
    (executed (linesOf 10 (script cs)) s).map Executed.cmd = cs := by
  have hcalled := called_script htyped
  generalize linesOf 10 (script cs) = lines at hcalled hloop
  clear htyped
  induction lines generalizing cs s out with
  | nil =>
    cases cs with
    | nil => rfl
    | cons c cs => cases hcalled
  | cons line lines ih =>
    cases cs with
    | nil => cases hcalled
    | cons c cs =>
      rw [List.map_cons, List.map_cons, List.cons.injEq] at hcalled
      rw [executed, hcalled.1]
      rcases mainLoop_cons hloop with ⟨c', r, out', hc', hr, hrest, -⟩ | ⟨_, hother, -⟩ |
        ⟨hother, -⟩
      · rw [hcalled.1] at hc'
        cases hc'
        dsimp only
        rw [hr]
        exact congrArg (c :: ·) (ih hcalled.2 hrest)
      · rw [hcalled.1] at hother
        cases hother
      · rw [hcalled.1] at hother
        cases hother

theorem script_executed_cd : ∃ s₀,
    (executed (linesOf 10 (script scriptCd)) s₀).map Executed.cmd = scriptCd := by
  obtain ⟨-, s₀, out, s', -, -, -, hloop, -⟩ := sample_script quiet
  exact ⟨s₀, script_executed scriptCd_typable hloop⟩

end Runs

end Ece344Lab.Fs
