import Styrikerfi.Tsh.Jobs

/-!
# The shell

`tsh.c` as a transition system. `main` runs `eval` on one command after the other; its program
counter says which access to the job list comes next. A handler of `SIGCHLD` may start between any
two of its steps while the signal is not blocked: any process may send one, so that a child has
changed is not required. It collects reports one by one with `waitpid` and returns when none is
left; `main` stands still meanwhile and `SIGCHLD` is blocked. The handlers of `SIGINT` and `SIGTSTP`
run at any time, in one step each. The children exit, are killed, stop and continue by themselves.

A command is an argument vector as `parseline` builds it. Dereferencing `NULL` ends the shell.
-/

namespace Tsh

/-- What has become of a child; a stopped one reports it once. -/
inductive Proc where
  | running
  | stopped (sig : Nat) (reported : Bool)
  | exited
  | signaled (sig : Nat)
  deriving DecidableEq

/-- The status `waitpid` fills in. -/
inductive Report where
  | exited
  | signaled (sig : Nat)
  | stopped (sig : Nat)
  deriving DecidableEq

/-- What `waitpid` reports with `WNOHANG | WUNTRACED`. -/
def Proc.report : Proc → Option Report
  | .stopped sig false => some (.stopped sig)
  | .exited => some .exited
  | .signaled sig => some (.signaled sig)
  | _ => none

/-- The child is gone. -/
def Report.terminated : Report → Bool
  | .stopped _ => false
  | _ => true

/-- How a child changes. -/
inductive Change where
  | exit
  | kill (sig : Nat)
  | stop (sig : Nat)
  | cont
  deriving DecidableEq

def Proc.change : Proc → Change → Option Proc
  | .running, .exit => some .exited
  | .running, .kill sig => some (.signaled sig)
  | .stopped _ _, .kill sig => some (.signaled sig)
  | .running, .stop sig => some (.stopped sig false)
  | .stopped _ _, .cont => some .running
  | _, _ => none

/-- The signals the shell sends. -/
inductive Sig where
  | int | tstp | cont
  deriving DecidableEq

/-- What is printed. -/
inductive Line where
  | status (jid pid : Int) (cmdline : String)
  | listed (i : Nat) (job : Job)
  | added (jid pid : Int) (cmdline : String)
  | tooMany
  | needsArg (isbg : Bool)
  | badArg (isbg : Bool)
  | noJob (arg : String)
  | noProcess (arg : String)
  | terminated (jid pid : Int)
  | stopped (jid pid : Int)
  | sigquit
  | fgetsError
  deriving DecidableEq

def JobState.text (i : Nat) : JobState → String
  | .bg => "Running "
  | .fg => "Foreground "
  | .st => "Stopped "
  | .undef => s!"listjobs: Internal error: job[{i}].state=0 "

def Line.text : Line → String
  | .status jid pid cmdline => s!"[{jid}] ({pid}) {cmdline}"
  | .listed i job => s!"[{job.jid}] ({job.pid}) " ++ job.state.text i ++ job.cmdline
  | .added jid pid cmdline => s!"Added job [{jid}] {pid} {cmdline}\n"
  | .tooMany => "Tried to create too many jobs\n"
  | .needsArg isbg => (if isbg then "bg" else "fg") ++ " command requires PID or %jobid argument \n"
  | .badArg isbg => (if isbg then "bg" else "fg") ++ ": argument must be a PID or %jobid \n"
  | .noJob arg => s!"{arg}: No such job \n"
  | .noProcess arg => s!"({arg}): No such process \n"
  | .terminated jid pid => s!"Job [{jid}] ({pid}) terminated by signal 2 \n"
  | .stopped jid pid => s!"Job [{jid}] ({pid}) stopped by signal 20 \n"
  | .sigquit => "Terminating after receipt of SIGQUIT signal\n"
  | .fgetsError => "fgets error\n"

/-- Where `main` is, by what it does next. -/
inductive Pc where
  | prompt
  | builtinCmd (argv : List String) (bg : Bool) (cmdline : String)
  -- `eval`
  | block (bg : Bool) (cmdline : String)
  | fork (bg : Bool) (cmdline : String)
  | addjob (bg : Bool) (cmdline : String) (pid : Int)
  | unblock (bg : Bool) (cmdline : String) (pid : Int)
  | print (cmdline : String) (pid : Int)
  -- `do_bgfg`, which has found a job
  | readPid (isbg : Bool) (job : Fin maxjobs) (jid : Int)
  | readJid (isbg : Bool) (job : Fin maxjobs) (pid : Int)
  | kill (isbg : Bool) (job : Fin maxjobs) (jid pid : Int)
  | setState (isbg : Bool) (job : Fin maxjobs) (jid pid : Int)
  | status (job : Fin maxjobs) (jid pid : Int)
  -- `waitfg`, before and after it has looked the job up
  | waitfg (pid : Int)
  | wait (pid : Int) (job : Option (Fin maxjobs))
  deriving DecidableEq

/-- Where the handler of `SIGCHLD` is. -/
inductive Handler where
  | idle
  | loop
  | got (pid : Int) (status : Report)
  deriving DecidableEq

/-- Where `NULL` is dereferenced: `argv[0]` in `builtin_cmd`, or a job. -/
inductive Site where
  | builtinCmd | waitfg | sigchldHandler
  deriving DecidableEq

inductive Ending where
  | exit (status : Int)
  | nullDeref (site : Site)
  deriving DecidableEq

/-- The shell and its children. -/
structure Shell where
  verbose : Bool
  list : JobList
  pc : Pc
  /-- `SIGCHLD` is blocked by `eval`. -/
  blocked : Bool
  handler : Handler
  /-- The children forked and not yet reaped. -/
  kids : List Int
  proc : Int → Proc
  /-- The children among them that `addjob` had no slot for: read by no step, but by the condition
  under which no lookup fails. -/
  refused : List Int
  out : List Line
  /-- The targets of `kill`. -/
  sent : List (Int × Sig)
  ended : Option Ending

/-- A step of the shell, or of a child. -/
inductive Act where
  | command (argv : List String) (bg : Bool) (cmdline : String)
  | eof
  | fgetsError
  | main
  | fork (child : Option Int)
  | sigchld
  | waitpid (pid : Int)
  | report
  | sigreturn
  | sigint
  | sigtstp
  | sigquit
  | child (pid : Int) (change : Change)
  deriving DecidableEq

def Shell.finish (s : Shell) (e : Ending) : Shell := { s with ended := some e }

/-- A call of `printf` by the shell itself: `out` lists these lines in order. The copy of the output
buffer that a child of `fork` may flush when it exits is not in it. -/
def Shell.print (s : Shell) (line : Line) : Shell := { s with out := s.out ++ [line] }

/-- `kill(-pid, sig)` -/
def Shell.kill (s : Shell) (pid : Int) (sig : Sig) : Shell :=
  { s with sent := s.sent ++ [(-pid, sig)] }

def Shell.goto (s : Shell) (pc : Pc) : Shell := { s with pc := pc }

/-! ## `eval` -/

/-- `listjobs` -/
def Shell.listjobs (s : Shell) : Shell :=
  { s with
    out := s.out ++ ((List.finRange maxjobs).filter fun i => (s.list.jobs i).pid ≠ 0).map
      fun i => .listed i (s.list.jobs i) }

def digits (cs : List Char) : Bool := cs.all Char.isDigit

/-- `atoi` of a string of digits: `strtol`, which saturates at 64 bits, as an `int`. -/
def atoi (cs : List Char) : Int :=
  int (min (cs.foldl (fun n c => 10 * n + (c.toNat - 48)) 0) (2 ^ 63 - 1) : Nat)

/-- `do_bgfg`, up to its use of the job it has found. -/
def Shell.doBgfg (s : Shell) (isbg : Bool) (args : List String) : Shell :=
  match args with
  | [] => (s.print (.needsArg isbg)).goto .prompt
  | arg :: _ =>
    match arg.toList with
    | '%' :: p =>
      if digits p then
        let jid := atoi p
        match s.list.getjobjid jid with
        | some job => s.goto (.readPid isbg job jid)
        | none => (s.print (.noJob arg)).goto .prompt
      else (s.print (.badArg isbg)).goto .prompt
    | p =>
      if digits p then
        let pid := atoi p
        match s.list.getjobpid pid with
        | some job => s.goto (.readJid isbg job pid)
        | none => (s.print (.noProcess arg)).goto .prompt
      else (s.print (.badArg isbg)).goto .prompt

/-- `builtin_cmd`; a command that is not built in is run in a child. -/
def Shell.builtinCmd (s : Shell) (argv : List String) (bg : Bool) (cmdline : String) : Shell :=
  match argv with
  | [] => s.finish (.nullDeref .builtinCmd)
  | cmd :: args =>
    if cmd = "quit" then s.finish (.exit 0)
    else if cmd = "jobs" then s.listjobs.goto .prompt
    else if cmd = "fg" then s.doBgfg false args
    else if cmd = "bg" then s.doBgfg true args
    else s.goto (.block bg cmdline)

/-- `addjob`, its result ignored. -/
def Shell.addjob (s : Shell) (bg : Bool) (cmdline : String) (pid : Int) : Shell :=
  if pid < 1 then s
  else
    let r := s.list.addjob pid (if bg then .bg else .fg) cmdline
    if r.1 = 0 then { s with list := r.2, refused := pid :: s.refused }.print .tooMany
    else if s.verbose then { s with list := r.2 }.print (.added s.list.nextjid pid cmdline)
    else { s with list := r.2 }

/-- The next step of `main`, where it neither reads a command nor forks. -/
def Shell.mainStep (s : Shell) : Option Shell :=
  match s.pc with
  | .prompt => none
  | .builtinCmd argv bg cmdline => some (s.builtinCmd argv bg cmdline)
  | .block bg cmdline => some ({ s with blocked := true }.goto (.fork bg cmdline))
  | .fork _ _ => none
  | .addjob bg cmdline pid => some ((s.addjob bg cmdline pid).goto (.unblock bg cmdline pid))
  | .unblock bg cmdline pid =>
    some ({ s with blocked := false }.goto (if bg then .print cmdline pid else .waitfg pid))
  | .print cmdline pid => some ((s.print (.status (s.list.pid2jid pid) pid cmdline)).goto .prompt)
  | .readPid isbg job jid => some (s.goto (.kill isbg job jid (s.list.jobs job).pid))
  | .readJid isbg job pid => some (s.goto (.kill isbg job (s.list.jobs job).jid pid))
  | .kill isbg job jid pid => some ((s.kill pid .cont).goto (.setState isbg job jid pid))
  | .setState isbg job jid pid =>
    if isbg then some ({ s with list := s.list.setState job .bg }.goto (.status job jid pid))
    else some ({ s with list := s.list.setState job .fg }.goto (.waitfg pid))
  | .status job jid pid =>
    some ((s.print (.status jid pid (s.list.jobs job).cmdline)).goto .prompt)
  | .waitfg pid => some (s.goto (.wait pid (s.list.getjobpid pid)))
  | .wait _ none => some (s.finish (.nullDeref .waitfg))
  | .wait _ (some job) =>
    -- while the job is in the foreground `waitfg` sleeps
    if (s.list.jobs job).state = .fg then some s else some (s.goto .prompt)

/-- `Fork`, which exits where `fork` fails (the message of `unix_error` is left out). A new process
ID is not that of a child not yet reaped. What the child prints itself before `execve`, or where
that fails, is left out too, with the buffer that it flushes then. -/
def Shell.fork (s : Shell) (child : Option Int) : Option Shell :=
  match s.pc, child with
  | .fork _ _, none => some (s.finish (.exit 1))
  | .fork bg cmdline, some pid =>
    if 1 ≤ pid ∧ pid < 2 ^ 31 ∧ pid ∉ s.kids then
      some ({ s with kids := pid :: s.kids, proc := Function.update s.proc pid .running }.goto
        (.addjob bg cmdline pid))
    else none
  | _, _ => none

/-! ## The handlers -/

/-- `waitpid` returns `pid`. -/
def Shell.waitpid (s : Shell) (pid : Int) (status : Report) : Shell :=
  match status with
  | .stopped sig =>
    { s with proc := Function.update s.proc pid (.stopped sig true), handler := .got pid status }
  | _ => { s with kids := s.kids.erase pid, refused := s.refused.erase pid,
                  handler := .got pid status }

/-- The body of the loop of `sigchld_handler`. -/
def Shell.report (s : Shell) (pid : Int) (status : Report) : Shell :=
  match status with
  | .exited => { s with list := (s.list.deletejob pid).2, handler := .loop }
  | .signaled _ =>
    { s.print (.terminated (s.list.pid2jid pid) pid) with
      list := (s.list.deletejob pid).2, handler := .loop }
  | .stopped _ =>
    match s.list.getjobpid pid with
    | none => s.finish (.nullDeref .sigchldHandler)
    | some job =>
      { s.print (.stopped (s.list.jobs job).jid pid) with
        list := s.list.setState job .st, handler := .loop }

/-- `sigint_handler` and `sigtstp_handler` -/
def Shell.forward (s : Shell) (sig : Sig) : Shell :=
  let pid := s.list.fgpid
  if pid ≠ 0 then s.kill pid sig else s

/-- A step of the shell, or of a child. -/
def step (s : Shell) (a : Act) : Option Shell :=
  if s.ended.isSome then none else
  match a with
  | .command argv bg cmdline =>
    if s.handler = .idle ∧ s.pc = .prompt then some (s.goto (.builtinCmd argv bg cmdline)) else none
  | .eof => if s.handler = .idle ∧ s.pc = .prompt then some (s.finish (.exit 0)) else none
  | .fgetsError =>
    if s.handler = .idle ∧ s.pc = .prompt then some ((s.print .fgetsError).finish (.exit 1)) else none
  | .main => if s.handler = .idle then s.mainStep else none
  | .fork child => if s.handler = .idle then s.fork child else none
  | .sigchld =>
    if s.handler = .idle ∧ ¬ s.blocked then some { s with handler := .loop } else none
  | .waitpid pid =>
    if s.handler = .loop ∧ pid ∈ s.kids then (s.proc pid).report.map (s.waitpid pid) else none
  | .report =>
    match s.handler with
    | .got pid status => some (s.report pid status)
    | _ => none
  | .sigreturn =>
    -- `waitpid` returns 0, or -1 with `errno` `ECHILD`
    if s.handler = .loop ∧ ∀ pid ∈ s.kids, (s.proc pid).report = none then
      some { s with handler := .idle }
    else none
  | .sigint => some (s.forward .int)
  | .sigtstp => some (s.forward .tstp)
  | .sigquit => some ((s.print .sigquit).finish (.exit 1))
  | .child pid change =>
    if pid ∈ s.kids then
      ((s.proc pid).change change).map fun p => { s with proc := Function.update s.proc pid p }
    else none

/-- `main` up to its loop. -/
def Shell.init (verbose : Bool) : Shell :=
  { verbose := verbose, list := initjobs, pc := .prompt, blocked := false, handler := .idle,
    kids := [], proc := fun _ => .running, refused := [], out := [], sent := [], ended := none }

/-! ## What a step does -/

variable {s s' : Shell} {a : Act}

/-- The two states differ in nothing but output, signals sent, the state of children and whether the
shell has exited. -/
structure Still (s s' : Shell) : Prop where
  list : s'.list = s.list
  pc : s'.pc = s.pc
  blocked : s'.blocked = s.blocked
  handler : s'.handler = s.handler
  kids : s'.kids = s.kids
  refused : s'.refused = s.refused
  ended : s'.ended = s.ended ∨ ∃ status, s'.ended = some (.exit status)

/-- A forwarded signal leaves the table and `main` where they are. -/
theorem Still.forward (s : Shell) (sig : Sig) : Still s (s.forward sig) := by
  unfold Shell.forward
  dsimp only
  split
  · exact ⟨rfl, rfl, rfl, rfl, rfl, rfl, .inl rfl⟩
  · exact ⟨rfl, rfl, rfl, rfl, rfl, rfl, .inl rfl⟩

/-- An exit leaves the table and `main` where they are. -/
theorem Still.exit (s : Shell) (status : Int) : Still s (s.finish (.exit status)) :=
  ⟨rfl, rfl, rfl, rfl, rfl, rfl, .inr ⟨status, rfl⟩⟩

/-- A message and an exit leave the table and `main` where they are. -/
theorem Still.print_exit (s : Shell) (line : Line) (status : Int) :
    Still s ((s.print line).finish (.exit status)) :=
  ⟨rfl, rfl, rfl, rfl, rfl, rfl, .inr ⟨status, rfl⟩⟩

/-- `do_bgfg` complains. -/
def Line.complaint : Line → Bool
  | .needsArg _ | .badArg _ | .noJob _ | .noProcess _ => true
  | _ => false

/-- `do_bgfg` complains, or has found a job. -/
inductive Bgfg (s : Shell) (isbg : Bool) : Shell → Prop
  | complain {line : Line} (h : line.complaint = true) :
      Bgfg s isbg ((s.print line).goto .prompt)
  | jid {job : Fin maxjobs} {jid : Int} (h : s.list.getjobjid jid = some job) :
      Bgfg s isbg (s.goto (.readPid isbg job jid))
  | pid {job : Fin maxjobs} {pid : Int} (h : s.list.getjobpid pid = some job) :
      Bgfg s isbg (s.goto (.readJid isbg job pid))

/-- `do_bgfg` complains, or has found a job. -/
theorem Shell.doBgfg_cases (s : Shell) (isbg : Bool) (args : List String) :
    Bgfg s isbg (s.doBgfg isbg args) := by
  unfold Shell.doBgfg
  split
  · exact .complain rfl
  · split
    · split
      · dsimp only
        split
        · next hjob => exact .jid hjob
        · exact .complain rfl
      · exact .complain rfl
    · split
      · dsimp only
        split
        · next hjob => exact .pid hjob
        · exact .complain rfl
      · exact .complain rfl

/-- What a command does that is built in, or its start. -/
inductive Builtin (s : Shell) (bg : Bool) (cmdline : String) : Shell → Prop
  | finish {e : Ending} (h : e = .exit 0 ∨ e = .nullDeref .builtinCmd) :
      Builtin s bg cmdline (s.finish e)
  | jobs : Builtin s bg cmdline (s.listjobs.goto .prompt)
  | bgfg {s' : Shell} {isbg : Bool} (h : Bgfg s isbg s') : Builtin s bg cmdline s'
  | run : Builtin s bg cmdline (s.goto (.block bg cmdline))

/-- What `builtin_cmd` does, by the name of the command. -/
theorem Shell.builtinCmd_cases (s : Shell) (argv : List String) (bg : Bool) (cmdline : String) :
    Builtin s bg cmdline (s.builtinCmd argv bg cmdline) := by
  unfold Shell.builtinCmd
  split
  · exact .finish (.inr rfl)
  · split
    · exact .finish (.inl rfl)
    split
    · exact .jobs
    split
    · exact .bgfg (s.doBgfg_cases _ _)
    split
    · exact .bgfg (s.doBgfg_cases _ _)
    · exact .run

/-- What a step of `main` does, by where it is. -/
inductive MainMoves (s : Shell) : Shell → Prop
  | builtinCmd {argv : List String} {bg : Bool} {cmdline : String}
      (hpc : s.pc = .builtinCmd argv bg cmdline) : MainMoves s (s.builtinCmd argv bg cmdline)
  | block {bg : Bool} {cmdline : String} (hpc : s.pc = .block bg cmdline) :
      MainMoves s ({ s with blocked := true }.goto (.fork bg cmdline))
  | addjob {bg : Bool} {cmdline : String} {pid : Int} (hpc : s.pc = .addjob bg cmdline pid) :
      MainMoves s ((s.addjob bg cmdline pid).goto (.unblock bg cmdline pid))
  | unblockBg {cmdline : String} {pid : Int} (hpc : s.pc = .unblock true cmdline pid) :
      MainMoves s ({ s with blocked := false }.goto (.print cmdline pid))
  | unblockFg {cmdline : String} {pid : Int} (hpc : s.pc = .unblock false cmdline pid) :
      MainMoves s ({ s with blocked := false }.goto (.waitfg pid))
  | print {cmdline : String} {pid : Int} (hpc : s.pc = .print cmdline pid) :
      MainMoves s ((s.print (.status (s.list.pid2jid pid) pid cmdline)).goto .prompt)
  | readPid {isbg : Bool} {job : Fin maxjobs} {jid : Int} (hpc : s.pc = .readPid isbg job jid) :
      MainMoves s (s.goto (.kill isbg job jid (s.list.jobs job).pid))
  | readJid {isbg : Bool} {job : Fin maxjobs} {pid : Int} (hpc : s.pc = .readJid isbg job pid) :
      MainMoves s (s.goto (.kill isbg job (s.list.jobs job).jid pid))
  | kill {isbg : Bool} {job : Fin maxjobs} {jid pid : Int} (hpc : s.pc = .kill isbg job jid pid) :
      MainMoves s ((s.kill pid .cont).goto (.setState isbg job jid pid))
  | setBg {job : Fin maxjobs} {jid pid : Int} (hpc : s.pc = .setState true job jid pid) :
      MainMoves s ({ s with list := s.list.setState job .bg }.goto (.status job jid pid))
  | setFg {job : Fin maxjobs} {jid pid : Int} (hpc : s.pc = .setState false job jid pid) :
      MainMoves s ({ s with list := s.list.setState job .fg }.goto (.waitfg pid))
  | status {job : Fin maxjobs} {jid pid : Int} (hpc : s.pc = .status job jid pid) :
      MainMoves s ((s.print (.status jid pid (s.list.jobs job).cmdline)).goto .prompt)
  | waitfg {pid : Int} (hpc : s.pc = .waitfg pid) :
      MainMoves s (s.goto (.wait pid (s.list.getjobpid pid)))
  | lost {pid : Int} (hpc : s.pc = .wait pid none) : MainMoves s (s.finish (.nullDeref .waitfg))
  | sleep {pid : Int} {job : Fin maxjobs} (hpc : s.pc = .wait pid (some job))
      (hfg : (s.list.jobs job).state = .fg) : MainMoves s s
  | wake {pid : Int} {job : Fin maxjobs} (hpc : s.pc = .wait pid (some job))
      (hfg : (s.list.jobs job).state ≠ .fg) : MainMoves s (s.goto .prompt)

/-- What a step of `main` does. -/
theorem Shell.mainStep_moves (hst : s.mainStep = some s') : MainMoves s s' := by
  unfold Shell.mainStep at hst
  split at hst
  · cases hst
  · next hpc => exact Option.some.inj hst ▸ .builtinCmd hpc
  · next hpc => exact Option.some.inj hst ▸ .block hpc
  · cases hst
  · next hpc => exact Option.some.inj hst ▸ .addjob hpc
  · next bg cmdline pid hpc =>
    cases bg with
    | true => exact Option.some.inj hst ▸ .unblockBg hpc
    | false => exact Option.some.inj hst ▸ .unblockFg hpc
  · next hpc => exact Option.some.inj hst ▸ .print hpc
  · next hpc => exact Option.some.inj hst ▸ .readPid hpc
  · next hpc => exact Option.some.inj hst ▸ .readJid hpc
  · next hpc => exact Option.some.inj hst ▸ .kill hpc
  · next isbg job jid pid hpc =>
    cases isbg with
    | true => exact Option.some.inj hst ▸ .setBg hpc
    | false => exact Option.some.inj hst ▸ .setFg hpc
  · next hpc => exact Option.some.inj hst ▸ .status hpc
  · next hpc => exact Option.some.inj hst ▸ .waitfg hpc
  · next hpc => exact Option.some.inj hst ▸ .lost hpc
  · next hpc =>
    split at hst
    · next hfg => exact Option.some.inj hst ▸ .sleep hpc hfg
    · next hfg => exact Option.some.inj hst ▸ .wake hpc hfg

/-- What a step of the shell does, by who takes it. -/
inductive Moves (s : Shell) : Act → Shell → Prop
  | still {a : Act} {s' : Shell} (h : Still s s') : Moves s a s'
  | command {argv : List String} {bg : Bool} {cmdline : String} (hidle : s.handler = .idle)
      (hpc : s.pc = .prompt) :
      Moves s (.command argv bg cmdline) (s.goto (.builtinCmd argv bg cmdline))
  | main {s' : Shell} (hidle : s.handler = .idle) (hst : s.mainStep = some s') : Moves s .main s'
  | fork {pid : Int} {bg : Bool} {cmdline : String} (hidle : s.handler = .idle)
      (hpc : s.pc = .fork bg cmdline) (hpid : 1 ≤ pid) (hnew : pid ∉ s.kids) :
      Moves s (.fork (some pid))
        ({ s with kids := pid :: s.kids, proc := Function.update s.proc pid .running }.goto
          (.addjob bg cmdline pid))
  | sigchld (hidle : s.handler = .idle) (hb : s.blocked = false) :
      Moves s .sigchld { s with handler := .loop }
  | waitpid {pid : Int} {status : Report} (hloop : s.handler = .loop) (hpid : pid ∈ s.kids)
      (hst : (s.proc pid).report = some status) : Moves s (.waitpid pid) (s.waitpid pid status)
  | report {pid : Int} {status : Report} (hgot : s.handler = .got pid status) :
      Moves s .report (s.report pid status)
  | sigreturn (hloop : s.handler = .loop) : Moves s .sigreturn { s with handler := .idle }

/-- What a step of the shell does. -/
theorem step_moves (hst : step s a = some s') : Moves s a s' := by
  unfold step at hst
  split at hst
  case isTrue => cases hst
  cases a with
  | command argv bg cmdline =>
    simp only [Option.ite_none_right_eq_some, Option.some.injEq] at hst
    exact hst.2 ▸ .command hst.1.1 hst.1.2
  | eof =>
    simp only [Option.ite_none_right_eq_some, Option.some.injEq] at hst
    exact hst.2 ▸ .still (.exit s 0)
  | fgetsError =>
    simp only [Option.ite_none_right_eq_some, Option.some.injEq] at hst
    exact hst.2 ▸ .still (.print_exit s _ 1)
  | main =>
    simp only [Option.ite_none_right_eq_some] at hst
    exact .main hst.1 hst.2
  | fork child =>
    simp only [Option.ite_none_right_eq_some] at hst
    obtain ⟨hidle, hst⟩ := hst
    unfold Shell.fork at hst
    split at hst
    · exact Option.some.inj hst ▸ .still (.exit s 1)
    · next hpc =>
      simp only [Option.ite_none_right_eq_some, Option.some.injEq] at hst
      exact hst.2 ▸ .fork hidle hpc hst.1.1 hst.1.2.2
    · cases hst
  | sigchld =>
    simp only [Option.ite_none_right_eq_some, Option.some.injEq] at hst
    exact hst.2 ▸ .sigchld hst.1.1 (by simpa using hst.1.2)
  | waitpid pid =>
    simp only [Option.ite_none_right_eq_some, Option.map_eq_some_iff] at hst
    obtain ⟨⟨hloop, hpid⟩, status, hst, rfl⟩ := hst
    exact .waitpid hloop hpid hst
  | report =>
    dsimp only at hst
    split at hst
    · next hgot => exact Option.some.inj hst ▸ .report hgot
    · cases hst
  | sigreturn =>
    simp only [Option.ite_none_right_eq_some, Option.some.injEq] at hst
    exact hst.2 ▸ .sigreturn hst.1.1
  | sigint => exact Option.some.inj hst ▸ .still (.forward s .int)
  | sigtstp => exact Option.some.inj hst ▸ .still (.forward s .tstp)
  | sigquit => exact Option.some.inj hst ▸ .still (.print_exit s _ 1)
  | child pid change =>
    simp only [Option.ite_none_right_eq_some, Option.map_eq_some_iff] at hst
    obtain ⟨-, p, -, rfl⟩ := hst
    exact .still ⟨rfl, rfl, rfl, rfl, rfl, rfl, .inl rfl⟩

/-- A shell that has ended takes no step. -/
theorem step_ended (hst : step s a = some s') : s.ended = none := by
  unfold step at hst
  split at hst
  · cases hst
  · next he => simpa using he

/-- `main` takes its steps outside the handlers. -/
theorem step_main_some (hst : step s .main = some s') :
    s.handler = .idle ∧ s.mainStep = some s' := by
  unfold step at hst
  split at hst
  · cases hst
  · simpa only [Option.ite_none_right_eq_some] using hst

/-- `waitpid` returns a child that has something to report. -/
theorem step_waitpid {pid : Int} (hst : step s (.waitpid pid) = some s') : s.handler = .loop ∧
    pid ∈ s.kids ∧ ∃ status, (s.proc pid).report = some status ∧ s' = s.waitpid pid status := by
  unfold step at hst
  split at hst
  · cases hst
  · simp only [Option.ite_none_right_eq_some, Option.map_eq_some_iff] at hst
    obtain ⟨⟨hloop, hpid⟩, status, hrep, rfl⟩ := hst
    exact ⟨hloop, hpid, status, hrep, rfl⟩

/-- The handler acts on the report it has collected. -/
theorem step_report (hst : step s .report = some s') :
    ∃ q status, s.handler = .got q status ∧ s' = s.report q status := by
  unfold step at hst
  split at hst
  · cases hst
  · dsimp only at hst
    split at hst
    · next hgot => exact ⟨_, _, hgot, (Option.some.inj hst).symm⟩
    · cases hst

/-- `waitpid` leaves the table and `main` where they are. -/
theorem Shell.waitpid_same (s : Shell) (pid : Int) (status : Report) :
    (s.waitpid pid status).list = s.list ∧ (s.waitpid pid status).pc = s.pc ∧
      (s.waitpid pid status).handler = .got pid status ∧ (s.waitpid pid status).ended = s.ended := by
  cases status <;> exact ⟨rfl, rfl, rfl, rfl⟩

end Tsh
