import Styrikerfi.Tsh.Lookups

/-!
# Status lines

What the shell says of its jobs, against the history of the run (`historyOf`): the identifier that
`addjob` has given to each process, and the lines owed for what `waitpid` has returned, with the
signal of the wait status in them.

Where each fork finds a slot free, the handler prints one line for each child that was stopped or
killed, with the identifier of its job; but the signal in the text is 2 or 20 whatever it was. And
`eval` looks the identifier of a background job up after it has unblocked `SIGCHLD`, so that it
prints 0 for a job the handler has deleted by then (`status_untrue`). In a run without other signals
and without such a deletion (`Plain`) every line is true (`status_true`).
-/

namespace Tsh

variable {l : JobList} {i j : Fin maxjobs} {p pid jid : Int} {pc : Pc} {s s' : Shell} {a : Act}
  {verbose bg : Bool} {cmdline : String} {state : JobState} {status : Report} {line : Line}
  {tr : List (Shell × Act)}

/-! ## What is owed -/

/-- The line about a job that was stopped or killed, with the signal that did it. -/
def signalLine (jid pid : Int) : Report → Option String
  | .signaled sig => some s!"Job [{jid}] ({pid}) terminated by signal {sig} \n"
  | .stopped sig => some s!"Job [{jid}] ({pid}) stopped by signal {sig} \n"
  | .exited => none

/-- The identifiers given by `addjob`, and the lines owed, in order. -/
structure History where
  assigned : Int → Int
  owed : List String

/-- `addjob` gives the identifier that is next; what `waitpid` returns makes a line owed. -/
def History.next (g : History) (x : Shell × Act) : History :=
  match x.2 with
  | .main =>
    match x.1.pc with
    | .addjob _ _ pid => { g with assigned := Function.update g.assigned pid x.1.list.nextjid }
    | _ => g
  | .waitpid pid =>
    { g with owed := g.owed ++
        ((x.1.proc pid).report.bind (signalLine (g.assigned pid) pid)).toList }
  | _ => g

/-- The history of a run. -/
def historyOf (tr : List (Shell × Act)) : History := tr.foldl History.next ⟨fun _ => 0, []⟩

/-- The line owed for the report the handler has collected and not dealt with. -/
def History.due (g : History) : Handler → List String
  | .got pid status => (signalLine (g.assigned pid) pid status).toList
  | _ => []

@[simp] theorem History.due_idle (g : History) : g.due .idle = [] := rfl

@[simp] theorem History.due_loop (g : History) : g.due .loop = [] := rfl

/-- A line about a job that was stopped or killed. -/
def Line.signal : Line → Bool
  | .terminated _ _ | .stopped _ _ => true
  | _ => false

/-- The lines of this kind that are printed. -/
def Shell.signals (s : Shell) : List String := (s.out.filter Line.signal).map Line.text

/-- The signal is the one the text names. -/
def Report.named : Report → Bool
  | .signaled sig => sig = 2
  | .stopped sig => sig = 20
  | .exited => true

/-- `eval` is about to print the line of a background job. -/
def Pc.printing : Pc → Option Int
  | .print _ pid => some pid
  | _ => none

/-- `waitpid` returns no signal but the two the texts name, and not the end of a background job that
`eval` has not printed its line of. -/
def Plain (s : Shell) : Act → Prop
  | .waitpid pid => ∀ status ∈ (s.proc pid).report,
      status.named = true ∧ (status.terminated = true → s.pc.printing ≠ some pid)
  | _ => True

instance (s : Shell) : (a : Act) → Decidable (Plain s a)
  | .waitpid pid => inferInstanceAs (Decidable (∀ status ∈ (s.proc pid).report, _ ∧ _))
  | .command _ _ _ | .eof | .fgetsError | .main | .fork _ | .sigchld | .report | .sigreturn
  | .sigint | .sigtstp | .sigquit | .child _ _ => isTrue trivial

/-! ## The lines -/

/-- The line about a signal 2 is the one printed. -/
theorem terminated_text (jid pid : Int) :
    signalLine jid pid (.signaled 2) = some (Line.terminated jid pid).text := by
  have htail : toString ") terminated by signal " ++ (toString 2 ++ toString " \n") =
      toString ") terminated by signal 2 \n" := by decide
  change some s!"Job [{jid}] ({pid}) terminated by signal {2} \n" =
    some s!"Job [{jid}] ({pid}) terminated by signal 2 \n"
  simp only [String.append_assoc, htail]

/-- The line about a stop by signal 20 is the one printed. -/
theorem stopped_text (jid pid : Int) :
    signalLine jid pid (.stopped 20) = some (Line.stopped jid pid).text := by
  have htail : toString ") stopped by signal " ++ (toString 20 ++ toString " \n") =
      toString ") stopped by signal 20 \n" := by decide
  change some s!"Job [{jid}] ({pid}) stopped by signal {20} \n" =
    some s!"Job [{jid}] ({pid}) stopped by signal 20 \n"
  simp only [String.append_assoc, htail]

/-- Another line adds nothing to those about signals. -/
theorem Shell.signals_print (s : Shell) (line : Line) (h : line.signal = false) :
    (s.print line).signals = s.signals := by
  simp [Shell.signals, Shell.print, h]

/-- A line about a signal is added to them. -/
theorem Shell.signals_print_signal (s : Shell) (line : Line) (h : line.signal = true) :
    (s.print line).signals = s.signals ++ [line.text] := by
  simp [Shell.signals, Shell.print, h]

/-- A complaint of `do_bgfg` is not about a signal. -/
theorem Line.signal_of_complaint (h : line.complaint = true) : line.signal = false := by
  cases line <;> first | rfl | cases h

/-- `builtin_cmd` prints no line about a signal. -/
theorem Shell.builtinCmd_signals (s : Shell) (argv : List String) (bg : Bool) (cmdline : String) :
    (s.builtinCmd argv bg cmdline).signals = s.signals := by
  have hb := s.builtinCmd_cases argv bg cmdline
  generalize s.builtinCmd argv bg cmdline = t at hb ⊢
  cases hb with
  | finish | run => rfl
  | jobs =>
    have hlisted : ∀ is : List (Fin maxjobs),
        (is.map fun (i : Fin maxjobs) => Line.listed i (s.list.jobs i)).filter Line.signal = [] :=
      fun is => by
        rw [List.filter_eq_nil_iff]
        simp [Line.signal]
    simp only [Shell.signals, Shell.goto, Shell.listjobs, List.filter_append, hlisted,
      List.append_nil]
  | bgfg hb =>
    cases hb with
    | complain hline => exact s.signals_print _ (Line.signal_of_complaint hline)
    | jid | pid => rfl

/-- `addjob` prints no line about a signal. -/
theorem Shell.addjob_signals (s : Shell) (bg : Bool) (cmdline : String) (pid : Int) :
    (s.addjob bg cmdline pid).signals = s.signals := by
  unfold Shell.addjob
  split
  · rfl
  · generalize (if bg then JobState.bg else .fg) = state
    dsimp only
    split
    · exact Shell.signals_print _ .tooMany rfl
    · split
      · exact Shell.signals_print _ (.added _ _ _) rfl
      · rfl

/-- `main` prints no line about a signal. -/
theorem Shell.mainStep_signals (hst : s.mainStep = some s') : s'.signals = s.signals := by
  cases Shell.mainStep_moves hst with
  | builtinCmd => exact s.builtinCmd_signals _ _ _
  | addjob => exact s.addjob_signals _ _ _
  | print | status => exact s.signals_print (.status _ _ _) rfl
  | _ => rfl

/-- Nothing but the handler prints one. -/
theorem step_signals (hst : step s a = some s') (ha : a ≠ .report) : s'.signals = s.signals := by
  unfold step at hst
  split at hst
  case isTrue => cases hst
  cases a with
  | report => exact absurd rfl ha
  | fgetsError =>
    simp only [Option.ite_none_right_eq_some, Option.some.injEq] at hst
    exact hst.2 ▸ s.signals_print .fgetsError rfl
  | sigquit => exact Option.some.inj hst ▸ s.signals_print .sigquit rfl
  | main =>
    simp only [Option.ite_none_right_eq_some] at hst
    exact Shell.mainStep_signals hst.2
  | fork child =>
    simp only [Option.ite_none_right_eq_some, Shell.fork] at hst
    obtain ⟨-, hst⟩ := hst
    split at hst
    · exact Option.some.inj hst ▸ rfl
    · simp only [Option.ite_none_right_eq_some, Option.some.injEq] at hst
      exact hst.2 ▸ rfl
    · cases hst
  | waitpid pid =>
    simp only [Option.ite_none_right_eq_some, Option.map_eq_some_iff] at hst
    obtain ⟨-, status, -, rfl⟩ := hst
    cases status <;> rfl
  | child pid change =>
    simp only [Option.ite_none_right_eq_some, Option.map_eq_some_iff] at hst
    obtain ⟨-, p, -, rfl⟩ := hst
    rfl
  | sigint | sigtstp =>
    obtain rfl := Option.some.inj hst
    unfold Shell.forward
    dsimp only
    split <;> rfl
  | _ =>
    simp only [Option.ite_none_right_eq_some, Option.some.injEq] at hst
    exact hst.2 ▸ rfl

/-! ## The invariant -/

/-- The background job that `eval` is about to print the line of, or will be when it has unblocked
`SIGCHLD`. -/
def Pc.announcing : Pc → Option Int
  | .unblock true _ pid | .print _ pid => some pid
  | _ => none

/-- The jobs listed have the identifiers of the history, and what is owed is printed or due. -/
structure Truthful (g : History) (s : Shell) : Prop where
  inv : s.Inv
  roomy : s.Roomy
  jids : ∀ i, s.list.Occupied i → (s.list.jobs i).jid = g.assigned (s.list.jobs i).pid
  got : ∀ pid status, s.handler = .got pid status →
    1 ≤ pid ∧ status.named = true ∧ ∃ i, (s.list.jobs i).pid = pid
  announced : ∀ pid, s.pc.announcing = some pid →
    1 ≤ pid ∧ (∃ i, (s.list.jobs i).pid = pid) ∧ ¬ s.handler.Reaped pid
  said : s.signals ++ g.due s.handler = g.owed

/-- The identifier of a process that is listed. -/
theorem Table.pid2jid {kids : List Int} {h : Handler} (ht : Table l kids h) (hpid : 1 ≤ pid)
    (hi : (l.jobs i).pid = pid) : l.pid2jid pid = (l.jobs i).jid := by
  have hfind : l.find (fun j => j.pid = pid) = some i :=
    JobList.find_eq (decide_eq_true hi) fun j hj => ht.slot_eq hpid (of_decide_eq_true hj) hi
  unfold JobList.pid2jid
  rw [if_neg (by omega), hfind]

/-- The identifier of a process that is listed is the one in the history. -/
theorem Truthful.pid2jid {g : History} (h : Truthful g s) (hpid : 1 ≤ pid)
    (hi : (s.list.jobs i).pid = pid) : s.list.pid2jid pid = g.assigned pid := by
  have hocc : s.list.Occupied i := by rw [JobList.Occupied, hi]; omega
  rw [h.inv.table.pid2jid hpid hi, h.jids i hocc, hi]

/-! ## The steps -/

/-- A step that changes neither the table nor what the handler has collected. -/
theorem Truthful.move {g : History} (h : Truthful g s) (hinv : s'.Inv) (hroomy : s'.Roomy)
    (hl : s'.list = s.list) (hsig : s'.signals = s.signals)
    (hdue : g.due s'.handler = g.due s.handler)
    (hgot : ∀ pid status, s'.handler = .got pid status → s.handler = .got pid status)
    (hann : ∀ pid, s'.pc.announcing = some pid →
      s.pc.announcing = some pid ∧ ¬ s'.handler.Reaped pid) : Truthful g s' where
  inv := hinv
  roomy := hroomy
  jids := by rw [hl]; exact h.jids
  got pid status hg := by rw [hl]; exact h.got pid status (hgot pid status hg)
  announced pid hp := by
    rw [hl]
    have ⟨hold, hr⟩ := hann pid hp
    exact ⟨(h.announced pid hold).1, (h.announced pid hold).2.1, hr⟩
  said := by rw [hsig, hdue]; exact h.said

/-- A step of `main` that does not change the table. -/
theorem Truthful.mainMove {g : History} (h : Truthful g s) (hidle : s.handler = .idle)
    (hinv : s'.Inv) (hroomy : s'.Roomy) (hsig : s'.signals = s.signals) (hl : s'.list = s.list)
    (hh : s'.handler = s.handler)
    (hann : s'.pc.announcing = none ∨ s'.pc.announcing = s.pc.announcing) : Truthful g s' := by
  refine h.move hinv hroomy hl hsig (by rw [hh]) (fun _ _ hg => hh ▸ hg) fun pid hp => ?_
  refine ⟨?_, Handler.not_reaped_idle (hh.trans hidle) pid⟩
  rcases hann with hann | hann <;> rw [hann] at hp
  · cases hp
  · exact hp

/-- A child is listed under the identifier that is next. -/
theorem Truthful.addjob {g : History} (h : Truthful g s) (hidle : s.handler = .idle)
    (hpc : s.pc = .addjob bg cmdline pid)
    (hinv : ((s.addjob bg cmdline pid).goto (.unblock bg cmdline pid)).Inv)
    (hroomy : ((s.addjob bg cmdline pid).goto (.unblock bg cmdline pid)).Roomy) :
    Truthful { g with assigned := Function.update g.assigned pid s.list.nextjid }
      ((s.addjob bg cmdline pid).goto (.unblock bg cmdline pid)) := by
  have ⟨hkid, hnew⟩ := h.inv.adding pid (by rw [hpc]; rfl)
  have hpid := h.inv.table.pos pid hkid
  obtain ⟨k, hk⟩ := h.roomy.2 pid (by rw [hpc]; rfl)
  obtain ⟨hlist, hhandler, -⟩ := s.addjob_same bg cmdline hpid
  obtain ⟨i, n, hi, heq⟩ | ⟨hfull, -⟩ := s.list.addjob_cases hpid (if bg then .bg else .fg) cmdline
  · rw [heq] at hlist
    have hidle' : ((s.addjob bg cmdline pid).goto (.unblock bg cmdline pid)).handler = .idle :=
      hhandler.trans hidle
    refine ⟨hinv, hroomy, fun j hj => ?_, fun _ _ hg => (nomatch hidle'.symm.trans hg),
      fun q hq => ?_, ?_⟩
    · simp only [JobList.Occupied, Shell.goto, hlist] at hj ⊢
      by_cases hji : j = i
      · rw [hji, Function.update_self, Function.update_self]
      · rw [Function.update_of_ne hji] at hj ⊢
        rw [Function.update_of_ne (hnew j)]
        exact h.jids j hj
    · obtain rfl : pid = q := by
        cases bg with
        | true => exact Option.some.inj hq
        | false => cases hq
      refine ⟨hpid, ⟨i, ?_⟩, Handler.not_reaped_idle hidle' _⟩
      simp only [Shell.goto, hlist, Function.update_self]
    · have hsaid := h.said
      rw [hidle] at hsaid
      rw [hidle']
      exact (congrArg (· ++ []) (s.addjob_signals bg cmdline pid)).trans hsaid
  · exact absurd (hfull k) hk

/-- A state written by `do_bgfg` keeps what is owed. -/
theorem Truthful.setState {g : History} (h : Truthful g s) (hidle : s.handler = .idle)
    (job : Fin maxjobs) (state : JobState) (hann : pc.announcing = none)
    (hinv : ({ s with list := s.list.setState job state }.goto pc).Inv)
    (hroomy : ({ s with list := s.list.setState job state }.goto pc).Roomy) :
    Truthful g ({ s with list := s.list.setState job state }.goto pc) where
  inv := hinv
  roomy := hroomy
  jids i hi := by
    simp only [JobList.Occupied, Shell.goto, JobList.setState_pid, JobList.setState_jid] at hi ⊢
    exact h.jids i hi
  got _ _ hg := nomatch hidle.symm.trans hg
  announced _ hp := nomatch hann.symm.trans hp
  said := h.said

/-- A step of `main`. -/
theorem Truthful.main {g : History} (h : Truthful g s) (hidle : s.handler = .idle)
    (hst : s.mainStep = some s') : Truthful (g.next (s, .main)) s' := by
  have hinv := h.inv.main hidle hst
  have hroomy := h.roomy.main h.inv hst
  have hsig := Shell.mainStep_signals hst
  have hg : ∀ pc, s.pc = pc → pc.adding = none → g.next (s, .main) = g := by
    rintro pc rfl hne
    unfold History.next
    dsimp only
    split
    · next heq =>
      rw [heq] at hne
      cases hne
    · rfl
  cases Shell.mainStep_moves hst with
  | @builtinCmd argv bg cmdline hpc =>
    rw [hg _ hpc rfl]
    have hb := s.builtinCmd_cases argv bg cmdline
    generalize s.builtinCmd argv bg cmdline = t at hb hinv hroomy hsig ⊢
    cases hb with
    | finish => exact h.mainMove hidle hinv hroomy hsig rfl rfl (.inr rfl)
    | jobs => exact h.mainMove hidle hinv hroomy hsig rfl rfl (.inl rfl)
    | bgfg hb => cases hb <;> exact h.mainMove hidle hinv hroomy hsig rfl rfl (.inl rfl)
    | run => exact h.mainMove hidle hinv hroomy hsig rfl rfl (.inl rfl)
  | @addjob bg cmdline pid hpc =>
    have hgj : g.next (s, .main) =
        { g with assigned := Function.update g.assigned pid s.list.nextjid } := by
      simp only [History.next, hpc]
    rw [hgj]
    exact h.addjob hidle hpc hinv hroomy
  | @setBg job _ _ hpc =>
    rw [hg _ hpc rfl]
    exact h.setState hidle job .bg rfl hinv hroomy
  | @setFg job _ _ hpc =>
    rw [hg _ hpc rfl]
    exact h.setState hidle job .fg rfl hinv hroomy
  | unblockBg hpc =>
    rw [hg _ hpc rfl]
    exact h.mainMove hidle hinv hroomy hsig rfl rfl (.inr (by rw [hpc]; rfl))
  | lost hpc =>
    rw [hg _ hpc rfl]
    exact h.mainMove hidle hinv hroomy hsig rfl rfl (.inr rfl)
  | sleep hpc =>
    rw [hg _ hpc rfl]
    exact h
  | block hpc | unblockFg hpc | print hpc | readPid hpc | readJid hpc | kill hpc | status hpc
  | waitfg hpc | wake hpc =>
    rw [hg _ hpc rfl]
    exact h.mainMove hidle hinv hroomy hsig rfl rfl (.inl rfl)

/-- A report is collected, and its line is owed. -/
theorem Truthful.waitpid {g : History} (h : Truthful g s) (hloop : s.handler = .loop)
    (hpid : pid ∈ s.kids) (hrep : (s.proc pid).report = some status)
    (hok : status.named = true ∧ (status.terminated = true → s.pc.printing ≠ some pid))
    (hinv : (s.waitpid pid status).Inv) (hroomy : (s.waitpid pid status).Roomy)
    (hsig : (s.waitpid pid status).signals = s.signals) :
    Truthful (g.next (s, .waitpid pid)) (s.waitpid pid status) := by
  obtain ⟨hl, hpc, hh, -⟩ := s.waitpid_same pid status
  have hg : g.next (s, .waitpid pid) =
      { g with owed := g.owed ++ (signalLine (g.assigned pid) pid status).toList } := by
    simp only [History.next, hrep, Option.bind_some]
  have hrun : s.handler ≠ .idle := by rw [hloop]; nofun
  rw [hg]
  refine ⟨hinv, hroomy, ?_, fun q status' hgot => ?_, fun q hq => ?_, ?_⟩
  · rw [hl]
    exact h.jids
  · rw [hh] at hgot
    cases hgot
    rw [hl]
    refine ⟨h.inv.table.pos pid hpid, hok.1, ?_⟩
    rcases h.inv.accounted pid hpid with hi | hr | ha
    · exact hi
    · rw [h.roomy.1] at hr
      cases hr
    · rw [h.inv.not_adding hrun] at ha
      cases ha
  · rw [hpc] at hq
    rw [hl, hh]
    obtain ⟨hq1, hi, -⟩ := h.announced q hq
    refine ⟨hq1, hi, ?_⟩
    rintro ⟨status', hgot, hterm⟩
    cases hgot
    -- `eval` has unblocked `SIGCHLD`, since the handler runs
    have hm : s.pc.masked = false := by
      rw [← h.inv.masked]
      exact Bool.eq_false_iff.2 fun hb => hrun (h.inv.idle hb)
    cases hpc : s.pc with rw [hpc] at hq hm hok
    | print cmdline q =>
      cases hq
      exact hok.2 hterm rfl
    | unblock => cases hm
    | _ => cases hq
  · have hsaid := h.said
    rw [hloop, History.due_loop, List.append_nil] at hsaid
    rw [hsig, hsaid, hh]
    rfl

/-- A job that has ended is deleted. -/
theorem Truthful.delete {g : History} (h : Truthful g s) (hgot : s.handler = .got pid status)
    (hterm : status.terminated = true) (hinv : s'.Inv) (hroomy : s'.Roomy)
    (hl : s'.list = (s.list.deletejob pid).2) (hpc : s'.pc = s.pc) (hh : s'.handler = .loop)
    (hsig : s'.signals = s.signals ++ g.due (.got pid status)) : Truthful g s' := by
  have hnogot : ∀ p status, s'.handler ≠ .got p status := by
    intro p status hg
    rw [hh] at hg
    cases hg
  refine ⟨hinv, hroomy, fun i hi => ?_, fun _ _ hg => absurd hg (hnogot _ _), fun q hq => ?_, ?_⟩
  · rw [JobList.Occupied, hl, h.inv.table.deletejob_pid] at hi
    rw [hl, h.inv.table.deletejob_pid]
    split at hi
    · exact absurd rfl hi
    · next hne =>
      rw [if_neg hne]
      exact h.jids i hi
  · rw [hpc] at hq
    obtain ⟨hq1, ⟨i, hi⟩, hr⟩ := h.announced q hq
    refine ⟨hq1, ⟨i, ?_⟩, Handler.not_reaped_loop hh q⟩
    have hne : pid ≠ q := fun hpq => hr ⟨status, by rw [hgot, hpq], hterm⟩
    rw [hl, h.inv.table.deletejob_pid, if_neg fun hc => hne (hc.2.symm.trans hi)]
    exact hi
  · have hsaid := h.said
    rw [hgot] at hsaid
    rw [hsig, hsaid, hh, History.due_loop, List.append_nil]

/-- The line owed is printed. -/
theorem Truthful.report {g : History} (h : Truthful g s) (hst : step s .report = some s')
    (hinv : s'.Inv) (hroomy : s'.Roomy) : Truthful g s' := by
  obtain ⟨pid, status, hgot, rfl⟩ := step_report hst
  obtain ⟨hpid, hnamed, i, hi⟩ := h.got pid status hgot
  cases status with
  | exited =>
    exact h.delete hgot rfl hinv hroomy rfl rfl rfl (List.append_nil _).symm
  | signaled sig =>
    obtain rfl : sig = 2 := of_decide_eq_true hnamed
    have hrep : s.report pid (.signaled 2) = { s.print (.terminated (g.assigned pid) pid) with
        list := (s.list.deletejob pid).2, handler := .loop } := by
      simp only [Shell.report, h.pid2jid hpid hi]
    rw [hrep] at hinv hroomy ⊢
    refine h.delete hgot rfl hinv hroomy rfl rfl rfl ?_
    rw [History.due, terminated_text]
    exact s.signals_print_signal (.terminated (g.assigned pid) pid) rfl
  | stopped sig =>
    obtain rfl : sig = 20 := of_decide_eq_true hnamed
    obtain ⟨j, hjob⟩ := Option.ne_none_iff_exists'.1 (JobList.getjobpid_ne_none hpid hi)
    have hj := (JobList.getjobpid_some hjob).2
    have hjid : (s.list.jobs j).jid = g.assigned pid := by
      rw [← h.inv.table.pid2jid hpid hj, h.pid2jid hpid hi]
    have hrep : s.report pid (.stopped 20) = { s.print (.stopped (g.assigned pid) pid) with
        list := s.list.setState j .st, handler := .loop } := by
      simp only [Shell.report, hjob, hjid]
    rw [hrep] at hinv hroomy ⊢
    have hset := s.list.setState_pid j .st
    refine ⟨hinv, hroomy, fun k hk => ?_, nofun, fun q hq => ?_, ?_⟩
    · simp only [JobList.Occupied, JobList.setState_pid, JobList.setState_jid] at hk ⊢
      exact h.jids k hk
    · obtain ⟨hq1, ⟨k, hk⟩, -⟩ := h.announced q hq
      exact ⟨hq1, ⟨k, (hset k).trans hk⟩, Handler.not_reaped_loop rfl q⟩
    · have hsaid := h.said
      rw [hgot, History.due, stopped_text] at hsaid
      have hline := s.signals_print_signal (.stopped (g.assigned pid) pid) rfl
      exact (List.append_nil _).trans (hline.trans hsaid)

/-- Any other step leaves the history as it is. -/
theorem Truthful.other {g : History} (h : Truthful g s) (hinv : s'.Inv) (hroomy : s'.Roomy)
    (hm : Moves s a s') (hsig : s'.signals = s.signals) (hmain : a ≠ .main)
    (hwait : ∀ pid, a ≠ .waitpid pid) (hreport : a ≠ .report) : Truthful g s' := by
  cases hm with
  | still e =>
    refine h.move hinv hroomy e.list hsig (by rw [e.handler]) (fun _ _ hg => e.handler ▸ hg)
      fun pid hp => ?_
    rw [e.pc] at hp
    rw [e.handler]
    exact ⟨hp, (h.announced pid hp).2.2⟩
  | command => exact h.move hinv hroomy rfl hsig rfl (fun _ _ => id) nofun
  | main => exact absurd rfl hmain
  | fork => exact h.move hinv hroomy rfl hsig rfl (fun _ _ => id) nofun
  | sigchld hidle =>
    refine h.move hinv hroomy rfl hsig ?_ nofun fun pid hp => ⟨hp, Handler.not_reaped_loop rfl pid⟩
    rw [hidle]
    rfl
  | waitpid => exact absurd rfl (hwait _)
  | report => exact absurd rfl hreport
  | sigreturn hloop =>
    refine h.move hinv hroomy rfl hsig ?_ nofun fun pid hp => ⟨hp, Handler.not_reaped_idle rfl pid⟩
    rw [hloop]
    rfl

/-- **Step lemma.** A step that is plain keeps the lines true. -/
theorem Truthful.next {g : History} (h : Truthful g s)
    (hfree : ∀ pid, a = .fork (some pid) → ∃ i, ¬ s.list.Occupied i) (hok : Plain s a)
    (hst : step s a = some s') : Truthful (g.next (s, a)) s' := by
  have hinv := h.inv.next hst
  have hroomy := h.roomy.next h.inv hfree hst
  cases a with
  | main =>
    obtain ⟨hidle, hmain⟩ := step_main_some hst
    exact h.main hidle hmain
  | waitpid pid =>
    have hsig := step_signals hst nofun
    obtain ⟨hloop, hpid, status, hrep, rfl⟩ := step_waitpid hst
    exact h.waitpid hloop hpid hrep (hok status hrep) hinv hroomy hsig
  | report => exact h.report hst hinv hroomy
  | _ => exact h.other hinv hroomy (step_moves hst) (step_signals hst nofun) nofun nofun nofun

/-- At first nothing is owed. -/
theorem Truthful.init (verbose : Bool) : Truthful ⟨fun _ => 0, []⟩ (Shell.init verbose) where
  inv := Shell.Inv.init verbose
  roomy := ⟨rfl, nofun⟩
  jids _ hi := absurd rfl hi
  got := nofun
  announced := nofun
  said := rfl

/-- **True lines.** In a run whose forks each happen with a slot free and whose steps are plain, the
line `eval` prints for a background job has the identifier that `addjob` gave to its process, and
the lines about jobs stopped or killed are those owed, one for each report collected and dealt with.
-/
theorem status_true (h : Run step (Shell.init verbose) tr s)
    (hfree : ∀ x ∈ tr, ∀ pid, x.2 = .fork (some pid) → ∃ i, ¬ x.1.list.Occupied i)
    (hok : ∀ x ∈ tr, Plain x.1 x.2) :
    (∀ cmdline pid s', s.pc = .print cmdline pid → step s .main = some s' →
      s'.out = s.out ++ [Line.status ((historyOf tr).assigned pid) pid cmdline]) ∧
    s.signals ++ (historyOf tr).due s.handler = (historyOf tr).owed := by
  have ht := h.invariant_of (C := fun s a =>
      (∀ pid, a = .fork (some pid) → ∃ i, ¬ s.list.Occupied i) ∧ Plain s a)
    (I := fun tr s => Truthful (historyOf tr) s) (Truthful.init verbose) (fun ht hc hst => by
      rw [historyOf, List.foldl_append]
      exact ht.next hc.1 hc.2 hst) fun x hx => ⟨hfree x hx, hok x hx⟩
  refine ⟨fun cmdline pid s' hpc hst => ?_, ht.said⟩
  obtain ⟨-, hmain⟩ := step_main_some hst
  obtain ⟨hpid, ⟨i, hi⟩, -⟩ := ht.announced pid (by rw [hpc]; rfl)
  simp only [Shell.mainStep, hpc, ht.pid2jid hpid hi, Option.some.injEq] at hmain
  subst hmain
  rfl

/-- A job in the background, whose line is printed next. -/
def announcedJob : List Act :=
  [.command ["ls", "&"] true "ls &\n", .main, .main, .fork (some 7), .main, .main]

/-- A job in the background is killed, and the line about it is owed. -/
theorem status_true_killed : ∃ tr s, Run step (Shell.init false) tr s ∧
    (historyOf tr).owed = ["Job [1] (7) terminated by signal 2 \n"] ∧
    s.signals ++ (historyOf tr).due s.handler = (historyOf tr).owed := by
  have he : exec step (Shell.init false) (announcedJob ++ [.main] ++ collected (.kill 2)) =
    some _ := rfl
  have hr := Run.start.exec he
  have hfree : ∀ x ∈ traceFrom step (Shell.init false)
      (announcedJob ++ [.main] ++ collected (.kill 2)), ¬ x.1.list.Occupied 15 := by decide +kernel
  exact ⟨_, _, hr, by decide +kernel,
    (status_true hr (fun x hx _ _ => ⟨15, hfree x hx⟩) (by decide +kernel)).2⟩

/-- A background job ends before its line is printed, with the identifier 0; a job killed by signal
9 is reported as terminated by signal 2. -/
theorem status_untrue :
    (∃ tr s s', Run step (Shell.init false) tr s ∧
      (∀ x ∈ tr, ∀ pid, x.2 = .fork (some pid) → ∃ i, ¬ x.1.list.Occupied i) ∧
      s.pc = .print "ls &\n" 7 ∧ step s .main = some s' ∧ (historyOf tr).assigned 7 = 1 ∧
      s'.out = s.out ++ [Line.status 0 7 "ls &\n"]) ∧
    ∃ tr s, Run step (Shell.init false) tr s ∧
      (∀ x ∈ tr, ∀ pid, x.2 = .fork (some pid) → ∃ i, ¬ x.1.list.Occupied i) ∧
      s.handler = .idle ∧ (historyOf tr).owed = ["Job [1] (7) terminated by signal 9 \n"] ∧
      s.signals = ["Job [1] (7) terminated by signal 2 \n"] := by
  refine ⟨?_, ?_⟩
  · have he : exec step (Shell.init false) (announcedJob ++ collected .exit) = some _ := rfl
    have hfree : ∀ x ∈ traceFrom step (Shell.init false) (announcedJob ++ collected .exit),
        ¬ x.1.list.Occupied 15 := by decide +kernel
    exact ⟨_, _, _, Run.start.exec he, fun x hx _ _ => ⟨15, hfree x hx⟩, rfl, rfl,
      by decide +kernel, rfl⟩
  · have he : exec step (Shell.init false) (announcedJob ++ [.main] ++ collected (.kill 9)) =
      some _ := rfl
    have hfree : ∀ x ∈ traceFrom step (Shell.init false)
        (announcedJob ++ [.main] ++ collected (.kill 9)), ¬ x.1.list.Occupied 15 := by
      decide +kernel
    exact ⟨_, _, Run.start.exec he, fun x hx _ _ => ⟨15, hfree x hx⟩, rfl, by decide +kernel,
      by decide +kernel⟩

end Tsh
