import Styrikerfi.Tsh.Properties

/-!
# Lookups that dereference `NULL`

`waitfg` and the branch of `sigchld_handler` for a stopped child look a job up and use it without a
check. The job is there unless

* a foreground child was refused by `addjob`, so that `waitfg` does not find it;
* the handler reaps the child a foreground command is about to look up, between the step that makes
  it possible (`SIGCHLD` is unblocked by `eval`, or a job is found by `fg`) and the lookup;
* a child that was refused by `addjob` stops, and the handler collects that.

In a run with no such step (`Undisturbed`) no lookup fails (`lookups_found`).
-/

namespace Tsh

variable {l : JobList} {i j : Fin maxjobs} {p pid jid : Int} {pc : Pc} {s s' : Shell} {a : Act}
  {verbose bg : Bool} {cmdline : String} {state : JobState} {tr : List (Shell × Act)}

/-- The process a foreground command has started or found, and is about to look up in `waitfg`. -/
def Shell.awaits (s : Shell) : Option Int :=
  match s.pc with
  | .unblock false _ pid | .waitfg pid => some pid
  | .readPid false job _ => some (s.list.jobs job).pid
  | .readJid false _ pid | .kill false _ _ pid | .setState false _ _ pid => some pid
  | _ => none

/-- The step takes no job away before it is looked up: a foreground child is added while a slot is
free, no child about to be looked up is reaped, and no stop is collected of a child that `addjob`
refused. -/
def Undisturbed (s : Shell) : Act → Prop
  | .main => ∀ cmdline pid, s.pc = .addjob false cmdline pid → ∃ i, ¬ s.list.Occupied i
  | .waitpid pid => ∀ status, (s.proc pid).report = some status →
      if status.terminated then s.awaits ≠ some pid else pid ∉ s.refused
  | _ => True

/-- `waitfg` has not found the job. -/
def Pc.missing : Pc → Bool
  | .wait _ none => true
  | _ => false

/-- The jobs about to be looked up are listed, and none was missing so far. -/
structure Shell.Found (s : Shell) : Prop where
  awaited : ∀ p, s.awaits = some p → 1 ≤ p ∧ (∃ i, (s.list.jobs i).pid = p) ∧ ¬ s.handler.Reaped p
  stopping : ∀ p sig, s.handler = .got p (.stopped sig) → 1 ≤ p ∧ ∃ i, (s.list.jobs i).pid = p
  blank : ∀ i, (s.list.jobs i).pid = 0 → (s.list.jobs i).jid = 0
  found : s.pc.missing = false
  ended : s.ended ≠ some (.nullDeref .waitfg) ∧ s.ended ≠ some (.nullDeref .sigchldHandler)

/-- The job found has the job ID. -/
theorem JobList.getjobjid_some (h : l.getjobjid jid = some i) : 1 ≤ jid ∧ (l.jobs i).jid = jid := by
  unfold JobList.getjobjid at h
  split at h
  · cases h
  · exact ⟨by omega, by simpa using JobList.find_some h⟩

/-- A process listed is found. -/
theorem JobList.getjobpid_ne_none (hpid : 1 ≤ pid) (hi : (l.jobs i).pid = pid) :
    l.getjobpid pid ≠ none := by
  unfold JobList.getjobpid
  rw [if_neg (by omega)]
  intro hnone
  have := JobList.find_none.1 hnone i
  simp [hi] at this

/-- A state that is set leaves the job IDs. -/
theorem JobList.setState_jid (l : JobList) (i : Fin maxjobs) (state : JobState)
    (j : Fin maxjobs) : ((l.setState i state).jobs j).jid = (l.jobs j).jid := by
  by_cases hji : j = i
  · subst hji
    simp [JobList.setState]
  · simp [JobList.setState, Function.update_of_ne hji]

/-- At first nothing is to be looked up. -/
theorem Shell.Found.init (verbose : Bool) : (Shell.init verbose).Found where
  awaited _ h := by cases h
  stopping _ _ h := by cases h
  blank _ _ := rfl
  found := rfl
  ended := ⟨nofun, nofun⟩

/-- A step that leaves the table and `main` where they are. -/
theorem Shell.Found.still (h : s.Found) (e : Still s s') : s'.Found where
  awaited := by
    have ha : s'.awaits = s.awaits := by rw [Shell.awaits, e.pc, e.list, Shell.awaits]
    rw [ha, e.list, e.handler]
    exact h.awaited
  stopping := by rw [e.list, e.handler]; exact h.stopping
  blank := by rw [e.list]; exact h.blank
  found := by rw [e.pc]; exact h.found
  ended := by
    obtain he | ⟨status, he⟩ := e.ended
    · rw [he]
      exact h.ended
    · rw [he]
      exact ⟨nofun, nofun⟩

/-- A step of `main` that does not change the table, to where the job it is about to look up, if
any, is listed. -/
theorem Shell.Found.goto (h : s.Found) (hidle : s.handler = .idle) (hpc : pc.missing = false)
    (ha : ∀ p, (s.goto pc).awaits = some p → 1 ≤ p ∧ ∃ i, (s.list.jobs i).pid = p) :
    (s.goto pc).Found where
  awaited p hp := ⟨(ha p hp).1, (ha p hp).2, Handler.not_reaped_idle hidle p⟩
  stopping := h.stopping
  blank := h.blank
  found := hpc
  ended := h.ended

/-- To where no job is about to be looked up. -/
theorem Shell.Found.gotoNone (h : s.Found) (hidle : s.handler = .idle) (hpc : pc.missing = false)
    (ha : (s.goto pc).awaits = none) : (s.goto pc).Found :=
  h.goto hidle hpc fun p hp => by rw [ha] at hp; cases hp

/-- Output takes no job away. -/
theorem Shell.Found.print (h : s.Found) (line : Line) : (s.print line).Found := { h with }

/-- A job is found, and is listed. -/
theorem Shell.Found.bgfg {isbg : Bool} (h : s.Found) (hinv : s.Inv) (hidle : s.handler = .idle)
    (hb : Bgfg s isbg s') : s'.Found := by
  cases hb with
  | complain => exact (h.print _).gotoNone hidle rfl rfl
  | @jid job jid hjob =>
    refine h.goto hidle rfl fun p hp => ?_
    cases isbg with
    | true => cases hp
    | false =>
      have ⟨hjid, heq⟩ := JobList.getjobjid_some hjob
      have hocc : s.list.Occupied job := fun hz => by
        have := h.blank job hz
        omega
      obtain rfl := Option.some.inj hp
      exact ⟨hinv.table.one_le hocc, job, rfl⟩
  | @pid job pid hjob =>
    refine h.goto hidle rfl fun p hp => ?_
    cases isbg with
    | true => cases hp
    | false =>
      obtain rfl := Option.some.inj hp
      have ⟨hpid, heq⟩ := JobList.getjobpid_some hjob
      exact ⟨hpid, job, heq⟩

/-- The step of `builtin_cmd`. -/
theorem Shell.Found.builtinCmd {argv : List String} (h : s.Found) (hinv : s.Inv)
    (hidle : s.handler = .idle) : (s.builtinCmd argv bg cmdline).Found := by
  have hb := s.builtinCmd_cases argv bg cmdline
  generalize s.builtinCmd argv bg cmdline = t at hb ⊢
  cases hb with
  | finish he => exact { h with ended := by rcases he with rfl | rfl <;> exact ⟨nofun, nofun⟩ }
  | jobs =>
    have hl : s.listjobs.Found := { h with }
    exact hl.gotoNone hidle rfl rfl
  | bgfg hb => exact h.bgfg hinv hidle hb
  | run => exact h.gotoNone hidle rfl rfl

/-- What `addjob` changes: the table, and else nothing that a lookup depends on. -/
theorem Shell.addjob_same (s : Shell) (bg : Bool) (cmdline : String) (hpid : 1 ≤ pid) :
    (s.addjob bg cmdline pid).list = (s.list.addjob pid (if bg then .bg else .fg) cmdline).2 ∧
      (s.addjob bg cmdline pid).handler = s.handler ∧ (s.addjob bg cmdline pid).ended = s.ended := by
  unfold Shell.addjob
  rw [if_neg (by omega)]
  generalize (if bg then JobState.bg else .fg) = state
  dsimp only
  split
  · exact ⟨rfl, rfl, rfl⟩
  · split
    · exact ⟨rfl, rfl, rfl⟩
    · exact ⟨rfl, rfl, rfl⟩

/-- A child added is listed; a foreground child is added while a slot is free. -/
theorem Shell.Found.addjob (h : s.Found) (hinv : s.Inv) (hidle : s.handler = .idle)
    (hpc : s.pc = .addjob bg cmdline pid) (hfree : bg = false → ∃ i, ¬ s.list.Occupied i) :
    ((s.addjob bg cmdline pid).goto (.unblock bg cmdline pid)).Found := by
  have hpid := hinv.table.pos pid (hinv.adding pid (by rw [hpc]; rfl)).1
  have ⟨hlist, hhandler, hended⟩ := s.addjob_same bg cmdline hpid
  have hgone := Handler.not_reaped_idle (hhandler.trans hidle)
  have hstop : ∀ p sig, (s.addjob bg cmdline pid).handler ≠ .got p (.stopped sig) := by
    intro p sig hg
    rw [hhandler, hidle] at hg
    cases hg
  obtain ⟨i, n, hi, heq⟩ | ⟨hfull, heq⟩ :=
    s.list.addjob_cases hpid (if bg then .bg else .fg) cmdline
  · rw [heq] at hlist
    refine ⟨fun p hp => ?_, fun p sig hg => absurd hg (hstop p sig), fun j hj => ?_, rfl,
      hended ▸ h.ended⟩
    · cases bg with
      | true => cases hp
      | false =>
        obtain rfl := Option.some.inj hp
        refine ⟨hpid, ⟨i, ?_⟩, hgone _⟩
        simp [Shell.goto, hlist]
    · simp only [Shell.goto, hlist] at hj ⊢
      by_cases hji : j = i
      · subst hji
        rw [Function.update_self] at hj
        exact absurd hpid (by dsimp only at hj; omega)
      · rw [Function.update_of_ne hji] at hj ⊢
        exact h.blank j hj
  · rw [heq] at hlist
    refine ⟨fun p hp => ?_, fun p sig hg => absurd hg (hstop p sig), fun j hj => ?_, rfl,
      hended ▸ h.ended⟩
    · cases bg with
      | true => cases hp
      | false =>
        obtain ⟨k, hk⟩ := hfree rfl
        exact absurd (hfull k) hk
    · simp only [Shell.goto, hlist] at hj ⊢
      exact h.blank j hj

/-- A job's state is written. -/
theorem Shell.Found.setState (h : s.Found) (job : Fin maxjobs) (state : JobState) :
    ({ s with list := s.list.setState job state } : Shell).Found where
  awaited p hp := by
    have ha : ({ s with list := s.list.setState job state } : Shell).awaits = s.awaits := by
      unfold Shell.awaits
      simp only [JobList.setState_pid]
    rw [ha] at hp
    simp only [JobList.setState_pid]
    exact h.awaited p hp
  stopping := by
    simp only [JobList.setState_pid]
    exact h.stopping
  blank := by
    simp only [JobList.setState_pid, JobList.setState_jid]
    exact h.blank
  found := h.found
  ended := h.ended

/-- A step of `main` finds what it looks up. -/
theorem Shell.Found.main (h : s.Found) (hinv : s.Inv) (hidle : s.handler = .idle)
    (hok : Undisturbed s .main) (hst : s.mainStep = some s') : s'.Found := by
  have hawait : ∀ q, s.awaits = some q → 1 ≤ q ∧ ∃ i, (s.list.jobs i).pid = q :=
    fun q hq => ⟨(h.awaited q hq).1, (h.awaited q hq).2.1⟩
  unfold Shell.awaits at hawait
  cases Shell.mainStep_moves hst with
  | builtinCmd => exact h.builtinCmd hinv hidle
  | block =>
    have hb : ({ s with blocked := true } : Shell).Found := { h with }
    exact hb.gotoNone hidle rfl rfl
  | @addjob bg cmdline pid hpc =>
    exact h.addjob hinv hidle hpc fun hbg => hok cmdline pid (hbg ▸ hpc)
  | unblockBg =>
    have hb : ({ s with blocked := false } : Shell).Found := { h with }
    exact hb.gotoNone hidle rfl rfl
  | unblockFg hpc =>
    have hb : ({ s with blocked := false } : Shell).Found := { h with }
    rw [hpc] at hawait
    exact hb.goto hidle rfl hawait
  | print | status => exact (h.print _).gotoNone hidle rfl rfl
  | @readPid isbg _ _ hpc | @readJid isbg _ _ hpc =>
    rw [hpc] at hawait
    refine h.goto hidle rfl ?_
    cases isbg with
    | true => exact fun p hp => by cases hp
    | false => exact hawait
  | @kill isbg _ _ pid hpc =>
    rw [hpc] at hawait
    have hk : (s.kill pid .cont).Found := { h with }
    refine hk.goto hidle rfl ?_
    cases isbg with
    | true => exact fun p hp => by cases hp
    | false => exact hawait
  | @setBg job => exact (h.setState job .bg).gotoNone hidle rfl rfl
  | @setFg job _ _ hpc =>
    rw [hpc] at hawait
    refine (h.setState job .fg).goto hidle rfl ?_
    simp only [JobList.setState_pid]
    exact hawait
  | @waitfg pid hpc =>
    rw [hpc] at hawait
    obtain ⟨hpid, i, hi⟩ := hawait pid rfl
    refine h.gotoNone hidle ?_ rfl
    cases hjob : s.list.getjobpid pid with
    | none => exact absurd hjob (JobList.getjobpid_ne_none hpid hi)
    | some job => rfl
  | lost hpc =>
    have hfound := h.found
    rw [hpc] at hfound
    cases hfound
  | sleep => exact h
  | wake => exact h.gotoNone hidle rfl rfl

/-- Where the handler is matters to what it is about to look up. -/
theorem Shell.Found.handler (h : s.Found) {h' : Handler}
    (hr : ∀ p, s.awaits = some p → ¬ h'.Reaped p)
    (hs : ∀ p sig, h' = .got p (.stopped sig) → 1 ≤ p ∧ ∃ i, (s.list.jobs i).pid = p) :
    ({ s with handler := h' } : Shell).Found where
  awaited p hp := ⟨(h.awaited p hp).1, (h.awaited p hp).2.1, hr p hp⟩
  stopping := hs
  blank := h.blank
  found := h.found
  ended := h.ended

/-- The report collected is not the end of a child about to be looked up; a child that has stopped
is listed. -/
theorem Shell.Found.waitpid {status : Report} (h : s.Found) (hinv : s.Inv)
    (hloop : s.handler = .loop) (hpid : pid ∈ s.kids)
    (hok : if status.terminated then s.awaits ≠ some pid else pid ∉ s.refused) :
    (s.waitpid pid status).Found := by
  have hreap : status.terminated = true →
      ({ s with handler := .got pid status } : Shell).Found := by
    intro hst
    rw [if_pos hst] at hok
    refine h.handler (fun p hp => ?_) fun p sig hg => ?_
    · rintro ⟨status', hg, -⟩
      cases hg
      exact hok hp
    · cases hg
      cases hst
  cases status with
  | stopped sig =>
    have hs : ({ s with handler := .got pid (.stopped sig) } : Shell).Found := by
      refine h.handler (fun p _ => ?_) fun p sig' hg => ?_
      · rintro ⟨status', hg, hst⟩
        cases hg
        cases hst
      · cases hg
        refine ⟨hinv.table.pos pid hpid, ?_⟩
        rcases hinv.accounted pid hpid with hi | hr | ha
        · exact hi
        · exact absurd hr hok
        · rw [hinv.not_adding (by rw [hloop]; nofun)] at ha
          cases ha
    exact { hs with }
  | exited => exact { hreap rfl with }
  | signaled sig => exact { hreap rfl with }

/-- The job a foreground command is about to look up is not the one deleted. -/
theorem Shell.Found.delete {status : Report} (h : s.Found) (hinv : s.Inv)
    (hgot : s.handler = .got pid status) (hst : status.terminated = true) :
    ({ s with list := (s.list.deletejob pid).2, handler := .loop } : Shell).Found := by
  have hkeep : ∀ {i}, (s.list.jobs i).pid ≠ pid →
      (s.list.deletejob pid).2.jobs i = s.list.jobs i := fun hne => by
    rw [hinv.table.deletejob_pid, if_neg fun hpid => hne hpid.2]
  have hne : ∀ p, s.awaits = some p → p ≠ pid := by
    rintro p hp rfl
    exact (h.awaited p hp).2.2 ⟨status, hgot, hst⟩
  -- the slot `fg` has found by its job ID keeps its process until that is read
  have ha : ({ s with list := (s.list.deletejob pid).2, handler := .loop } : Shell).awaits =
      s.awaits := by
    unfold Shell.awaits at hne ⊢
    dsimp only
    cases hpc : s.pc with
    | readPid isbg job jid =>
      cases isbg with
      | true => rfl
      | false =>
        rw [hpc] at hne
        dsimp only
        rw [hkeep (hne _ rfl)]
    | unblock isbg | readJid isbg | kill isbg | setState isbg => cases isbg <;> rfl
    | _ => rfl
  refine ⟨fun p hp => ?_, nofun, fun i hi => ?_, h.found, h.ended⟩
  · rw [ha] at hp
    obtain ⟨hp1, ⟨i, hi⟩, -⟩ := h.awaited p hp
    refine ⟨hp1, ⟨i, ?_⟩, Handler.not_reaped_loop rfl p⟩
    have hii : (s.list.jobs i).pid ≠ pid := hi ▸ hne p hp
    dsimp only
    rw [hkeep hii, hi]
  · dsimp only at hi ⊢
    rw [hinv.table.deletejob_pid] at hi ⊢
    split at hi
    · next hif => rw [if_pos hif]; rfl
    · next hif => rw [if_neg hif]; exact h.blank i hi

/-- The job of a stopped child is found. -/
theorem Shell.Found.report {status : Report} (h : s.Found) (hinv : s.Inv)
    (hgot : s.handler = .got pid status) : (s.report pid status).Found := by
  cases status with
  | exited => exact h.delete hinv hgot rfl
  | signaled sig => exact (h.delete hinv hgot rfl).print _
  | stopped sig =>
    obtain ⟨hpid, i, hi⟩ := h.stopping pid sig hgot
    unfold Shell.report
    dsimp only
    split
    · next hnone => exact absurd hnone (JobList.getjobpid_ne_none hpid hi)
    · next job hjob =>
      have hset : ({ s with list := s.list.setState job .st, handler := .loop } : Shell).Found :=
        (h.setState job .st).handler (fun p _ => Handler.not_reaped_loop rfl p) nofun
      exact hset.print _

/-- **Step lemma.** -/
theorem Shell.Found.next (h : s.Found) (hinv : s.Inv) (hok : Undisturbed s a)
    (hst : step s a = some s') : s'.Found := by
  cases step_moves hst with
  | still e => exact h.still e
  | command hidle => exact h.gotoNone hidle rfl rfl
  | main hidle hst => exact h.main hinv hidle hok hst
  | @fork pid bg cmdline hidle =>
    have hk : ({ s with kids := pid :: s.kids,
                        proc := Function.update s.proc pid .running } : Shell).Found := { h with }
    exact hk.gotoNone hidle rfl rfl
  | sigchld => exact h.handler (fun p _ => Handler.not_reaped_loop rfl p) nofun
  | waitpid hloop hpid hr => exact h.waitpid hinv hloop hpid (hok _ hr)
  | report hgot => exact h.report hinv hgot
  | sigreturn => exact h.handler (fun p _ => Handler.not_reaped_idle rfl p) nofun

/-- **Lookups.** In a run whose steps take no job away before it is looked up, neither `waitfg` nor
the handler dereferences `NULL`. -/
theorem lookups_found (h : Run step (Shell.init verbose) tr s)
    (hok : ∀ x ∈ tr, Undisturbed x.1 x.2) :
    (∀ p, s.pc ≠ .wait p none) ∧
    (∀ p sig, s.handler = .got p (.stopped sig) → s.list.getjobpid p ≠ none) ∧
    s.ended ≠ some (.nullDeref .waitfg) ∧ s.ended ≠ some (.nullDeref .sigchldHandler) := by
  have ⟨hinv, hf⟩ := h.invariant_of (C := Undisturbed) (I := fun _ s => s.Inv ∧ s.Found)
    ⟨Shell.Inv.init verbose, Shell.Found.init verbose⟩
    (fun hi hc hst => ⟨hi.1.next hst, hi.2.next hi.1 hc hst⟩) hok
  refine ⟨fun p hpc => ?_, fun p sig hg => ?_, hf.ended⟩
  · have hfound := hf.found
    rw [hpc] at hfound
    cases hfound
  · obtain ⟨hp, i, hi⟩ := hf.stopping p sig hg
    exact JobList.getjobpid_ne_none hp hi

/-- Without reports collected, a free slot is enough. -/
theorem Undisturbed.of_free (hi : ¬ s.list.Occupied i) (ha : ∀ pid, a ≠ .waitpid pid) :
    Undisturbed s a := by
  cases a with
  | main => exact fun _ _ _ => ⟨i, hi⟩
  | waitpid pid => exact absurd rfl (ha pid)
  | _ => trivial

/-- A foreground command that `waitfg` has found. -/
theorem lookups_found_foreground : ∃ tr s, Run step (Shell.init false) tr s ∧
    s.pc = .wait 7 (some 0) ∧ s.ended ≠ some (.nullDeref .waitfg) := by
  have he : exec step (Shell.init false) (foregroundCommand ++ [.main]) = some _ := rfl
  have hr := Run.start.exec he
  refine ⟨_, _, hr, rfl, (lookups_found hr ?_).2.2.1⟩
  have hfree : ∀ x ∈ traceFrom step (Shell.init false) (foregroundCommand ++ [.main]),
      ¬ x.1.list.Occupied 15 ∧ x.2 ∈ foregroundCommand := by decide +kernel
  refine fun x hx => .of_free (hfree x hx).1 fun pid hpid => ?_
  have := (hfree x hx).2
  simp [hpid, foregroundCommand] at this

/-- The child changes, and the handler collects it. -/
def collected (change : Change) : List Act :=
  [.child 7 change, .sigchld, .waitpid 7, .report, .sigreturn]

/-- The foreground child exits and is reaped before `waitfg` has looked it up. -/
def earlyExit : List Act :=
  foregroundCommand ++ [.child 7 .exit, .sigchld, .waitpid 7, .report, .sigreturn, .main, .main]

/-- `n` commands in the background; the child of the last one stops. -/
def manyCommands (n : Nat) : List Act :=
  (List.range n).flatMap (fun k => [.command ["ls", "&"] true "ls &\n", .main, .main,
    .fork (some (k + 1)), .main, .main, .main]) ++
    [.child n (.stop 20), .sigchld, .waitpid n, .report]

/-- Either lookup can fail, and then `NULL` is dereferenced. -/
theorem lookups_fail :
    (∃ s, Reachable step (Shell.init false) s ∧ s.ended = some (.nullDeref .waitfg)) ∧
    ∃ s, Reachable step (Shell.init false) s ∧ s.ended = some (.nullDeref .sigchldHandler) := by
  have he : exec step (Shell.init false) earlyExit = some _ := rfl
  have hm : exec step (Shell.init false) (manyCommands 17) = some _ := rfl
  exact ⟨⟨_, Reachable.start.exec he, rfl⟩, _, Reachable.start.exec hm, rfl⟩

end Tsh
