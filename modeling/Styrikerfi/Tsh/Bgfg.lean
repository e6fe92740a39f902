import Styrikerfi.Tsh.Lookups

/-!
# `fg`, `bg` and the changes of their job

`do_bgfg` looks a job up, sends `SIGCONT` to its process, writes the new state to the slot it has
found, and returns or waits. `SIGCHLD` is not blocked meanwhile, so the handler may run between any
two of these steps. Two changes of the job are lost that way (`bgfg_loses`):

* its process has terminated and the handler has deleted the job: the state is written to a slot
  that lists nothing;
* its process has stopped again after `SIGCONT` and the handler has written `ST`: that is
  overwritten, and `waitfg` waits for a process that is stopped.

In a command that is spared these (`Spares`) the invariant `Resuming` holds after each of its steps,
so neither change is lost (`bgfg_keeps`): where a third step, the end of a process already stopped
between the write and the lookup of `waitfg`, is excluded as well, `waitfg` returns.
-/

namespace Tsh

variable {l l' : JobList} {i j : Fin maxjobs} {p q pid jid : Int} {pc pc' : Pc} {h' : Handler}
  {s s' s₀ b : Shell} {a : Act} {isbg verbose : Bool} {R R' : Prop} {status : Report}
  {tr : List (Shell × Act)}

/-! ## The steps of `do_bgfg` -/

/-- `do_bgfg` has found a job. -/
def Pc.job : Pc → Option (Bool × Fin maxjobs)
  | .readPid isbg job _ | .readJid isbg job _ => some (isbg, job)
  | _ => none

/-- The state is still to be written. -/
def Pc.pending : Pc → Bool
  | .readPid _ _ _ | .readJid _ _ _ | .kill _ _ _ _ | .setState _ _ _ _ => true
  | _ => false

/-- The state is written next. -/
def Pc.writing : Pc → Bool
  | .setState _ _ _ _ => true
  | _ => false

/-- `waitfg` looks its job up next. -/
def Pc.looking : Pc → Bool
  | .waitfg _ => true
  | _ => false

/-- `SIGCONT` has been sent, and `do_bgfg` has not returned. -/
def Pc.resumed : Pc → Bool
  | .setState _ _ _ _ | .status _ _ _ | .waitfg _ | .wait _ _ => true
  | _ => false

/-- The handler records that the process has stopped, after `SIGCONT`. -/
def Records (p : Int) (s : Shell) (a : Act) : Prop :=
  s.pc.resumed = true ∧ a = .report ∧ ∃ sig, s.handler = .got p (.stopped sig)

instance (p : Int) : (h : Handler) → Decidable (∃ sig, h = .got p (.stopped sig))
  | .got q (.stopped sig) =>
    decidable_of_iff (q = p) ⟨fun hq => ⟨sig, hq ▸ rfl⟩, fun ⟨_, hg⟩ => by cases hg; rfl⟩
  | .got _ .exited | .got _ (.signaled _) | .idle | .loop => isFalse nofun

instance (p : Int) (s : Shell) (a : Act) : Decidable (Records p s a) :=
  inferInstanceAs (Decidable (_ ∧ _ ∧ _))

/-- The step takes nothing away from `do_bgfg` at work on the job of the process `p` in slot `i`:
`waitpid` returns neither the end of the process before the state is written, nor its stop between
`SIGCONT` and the write, nor the end of the stopped process before `waitfg` has looked it up, nor
the stop of a child that `addjob` refused. -/
def Spares (i : Fin maxjobs) (p : Int) (s : Shell) : Act → Prop
  | .waitpid q => ∀ status ∈ (s.proc q).report,
      if status.terminated then
        q = p → s.pc.pending = false ∧ (s.pc.looking = true → (s.list.jobs i).state ≠ .st)
      else q ∉ s.refused ∧ (q = p → s.pc.writing = false)
  | _ => True

instance (i : Fin maxjobs) (p : Int) (s : Shell) : (a : Act) → Decidable (Spares i p s a)
  | .waitpid q => inferInstanceAs (Decidable (∀ status ∈ (s.proc q).report, _))
  | .command _ _ _ | .eof | .fgetsError | .main | .fork _ | .sigchld | .report | .sigreturn
  | .sigint | .sigtstp | .sigquit | .child _ _ => isTrue trivial

/-- Where `do_bgfg` is with the job; `R` when a stop has been recorded. -/
def Working (isbg : Bool) (i : Fin maxjobs) (p : Int) (R : Prop) (l : JobList) (h : Handler) :
    Pc → Prop
  | .readPid b j _ => b = isbg ∧ j = i ∧ ¬ R
  | .readJid b j q | .kill b j _ q | .setState b j _ q => b = isbg ∧ j = i ∧ q = p ∧ ¬ R
  | .status _ _ _ => isbg = true
  | .waitfg q => isbg = false ∧ q = p ∧ (R → (l.jobs i).pid = p ∧ ¬ h.Reaped p)
  | .wait _ job => isbg = false ∧ (job = some i ∨ job = none ∧ ¬ R ∧ ∀ j, (l.jobs j).pid ≠ p)
  | .prompt => True
  | _ => False

/-- The invariant of a command that is spared. -/
structure Resuming (isbg : Bool) (i : Fin maxjobs) (p : Int) (R : Prop) (s : Shell) : Prop where
  inv : s.Inv
  pos : 1 ≤ p
  working : Working isbg i p R s.list s.handler s.pc
  only : ∀ k, (s.list.jobs k).pid = p → k = i
  slot : (s.list.jobs i).pid = p ∨ s.list.jobs i = clearjob
  held : s.pc.pending = true → (s.list.jobs i).pid = p ∧ ¬ s.handler.Reaped p
  writing : s.pc.writing = true → ∀ sig, s.handler ≠ .got p (.stopped sig)
  kept : R → (s.list.jobs i).pid = p → (s.list.jobs i).state = .st
  stopping : ∀ q sig, s.handler = .got q (.stopped sig) → 1 ≤ q ∧ ∃ j, (s.list.jobs j).pid = q
  ended : R → s.ended = none ∨ ∃ status, s.ended = some (.exit status)

/-- Equivalent records serve as well. -/
theorem Resuming.congr (h : Resuming isbg i p R s) (hR : R' ↔ R) : Resuming isbg i p R' s := by
  rwa [propext hR]

/-- Only a report is recorded. -/
theorem Records.iff_of_ne (ha : a ≠ .report) : R ∨ Records p s a ↔ R :=
  or_iff_left fun h => ha h.2.1

/-! ## Its steps -/

/-- A step of `main` that leaves the table as it is. -/
theorem Resuming.goto (h : Resuming isbg i p R s) (hidle : s.handler = .idle)
    (hend : s.ended = none) (hinv : (s.goto pc).Inv)
    (hpend : pc.pending = false ∨ s.pc.pending = true)
    (hw : Working isbg i p R s.list s.handler pc) : Resuming isbg i p R (s.goto pc) where
  inv := hinv
  pos := h.pos
  working := hw
  only := h.only
  slot := h.slot
  held hp := h.held (hpend.resolve_left ((Bool.not_eq_false _).mpr hp))
  writing _ _ hg := nomatch hidle.symm.trans hg
  kept := h.kept
  stopping := h.stopping
  ended _ := .inl hend

/-- The state is written to the job that was found. -/
theorem Resuming.setState (h : Resuming isbg i p R s) (hidle : s.handler = .idle)
    (hend : s.ended = none) (hR : ¬ R) (hheld : (s.list.jobs i).pid = p) (state : JobState)
    (hinv : ({ s with list := s.list.setState i state }.goto pc).Inv) (hpend : pc.pending = false)
    (hw : Working isbg i p R (s.list.setState i state) s.handler pc) :
    Resuming isbg i p R ({ s with list := s.list.setState i state }.goto pc) where
  inv := hinv
  pos := h.pos
  working := hw
  only k hk := h.only k ((s.list.setState_pid i state k).symm.trans hk)
  slot := .inl ((s.list.setState_pid i state i).trans hheld)
  held hp := nomatch hpend.symm.trans hp
  writing _ _ hg := nomatch hidle.symm.trans hg
  kept hr := absurd hr hR
  stopping _ _ hg := nomatch hidle.symm.trans hg
  ended _ := .inl hend

/-- A step of `main`. -/
theorem Resuming.main (h : Resuming isbg i p R s) (hidle : s.handler = .idle)
    (hend : s.ended = none) (hst : s.mainStep = some s') : Resuming isbg i p R s' := by
  have hinv := h.inv.main hidle hst
  have hwork : ∀ pc, s.pc = pc → Working isbg i p R s.list s.handler pc :=
    fun _ hpc => hpc ▸ h.working
  cases Shell.mainStep_moves hst with
  | @readPid b j jid hpc =>
    obtain ⟨rfl, rfl, hR⟩ := hwork _ hpc
    have hi := (h.held (by rw [hpc]; rfl)).1
    exact h.goto hidle hend hinv (.inr (by rw [hpc]; rfl)) ⟨rfl, rfl, hi, hR⟩
  | readJid hpc =>
    have hw := hwork _ hpc
    exact h.goto hidle hend hinv (.inr (by rw [hpc]; rfl)) hw
  | @kill b j jid q hpc =>
    have hw := hwork _ hpc
    have hk : Resuming isbg i p R (s.kill q .cont) := { h with inv := h.inv.kill q .cont }
    have hpend : (s.kill q .cont).pc.pending = true := by
      rw [show (s.kill q .cont).pc = _ from hpc]
      rfl
    exact hk.goto hidle hend hinv (.inr hpend) hw
  | setBg hpc =>
    obtain ⟨hb, rfl, rfl, hR⟩ := hwork _ hpc
    have hi := (h.held (by rw [hpc]; rfl)).1
    exact h.setState hidle hend hR hi .bg hinv rfl hb.symm
  | setFg hpc =>
    obtain ⟨hb, rfl, rfl, hR⟩ := hwork _ hpc
    have hi := (h.held (by rw [hpc]; rfl)).1
    exact h.setState hidle hend hR hi .fg hinv rfl ⟨hb.symm, rfl, fun hr => absurd hr hR⟩
  | @status j jid q =>
    have hp : Resuming isbg i p R (s.print (.status jid q (s.list.jobs j).cmdline)) :=
      { h with inv := h.inv.print _ }
    exact hp.goto hidle hend hinv (.inl rfl) trivial
  | @waitfg q hpc =>
    obtain ⟨hbg, rfl, hlist⟩ := hwork _ hpc
    refine h.goto hidle hend hinv (.inl rfl) ⟨hbg, ?_⟩
    cases hjob : s.list.getjobpid q with
    | some j => exact .inl (congrArg some (h.only j (JobList.getjobpid_some hjob).2))
    | none =>
      have hno : ∀ k, (s.list.jobs k).pid ≠ q := fun k hk =>
        JobList.getjobpid_ne_none h.pos hk hjob
      exact .inr ⟨rfl, fun hr => hno i (hlist hr).1, hno⟩
  | lost hpc =>
    obtain ⟨-, hjob | ⟨-, hR, -⟩⟩ := hwork _ hpc
    · cases hjob
    · exact { h with inv := h.inv.finish _, ended := fun hr => absurd hr hR }
  | sleep => exact h
  | wake => exact h.goto hidle hend hinv (.inl rfl) trivial
  | builtinCmd hpc | block hpc | addjob hpc | unblockBg hpc | unblockFg hpc | print hpc =>
    exact (hwork _ hpc).elim

/-! ## The handler -/

/-- A foreground command whose stop has been recorded finds its job. -/
theorem Working.listed (hw : Working isbg i p R l h' pc) (hlook : pc.looking = true) (hr : R) :
    (l.jobs i).pid = p ∧ ¬ h'.Reaped p := by
  cases pc with
  | waitfg q => exact hw.2.2 hr
  | _ => cases hlook

/-- What a step of the handler leaves of it. -/
theorem Working.next {h'' : Handler} (hw : Working isbg i p R l h' pc)
    (hpid : ∀ k, (l'.jobs k).pid = p → (l.jobs k).pid = p)
    (hR : R' → R ∨ pc.resumed = true ∧ pc.writing = false ∧ (l'.jobs i).pid = p)
    (hlook : pc.looking = true → R' → (l'.jobs i).pid = p ∧ ¬ h''.Reaped p) :
    Working isbg i p R' l' h'' pc := by
  cases pc with
  | readPid b j jid =>
    obtain ⟨hb, hj, hn⟩ := hw
    exact ⟨hb, hj, fun hr => (hR hr).elim hn fun hres => nomatch hres.1⟩
  | readJid b j q | kill b j jid q =>
    obtain ⟨hb, hj, hq, hn⟩ := hw
    exact ⟨hb, hj, hq, fun hr => (hR hr).elim hn fun hres => nomatch hres.1⟩
  | setState b j jid q =>
    obtain ⟨hb, hj, hq, hn⟩ := hw
    exact ⟨hb, hj, hq, fun hr => (hR hr).elim hn fun hres => nomatch hres.2.1⟩
  | waitfg q => exact ⟨hw.1, hw.2.1, hlook rfl⟩
  | wait q job =>
    obtain ⟨hb, hj | ⟨hj, hn, hno⟩⟩ := hw
    · exact ⟨hb, .inl hj⟩
    · refine ⟨hb, .inr ⟨hj, fun hr => ?_, fun k hk => hno k (hpid k hk)⟩⟩
      exact (hR hr).elim hn fun hres => hno i (hpid i hres.2.2)
  | _ => exact hw

/-- The handler is somewhere else, and the table is the same. -/
theorem Resuming.handler (h : Resuming isbg i p R s) (hinv : s'.Inv) (hl : s'.list = s.list)
    (hpc : s'.pc = s.pc) (hend : s'.ended = none)
    (hr : s.pc.pending = true ∨ s.pc.looking = true ∧ R → ¬ s'.handler.Reaped p)
    (hw : s.pc.writing = true → ∀ sig, s'.handler ≠ .got p (.stopped sig))
    (hs : ∀ q sig, s'.handler = .got q (.stopped sig) → 1 ≤ q ∧ ∃ j, (s.list.jobs j).pid = q) :
    Resuming isbg i p R s' where
  inv := hinv
  pos := h.pos
  working := by
    rw [hl, hpc]
    exact h.working.next (fun _ hk => hk) .inl fun hlook hR =>
      ⟨(h.working.listed hlook hR).1, hr (.inr ⟨hlook, hR⟩)⟩
  only := by rw [hl]; exact h.only
  slot := by rw [hl]; exact h.slot
  held := by
    rw [hl, hpc]
    exact fun hp => ⟨(h.held hp).1, hr (.inl hp)⟩
  writing := by rw [hpc]; exact hw
  kept := by rw [hl]; exact h.kept
  stopping := by rw [hl]; exact hs
  ended _ := .inl hend

/-- A report is collected that spares the command. -/
theorem Resuming.waitpid (h : Resuming isbg i p R s) (hloop : s.handler = .loop)
    (hend : s.ended = none) (hq : q ∈ s.kids) (hinv : (s.waitpid q status).Inv)
    (hok : if status.terminated then
        q = p → s.pc.pending = false ∧ (s.pc.looking = true → (s.list.jobs i).state ≠ .st)
      else q ∉ s.refused ∧ (q = p → s.pc.writing = false)) :
    Resuming isbg i p R (s.waitpid q status) := by
  obtain ⟨hl, hpc, hh, he⟩ := s.waitpid_same q status
  refine h.handler hinv hl hpc (he.trans hend) ?_ ?_ ?_
  · rw [hh]
    rintro hwork ⟨status', hgot, hterm⟩
    cases hgot
    rw [if_pos hterm] at hok
    obtain ⟨hpend, hst⟩ := hok rfl
    rcases hwork with hp | ⟨hlook, hR⟩
    · exact nomatch hpend.symm.trans hp
    · exact hst hlook (h.kept hR (h.working.listed hlook hR).1)
  · rw [hh]
    rintro hw sig hgot
    cases hgot
    exact nomatch (hok.2 rfl).symm.trans hw
  · rw [hh]
    rintro q' sig hgot
    cases hgot
    refine ⟨h.inv.table.pos q hq, ?_⟩
    rcases h.inv.accounted q hq with hj | hr | ha
    · exact hj
    · exact absurd hr hok.1
    · rw [h.inv.not_adding (by rw [hloop]; nofun)] at ha
      cases ha

/-- The job of a child that has ended is deleted. -/
theorem Resuming.delete (h : Resuming isbg i p R s) (hgot : s.handler = .got q status)
    (hterm : status.terminated = true) (hinv : s'.Inv) (hl : s'.list = (s.list.deletejob q).2)
    (hpc : s'.pc = s.pc) (hh : s'.handler = .loop) (hend : s'.ended = none) :
    Resuming isbg i p R s' := by
  have hp := h.pos
  have hjobs : ∀ k, s'.list.jobs k = s.list.jobs k ∨ s'.list.jobs k = clearjob := fun k => by
    rw [hl, h.inv.table.deletejob_pid]
    split
    · exact .inr rfl
    · exact .inl rfl
  have hsame : ∀ {k}, (s'.list.jobs k).pid = p → s'.list.jobs k = s.list.jobs k := fun {k} hk => by
    refine (hjobs k).resolve_right fun hc => ?_
    rw [hc] at hk
    exact absurd hp (by rw [← hk]; decide)
  -- the process at work is not the one that has ended while its job must stay
  have hstay : (s.list.jobs i).pid = p → ¬ s.handler.Reaped p → (s'.list.jobs i).pid = p := by
    intro hi hr
    have hqp : q ≠ p := fun hqp => hr ⟨status, by rw [hgot, hqp], hterm⟩
    rw [hl, h.inv.table.deletejob_pid, if_neg fun hc => hqp (hc.2.symm.trans hi)]
    exact hi
  refine ⟨hinv, hp, ?_, fun k hk => ?_, ?_, fun hpend => ?_, fun _ sig hg => ?_, fun hR hi => ?_,
    fun q' sig hg => ?_, fun _ => .inl hend⟩
  · rw [hpc, hh]
    refine h.working.next (fun k hk => by rwa [← hsame hk]) .inl fun hlook hR => ?_
    obtain ⟨hi, hr⟩ := h.working.listed hlook hR
    exact ⟨hstay hi hr, Handler.not_reaped_loop rfl p⟩
  · exact h.only k (by rwa [← hsame hk])
  · rcases hjobs i with hi | hi
    · rw [hi]
      exact h.slot
    · exact .inr hi
  · rw [hpc] at hpend
    obtain ⟨hi, hr⟩ := h.held hpend
    exact ⟨hstay hi hr, Handler.not_reaped_loop hh p⟩
  · exact nomatch hh.symm.trans hg
  · have hs := hsame hi
    rw [hs] at hi ⊢
    exact h.kept hR hi
  · exact nomatch hh.symm.trans hg

/-- The job of a child that has stopped is found, and a stop of the process at work is recorded. -/
theorem Resuming.stop {sig : Nat} (h : Resuming isbg i p R s)
    (hgot : s.handler = .got q (.stopped sig)) (hend : s.ended = none)
    (hinv : (s.report q (.stopped sig)).Inv) :
    Resuming isbg i p (R ∨ Records p s .report) (s.report q (.stopped sig)) := by
  obtain ⟨hq, j₀, hj₀⟩ := h.stopping q sig hgot
  obtain ⟨j, hjob⟩ := Option.ne_none_iff_exists'.1 (JobList.getjobpid_ne_none hq hj₀)
  have hj := (JobList.getjobpid_some hjob).2
  have hrep : s.report q (.stopped sig) = { s.print (.stopped (s.list.jobs j).jid q) with
      list := s.list.setState j .st, handler := .loop } := by
    simp only [Shell.report, hjob]
  rw [hrep] at hinv ⊢
  have hnew : Records p s .report → s.pc.writing = false ∧ j = i := by
    rintro ⟨-, -, sig', hg⟩
    cases hgot.symm.trans hg
    exact ⟨Bool.eq_false_iff.2 fun hw => h.writing hw sig hgot, h.only j hj⟩
  have hpid : ∀ k, ((s.list.setState j .st).jobs k).pid = (s.list.jobs k).pid := fun k =>
    s.list.setState_pid j .st k
  refine ⟨hinv, h.pos, ?_, fun k hk => h.only k (by rwa [← hpid]), ?_, fun hp => ?_, nofun,
    fun hR hi => ?_, nofun, fun _ => .inl hend⟩
  · refine h.working.next (fun k hk => by rwa [← hpid]) (fun hR => hR.imp_right fun hr => ?_)
      fun hlook hR => ⟨?_, Handler.not_reaped_loop rfl p⟩
    · obtain ⟨hw, rfl⟩ := hnew hr
      cases hgot.symm.trans hr.2.2.choose_spec
      exact ⟨hr.1, hw, (hpid j).trans hj⟩
    · rcases hR with hR | hr
      · exact (hpid i).trans (h.working.listed hlook hR).1
      · obtain ⟨-, rfl⟩ := hnew hr
        cases hgot.symm.trans hr.2.2.choose_spec
        exact (hpid j).trans hj
  · by_cases hij : i = j
    · rcases h.slot with hs | hs
      · exact .inl ((hpid i).trans hs)
      · exact absurd hq (by rw [← hj, ← hij, hs]; decide)
    · exact h.slot.imp (hpid i).trans fun hs => by
        rw [← hs]
        exact Function.update_of_ne hij _ _
  · exact ⟨(hpid i).trans (h.held hp).1, Handler.not_reaped_loop rfl p⟩
  · change ((s.list.setState j .st).jobs i).state = .st
    rw [s.list.setState_state]
    split
    · rfl
    · next hij =>
      rcases hR with hR | hr
      · exact h.kept hR ((hpid i).symm.trans hi)
      · exact absurd (hnew hr).2.symm hij

/-! ## A command -/

/-- A step that leaves the list and `main` where they are. -/
theorem Resuming.still (h : Resuming isbg i p R s) (hinv : s'.Inv) (e : Still s s')
    (hend : s.ended = none) : Resuming isbg i p R s' where
  inv := hinv
  pos := h.pos
  working := by rw [e.list, e.handler, e.pc]; exact h.working
  only := by rw [e.list]; exact h.only
  slot := by rw [e.list]; exact h.slot
  held := by rw [e.list, e.handler, e.pc]; exact h.held
  writing := by rw [e.handler, e.pc]; exact h.writing
  kept := by rw [e.list]; exact h.kept
  stopping := by rw [e.list, e.handler]; exact h.stopping
  ended _ := e.ended.imp_left (·.trans hend)

/-- What the handler has collected is dealt with. -/
theorem Resuming.report (h : Resuming isbg i p R s) (hst : step s .report = some s') :
    Resuming isbg i p (R ∨ Records p s .report) s' := by
  have hinv := h.inv.next hst
  have hend := step_ended hst
  obtain ⟨q, status, hgot, rfl⟩ := step_report hst
  have hterm : status.terminated = true → (R ∨ Records p s .report ↔ R) := fun ht =>
    or_iff_left fun ⟨_, _, sig, hg⟩ => by
      cases hgot.symm.trans hg
      cases ht
  cases status with
  | stopped sig => exact h.stop hgot hend hinv
  | exited => exact (h.delete hgot rfl hinv rfl rfl rfl hend).congr (hterm rfl)
  | signaled sig => exact (h.delete hgot rfl hinv rfl rfl rfl hend).congr (hterm rfl)

/-- **Step lemma.** A step that spares the command keeps the invariant. -/
theorem Resuming.next (h : Resuming isbg i p R s) (hpc : s.pc ≠ .prompt) (hok : Spares i p s a)
    (hst : step s a = some s') : Resuming isbg i p (R ∨ Records p s a) s' := by
  by_cases ha : a = .report
  · subst ha
    exact h.report hst
  refine Resuming.congr ?_ (Records.iff_of_ne ha)
  have hinv := h.inv.next hst
  have hend := step_ended hst
  cases step_moves hst with
  | still e => exact h.still hinv e hend
  | command _ hprompt => exact absurd hprompt hpc
  | main hidle hst => exact h.main hidle hend hst
  | fork _ hfork =>
    have hw := h.working
    rw [hfork] at hw
    exact hw.elim
  | sigchld =>
    exact h.handler hinv rfl rfl hend (fun _ => Handler.not_reaped_loop rfl p) nofun nofun
  | waitpid hloop hq hrep => exact h.waitpid hloop hend hq hinv (hok _ hrep)
  | report => exact absurd rfl ha
  | sigreturn =>
    exact h.handler hinv rfl rfl hend (fun _ => Handler.not_reaped_idle rfl p) nofun nofun

/-- The lookup has found a job that is listed. -/
theorem Resuming.start (hinv : s.Inv) (hidle : s.handler = .idle)
    (hjob : s.pc.job = some (isbg, i)) (hi : s.list.Occupied i) :
    Resuming isbg i (s.list.jobs i).pid False s where
  inv := hinv
  pos := hinv.table.one_le hi
  working := by
    have hf := hinv.foreground
    cases hpc : s.pc with rw [hpc] at hjob hf
    | readPid b j jid =>
      cases hjob
      exact ⟨rfl, rfl, id⟩
    | readJid b j q =>
      cases hjob
      exact ⟨rfl, rfl, (hf.2.self.resolve_right hi).symm, id⟩
    | _ => cases hjob
  only k hk := (hinv.table.distinct i k hi hk.symm).symm
  slot := .inl rfl
  held _ := ⟨rfl, Handler.not_reaped_idle hidle _⟩
  writing _ _ hg := nomatch hidle.symm.trans hg
  kept := nofun
  stopping _ _ hg := nomatch hidle.symm.trans hg
  ended := nofun

/-- A job whose stop is recorded is not in the foreground. -/
theorem Resuming.not_fg (h : Resuming isbg i p R s) (hR : R) : (s.list.jobs i).state ≠ .fg := by
  rcases h.slot with hs | hs
  · rw [h.kept hR hs]
    nofun
  · rw [hs]
    nofun

/-- Outside the handlers the shell's step is that of `main`. -/
theorem step_main (hend : s.ended = none) (hidle : s.handler = .idle) :
    step s .main = s.mainStep := by
  simp [step, hend, hidle]

/-- A foreground job no longer in the foreground is not waited for. -/
theorem step_wait (hend : s.ended = none) (hidle : s.handler = .idle)
    (hpc : s.pc = .wait q (some i)) (hfg : (s.list.jobs i).state ≠ .fg) :
    step s .main = some (s.goto .prompt) := by
  rw [step_main hend hidle]
  simp only [Shell.mainStep, hpc, if_neg hfg]

/-- A job in the foreground is waited for. -/
theorem step_wait_fg (hend : s.ended = none) (hidle : s.handler = .idle)
    (hpc : s.pc = .wait q (some i)) (hfg : (s.list.jobs i).state = .fg) :
    step s .main = some s := by
  rw [step_main hend hidle]
  simp only [Shell.mainStep, hpc, if_pos hfg]

/-- Once a stop is recorded `waitfg` returns: `main` needs no more than two steps. -/
theorem Resuming.returns (h : Resuming false i p R s) (hR : R) (hend : s.ended = none)
    (hidle : s.handler = .idle) :
    ∃ n ≤ 2, ∃ s', exec step s (List.replicate n .main) = some s' ∧ s'.pc = .prompt := by
  have hw := h.working
  cases hpc : s.pc with rw [hpc] at hw
  | prompt => exact ⟨0, Nat.zero_le 2, s, rfl, hpc⟩
  | readPid => exact absurd hR hw.2.2
  | readJid | kill | setState => exact absurd hR hw.2.2.2
  | status => cases hw
  | waitfg q =>
    obtain ⟨-, rfl, hlist⟩ := hw
    have hi := (hlist hR).1
    obtain ⟨j, hj⟩ := Option.ne_none_iff_exists'.1 (JobList.getjobpid_ne_none h.pos hi)
    obtain rfl := h.only j (JobList.getjobpid_some hj).2
    have h1 : step s .main = some (s.goto (.wait q (some j))) := by
      rw [step_main hend hidle]
      simp only [Shell.mainStep, hpc, hj]
    have h2 : step (s.goto (.wait q (some j))) .main = some (s.goto .prompt) :=
      step_wait hend hidle rfl (h.not_fg hR)
    refine ⟨2, Nat.le_refl 2, s.goto .prompt, ?_, rfl⟩
    simp only [List.replicate, exec, h1, h2, Option.bind_some]
  | wait q job =>
    obtain ⟨-, rfl | ⟨-, hn, -⟩⟩ := hw
    · refine ⟨1, Nat.le_succ 1, s.goto .prompt, ?_, rfl⟩
      simp only [List.replicate, exec, step_wait hend hidle hpc (h.not_fg hR), Option.bind_some]
    · exact absurd hR hn
  | _ => exact hw.elim

/-- The lookup of `do_bgfg` does not move the handler. -/
theorem Shell.mainStep_job (hst : s.mainStep = some s') (hjob : s'.pc.job = some (isbg, i)) :
    s'.handler = s.handler := by
  cases Shell.mainStep_moves hst with
  | @builtinCmd argv bg cmdline =>
    have hb := s.builtinCmd_cases argv bg cmdline
    generalize s.builtinCmd argv bg cmdline = t at hb ⊢
    cases hb with
    | bgfg hb => cases hb <;> rfl
    | _ => rfl
  | addjob => cases hjob
  | _ => rfl

/-- A run of `do_bgfg` from the lookup of a listed job in slot `i` on, as far as its return. -/
structure Command (verbose isbg : Bool) (i : Fin maxjobs) (s₀ : Shell) (tr : List (Shell × Act))
    (s : Shell) : Prop where
  lookup : ∃ b, Reachable step (Shell.init verbose) b ∧ step b .main = some s₀
  job : s₀.pc.job = some (isbg, i)
  listed : s₀.list.Occupied i
  run : Run step s₀ tr s
  working : ∀ x ∈ tr, x.1.pc ≠ .prompt

/-- **Run lemma.** A command that is spared keeps the invariant. -/
theorem Command.resuming (h : Command verbose isbg i s₀ tr s)
    (hok : ∀ x ∈ tr, Spares i (s₀.list.jobs i).pid x.1 x.2) :
    Resuming isbg i (s₀.list.jobs i).pid (∃ x ∈ tr, Records (s₀.list.jobs i).pid x.1 x.2) s := by
  obtain ⟨b, hb, hlookup⟩ := h.lookup
  obtain ⟨hidle, hmain⟩ := step_main_some hlookup
  have h0 := Resuming.start (Shell.Inv.reachable (hb.next hlookup))
    ((Shell.mainStep_job hmain h.job).trans hidle) h.job h.listed
  refine h.run.invariant_of (C := fun s a => s.pc ≠ .prompt ∧ Spares i (s₀.list.jobs i).pid s a)
    (I := fun tr s => Resuming isbg i (s₀.list.jobs i).pid
      (∃ x ∈ tr, Records (s₀.list.jobs i).pid x.1 x.2) s)
    (h0.congr (by simp)) (fun hi hc hst => (hi.next hc.1 hc.2 hst).congr ?_)
    fun x hx => ⟨h.working x hx, hok x hx⟩
  simp only [List.mem_append, List.mem_singleton, or_and_right, exists_or, exists_eq_left]

/-- **A command that is spared.** The slot whose state `do_bgfg` writes next still lists the process
found. When the handler has recorded a stop after `SIGCONT`, the state is `ST` when `bg` returns, if
the job is still listed; and `fg` returns: the shell has not ended but by `exit`, and no more than
two steps of `main` are left. -/
theorem bgfg_keeps (h : Command verbose isbg i s₀ tr s)
    (hok : ∀ x ∈ tr, Spares i (s₀.list.jobs i).pid x.1 x.2) :
    (∀ isbg' j jid q, s.pc = .setState isbg' j jid q →
      j = i ∧ (s.list.jobs j).pid = (s₀.list.jobs i).pid) ∧
    ((∃ x ∈ tr, Records (s₀.list.jobs i).pid x.1 x.2) →
      (isbg = true → s.pc = .prompt → (s.list.jobs i).pid = (s₀.list.jobs i).pid →
        (s.list.jobs i).state = .st) ∧
      (isbg = false → (s.ended = none ∨ ∃ status, s.ended = some (.exit status)) ∧
        (s.ended = none → s.handler = .idle →
          ∃ n ≤ 2, ∃ s', exec step s (List.replicate n .main) = some s' ∧ s'.pc = .prompt))) := by
  have h := h.resuming hok
  refine ⟨fun isbg' j jid q hw => ?_, fun hR => ⟨fun _ _ hi' => h.kept hR hi', fun hbg => ?_⟩⟩
  · have hwork := h.working
    have hheld := h.held
    rw [hw] at hwork hheld
    obtain ⟨-, rfl, -⟩ := hwork
    exact ⟨rfl, (hheld rfl).1⟩
  · subst hbg
    exact ⟨h.ended hR, fun hend hidle => h.returns hR hend hidle⟩

/-- A job in the background, and a command about to work on it. -/
def namingCommand (cmd : String) : List Act :=
  [.command ["ls", "&"] true "ls &\n", .main, .main, .fork (some 7), .main, .main, .main,
    .command [cmd, "7"] false (cmd ++ " 7\n")]

/-- The shell before and after the lookup. -/
def naming (cmd : String) : Shell :=
  (exec step (Shell.init false) (namingCommand cmd)).getD (Shell.init false)

def found (cmd : String) : Shell := (step (naming cmd) .main).getD (naming cmd)

/-- A command at work, whatever happens meanwhile. -/
theorem Command.of_exec {cmd : String} {as : List Act}
    (hb : exec step (Shell.init false) (namingCommand cmd) = some (naming cmd))
    (h0 : step (naming cmd) .main = some (found cmd)) (hjob : (found cmd).pc.job = some (isbg, 0))
    (hi : (found cmd).list.Occupied 0) (he : exec step (found cmd) as = some s)
    (hpc : ∀ x ∈ traceFrom step (found cmd) as, x.1.pc ≠ .prompt) :
    Command false isbg 0 (found cmd) (traceFrom step (found cmd) as) s :=
  ⟨⟨_, Reachable.start.exec hb, h0⟩, hjob, hi, Run.start.exec he, hpc⟩

/-- The child stops after `bg` has written the state. -/
theorem bgfg_keeps_late : ∃ tr s, Command false true 0 (found "bg") tr s ∧ s.pc = .prompt ∧
    (s.list.jobs 0).state = .st := by
  have he : exec step (found "bg") ([.main, .main, .main] ++ collected (.stop 20) ++ [.main]) =
    some _ := rfl
  have hc : Command false true 0 (found "bg") _ _ :=
    .of_exec rfl rfl rfl (by decide +kernel) he (by decide +kernel)
  exact ⟨_, _, hc, rfl, ((bgfg_keeps hc (by decide +kernel)).2 (by decide +kernel)).1 rfl rfl rfl⟩

/-- `bg` writes to a slot whose job has been deleted; `bg` returns and a stop is lost; `fg` waits
for a process that is stopped. -/
theorem bgfg_loses :
    (∃ tr s, Command false true 0 (found "bg") tr s ∧ (∃ jid q, s.pc = .setState true 0 jid q) ∧
      (s.list.jobs 0).pid ≠ ((found "bg").list.jobs 0).pid) ∧
    (∃ tr s, Command false true 0 (found "bg") tr s ∧
      (∃ x ∈ tr, Records ((found "bg").list.jobs 0).pid x.1 x.2) ∧ s.pc = .prompt ∧
      (s.list.jobs 0).pid = ((found "bg").list.jobs 0).pid ∧ (s.list.jobs 0).state = .bg) ∧
    ∃ tr s, Command false false 0 (found "fg") tr s ∧
      (∃ x ∈ tr, Records ((found "fg").list.jobs 0).pid x.1 x.2) ∧ s.pc = .wait 7 (some 0) ∧
      s.proc 7 = .stopped 20 true ∧ step s .main = some s := by
  refine ⟨?_, ?_, ?_⟩
  · have he : exec step (found "bg") (collected .exit ++ [.main, .main]) = some _ := rfl
    exact ⟨_, _, .of_exec rfl rfl rfl (by decide +kernel) he (by decide +kernel), ⟨_, _, rfl⟩,
      by decide +kernel⟩
  · have he : exec step (found "bg") ([.main, .main] ++ collected (.stop 20) ++ [.main, .main]) =
      some _ := rfl
    exact ⟨_, _, .of_exec rfl rfl rfl (by decide +kernel) he (by decide +kernel), by decide +kernel,
      rfl, rfl, rfl⟩
  · obtain ⟨s, he, hend, hidle, hpc, hproc, hfg⟩ : ∃ s,
        exec step (found "fg") ([.main, .main] ++ collected (.stop 20) ++ [.main, .main]) = some s ∧
          s.ended = none ∧ s.handler = .idle ∧ s.pc = .wait 7 (some 0) ∧
          s.proc 7 = .stopped 20 true ∧ (s.list.jobs 0).state = .fg :=
      ⟨_, rfl, rfl, rfl, by decide +kernel, rfl, rfl⟩
    exact ⟨_, s, .of_exec rfl rfl rfl (by decide +kernel) he (by decide +kernel), by decide +kernel,
      hpc, hproc, step_wait_fg hend hidle hpc hfg⟩

end Tsh
