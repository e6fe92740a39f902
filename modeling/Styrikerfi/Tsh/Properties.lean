import Styrikerfi.Tsh.Invariant

/-!
# The foreground and the children

Two consequences of the invariant of the shell.

At most one job is in the foreground, none is when a command is read, and a keyboard signal goes to
the process group of the job the running command has put there (`one_foreground`).

Where each child is forked while a slot is free, `addjob` refuses none (`Roomy`); so whenever
`SIGCHLD` can be handled the processes listed are the children not yet reaped
(`listed_iff_unreaped`).
-/

namespace Tsh

variable {l : JobList} {i j : Fin maxjobs} {p pid : Int} {pc : Pc} {s s' : Shell} {a : Act}
  {verbose : Bool} {tr : List (Shell × Act)}

/-! ## The foreground -/

/-- The process `eval` or `fg` has put in the foreground and waits for, or is about to. -/
def Pc.foreground : Pc → Option Int
  | .unblock false _ pid | .waitfg pid | .wait pid _ => some pid
  | _ => none

/-- A job is in the foreground only while `main` waits for its process. -/
theorem Foreground.fore (h : Foreground l pc) (hi : (l.jobs i).state = .fg) :
    ∃ pid, pc.foreground = some pid ∧ l.Fore pid := by
  cases pc with
  | unblock bg cmdline pid =>
    cases bg with
    | false => exact ⟨pid, rfl, h⟩
    | true => exact absurd hi (JobList.NoFg.later h (fun _ => .inr ⟨rfl, .inl rfl⟩) i)
  | waitfg pid => exact ⟨pid, rfl, h⟩
  | wait pid job =>
    cases job with
    | none => exact ⟨pid, rfl, h⟩
    | some k => exact ⟨pid, rfl, h.1⟩
  | readJid | kill | setState => exact absurd hi (h.1 i)
  | _ => exact absurd hi (h i)

/-- A job in the foreground is the only one, and is that of the process waited for. -/
theorem Shell.Inv.fore (h : s.Inv) (hi : (s.list.jobs i).state = .fg) :
    ∃ pid, s.pc.foreground = some pid ∧ s.list.OnlyFg i ∧ s.list.Names i pid := by
  obtain ⟨pid, hpc, hf⟩ := h.foreground.fore hi
  exact ⟨pid, hpc, hf i hi⟩

/-- `fgpid` returns 0, or the process of a job in the foreground. -/
theorem JobList.fgpid_cases (l : JobList) :
    l.fgpid = 0 ∨ ∃ i, (l.jobs i).state = .fg ∧ (l.jobs i).pid = l.fgpid := by
  unfold JobList.fgpid
  split
  · next i hi =>
    have hfg := JobList.find_some hi
    exact .inr ⟨i, by simpa using hfg, rfl⟩
  · exact .inl rfl

/-- What a keyboard signal is forwarded to: nothing, or the process waited for. -/
theorem Shell.Inv.forward_sent (h : s.Inv) (sig : Sig) :
    (s.forward sig).sent = s.sent ∨ ∃ pid i, (s.forward sig).sent = s.sent ++ [(-pid, sig)] ∧
      s.pc.foreground = some pid ∧ 1 ≤ pid ∧ (s.list.jobs i).state = .fg ∧
      ∀ k, (s.list.jobs k).pid = pid ↔ k = i := by
  by_cases hz : s.list.fgpid = 0
  · exact .inl (by simp [Shell.forward, hz])
  obtain hz' | ⟨i, hi, hpid⟩ := s.list.fgpid_cases
  · exact absurd hz' hz
  obtain ⟨pid, hpc, -, hn⟩ := h.fore hi
  have hself : (s.list.jobs i).pid = pid := hn.self.resolve_right (hpid ▸ hz)
  have hocc : s.list.Occupied i := by rwa [JobList.Occupied, hpid]
  have honly : ∀ k, (s.list.jobs k).pid = pid ↔ k = i := fun k =>
    ⟨fun hk => (h.table.distinct i k hocc (hself.trans hk.symm)).symm, fun hk => hk ▸ hself⟩
  refine .inr ⟨pid, i, ?_, hpc, hself ▸ h.table.one_le hocc, hi, honly⟩
  rw [← hself, hpid]
  unfold Shell.forward
  rw [if_pos hz]
  rfl

/-- ctrl-c is forwarded. -/
theorem step_sigint (hst : step s .sigint = some s') : s' = s.forward .int := by
  unfold step at hst
  split at hst
  · cases hst
  · exact (Option.some.inj hst).symm

/-- ctrl-z is forwarded. -/
theorem step_sigtstp (hst : step s .sigtstp = some s') : s' = s.forward .tstp := by
  unfold step at hst
  split at hst
  · cases hst
  · exact (Option.some.inj hst).symm

/-- **The foreground.** At most one job is in it, none is when a command is read, and a keyboard
signal is forwarded only to the group of the process the running command waits for, whose one slot
is in the foreground. -/
theorem one_foreground (h : Reachable step (Shell.init verbose) s) :
    (∀ i j, (s.list.jobs i).state = .fg → (s.list.jobs j).state = .fg → i = j) ∧
    (s.pc = .prompt → ∀ i, (s.list.jobs i).state ≠ .fg) ∧
    ∀ a sig s', a = .sigint ∧ sig = .int ∨ a = .sigtstp ∧ sig = .tstp → step s a = some s' →
      s'.sent = s.sent ∨ ∃ pid i, s'.sent = s.sent ++ [(-pid, sig)] ∧
        s.pc.foreground = some pid ∧ 1 ≤ pid ∧ (s.list.jobs i).state = .fg ∧
        ∀ k, (s.list.jobs k).pid = pid ↔ k = i := by
  have hinv := Shell.Inv.reachable h
  refine ⟨fun i j hi hj => ?_, fun hpc => ?_, fun a sig s' ha hst => ?_⟩
  · obtain ⟨-, -, honly, -⟩ := hinv.fore hj
    exact honly i hi
  · have hf := hinv.foreground
    rwa [hpc] at hf
  · have hend : s' = s.forward sig := by
      obtain ⟨rfl, rfl⟩ | ⟨rfl, rfl⟩ := ha
      · exact step_sigint hst
      · exact step_sigtstp hst
    rw [hend]
    exact hinv.forward_sent sig

/-- A foreground command up to `waitfg`. -/
def foregroundCommand : List Act :=
  [.command ["ls"] false "ls\n", .main, .main, .fork (some 7), .main, .main]

/-- A foreground command that the shell waits for. -/
theorem one_foreground_waiting : ∃ s, Reachable step (Shell.init false) s ∧
    s.pc.foreground = some 7 ∧ ∀ i, (s.list.jobs i).state = .fg → 0 = i := by
  have he : exec step (Shell.init false) foregroundCommand = some _ := rfl
  have hr := Reachable.start.exec he
  exact ⟨_, hr, rfl, fun i hi => (one_foreground hr).1 0 i rfl hi⟩

/-! ## Children and the table -/

/-- `addjob` has refused no child, and will not refuse the one about to be added. -/
def Shell.Roomy (s : Shell) : Prop :=
  s.refused = [] ∧ ∀ p, s.pc.adding = some p → ∃ i, ¬ s.list.Occupied i

/-- Where `eval` is not adding a child that none was refused is all there is to say. -/
theorem Shell.Roomy.intro (hr : s.refused = []) (hpc : s.pc.adding = none) : s.Roomy :=
  ⟨hr, fun p hp => by rw [hpc] at hp; cases hp⟩

/-- `builtin_cmd` leaves the room that there is. -/
theorem Shell.Roomy.builtinCmd {argv : List String} {bg : Bool} {cmdline : String}
    (hr : s.refused = []) (hpc : s.pc = .builtinCmd argv bg cmdline) :
    (s.builtinCmd argv bg cmdline).Roomy := by
  have hb := s.builtinCmd_cases argv bg cmdline
  generalize s.builtinCmd argv bg cmdline = t at hb ⊢
  cases hb with
  | finish => exact .intro hr (by rw [Shell.finish, hpc]; rfl)
  | jobs => exact .intro hr rfl
  | bgfg hb => cases hb <;> exact .intro hr rfl
  | run => exact .intro hr rfl

/-- Where there is a slot `addjob` refuses no child. -/
theorem Shell.addjob_refused (s : Shell) (bg : Bool) (cmdline : String) (hpid : 1 ≤ pid)
    (hi : ¬ s.list.Occupied i) : (s.addjob bg cmdline pid).refused = s.refused := by
  unfold Shell.addjob
  rw [if_neg (by omega)]
  obtain ⟨j, n, -, heq⟩ | ⟨hfull, -⟩ := s.list.addjob_cases hpid (if bg then .bg else .fg) cmdline
  · rw [heq, if_neg (show (1 : Int) ≠ 0 by decide)]
    split <;> rfl
  · exact absurd (hfull i) hi

/-- A step of `main` leaves the room that there is. -/
theorem Shell.Roomy.main (h : s.Roomy) (hinv : s.Inv) (hst : s.mainStep = some s') :
    s'.Roomy := by
  have hr := h.1
  cases Shell.mainStep_moves hst with
  | builtinCmd hpc => exact .builtinCmd hr hpc
  | @addjob bg cmdline pid hpc =>
    obtain ⟨i, hi⟩ := h.2 pid (by rw [hpc]; rfl)
    have hpid := hinv.table.pos pid (hinv.adding pid (by rw [hpc]; rfl)).1
    exact .intro ((s.addjob_refused bg cmdline hpid hi).trans hr) rfl
  | lost hpc => exact .intro hr (by rw [Shell.finish, hpc]; rfl)
  | sleep => exact h
  | _ => exact .intro hr rfl

/-- While the handler runs `eval` is not adding a child. -/
theorem Shell.Roomy.handler (hinv : s.Inv) (hrun : s.handler ≠ .idle) (hr : s'.refused = [])
    (hpc : s'.pc = s.pc) : s'.Roomy :=
  .intro hr (by rw [hpc]; exact hinv.not_adding hrun)

/-- Where a fork finds a slot free, so does the `addjob` after it. -/
theorem Shell.Roomy.next (h : s.Roomy) (hinv : s.Inv)
    (hfree : ∀ pid, a = .fork (some pid) → ∃ i, ¬ s.list.Occupied i) (hst : step s a = some s') :
    s'.Roomy := by
  have hr := h.1
  cases step_moves hst with
  | still e =>
    rw [Shell.Roomy, e.refused, e.pc, e.list]
    exact h
  | command => exact .intro hr rfl
  | main _ hst => exact h.main hinv hst
  | fork => exact ⟨hr, fun _ _ => hfree _ rfl⟩
  | sigchld => exact h
  | @waitpid pid status hloop =>
    have hrun : s.handler ≠ .idle := by rw [hloop]; nofun
    have herase : s.refused.erase pid = [] := by rw [hr]; rfl
    cases status with
    | stopped sig => exact .handler hinv hrun hr rfl
    | exited => exact .handler hinv hrun herase rfl
    | signaled sig => exact .handler hinv hrun herase rfl
  | @report pid status hgot =>
    have hrun : s.handler ≠ .idle := by rw [hgot]; nofun
    cases status with
    | exited => exact .handler hinv hrun hr rfl
    | signaled sig => exact .handler hinv hrun hr rfl
    | stopped sig =>
      unfold Shell.report
      dsimp only
      split
      · exact .handler hinv hrun hr rfl
      · exact .handler hinv hrun hr rfl
  | sigreturn => exact h

/-- **Children and the table.** In a run whose forks each happen with a slot free, wherever
`SIGCHLD` is not blocked the processes listed are the children forked and not yet reaped, each in
one slot. -/
theorem listed_iff_unreaped (h : Run step (Shell.init verbose) tr s)
    (hfree : ∀ x ∈ tr, ∀ pid, x.2 = .fork (some pid) → ∃ i, ¬ x.1.list.Occupied i)
    (hb : s.blocked = false) (hh : s.handler = .idle) :
    (∀ p, p ∈ s.kids ↔ ∃ i, s.list.Occupied i ∧ (s.list.jobs i).pid = p) ∧
    ∀ i j, s.list.Occupied i → (s.list.jobs i).pid = (s.list.jobs j).pid → i = j := by
  have ⟨hinv, hroom⟩ := h.invariant_of (C := fun s a => ∀ pid, a = .fork (some pid) →
      ∃ i, ¬ s.list.Occupied i) (I := fun _ s => s.Inv ∧ s.Roomy)
    ⟨Shell.Inv.init verbose, rfl, nofun⟩ (fun hi hc hst => ⟨hi.1.next hst, hi.2.next hi.1 hc hst⟩)
    hfree
  refine ⟨fun p => ⟨fun hp => ?_, ?_⟩, hinv.table.distinct⟩
  · rcases hinv.accounted p hp with ⟨i, hi⟩ | hr | ha
    · have := hinv.table.pos p hp
      exact ⟨i, by rw [JobList.Occupied, hi]; omega, hi⟩
    · rw [hroom.1] at hr
      cases hr
    · have hm := hinv.masked
      cases hpc : s.pc with
      | addjob bg cmdline pid => rw [hb, hpc] at hm; cases hm
      | _ => rw [hpc] at ha; cases ha
  · rintro ⟨i, hi, rfl⟩
    exact (hinv.table.listed i hi).resolve_right (Handler.not_reaped_idle hh _)

/-- Two commands in the background; the first child has exited and is reaped. -/
def backgroundCommands : List Act :=
  [.command ["ls", "&"] true "ls &\n", .main, .main, .fork (some 7), .main, .main, .main,
    .command ["ls", "&"] true "ls &\n", .child 7 .exit, .main, .main, .fork (some 8), .main, .main,
    .sigchld, .waitpid 7, .report, .sigreturn]

/-- One of two background children is reaped, and the other listed. -/
theorem listed_iff_unreaped_background : ∃ tr s, Run step (Shell.init false) tr s ∧
    (8 ∈ s.kids ↔ ∃ i, s.list.Occupied i ∧ (s.list.jobs i).pid = 8) := by
  have he : exec step (Shell.init false) backgroundCommands = some _ := rfl
  have hr := Run.start.exec he
  refine ⟨_, _, hr, (listed_iff_unreaped hr ?_ rfl rfl).1 8⟩
  have h15 : ∀ x ∈ traceFrom step (Shell.init false) backgroundCommands,
      ¬ x.1.list.Occupied 15 := by decide +kernel
  exact fun x hx _ _ => ⟨15, h15 x hx⟩

end Tsh
