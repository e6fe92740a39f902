import Styrikerfi.Tsh.Shell

/-!
# The invariant of the shell

What holds in every reachable state, whatever the commands and however the handlers interleave.

* The table (`Table`): each process listed is a child not yet reaped, or the one the handler of
  `SIGCHLD` has just reaped and is about to delete, and is listed in one slot.
* Every child is listed, or has been refused by `addjob`, or is about to be added (`Inv.accounted`).
* The foreground (`Foreground`): while `main` runs no foreground command no job is in the
  foreground; while it runs one, the slots in the foreground are at most one, and it lists the
  process the command waits for or has been cleared under the command's hands.

The handler only clears slots and takes jobs out of the foreground (`Later`), and every part of
`Foreground` is kept by that.
-/

namespace Tsh

variable {l l' : JobList} {i j k : Fin maxjobs} {p pid jid : Int} {pc pc' : Pc} {kids : List Int}
  {h h' : Handler} {state : JobState} {cmdline : String} {s s' : Shell} {a : Act}

/-! ## The table -/

/-- The handler has collected the end of `p`, and has not deleted its job. -/
def Handler.Reaped (h : Handler) (p : Int) : Prop :=
  ∃ status, h = .got p status ∧ status.terminated = true

/-- The processes listed are children, each in one slot. -/
structure Table (l : JobList) (kids : List Int) (h : Handler) : Prop where
  pos : ∀ p ∈ kids, 1 ≤ p
  nodup : kids.Nodup
  listed : ∀ i, l.Occupied i → (l.jobs i).pid ∈ kids ∨ h.Reaped (l.jobs i).pid
  distinct : ∀ i j, l.Occupied i → (l.jobs i).pid = (l.jobs j).pid → i = j
  gone : ∀ p, h.Reaped p → 1 ≤ p ∧ p ∉ kids

/-- The table of the first state. -/
theorem Table.init : Table initjobs [] .idle :=
  ⟨by simp, .nil, fun _ hi => absurd rfl hi, fun _ _ hi => absurd rfl hi, by simp [Handler.Reaped]⟩

/-- A process listed has a positive ID. -/
theorem Table.one_le (h : Table l kids h') (hi : l.Occupied i) : 1 ≤ (l.jobs i).pid :=
  (h.listed i hi).elim (h.pos _) fun hr => (h.gone _ hr).1

/-- A positive process ID is listed in one slot. -/
theorem Table.slot_eq (h : Table l kids h') (hpid : 1 ≤ pid) (hi : (l.jobs i).pid = pid)
    (hj : (l.jobs j).pid = pid) : i = j :=
  h.distinct i j (by rw [JobList.Occupied]; omega) (hi.trans hj.symm)

/-- Where the handler is does not matter unless it has reaped a child. -/
theorem Table.handler (h : Table l kids h') (hold : ∀ p, ¬ h'.Reaped p) {h'' : Handler}
    (hnew : ∀ p, ¬ h''.Reaped p) : Table l kids h'' :=
  ⟨h.pos, h.nodup, fun i hi => .inl ((h.listed i hi).resolve_right (hold _)), h.distinct,
    fun p hp => absurd hp (hnew p)⟩

/-- `fork` -/
theorem Table.fork (h : Table l kids h') (hpid : 1 ≤ pid) (hnew : pid ∉ kids)
    (hr : ¬ h'.Reaped pid) : Table l (pid :: kids) h' where
  pos := List.forall_mem_cons.2 ⟨hpid, h.pos⟩
  nodup := List.nodup_cons.2 ⟨hnew, h.nodup⟩
  listed i hi := (h.listed i hi).imp_left (List.mem_cons_of_mem _)
  distinct := h.distinct
  gone p hp := by
    refine ⟨(h.gone p hp).1, fun hmem => ?_⟩
    obtain rfl | hmem := List.mem_cons.1 hmem
    · exact hr hp
    · exact (h.gone p hp).2 hmem

/-- A child not listed is added in an empty slot. -/
theorem Table.add (h : Table l kids h') (hpid : pid ∈ kids) (hnew : ∀ i, (l.jobs i).pid ≠ pid)
    (n : Int) : Table ⟨Function.update l.jobs i ⟨pid, jid, state, cmdline⟩, n⟩ kids h' where
  pos := h.pos
  nodup := h.nodup
  gone := h.gone
  listed j hj := by
    by_cases hji : j = i
    · subst hji
      exact .inl (by simpa using hpid)
    · simp only [JobList.Occupied, Function.update_of_ne hji] at hj ⊢
      exact h.listed j hj
  distinct a b ha hab := by
    simp only [JobList.Occupied] at ha
    by_cases hai : a = i <;> by_cases hbi : b = i
    · rw [hai, hbi]
    · simp only [hai, Function.update_self, Function.update_of_ne hbi] at hab
      exact absurd hab.symm (hnew b)
    · simp only [hbi, Function.update_self, Function.update_of_ne hai] at hab
      exact absurd hab (hnew a)
    · simp only [Function.update_of_ne hai, Function.update_of_ne hbi] at ha hab
      exact h.distinct a b ha hab

/-- `waitpid` collects the end of a child. -/
theorem Table.reap {status : Report} (h : Table l kids h') (hold : ∀ p, ¬ h'.Reaped p)
    (hpid : pid ∈ kids) (hst : status.terminated = true) :
    Table l (kids.erase pid) (.got pid status) where
  pos p hp := h.pos p (List.mem_of_mem_erase hp)
  nodup := h.nodup.erase pid
  listed i hi := by
    have hmem := (h.listed i hi).resolve_right (hold _)
    by_cases hip : (l.jobs i).pid = pid
    · exact .inr ⟨status, by rw [hip], hst⟩
    · exact .inl ((List.mem_erase_of_ne hip).2 hmem)
  distinct := h.distinct
  gone := by
    rintro p ⟨status', heq, -⟩
    cases heq
    exact ⟨h.pos _ hpid, h.nodup.not_mem_erase⟩

/-- Who is listed where, but for the slots of the deleted job. -/
theorem Table.deletejob_pid (h : Table l kids h') (pid : Int) (i : Fin maxjobs) :
    ((l.deletejob pid).2.jobs i) =
      if 1 ≤ pid ∧ (l.jobs i).pid = pid then clearjob else l.jobs i := by
  obtain ⟨j, n, hpid, hj, heq⟩ | ⟨hnone, heq⟩ := l.deletejob_cases pid
  · rw [heq]
    by_cases hij : i = j
    · subst hij
      simp [hpid, hj]
    · have hi : (l.jobs i).pid ≠ pid := fun hi => hij (h.slot_eq hpid hi hj)
      simp [Function.update_of_ne hij, hi]
  · rw [heq, if_neg fun hpid => hnone hpid.1 i hpid.2]

/-- The handler deletes the job of the child it has reaped. -/
theorem Table.delete {status : Report} (h : Table l kids (.got pid status))
    (hst : status.terminated = true) : Table (l.deletejob pid).2 kids .loop := by
  have hpid := (h.gone pid ⟨status, rfl, hst⟩).1
  have hold : ∀ i, (l.deletejob pid).2.Occupied i →
      (l.deletejob pid).2.jobs i = l.jobs i ∧ (l.jobs i).pid ≠ pid := by
    intro i hi
    rw [JobList.Occupied, h.deletejob_pid] at hi
    rw [h.deletejob_pid]
    split at hi
    · exact absurd rfl hi
    · next hne => exact ⟨if_neg hne, fun hip => hne ⟨hpid, hip⟩⟩
  refine ⟨h.pos, h.nodup, fun i hi => .inl ?_, fun i j hi hij => ?_, by simp [Handler.Reaped]⟩
  · have hi' := hi
    rw [JobList.Occupied, (hold i hi).1] at hi'
    rw [(hold i hi).1]
    refine (h.listed i hi').resolve_right ?_
    rintro ⟨status', heq, -⟩
    injection heq with heq
    exact (hold i hi).2 heq.symm
  · have hj : (l.deletejob pid).2.Occupied j := by rwa [JobList.Occupied, ← hij]
    rw [(hold i hi).1, (hold j hj).1] at hij
    rw [JobList.Occupied, (hold i hi).1] at hi
    exact h.distinct i j hi hij

@[simp] theorem JobList.setState_pid (l : JobList) (i : Fin maxjobs) (state : JobState)
    (j : Fin maxjobs) : ((l.setState i state).jobs j).pid = (l.jobs j).pid := by
  by_cases hji : j = i
  · subst hji
    simp [JobList.setState]
  · simp [JobList.setState, Function.update_of_ne hji]

/-- Only the state of one job is set. -/
theorem JobList.setState_state (l : JobList) (i : Fin maxjobs) (state : JobState)
    (j : Fin maxjobs) :
    ((l.setState i state).jobs j).state = if j = i then state else (l.jobs j).state := by
  by_cases hji : j = i
  · subst hji
    simp [JobList.setState]
  · simp [JobList.setState, hji]

/-- The table depends on the process IDs alone. -/
theorem Table.setState (h : Table l kids h') (i : Fin maxjobs) (state : JobState) :
    Table (l.setState i state) kids h' :=
  ⟨h.pos, h.nodup, fun j hj => by simpa using h.listed j (by simpa [JobList.Occupied] using hj),
    fun j k hj hjk => h.distinct j k (by simpa [JobList.Occupied] using hj) (by simpa using hjk),
    h.gone⟩

/-! ## The foreground -/

/-- No job is in the foreground. -/
def JobList.NoFg (l : JobList) : Prop := ∀ j, (l.jobs j).state ≠ .fg

/-- No other job is in the foreground. -/
def JobList.OnlyFg (l : JobList) (i : Fin maxjobs) : Prop := ∀ j, (l.jobs j).state = .fg → j = i

/-- The slot lists the process, which no other does, or has been cleared. -/
structure JobList.Names (l : JobList) (i : Fin maxjobs) (pid : Int) : Prop where
  only : 1 ≤ pid → ∀ k, (l.jobs k).pid = pid → k = i
  self : (l.jobs i).pid = pid ∨ (l.jobs i).pid = 0

/-- The job in the foreground, if there is one, is that of the process. -/
def JobList.Fore (l : JobList) (pid : Int) : Prop :=
  ∀ j, (l.jobs j).state = .fg → l.OnlyFg j ∧ l.Names j pid

/-- Who is in the foreground, by what `main` does next. -/
def Foreground (l : JobList) : Pc → Prop
  | .unblock false _ pid | .waitfg pid | .wait pid none => l.Fore pid
  | .wait pid (some i) => l.Fore pid ∧ l.OnlyFg i
  | .readJid _ i pid | .kill _ i _ pid | .setState _ i _ pid => l.NoFg ∧ l.Names i pid
  | _ => l.NoFg

/-- Without a job in the foreground any process may be there. -/
theorem JobList.NoFg.fore (h : l.NoFg) (pid : Int) : l.Fore pid := fun j hj => absurd hj (h j)

/-- What the handler does to the table: it clears slots, and changes states other than to `FG`. -/
def JobList.Later (l l' : JobList) : Prop :=
  ∀ i, l'.jobs i = clearjob ∨ (l'.jobs i).pid = (l.jobs i).pid ∧
    ((l'.jobs i).state = (l.jobs i).state ∨ (l'.jobs i).state ≠ .fg)

/-- A job in the foreground was there before, of the same process. -/
theorem JobList.Later.fg (hl : l.Later l') (hj : (l'.jobs j).state = .fg) :
    (l.jobs j).state = .fg ∧ (l'.jobs j).pid = (l.jobs j).pid := by
  obtain hc | ⟨hpid, hs | hs⟩ := hl j
  · rw [hc] at hj
    cases hj
  · exact ⟨hs ▸ hj, hpid⟩
  · exact absurd hj hs

/-- The handler puts no job in the foreground. -/
theorem JobList.NoFg.later (h : l.NoFg) (hl : l.Later l') : l'.NoFg :=
  fun j hj => h j (hl.fg hj).1

/-- The handler puts no other job in the foreground. -/
theorem JobList.OnlyFg.later (h : l.OnlyFg i) (hl : l.Later l') : l'.OnlyFg i :=
  fun j hj => h j (hl.fg hj).1

/-- The handler leaves the slot to its process, or clears it. -/
theorem JobList.Names.later (h : l.Names i pid) (hl : l.Later l') : l'.Names i pid where
  only hpid k hk := by
    obtain hc | ⟨hp, -⟩ := hl k
    · rw [hc] at hk
      exact absurd hk (by simp only [clearjob]; omega)
    · exact h.only hpid k (hp ▸ hk)
  self := by
    obtain hc | ⟨hp, -⟩ := hl i
    · exact .inr (by rw [hc]; rfl)
    · rw [hp]
      exact h.self

/-- The handler puts no other process in the foreground. -/
theorem JobList.Fore.later (h : l.Fore pid) (hl : l.Later l') : l'.Fore pid := by
  intro j hj
  have ⟨honly, hnames⟩ := h j (hl.fg hj).1
  exact ⟨honly.later hl, hnames.later hl⟩

/-- The handler keeps who is in the foreground. -/
theorem Foreground.later (h : Foreground l pc) (hl : l.Later l') : Foreground l' pc := by
  cases pc with
  | unblock bg cmdline pid =>
    cases bg with
    | false => exact JobList.Fore.later h hl
    | true => exact JobList.NoFg.later h hl
  | waitfg pid => exact JobList.Fore.later h hl
  | wait pid job =>
    cases job with
    | none => exact JobList.Fore.later h hl
    | some i => exact ⟨h.1.later hl, h.2.later hl⟩
  | readJid | kill | setState => exact ⟨h.1.later hl, h.2.later hl⟩
  | _ => exact JobList.NoFg.later h hl

/-- What `deletejob` does is what the handler may do. -/
theorem Table.later_delete (h : Table l kids h') (pid : Int) : l.Later (l.deletejob pid).2 := by
  intro i
  rw [h.deletejob_pid]
  split
  · exact .inl rfl
  · exact .inr ⟨rfl, .inl rfl⟩

/-- A state other than `FG` is what the handler may write. -/
theorem JobList.later_setState (l : JobList) (i : Fin maxjobs) (hs : state ≠ .fg) :
    l.Later (l.setState i state) := by
  intro j
  refine .inr ⟨l.setState_pid i state j, ?_⟩
  rw [l.setState_state]
  split
  · exact .inr hs
  · exact .inl rfl

/-- The job found is that of the process. -/
theorem JobList.getjobpid_some (h : l.getjobpid pid = some i) : 1 ≤ pid ∧ (l.jobs i).pid = pid := by
  unfold JobList.getjobpid at h
  split at h
  · cases h
  · exact ⟨by omega, by simpa using JobList.find_some h⟩

/-- A slot found under a process ID is the only one that lists it. -/
theorem Table.names (h : Table l kids h') (hi : l.getjobpid pid = some i) : l.Names i pid where
  only hpid _ hk := h.slot_eq hpid hk (JobList.getjobpid_some hi).2
  self := .inl (JobList.getjobpid_some hi).2

/-- What a slot lists is listed nowhere else. -/
theorem Table.names_self (h : Table l kids h') (i : Fin maxjobs) : l.Names i (l.jobs i).pid where
  only hpid _ hk := h.slot_eq hpid hk rfl
  self := .inl rfl

/-- A job found where it is waited for is the one in the foreground, if any is. -/
theorem JobList.Fore.only (h : l.Fore pid) (hi : l.getjobpid pid = some i) : l.OnlyFg i := by
  intro j hj
  have hpid := JobList.getjobpid_some hi
  exact ((h j hj).2.only hpid.1 i hpid.2).symm

/-- The job written to the foreground is that of the process. -/
theorem JobList.NoFg.setState (h : l.NoFg) (hn : l.Names i pid) : (l.setState i .fg).Fore pid := by
  have honly : (l.setState i .fg).OnlyFg i := by
    intro j hj
    by_contra hji
    rw [l.setState_state, if_neg hji] at hj
    exact h j hj
  intro j hj
  obtain rfl := honly j hj
  refine ⟨honly, fun hpid k hk => hn.only hpid k ?_, ?_⟩
  · rwa [l.setState_pid] at hk
  · rw [l.setState_pid]
    exact hn.self

/-- A job added to the foreground is that of the process. -/
theorem JobList.NoFg.add (h : l.NoFg) (hnew : ∀ i, (l.jobs i).pid ≠ pid) (n : Int) :
    JobList.Fore ⟨Function.update l.jobs i ⟨pid, jid, .fg, cmdline⟩, n⟩ pid := by
  have honly : JobList.OnlyFg ⟨Function.update l.jobs i ⟨pid, jid, .fg, cmdline⟩, n⟩ i := by
    intro j hj
    by_contra hji
    simp only [Function.update_of_ne hji] at hj
    exact h j hj
  intro j hj
  obtain rfl := honly j hj
  refine ⟨honly, fun _ k hk => ?_, by simp⟩
  by_contra hkj
  simp only [Function.update_of_ne hkj] at hk
  exact hnew k hk

/-- A job added in the background is not in the foreground. -/
theorem JobList.NoFg.add_bg (h : l.NoFg) (n : Int) :
    JobList.NoFg ⟨Function.update l.jobs i ⟨pid, jid, .bg, cmdline⟩, n⟩ := by
  intro j
  by_cases hji : j = i
  · simp [hji]
  · simp only [Function.update_of_ne hji]
    exact h j

/-! ## The invariant -/

/-- `eval` keeps `SIGCHLD` blocked. -/
def Pc.masked : Pc → Bool
  | .fork _ _ | .addjob _ _ _ | .unblock _ _ _ => true
  | _ => false

/-- The child about to be added. -/
def Pc.adding : Pc → Option Int
  | .addjob _ _ pid => some pid
  | _ => none

/-- The invariant of the shell. -/
structure Shell.Inv (s : Shell) : Prop where
  table : Table s.list s.kids s.handler
  foreground : Foreground s.list s.pc
  masked : s.blocked = s.pc.masked
  idle : s.blocked = true → s.handler = .idle
  adding : ∀ pid, s.pc.adding = some pid → pid ∈ s.kids ∧ ∀ i, (s.list.jobs i).pid ≠ pid
  accounted : ∀ p ∈ s.kids,
    (∃ i, (s.list.jobs i).pid = p) ∨ p ∈ s.refused ∨ s.pc.adding = some p

/-- The invariant holds at first. -/
theorem Shell.Inv.init (verbose : Bool) : (Shell.init verbose).Inv where
  table := .init
  foreground _ := by simp [Shell.init, initjobs, clearjob]
  masked := rfl
  idle _ := rfl
  adding _ h := by cases h
  accounted _ h := by cases h

/-- Outside the handler no job is left to delete. -/
theorem Handler.not_reaped_idle (hi : h = .idle) (p : Int) : ¬ h.Reaped p := by
  rintro ⟨status, heq, -⟩
  rw [hi] at heq
  cases heq

/-- Between two turns of the loop no job is left to delete. -/
theorem Handler.not_reaped_loop (hi : h = .loop) (p : Int) : ¬ h.Reaped p := by
  rintro ⟨status, heq, -⟩
  rw [hi] at heq
  cases heq

/-- While the handler runs `eval` is not adding a child. -/
theorem Shell.Inv.not_adding (h : s.Inv) (hrun : s.handler ≠ .idle) : s.pc.adding = none := by
  have hm : s.pc.masked = false := by
    rw [← h.masked]
    by_contra hb
    exact hrun (h.idle (by simpa using hb))
  cases hpc : s.pc with
  | addjob => rw [hpc] at hm; cases hm
  | _ => rfl

/-- A step of `main` that does not change the table. -/
theorem Shell.Inv.gotoMask (h : s.Inv) {b : Bool} (hidle : s.handler = .idle) (hpc : s.pc = pc)
    (hold : pc.adding = none) (hnew : pc'.adding = none) (hm : pc'.masked = b)
    (hf : Foreground s.list pc') : ({ s with blocked := b }.goto pc').Inv where
  table := h.table
  foreground := hf
  masked := hm.symm
  idle _ := hidle
  adding _ hpid := by
    have hpid' : pc'.adding = some _ := hpid
    rw [hnew] at hpid'
    cases hpid'
  accounted p hp := by
    rcases h.accounted p hp with hi | hr | ha
    · exact .inl hi
    · exact .inr (.inl hr)
    · rw [hpc, hold] at ha
      cases ha

/-- A step of `main` that changes neither the table nor the signal mask. -/
theorem Shell.Inv.goto (h : s.Inv) (hidle : s.handler = .idle) (hpc : s.pc = pc)
    (hold : pc.adding = none) (hnew : pc'.adding = none) (hm : pc'.masked = pc.masked)
    (hf : Foreground s.list pc') : (s.goto pc').Inv :=
  h.gotoMask hidle hpc hold hnew (hm.trans (by rw [h.masked, hpc])) hf

/-- Printing is not seen by the invariant. -/
theorem Shell.Inv.print (h : s.Inv) (line : Line) : (s.print line).Inv := { h with }

/-- A signal sent keeps the invariant. -/
theorem Shell.Inv.kill (h : s.Inv) (pid : Int) (sig : Sig) : (s.kill pid sig).Inv := { h with }

/-- The end of the shell keeps the invariant. -/
theorem Shell.Inv.finish (h : s.Inv) (e : Ending) : (s.finish e).Inv := { h with }

/-- `listjobs` keeps the invariant. -/
theorem Shell.Inv.listjobs (h : s.Inv) : s.listjobs.Inv := { h with }

/-- `builtin_cmd` keeps the invariant. -/
theorem Shell.Inv.builtinCmd {argv : List String} {bg : Bool} (h : s.Inv)
    (hidle : s.handler = .idle) (hpc : s.pc = .builtinCmd argv bg cmdline) (hf : s.list.NoFg) :
    (s.builtinCmd argv bg cmdline).Inv := by
  have hb := s.builtinCmd_cases argv bg cmdline
  generalize s.builtinCmd argv bg cmdline = t at hb ⊢
  cases hb with
  | finish => exact h.finish _
  | jobs => exact h.listjobs.goto hidle hpc rfl rfl rfl hf
  | bgfg hb =>
    cases hb with
    | complain => exact (h.print _).goto hidle hpc rfl rfl rfl hf
    | jid => exact h.goto hidle hpc rfl rfl rfl hf
    | pid hi => exact h.goto hidle hpc rfl rfl rfl ⟨hf, h.table.names hi⟩
  | run => exact h.goto hidle hpc rfl rfl rfl hf

/-- `addjob` lists the child, or there is no slot and the child is refused. -/
theorem Shell.Inv.addjob {bg : Bool} (h : s.Inv) (hpc : s.pc = .addjob bg cmdline pid) :
    ((s.addjob bg cmdline pid).goto (.unblock bg cmdline pid)).Inv := by
  have ⟨hkid, hnew⟩ := h.adding pid (by rw [hpc]; rfl)
  have hpid := h.table.pos pid hkid
  have hf : s.list.NoFg := by
    have := h.foreground
    rwa [hpc] at this
  have hm : s.blocked = true := by rw [h.masked, hpc]; rfl
  unfold Shell.addjob
  rw [if_neg (by omega)]
  obtain ⟨i, n, hi, heq⟩ | ⟨-, heq⟩ := s.list.addjob_cases hpid (if bg then .bg else .fg) cmdline
  · rw [heq]
    have hadd : ({ s with list := ⟨Function.update s.list.jobs i
        ⟨pid, s.list.nextjid, if bg then .bg else .fg, cmdline⟩, n⟩ }.goto
          (.unblock bg cmdline pid)).Inv := by
      refine ⟨h.table.add hkid hnew n, ?_, hm, h.idle, nofun, fun p hp => ?_⟩
      · cases bg with
        | false => exact hf.add hnew n
        | true => exact hf.add_bg n
      · rcases h.accounted p hp with ⟨j, hj⟩ | hr | ha
        · refine .inl ⟨j, ?_⟩
          have hji : j ≠ i := by
            rintro rfl
            exact absurd (h.table.pos p hp) (by rw [← hj, not_not.1 hi]; decide)
          simpa [Shell.goto, Function.update_of_ne hji] using hj
        · exact .inr (.inl hr)
        · rw [hpc] at ha
          cases ha
          exact .inl ⟨i, by simp [Shell.goto]⟩
    rw [if_neg (show (1 : Int) ≠ 0 by decide)]
    split
    · exact hadd.print _
    · exact hadd
  · rw [heq, if_pos rfl]
    refine ⟨h.table, ?_, hm, h.idle, nofun, fun p hp => ?_⟩
    · cases bg with
      | false => exact hf.fore pid
      | true => exact hf
    · rcases h.accounted p hp with hj | hr | ha
      · exact .inl hj
      · exact .inr (.inl (List.mem_cons_of_mem _ hr))
      · rw [hpc] at ha
        cases ha
        exact .inr (.inl List.mem_cons_self)

/-- A job's state is written. -/
theorem Shell.Inv.setState (h : s.Inv) (hidle : s.handler = .idle) (hpc : s.pc = pc)
    (hold : pc.adding = none) (hnew : pc'.adding = none) (hm : pc'.masked = pc.masked)
    (job : Fin maxjobs) (state : JobState) (hf : Foreground (s.list.setState job state) pc') :
    ({ s with list := s.list.setState job state }.goto pc').Inv := by
  have hset : ({ s with list := s.list.setState job state, pc := pc' } : Shell).Inv := by
    refine ⟨h.table.setState job state, hf, (h.masked.trans (by rw [hpc])).trans hm.symm,
      fun _ => hidle, ?_, fun p hp => ?_⟩
    · intro pid hpid
      rw [hnew] at hpid
      cases hpid
    · rcases h.accounted p hp with ⟨i, hi⟩ | hr | ha
      · exact .inl ⟨i, by rwa [JobList.setState_pid]⟩
      · exact .inr (.inl hr)
      · rw [hpc, hold] at ha
        cases ha
  exact hset

/-- A step of `main` keeps the invariant. -/
theorem Shell.Inv.main (h : s.Inv) (hidle : s.handler = .idle) (hst : s.mainStep = some s') :
    s'.Inv := by
  have hfore : ∀ pc, s.pc = pc → Foreground s.list pc := fun _ hpc => hpc ▸ h.foreground
  cases Shell.mainStep_moves hst with
  | addjob hpc => exact h.addjob hpc
  | builtinCmd hpc => exact h.builtinCmd hidle hpc (hfore _ hpc)
  | block hpc | unblockBg hpc | unblockFg hpc =>
    have hf := hfore _ hpc
    exact h.gotoMask hidle hpc rfl rfl rfl hf
  | print hpc | status hpc =>
    have hf := hfore _ hpc
    exact (h.print _).goto hidle hpc rfl rfl rfl hf
  | @readPid isbg job jid hpc =>
    have hf := hfore _ hpc
    exact h.goto hidle hpc rfl rfl rfl ⟨hf, h.table.names_self job⟩
  | readJid hpc =>
    have hf := hfore _ hpc
    exact h.goto hidle hpc rfl rfl rfl hf
  | @kill isbg job jid pid hpc =>
    have hf := hfore _ hpc
    exact (h.kill pid .cont).goto hidle hpc rfl rfl rfl hf
  | @setBg job jid pid hpc =>
    have hf := hfore _ hpc
    have hbg : Foreground (s.list.setState job .bg) (.status job jid pid) :=
      hf.1.later (s.list.later_setState job (by decide))
    exact h.setState hidle hpc rfl (rfl : (Pc.status job jid pid).adding = none) rfl job .bg hbg
  | @setFg job jid pid hpc =>
    have hf := hfore _ hpc
    have hfg : Foreground (s.list.setState job .fg) (.waitfg pid) := hf.1.setState hf.2
    exact h.setState hidle hpc rfl (rfl : (Pc.waitfg pid).adding = none) rfl job .fg hfg
  | @waitfg pid hpc =>
    have hf := hfore _ hpc
    refine h.goto hidle hpc rfl rfl rfl ?_
    cases hi : s.list.getjobpid pid with
    | none => exact hf
    | some i => exact ⟨hf, hf.only hi⟩
  | lost => exact h.finish _
  | sleep => exact h
  | wake hpc hne =>
    have hf := hfore _ hpc
    refine h.goto hidle hpc rfl rfl rfl fun j hj => hne ?_
    rwa [← hf.2 j hj]

/-- `fork` -/
theorem Shell.Inv.fork {bg : Bool} (h : s.Inv) (hidle : s.handler = .idle)
    (hpc : s.pc = .fork bg cmdline) (hpid : 1 ≤ pid) (hnew : pid ∉ s.kids) :
    ({ s with kids := pid :: s.kids, proc := Function.update s.proc pid .running }.goto
      (.addjob bg cmdline pid)).Inv := by
  have hf := h.foreground
  rw [hpc] at hf
  have hgone := Handler.not_reaped_idle hidle
  refine ⟨h.table.fork hpid hnew (hgone pid), hf, h.masked.trans (by rw [hpc]; rfl), h.idle, ?_,
    fun p hp => ?_⟩
  · rintro p hp
    obtain rfl : pid = p := Option.some.inj hp
    refine ⟨List.mem_cons_self, fun i (hi : (s.list.jobs i).pid = pid) => ?_⟩
    have hocc : s.list.Occupied i := by
      rw [JobList.Occupied, hi]
      omega
    exact hnew (hi ▸ (h.table.listed i hocc).resolve_right (hgone _))
  · obtain rfl | hp := List.mem_cons.1 hp
    · exact .inr (.inr rfl)
    · rcases h.accounted p hp with hi | hr | ha
      · exact .inl hi
      · exact .inr (.inl hr)
      · rw [hpc] at ha
        cases ha

/-- `waitpid` -/
theorem Shell.Inv.waitpid {status : Report} (h : s.Inv) (hloop : s.handler = .loop)
    (hpid : pid ∈ s.kids) : (s.waitpid pid status).Inv := by
  have hold := h.not_adding (by rw [hloop]; nofun)
  have hidle : s.blocked ≠ true := fun hb => by
    rw [h.idle hb] at hloop
    cases hloop
  have hgone := Handler.not_reaped_loop hloop
  have hadd : ∀ p, s.pc.adding ≠ some p := fun p ha => by
    rw [hold] at ha
    cases ha
  have hreap : ∀ {status : Report}, status.terminated = true →
      ({ s with kids := s.kids.erase pid, refused := s.refused.erase pid,
                handler := .got pid status } : Shell).Inv := by
    intro status hst
    refine ⟨h.table.reap hgone hpid hst, h.foreground, h.masked, fun hb => absurd hb hidle,
      fun p ha => absurd ha (hadd p), fun p hp => ?_⟩
    have hne : p ≠ pid := by
      rintro rfl
      exact h.table.nodup.not_mem_erase hp
    rcases h.accounted p (List.mem_of_mem_erase hp) with hi | hr | ha
    · exact .inl hi
    · exact .inr (.inl ((List.mem_erase_of_ne hne).2 hr))
    · exact absurd ha (hadd p)
  cases status with
  | stopped sig =>
    refine ⟨h.table.handler hgone ?_, h.foreground, h.masked, fun hb => absurd hb hidle,
      h.adding, h.accounted⟩
    rintro p ⟨status, heq, hst⟩
    cases heq
    cases hst
  | exited => exact hreap rfl
  | signaled sig => exact hreap rfl

/-- The handler's report on a child. -/
theorem Shell.Inv.report {status : Report} (h : s.Inv) (hgot : s.handler = .got pid status) :
    (s.report pid status).Inv := by
  have hold := h.not_adding (by rw [hgot]; nofun)
  have hidle : s.blocked ≠ true := fun hb => by
    rw [h.idle hb] at hgot
    cases hgot
  have hadd : ∀ p, s.pc.adding ≠ some p := fun p ha => by
    rw [hold] at ha
    cases ha
  have hdelete : status.terminated = true →
      ({ s with list := (s.list.deletejob pid).2, handler := .loop } : Shell).Inv := by
    intro hst
    have ht := h.table
    rw [hgot] at ht
    refine ⟨ht.delete hst, h.foreground.later (h.table.later_delete pid), h.masked,
      fun hb => absurd hb hidle, fun p ha => absurd ha (hadd p), fun p hp => ?_⟩
    rcases h.accounted p hp with ⟨i, hi⟩ | hr | ha
    · refine .inl ⟨i, ?_⟩
      rw [h.table.deletejob_pid, if_neg, hi]
      rintro ⟨-, hip⟩
      exact (ht.gone pid ⟨status, rfl, hst⟩).2 (hip ▸ hi ▸ hp)
    · exact .inr (.inl hr)
    · exact absurd ha (hadd p)
  cases status with
  | exited => exact hdelete rfl
  | signaled sig => exact (hdelete rfl).print _
  | stopped sig =>
    unfold Shell.report
    dsimp only
    split
    · exact h.finish _
    · next job hjob =>
      have hgone : ∀ p, ¬ s.handler.Reaped p := by
        rintro p ⟨status, heq, hst⟩
        rw [hgot] at heq
        cases heq
        cases hst
      have hset : ({ s with list := s.list.setState job .st, handler := .loop } : Shell).Inv := by
        refine ⟨(h.table.setState job .st).handler hgone (Handler.not_reaped_loop rfl),
          h.foreground.later (s.list.later_setState job (by decide)), h.masked,
          fun hb => absurd hb hidle, fun p ha => absurd ha (hadd p), fun p hp => ?_⟩
        rcases h.accounted p hp with ⟨i, hi⟩ | hr | ha
        · exact .inl ⟨i, by rwa [JobList.setState_pid]⟩
        · exact .inr (.inl hr)
        · exact absurd ha (hadd p)
      exact hset.print _

/-- A step that leaves the table and `main` where they are keeps the invariant. -/
theorem Shell.Inv.still (h : s.Inv) (e : Still s s') : s'.Inv where
  table := by rw [e.list, e.kids, e.handler]; exact h.table
  foreground := by rw [e.list, e.pc]; exact h.foreground
  masked := by rw [e.blocked, e.pc]; exact h.masked
  idle := by rw [e.blocked, e.handler]; exact h.idle
  adding := by rw [e.list, e.kids, e.pc]; exact h.adding
  accounted := by rw [e.list, e.kids, e.pc, e.refused]; exact h.accounted

/-- Every step keeps the invariant. -/
theorem Shell.Inv.next (h : s.Inv) (hst : step s a = some s') : s'.Inv := by
  cases step_moves hst with
  | still e => exact h.still e
  | command hidle hpc =>
    have hf := h.foreground
    rw [hpc] at hf
    exact h.goto hidle hpc rfl rfl rfl hf
  | main hidle hst => exact h.main hidle hst
  | fork hidle hpc hpid hnew => exact h.fork hidle hpc hpid hnew
  | sigchld hidle hb =>
    exact { h with
      table := h.table.handler (Handler.not_reaped_idle hidle) (Handler.not_reaped_loop rfl)
      idle := fun hb' => absurd (hb.symm.trans hb') (by decide) }
  | waitpid hloop hpid _ => exact h.waitpid hloop hpid
  | report hgot => exact h.report hgot
  | sigreturn hloop =>
    exact { h with
      table := h.table.handler (Handler.not_reaped_loop hloop) (Handler.not_reaped_idle rfl)
      idle := fun _ => rfl }

/-- The invariant holds in every state the shell reaches. -/
theorem Shell.Inv.reachable {verbose : Bool} (h : Reachable step (Shell.init verbose) s) : s.Inv :=
  h.invariant (I := Shell.Inv) (Shell.Inv.init verbose) Shell.Inv.next

end Tsh
