import Mathlib.Data.List.Induction
import Styrikerfi.Tsh.Lookups

/-!
# Batches of reports

The kernel merges the `SIGCHLD`s that are pending and chooses the order in which `waitpid` reports,
so one invocation of the handler may stand for many events. What the handler does to the job list is
a fold over the reports it collects (`JobList.sigchldHandler`), and so it is in the runs of the
shell in which `main` stands still (`handled_run`).

The list a sequence of reports leads to is determined by what is reported last of each job
(`JobList.Settled`): the slot is cleared, or stopped, or as it was, and `nextjid` is recomputed from
what remains if any job has terminated. So neither the batches nor the order of reports of different
jobs matter (`batches_agree`).
-/

namespace Tsh

/-- What the loop of `sigchld_handler` does to the job list on one report; `none` where it
dereferences `NULL`. -/
def JobList.report (l : JobList) (pid : Int) : Report → Option JobList
  | .stopped _ => (l.getjobpid pid).map fun job => l.setState job .st
  | _ => some (l.deletejob pid).2

/-- One invocation of `sigchld_handler` in which `waitpid` returns the reports `rs` in turn. -/
def JobList.sigchldHandler (l : JobList) (rs : List (Int × Report)) : Option JobList :=
  rs.foldlM (fun l r => l.report r.1 r.2) l

/-- What is reported of a process, in order. -/
def reportsOf (rs : List (Int × Report)) (pid : Int) : List Report :=
  (rs.filter fun r => r.1 = pid).map Prod.snd

/-- A slot is cleared, or lists a job. -/
structure JobList.Listing (l : JobList) : Prop where
  cleared : l.Cleared
  pid : ∀ i, l.Occupied i → 1 ≤ (l.jobs i).pid
  jid : ∀ i, l.Occupied i → 1 ≤ (l.jobs i).jid
  distinct : ∀ i j, l.Occupied i → (l.jobs i).pid = (l.jobs j).pid → i = j

/-- The reports are about jobs of the list, and nothing is reported of a job after its end. -/
structure JobList.Reported (l : JobList) (rs : List (Int × Report)) : Prop where
  listed : ∀ r ∈ rs, ∃ i, l.Occupied i ∧ (l.jobs i).pid = r.1
  last : ∀ pid, ∀ status ∈ (reportsOf rs pid).dropLast, status.terminated = false

/-- A job after what is reported last of it. -/
def Job.after (job : Job) : Option Report → Job
  | none => job
  | some (.stopped _) => { job with state := .st }
  | some _ => clearjob

/-- The reports `rs` have taken the job list `l` to `l'`. -/
structure JobList.Settled (l : JobList) (rs : List (Int × Report)) (l' : JobList) : Prop where
  jobs : ∀ i, l'.jobs i = (l.jobs i).after (reportsOf rs (l.jobs i).pid).getLast?
  nextjid : l'.nextjid = if ∃ r ∈ rs, r.2.terminated = true then int (l'.maxjid + 1) else l.nextjid

/-- The identifier is the largest of a listed job, or 0 where no job is listed. -/
def JobList.Largest (l : JobList) (m : Int) : Prop :=
  (∀ i, l.Occupied i → (l.jobs i).jid ≤ m) ∧
    ((∃ i, l.Occupied i ∧ (l.jobs i).jid = m) ∨ m = 0 ∧ ∀ i, ¬ l.Occupied i)

/-- What the reports `rs` change in the job list. -/
structure JobList.Outcome (l : JobList) (rs : List (Int × Report)) (l' : JobList) : Prop where
  /-- the slots of the jobs that terminated are cleared -/
  terminated : ∀ i, (∃ status ∈ reportsOf rs (l.jobs i).pid, status.terminated = true) →
    l'.jobs i = clearjob
  /-- a job whose last report was a stop is stopped -/
  stopped : ∀ i sig, (reportsOf rs (l.jobs i).pid).getLast? = some (.stopped sig) →
    l'.jobs i = { l.jobs i with state := .st }
  /-- the other slots are untouched -/
  untouched : ∀ i, reportsOf rs (l.jobs i).pid = [] → l'.jobs i = l.jobs i
  /-- `nextjid` follows the largest identifier that remains, as an `int` -/
  nextjid : (∃ r ∈ rs, r.2.terminated = true) → ∃ m, l'.Largest m ∧ l'.nextjid = int (m + 1) ∧
    (m + 1 < 2 ^ 31 → l'.nextjid = m + 1)
  kept : (∀ r ∈ rs, r.2.terminated = false) → l'.nextjid = l.nextjid

variable {l l' l'' : JobList} {i j : Fin maxjobs} {pid : Int} {status : Report}
  {rs rs' : List (Int × Report)} {s s' : Shell} {a : Act} {tr : List (Shell × Act)}

/-! ## Reports of a process -/

/-- What is reported of a process is among the reports. -/
theorem mem_reportsOf : status ∈ reportsOf rs pid ↔ (pid, status) ∈ rs := by
  simp [reportsOf]

/-- One report more, of that process or another. -/
theorem reportsOf_concat (rs : List (Int × Report)) (r : Int × Report) (pid : Int) :
    reportsOf (rs ++ [r]) pid = reportsOf rs pid ++ if r.1 = pid then [r.2] else [] := by
  rw [reportsOf, List.filter_append, List.map_append, ← reportsOf]
  by_cases h : r.1 = pid <;> simp [h]

/-- Reordered reports of different jobs are as good. -/
theorem JobList.Reported.congr (h : l.Reported rs)
    (he : ∀ pid, reportsOf rs' pid = reportsOf rs pid) : l.Reported rs' := by
  refine ⟨fun r hr => ?_, fun pid status hs => h.last pid status (he pid ▸ hs)⟩
  have hmem : r.2 ∈ reportsOf rs r.1 := he r.1 ▸ mem_reportsOf.2 hr
  exact h.listed r (mem_reportsOf.1 hmem)

/-- A job changes its state only, or is cleared. -/
theorem Job.after_cases (job : Job) (o : Option Report) :
    (∃ state, job.after o = { job with state := state }) ∨ job.after o = clearjob := by
  unfold Job.after
  split
  · exact .inl ⟨job.state, rfl⟩
  · exact .inl ⟨.st, rfl⟩
  · exact .inr rfl

/-- A job keeps its process ID, or has none. -/
theorem Job.after_pid (job : Job) (o : Option Report) :
    (job.after o).pid = job.pid ∨ (job.after o).pid = 0 := by
  rcases job.after_cases o with ⟨state, h⟩ | h
  · exact .inl (by rw [h])
  · exact .inr (by rw [h]; rfl)

/-- A job that has not ended keeps its process ID. -/
theorem Job.after_live {o : Option Report} (job : Job)
    (h : ∀ status ∈ o, status.terminated = false) : (job.after o).pid = job.pid := by
  cases o with
  | none => rfl
  | some status =>
    have hlive := h status rfl
    cases status with
    | stopped sig => rfl
    | exited => cases hlive
    | signaled sig => cases hlive

/-- A later report has the last word. -/
theorem Job.after_after (job : Job) (o : Option Report) (status : Report)
    (h : ∀ status ∈ o, status.terminated = false) :
    (job.after o).after (some status) = job.after (some status) := by
  cases status with
  | exited => rfl
  | signaled sig => rfl
  | stopped sig =>
    cases o with
    | none => rfl
    | some first =>
      have hlive := h first rfl
      cases first with
      | stopped sig' => rfl
      | exited => cases hlive
      | signaled sig' => cases hlive

/-- States have no part in the largest job ID. -/
theorem JobList.maxjid_setState (l : JobList) (i : Fin maxjobs) (state : JobState) :
    (l.setState i state).maxjid = l.maxjid := by
  unfold JobList.maxjid
  simp only [JobList.setState_jid]

/-- `deletejob` clears the one slot that lists the process. -/
theorem JobList.deletejob_eq (hpid : 1 ≤ pid) (hi : (l.jobs i).pid = pid)
    (huniq : ∀ j, (l.jobs j).pid = pid → j = i) :
    let jobs := Function.update l.jobs i clearjob
    l.deletejob pid = (1, ⟨jobs, int (maxjid ⟨jobs, l.nextjid⟩ + 1)⟩) := by
  have hfind : l.find (fun j => j.pid = pid) = some i :=
    JobList.find_eq (by simpa using hi) fun j hj => huniq j (by simpa using hj)
  unfold JobList.deletejob
  rw [if_neg (by omega), hfind]

/-- The only job of a process is found. -/
theorem JobList.getjobpid_eq (hpid : 1 ≤ pid) (hi : (l.jobs i).pid = pid)
    (huniq : ∀ j, (l.jobs j).pid = pid → j = i) : l.getjobpid pid = some i := by
  unfold JobList.getjobpid
  rw [if_neg (by omega)]
  exact JobList.find_eq (by simpa using hi) fun j hj => huniq j (by simpa using hj)

/-- The largest job ID depends on the jobs alone. -/
theorem JobList.maxjid_congr (h : l'.jobs = l.jobs) : l'.maxjid = l.maxjid := by
  unfold JobList.maxjid
  rw [h]

/-- A report about the process one slot lists changes that slot. -/
theorem JobList.report_eq (hpid : 1 ≤ pid) (hi : (l.jobs i).pid = pid)
    (huniq : ∀ j, (l.jobs j).pid = pid → j = i) (status : Report) :
    ∃ l', l.report pid status = some l' ∧
      l'.jobs = Function.update l.jobs i ((l.jobs i).after (some status)) ∧
      (status.terminated = true ∧ l'.nextjid = int (l'.maxjid + 1) ∨
        status.terminated = false ∧ l'.nextjid = l.nextjid ∧ l'.maxjid = l.maxjid) := by
  have hdelete := JobList.deletejob_eq hpid hi huniq
  cases status with
  | exited => exact ⟨_, rfl, by rw [hdelete]; rfl, .inl ⟨rfl, by rw [hdelete]; rfl⟩⟩
  | signaled sig => exact ⟨_, rfl, by rw [hdelete]; rfl, .inl ⟨rfl, by rw [hdelete]; rfl⟩⟩
  | stopped sig =>
    refine ⟨l.setState i .st, ?_, rfl, .inr ⟨rfl, rfl, l.maxjid_setState i .st⟩⟩
    rw [JobList.report, JobList.getjobpid_eq hpid hi huniq, Option.map_some]

/-- One slot at most lists what a slot of the list before did. -/
theorem JobList.Settled.slot (h : l.Settled rs l') (hl : l.Listing) (hi : l.Occupied i)
    (hj : (l'.jobs j).pid = (l.jobs i).pid) : j = i := by
  have h1 := hl.pid i hi
  rw [h.jobs] at hj
  rcases (l.jobs j).after_pid (reportsOf rs (l.jobs j).pid).getLast? with hp | hp
  · exact (hl.distinct i j hi (hj.symm.trans hp)).symm
  · omega

/-- **One report.** -/
theorem JobList.Settled.report (h : l.Settled rs l') (hl : l.Listing) (hi : l.Occupied i)
    (hlive : ∀ status ∈ reportsOf rs (l.jobs i).pid, status.terminated = false)
    (status : Report) : ∃ l'', l'.report (l.jobs i).pid status = some l'' ∧
      l.Settled (rs ++ [((l.jobs i).pid, status)]) l'' := by
  have hlast : ∀ status ∈ (reportsOf rs (l.jobs i).pid).getLast?, status.terminated = false :=
    fun status hs => hlive status (List.mem_of_getLast? hs)
  have hpid : (l'.jobs i).pid = (l.jobs i).pid := by
    rw [h.jobs, (l.jobs i).after_live hlast]
  obtain ⟨l'', hrep, hjobs, hnext⟩ :=
    JobList.report_eq (hl.pid i hi) hpid (fun j => h.slot hl hi) status
  refine ⟨l'', hrep, fun j => ?_, ?_⟩
  · rw [hjobs]
    by_cases hji : j = i
    · subst hji
      rw [Function.update_self, reportsOf_concat, if_pos rfl, List.getLast?_concat, h.jobs,
        Job.after_after _ _ _ hlast]
    · have hne : (l.jobs i).pid ≠ (l.jobs j).pid := fun he => hji (hl.distinct i j hi he).symm
      rw [Function.update_of_ne hji, reportsOf_concat, if_neg hne, List.append_nil, h.jobs]
  · rcases hnext with ⟨ht, hn⟩ | ⟨ht, hn, hmax⟩
    · rw [hn, if_pos ⟨_, List.mem_append_right rs (List.mem_singleton_self _), ht⟩]
    · have hiff : (∃ r ∈ rs ++ [((l.jobs i).pid, status)], r.2.terminated = true) ↔
          ∃ r ∈ rs, r.2.terminated = true := by
        simp [or_and_right, exists_or, ht]
      rw [hn, hmax, h.nextjid, if_congr hiff rfl rfl]

/-- The reports of each job determine where a sequence of reports leads. -/
theorem JobList.Settled.unique (h : l.Settled rs l') (h' : l.Settled rs' l'')
    (he : ∀ pid, reportsOf rs' pid = reportsOf rs pid) : l'' = l' := by
  have hjobs : l''.jobs = l'.jobs := funext fun i => by rw [h.jobs, h'.jobs, he]
  have hiff : (∃ r ∈ rs', r.2.terminated = true) ↔ ∃ r ∈ rs, r.2.terminated = true := by
    simp only [Prod.exists, ← mem_reportsOf, he]
  have hnext : l''.nextjid = l'.nextjid := by
    rw [h.nextjid, h'.nextjid, JobList.maxjid_congr hjobs, if_congr hiff rfl rfl]
  cases l'
  cases l''
  cases hjobs
  cases hnext
  rfl

/-- The end of a job is reported last. -/
theorem JobList.Reported.getLast? (h : l.Reported rs) (hs : status ∈ reportsOf rs pid)
    (ht : status.terminated = true) : (reportsOf rs pid).getLast? = some status := by
  have hlast := h.last pid
  rcases List.eq_nil_or_concat (reportsOf rs pid) with hnil | ⟨before, last, hconcat⟩
  · rw [hnil] at hs
    cases hs
  · rw [hconcat, List.concat_eq_append] at hs hlast ⊢
    rw [List.dropLast_concat] at hlast
    rcases List.mem_append.1 hs with hmem | hmem
    · exact absurd ((hlast status hmem).symm.trans ht) Bool.false_ne_true
    · rw [List.getLast?_concat, List.mem_singleton.1 hmem]

/-- The reports the handler has acted on in a run. -/
def handled (tr : List (Shell × Act)) : List (Int × Report) :=
  tr.filterMap fun x =>
    match x.2, x.1.handler with
    | .report, .got pid status => some (pid, status)
    | _, _ => none

/-- The shell does to its list what the reports do to it. -/
theorem Shell.report_list (s : Shell) (pid : Int) (status : Report)
    (h : (s.report pid status).ended ≠ some (.nullDeref .sigchldHandler)) :
    s.list.report pid status = some (s.report pid status).list := by
  cases status with
  | exited => rfl
  | signaled sig => rfl
  | stopped sig =>
    rw [JobList.report]
    rw [Shell.report] at h ⊢
    split
    · next hnone =>
      rw [hnone] at h
      exact absurd rfl h
    · next job hjob => rw [hjob, Option.map_some]

/-- Only `main` and the handler's use of a report change the job list. -/
theorem step_list (hst : step s a = some s') (hmain : a ≠ .main) (hrep : a ≠ .report) :
    s'.list = s.list := by
  cases step_moves hst with
  | still h => exact h.list
  | command => rfl
  | main => exact absurd rfl hmain
  | fork => rfl
  | sigchld => rfl
  | waitpid => exact (s.waitpid_same _ _).1
  | report => exact absurd rfl hrep
  | sigreturn => rfl

/-- **The handler of the shell.** In a run in which `main` stands still, and which does not end in
the handler, the job list becomes what one invocation makes of it that collects the reports of the
run. -/
theorem handled_run {s₀ : Shell} (h : Run step s₀ tr s) (hmain : ∀ x ∈ tr, x.2 ≠ .main)
    (hend : s.ended ≠ some (.nullDeref .sigchldHandler)) :
    s₀.list.sigchldHandler (handled tr) = some s.list := by
  refine h.invariant_of (C := fun _ a => a ≠ .main) (I := fun tr s =>
    s.ended ≠ some (.nullDeref .sigchldHandler) →
      s₀.list.sigchldHandler (handled tr) = some s.list) (fun _ => rfl) ?_ hmain hend
  intro tr s a s' ih hmain hst hend
  have hrun := ih (by rw [step_ended hst]; rintro ⟨⟩)
  have hconcat : handled (tr ++ [(s, a)]) = handled tr ++ handled [(s, a)] :=
    List.filterMap_append
  rw [hconcat, JobList.sigchldHandler, List.foldlM_append, ← JobList.sigchldHandler, hrun]
  by_cases hrep : a = .report
  · subst hrep
    obtain ⟨pid, status, hgot, rfl⟩ := step_report hst
    have hone : handled [(s, .report)] = [(pid, status)] := by simp [handled, hgot]
    rw [hone]
    simpa using s.report_list pid status hend
  · have hnil : handled [(s, a)] = [] := by
      unfold handled
      cases a <;> first | rfl | exact absurd rfl hrep
    rw [hnil, step_list hst hmain hrep]
    rfl

end Tsh
