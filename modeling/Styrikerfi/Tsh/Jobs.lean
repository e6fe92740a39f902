import Mathlib.Algebra.Ring.Int.Defs
import Mathlib.Algebra.Ring.Nat
import Mathlib.Data.List.FinRange
import Mathlib.Logic.Function.Basic
import Styrikerfi.Lib.Run

/-!
# The job list

`tsh.c`: the table `jobs`, the counter `nextjid` and the routines that manipulate them. A search
goes over the slots in order and takes the first that fits. What the routines print is left to the
shell.

A job is listed under its process ID; `nextjid` goes on by one with every job added and wraps after
`maxjobs`, and every deletion sets it anew. So the identifier given next may still be in use, and
then the list does not identify its jobs any more (`JobList.Identified.next_iff`).
-/

namespace Tsh

/-- max jobs at any point in time -/
abbrev maxjobs : Nat := 16

/-- The value of an `int` computation, which wraps. -/
def int (n : Int) : Int := n.bmod (2 ^ 32)

/-- An `int` in range is itself. -/
theorem int_of_lt {n : Int} (h0 : 0 ≤ n) (h : n < 2 ^ 31) : int n = n :=
  Int.bmod_eq_of_le (by omega) (by omega)

/-- Job states. -/
inductive JobState where
  | undef | fg | bg | st
  deriving DecidableEq

/-- `struct job_t` -/
structure Job where
  pid : Int
  jid : Int
  state : JobState
  cmdline : String
  deriving DecidableEq

/-- `jobs` and `nextjid`. -/
structure JobList where
  jobs : Fin maxjobs → Job
  nextjid : Int

/-- Clear the entries in a job struct. -/
def clearjob : Job := ⟨0, 0, .undef, ""⟩

/-- Initialize the job list. -/
def initjobs : JobList := ⟨fun _ => clearjob, 1⟩

/-- The first slot whose job fits. -/
def JobList.find (l : JobList) (p : Job → Bool) : Option (Fin maxjobs) :=
  (List.finRange maxjobs).find? fun i => p (l.jobs i)

/-- Returns largest allocated job ID. -/
def JobList.maxjid (l : JobList) : Int :=
  (List.finRange maxjobs).foldl (fun max i => if (l.jobs i).jid > max then (l.jobs i).jid else max) 0

/-- Add a job to the job list. -/
def JobList.addjob (l : JobList) (pid : Int) (state : JobState) (cmdline : String) :
    Int × JobList :=
  if pid < 1 then (0, l)
  else
    match l.find fun j => j.pid = 0 with
    | some i =>
      let jid := l.nextjid
      let nextjid := int (l.nextjid + 1)
      (1, { jobs := Function.update l.jobs i ⟨pid, jid, state, cmdline⟩,
            nextjid := if nextjid > maxjobs then 1 else nextjid })
    | none => (0, l)

/-- Delete a job whose PID=pid from the job list. -/
def JobList.deletejob (l : JobList) (pid : Int) : Int × JobList :=
  if pid < 1 then (0, l)
  else
    match l.find fun j => j.pid = pid with
    | some i =>
      let l := { l with jobs := Function.update l.jobs i clearjob }
      (1, { l with nextjid := int (l.maxjid + 1) })
    | none => (0, l)

/-- Return PID of current foreground job, 0 if no such job. -/
def JobList.fgpid (l : JobList) : Int :=
  match l.find fun j => j.state = .fg with
  | some i => (l.jobs i).pid
  | none => 0

/-- Find a job (by PID) on the job list; `none` is `NULL`. -/
def JobList.getjobpid (l : JobList) (pid : Int) : Option (Fin maxjobs) :=
  if pid < 1 then none else l.find fun j => j.pid = pid

/-- Find a job (by JID) on the job list. -/
def JobList.getjobjid (l : JobList) (jid : Int) : Option (Fin maxjobs) :=
  if jid < 1 then none else l.find fun j => j.jid = jid

/-- Map process ID to job ID. -/
def JobList.pid2jid (l : JobList) (pid : Int) : Int :=
  if pid < 1 then 0
  else
    match l.find fun j => j.pid = pid with
    | some i => (l.jobs i).jid
    | none => 0

/-- `job->state = state` -/
def JobList.setState (l : JobList) (i : Fin maxjobs) (state : JobState) : JobList :=
  { l with jobs := Function.update l.jobs i { l.jobs i with state := state } }

variable {l l' : JobList} {p : Job → Bool} {i j : Fin maxjobs} {pid jid : Int} {state : JobState}
  {cmdline : String}

/-! ## Searches -/

/-- A slot found fits. -/
theorem JobList.find_some (h : l.find p = some i) : p (l.jobs i) = true :=
  List.find?_some (p := fun i => p (l.jobs i)) h

/-- Nothing is found where no job satisfies the predicate. -/
theorem JobList.find_none : l.find p = none ↔ ∀ i, p (l.jobs i) = false := by
  unfold JobList.find
  rw [List.find?_eq_none]
  exact ⟨fun h i => by simpa using h i (List.mem_finRange i), fun h i _ => by simp [h i]⟩

/-- Where one slot at most fits, the search finds it. -/
theorem JobList.find_eq (hp : p (l.jobs i) = true)
    (huniq : ∀ j, p (l.jobs j) = true → j = i) : l.find p = some i := by
  cases h : l.find p with
  | none => rw [JobList.find_none.1 h i] at hp; cases hp
  | some j => rw [huniq j (JobList.find_some h)]

/-! ## The largest identifier -/

/-- The loop of `maxjid`: the largest value met, or the one it started with. -/
theorem foldl_largest {ι : Type*} (f : ι → Int) (is : List ι) (a : Int) :
    let m := is.foldl (fun max i => if f i > max then f i else max) a
    a ≤ m ∧ (∀ i ∈ is, f i ≤ m) ∧ (m = a ∨ ∃ i ∈ is, f i = m) := by
  induction is generalizing a with
  | nil => exact ⟨le_refl a, fun _ h => absurd h List.not_mem_nil, .inl rfl⟩
  | cons i is ih =>
    obtain ⟨hle, hall, hmax⟩ := ih (if f i > a then f i else a)
    have hstep : a ≤ (if f i > a then f i else a) ∧ f i ≤ (if f i > a then f i else a) := by
      split <;> omega
    refine ⟨hstep.1.trans hle, List.forall_mem_cons.2 ⟨hstep.2.trans hle, hall⟩, ?_⟩
    rcases hmax with hmax | ⟨j, hj, hm⟩
    · by_cases hi : f i > a
      · rw [if_pos hi] at hmax
        exact .inr ⟨i, List.mem_cons_self, by rw [List.foldl_cons, if_pos hi, hmax]⟩
      · rw [if_neg hi] at hmax
        exact .inl (by rw [List.foldl_cons, if_neg hi, hmax])
    · exact .inr ⟨j, List.mem_cons_of_mem _ hj, hm⟩

/-- `maxjid` is no less than the 0 it starts with. -/
theorem JobList.maxjid_nonneg (l : JobList) : 0 ≤ l.maxjid :=
  (foldl_largest (fun i => (l.jobs i).jid) (List.finRange maxjobs) 0).1

/-- No job has a larger identifier than `maxjid`. -/
theorem JobList.le_maxjid (l : JobList) (i : Fin maxjobs) : (l.jobs i).jid ≤ l.maxjid :=
  (foldl_largest (fun i => (l.jobs i).jid) (List.finRange maxjobs) 0).2.1 i (List.mem_finRange i)

/-- `maxjid` is below a bound on all identifiers. -/
theorem JobList.maxjid_lt {m : Int} (h0 : 0 < m) (h : ∀ i, (l.jobs i).jid < m) : l.maxjid < m := by
  rcases (foldl_largest (fun i => (l.jobs i).jid) (List.finRange maxjobs) 0).2.2 with hz | ⟨i, -, hi⟩
  · exact lt_of_eq_of_lt hz h0
  · exact lt_of_eq_of_lt hi.symm (h i)

/-! ## Job identifiers -/

/-- The slot is occupied. -/
def JobList.Occupied (l : JobList) (i : Fin maxjobs) : Prop := (l.jobs i).pid ≠ 0

instance (l : JobList) (i : Fin maxjobs) : Decidable (l.Occupied i) :=
  inferInstanceAs (Decidable (_ ≠ _))

/-- Job identifiers are positive and identify the jobs. -/
structure JobList.Identified (l : JobList) : Prop where
  pos : ∀ i, l.Occupied i → 1 ≤ (l.jobs i).jid
  distinct : ∀ i j, l.Occupied i → l.Occupied j → (l.jobs i).jid = (l.jobs j).jid → i = j
  found : ∀ i, l.Occupied i → l.getjobjid (l.jobs i).jid = some i

/-- A call on the job list. -/
inductive JobCall where
  | addjob (pid : Int) (state : JobState) (cmdline : String)
  | deletejob (pid : Int)

/-- The job list after a call; a job is added with a positive process ID that is not listed. -/
def JobList.callStep (l : JobList) : JobCall → Option JobList
  | .addjob pid state cmdline =>
    if 1 ≤ pid ∧ ∀ i, (l.jobs i).pid ≠ pid then some (l.addjob pid state cmdline).2 else none
  | .deletejob pid => some (l.deletejob pid).2

/-- If the call adds a job, the identifier to be given is positive and not in use. -/
def JobList.JidFree (l : JobList) : JobCall → Prop
  | .addjob _ _ _ =>
    (∃ i, ¬ l.Occupied i) → 1 ≤ l.nextjid ∧ ∀ i, l.Occupied i → (l.jobs i).jid ≠ l.nextjid
  | .deletejob _ => True

/-- A slot that lists no job is cleared. -/
def JobList.Cleared (l : JobList) : Prop := ∀ i, ¬ l.Occupied i → l.jobs i = clearjob

/-- `addjob` fills a slot that was empty and counts, or there is none. -/
theorem JobList.addjob_puts (l : JobList) (hpid : 1 ≤ pid) (state : JobState) (cmdline : String) :
    (∃ i, ¬ l.Occupied i ∧ l.addjob pid state cmdline =
        (1, ⟨Function.update l.jobs i ⟨pid, l.nextjid, state, cmdline⟩,
          if int (l.nextjid + 1) > maxjobs then 1 else int (l.nextjid + 1)⟩)) ∨
      (∀ i, l.Occupied i) ∧ l.addjob pid state cmdline = (0, l) := by
  unfold JobList.addjob
  rw [if_neg (by omega)]
  split
  · next i hi =>
    have hpid0 := JobList.find_some hi
    exact .inl ⟨i, by simpa [JobList.Occupied] using hpid0, rfl⟩
  · next hnone =>
    refine .inr ⟨fun i => ?_, rfl⟩
    simpa [JobList.Occupied] using JobList.find_none.1 hnone i

/-- `addjob` fills a slot that was empty, or there is none. -/
theorem JobList.addjob_cases (l : JobList) (hpid : 1 ≤ pid) (state : JobState)
    (cmdline : String) :
    (∃ i n, ¬ l.Occupied i ∧ l.addjob pid state cmdline =
        (1, ⟨Function.update l.jobs i ⟨pid, l.nextjid, state, cmdline⟩, n⟩)) ∨
      (∀ i, l.Occupied i) ∧ l.addjob pid state cmdline = (0, l) :=
  (l.addjob_puts hpid state cmdline).imp_left fun ⟨i, hi, heq⟩ => ⟨i, _, hi, heq⟩

/-- `deletejob` clears a slot listing the process and sets the counter anew, or there is none. -/
theorem JobList.deletejob_takes (l : JobList) (pid : Int) :
    (∃ i, 1 ≤ pid ∧ (l.jobs i).pid = pid ∧ l.deletejob pid =
        (1, ⟨Function.update l.jobs i clearjob,
          int (maxjid ⟨Function.update l.jobs i clearjob, l.nextjid⟩ + 1)⟩)) ∨
      (1 ≤ pid → ∀ i, (l.jobs i).pid ≠ pid) ∧ l.deletejob pid = (0, l) := by
  unfold JobList.deletejob
  by_cases hpid : pid < 1
  · rw [if_pos hpid]
    exact .inr ⟨fun h => absurd hpid (by omega), rfl⟩
  · rw [if_neg hpid]
    split
    · next i hi =>
      have hpid' := JobList.find_some hi
      exact .inl ⟨i, by omega, by simpa using hpid', rfl⟩
    · next hnone =>
      refine .inr ⟨fun _ i => ?_, rfl⟩
      simpa using JobList.find_none.1 hnone i

/-- `deletejob` clears a slot listing the process, or there is none. -/
theorem JobList.deletejob_cases (l : JobList) (pid : Int) :
    (∃ i n, 1 ≤ pid ∧ (l.jobs i).pid = pid ∧
        l.deletejob pid = (1, ⟨Function.update l.jobs i clearjob, n⟩)) ∨
      (1 ≤ pid → ∀ i, (l.jobs i).pid ≠ pid) ∧ l.deletejob pid = (0, l) :=
  (l.deletejob_takes pid).imp_left fun ⟨i, hpid, hi, heq⟩ => ⟨i, _, hpid, hi, heq⟩

/-- The empty list is cleared. -/
theorem initjobs_cleared : initjobs.Cleared := fun _ _ => rfl

/-- Writing a job or a cleared entry leaves the empty slots cleared. -/
theorem JobList.Cleared.update (h : l.Cleared) {job : Job} (hjob : job.pid ≠ 0 ∨ job = clearjob)
    (n : Int) : JobList.Cleared ⟨Function.update l.jobs i job, n⟩ := by
  intro j hj
  by_cases hji : j = i
  · subst hji
    rw [JobList.Occupied] at hj
    simp only [Function.update_self, not_not] at hj ⊢
    exact hjob.resolve_left (not_not.2 hj)
  · simp only [JobList.Occupied, Function.update_of_ne hji] at hj ⊢
    exact h j hj

/-- `addjob` keeps the empty slots cleared. -/
theorem JobList.Cleared.addjob (h : l.Cleared) (hpid : 1 ≤ pid) :
    (l.addjob pid state cmdline).2.Cleared := by
  obtain ⟨i, n, -, heq⟩ | ⟨-, heq⟩ := l.addjob_cases hpid state cmdline
  · rw [heq]
    exact h.update (.inl (show pid ≠ 0 by omega)) n
  · rwa [heq]

/-- `deletejob` keeps the empty slots cleared. -/
theorem JobList.Cleared.deletejob (h : l.Cleared) (pid : Int) : (l.deletejob pid).2.Cleared := by
  obtain ⟨i, n, -, -, heq⟩ | ⟨-, heq⟩ := l.deletejob_cases pid
  · rw [heq]
    exact h.update (.inr rfl) n
  · rwa [heq]

/-- **Step lemma.** -/
theorem JobList.Cleared.next_call {k : JobCall} (h : l.Cleared) (hst : l.callStep k = some l') :
    l'.Cleared := by
  cases k with
  | addjob pid state cmdline =>
    simp only [JobList.callStep] at hst
    split at hst
    · next hpid =>
      cases hst
      exact h.addjob hpid.1
    · cases hst
  | deletejob pid =>
    cases hst
    exact h.deletejob pid

/-- Distinct positive identifiers are found. -/
theorem JobList.Cleared.identified (h : l.Cleared)
    (hpos : ∀ i, l.Occupied i → 1 ≤ (l.jobs i).jid)
    (hd : ∀ i j, l.Occupied i → l.Occupied j → (l.jobs i).jid = (l.jobs j).jid → i = j) :
    l.Identified := by
  refine ⟨hpos, hd, fun i hi => ?_⟩
  have hi1 := hpos i hi
  unfold JobList.getjobjid
  rw [if_neg (by omega)]
  refine JobList.find_eq (by simp) fun j hj => ?_
  have hjid : (l.jobs j).jid = (l.jobs i).jid := by simpa using hj
  refine hd j i (fun hpid => ?_) hi hjid
  rw [h j (not_not.2 hpid)] at hjid
  exact absurd hi1 (by rw [← hjid]; decide)

/-- A job added in an empty slot keeps the identifiers apart exactly when its own is free. -/
theorem JobList.Identified.addjob_iff (h : l.Identified) (hc : l.Cleared) (hpid : 1 ≤ pid)
    (hi : ¬ l.Occupied i) (n : Int) :
    JobList.Identified ⟨Function.update l.jobs i ⟨pid, l.nextjid, state, cmdline⟩, n⟩ ↔
      1 ≤ l.nextjid ∧ ∀ j, l.Occupied j → (l.jobs j).jid ≠ l.nextjid := by
  have hself :
      JobList.Occupied ⟨Function.update l.jobs i ⟨pid, l.nextjid, state, cmdline⟩, n⟩ i := by
    simp only [JobList.Occupied, Function.update_self]
    omega
  constructor
  · intro hid
    refine ⟨by simpa using hid.pos i hself, fun j hj hjid => ?_⟩
    have hji : j ≠ i := fun hji => hi (hji ▸ hj)
    refine hji (hid.distinct j i ?_ hself ?_)
    · simpa [JobList.Occupied, Function.update_of_ne hji] using hj
    · simpa [Function.update_of_ne hji] using hjid
  · rintro ⟨hpos, hnew⟩
    refine (hc.update (.inl (show pid ≠ 0 by omega)) n).identified (fun a ha => ?_)
      fun a b ha hb hab => ?_
    · simp only [JobList.Occupied] at ha ⊢
      by_cases hai : a = i
      · simpa only [hai, Function.update_self] using hpos
      · simp only [Function.update_of_ne hai] at ha ⊢
        exact h.pos a ha
    · simp only [JobList.Occupied] at ha hb
      by_cases hai : a = i <;> by_cases hbi : b = i
      · rw [hai, hbi]
      · simp only [hai, Function.update_self, Function.update_of_ne hbi] at hab hb
        exact absurd hab.symm (hnew b hb)
      · simp only [hbi, Function.update_self, Function.update_of_ne hai] at hab ha
        exact absurd hab (hnew a ha)
      · simp only [Function.update_of_ne hai, Function.update_of_ne hbi] at ha hb hab
        exact h.distinct a b ha hb hab

/-- A deletion keeps the identifiers apart. -/
theorem JobList.Identified.deletejob (h : l.Identified) (hc : l.Cleared) (pid : Int) :
    (l.deletejob pid).2.Identified := by
  obtain ⟨i, n, -, -, heq⟩ | ⟨-, heq⟩ := l.deletejob_cases pid
  · rw [heq]
    have hold : ∀ {a}, JobList.Occupied ⟨Function.update l.jobs i clearjob, n⟩ a →
        a ≠ i ∧ l.Occupied a := by
      intro a ha
      have hai : a ≠ i := by
        rintro rfl
        simp [JobList.Occupied, clearjob] at ha
      exact ⟨hai, by simpa [JobList.Occupied, Function.update_of_ne hai] using ha⟩
    refine (hc.update (.inr rfl) n).identified (fun a ha => ?_) fun a b ha hb hab => ?_
    · simpa [Function.update_of_ne (hold ha).1] using h.pos a (hold ha).2
    · simp only [Function.update_of_ne (hold ha).1, Function.update_of_ne (hold hb).1] at hab
      exact h.distinct a b (hold ha).2 (hold hb).2 hab
  · rwa [heq]

/-- A call keeps the identifiers apart exactly when the one it gives is free. -/
theorem JobList.Identified.next_iff {k : JobCall} (h : l.Identified) (hc : l.Cleared)
    (hst : l.callStep k = some l') : l'.Identified ↔ l.JidFree k := by
  cases k with
  | addjob pid state cmdline =>
    simp only [JobList.callStep] at hst
    split at hst
    case isFalse => cases hst
    case isTrue hpid =>
      obtain rfl := Option.some.inj hst
      obtain ⟨i, n, hi, heq⟩ | ⟨hfull, heq⟩ := l.addjob_cases hpid.1 state cmdline
      · rw [heq]
        exact (h.addjob_iff hc hpid.1 hi n).trans ⟨fun hfree _ => hfree, fun hfree => hfree ⟨i, hi⟩⟩
      · rw [heq]
        exact iff_of_true h fun hex => absurd hex fun ⟨i, hi⟩ => hi (hfull i)
  | deletejob pid =>
    obtain rfl := Option.some.inj hst
    exact iff_of_true (h.deletejob hc pid) trivial

end Tsh
