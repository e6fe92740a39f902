import Styrikerfi.Tsh.Batches
import Styrikerfi.Tsh.Bgfg

/-!
# The job `do_bgfg` acts on

`do_bgfg` accepts an argument by its characters and resolves it through `atoi`, which saturates at
64 bits and then keeps the low 32: the number looked up is the number written only if that is an
`int` (`atoi_eq_iff`). So a job may be resumed that the argument does not name, and no other
argument is misunderstood (`named_iff`).

The lookup and what follows are steps of `main`; `Shell.bgfg` takes them with nothing in between.
-/

namespace Tsh

/-- What a job is named by. -/
def Job.ident (job : Job) (byJid : Bool) : Int := if byJid then job.jid else job.pid

/-- `main` goes on, if it does not wait for something else. -/
def Shell.goOn (s : Shell) : Shell := s.mainStep.getD s

/-- `do_bgfg` with nothing in between, to where it returns or sleeps in `waitfg`. -/
def Shell.bgfg (s : Shell) (isbg : Bool) (args : List String) : Shell :=
  (s.doBgfg isbg args).goOn.goOn.goOn.goOn

/-- A job list in which a process and a job ID, each an `int`, identify a job. -/
structure JobList.Identifying (l : JobList) : Prop extends l.Listing where
  jids : ∀ i j, l.Occupied i → l.Occupied j → (l.jobs i).jid = (l.jobs j).jid → i = j
  pid_lt : ∀ i, l.Occupied i → (l.jobs i).pid < 2 ^ 31
  jid_lt : ∀ i, l.Occupied i → (l.jobs i).jid < 2 ^ 31

variable {l : JobList} {i j : Fin maxjobs} {s s' : Shell} {isbg byJid : Bool} {cs : List Char}
  {arg : String} {rest : List String} {n : Int}

/-! ## Numbers -/

/-- `getjobjid` or `getjobpid`. -/
def JobList.lookup (l : JobList) (byJid : Bool) (n : Int) : Option (Fin maxjobs) :=
  if byJid then l.getjobjid n else l.getjobpid n

/-- The name of a listed job is a positive `int`. -/
theorem JobList.Identifying.ident (h : l.Identifying) (byJid : Bool) (hi : l.Occupied i) :
    1 ≤ (l.jobs i).ident byJid ∧ (l.jobs i).ident byJid < 2 ^ 31 := by
  cases byJid with
  | true => exact ⟨h.jid i hi, h.jid_lt i hi⟩
  | false => exact ⟨h.pid i hi, h.pid_lt i hi⟩

/-- A positive number is not that of an empty slot. -/
theorem JobList.Cleared.occupied (h : l.Cleared) (hn : 1 ≤ (l.jobs i).ident byJid) :
    l.Occupied i := by
  by_contra hfree
  rw [h i hfree] at hn
  cases byJid <;> exact absurd hn (by decide)

/-- A step of `main` that is possible is taken. -/
theorem exec_goOn {as : List Act} (hend : s.ended = none) (hidle : s.handler = .idle)
    (hst : s.mainStep ≠ none) : exec step s (.main :: as) = exec step s.goOn as := by
  obtain ⟨s', hs'⟩ := Option.ne_none_iff_exists'.1 hst
  rw [exec, step_main hend hidle, Shell.goOn, hs']
  rfl

/-- The steps taken are steps of `main`. -/
theorem exec_bgfg {bg : Bool} {cmdline : String} {args : List String} (hend : s.ended = none)
    (hidle : s.handler = .idle)
    (hpc : s.pc = .builtinCmd ((if isbg then "bg" else "fg") :: args) bg cmdline) :
    ∃ n, exec step s (List.replicate n .main) = some (s.bgfg isbg args) := by
  have hcmd : step s .main = some (s.doBgfg isbg args) := by
    rw [step_main hend hidle]
    cases isbg <;> simp [Shell.mainStep, hpc, Shell.builtinCmd]
  have hcases := s.doBgfg_cases isbg args
  unfold Shell.bgfg
  generalize s.doBgfg isbg args = t at hcmd hcases ⊢
  cases hcases with
  | complain => exact ⟨1, Option.bind_eq_some_iff.2 ⟨_, hcmd, rfl⟩⟩
  | jid | pid =>
    refine ⟨5, Option.bind_eq_some_iff.2 ⟨_, hcmd, ?_⟩⟩
    -- the lookup is followed by two steps on the job and two on its state
    change exec step _ [.main, .main, .main, .main] = _
    cases isbg
    all_goals
      rw [exec_goOn, exec_goOn, exec_goOn, exec_goOn]
      · rfl
      all_goals first | exact hend | exact hidle | exact Option.some_ne_none _

end Tsh
