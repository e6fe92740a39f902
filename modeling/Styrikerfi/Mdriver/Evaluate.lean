import Styrikerfi.Mdriver.Accept
import Mathlib.Data.List.Forall2

/-!
# The evaluation of an allocator over its traces

The rest of `mdriver.c` as far as it drives the allocator: `eval_mm_util`, which measures the high
water mark of a trace, `eval_mm_speed`, which is timed, and the loop of `main` over the traces with
what it counts and prints. Times are not modelled, and a ratio is the pair of its terms.

`main` goes on after a check that failed, on the memory the check has left. `checkMmValid` is the
check with the driver it leaves in every case; it is the check of `Driver.lean` (`checkMmValid_eq`).
The summary of a run is that of its traces: one error line for each trace that is not valid, and a
performance index exactly when there is none (`evalTraces_report`).
-/

namespace Mdriver

open Machine32 Malloc

/-- The heap size in bytes. -/
def Memlib.memHeapsize (m : Memlib) : Nat := wsub m.memBrk m.memStartBrk

section
variable {τ : Type}

/-! ## The check, with the driver it leaves -/

/-- One operation of the trace; where it ends the check, with the driver it leaves. -/
def checkOp (A : Allocator τ) (tracenum opnum : Nat) (d : Driver τ) (op : TraceOp) :
    Except (Stop × Driver τ) (Driver τ) :=
  match op.type with
  | .alloc =>
    match A.mmMalloc d.st (ofInt op.size) with
    | none => .error (.lost, d)
    | some (p, st) =>
      let d := { d with st := st }
      if p = 0 then .error (mallocError tracenum opnum "mm_malloc failed.", d)
      else
        match addRange st.lib d.ranges p op.size tracenum opnum with
        | .error e => .error (e, d)
        | .ok ranges => .ok (d.remember st ranges p op)
  | .realloc =>
    let oldp := d.blocks op.index
    match A.mmRealloc d.st oldp (ofInt op.size) with
    | none => .error (.lost, d)
    | some (newp, st) =>
      let d := { d with st := st }
      if newp = 0 then .error (mallocError tracenum opnum "mm_realloc failed.", d)
      else
        let d := { d with ranges := removeRange d.ranges oldp }
        match addRange st.lib d.ranges newp op.size tracenum opnum with
        | .error e => .error (e, d)
        | .ok ranges =>
          if preserved st.mem newp (toInt (d.blockSizes op.index)) op.size op.index then
            .ok (d.remember st ranges newp op)
          else
            .error (mallocError tracenum opnum
              "mm_realloc did not preserve the data from old block", { d with ranges := ranges })
  | .free =>
    let p := d.blocks op.index
    let d := { d with ranges := removeRange d.ranges p }
    match A.mmFree d.st p with
    | none => .error (.lost, d)
    | some st => .ok { d with st := st }

/-- The operations from the one with number `opnum` on. -/
def checkOps (A : Allocator τ) (tracenum : Nat) : Nat → Driver τ → List TraceOp →
    Except (Stop × Driver τ) (Driver τ)
  | _, d, [] => .ok d
  | opnum, d, op :: ops => do
    let d ← checkOp A tracenum opnum d op
    checkOps A tracenum (opnum + 1) d ops

/-- `eval_mm_valid`, with the driver it leaves. -/
def checkMmValid (A : Allocator τ) (tracenum : Nat) (d : Driver τ) (ops : List TraceOp) :
    Except (Stop × Driver τ) (Driver τ) :=
  match A.mmInit { d.st with lib := d.st.lib.memResetBrk } with
  | none => .error (.lost, d)
  | some (r, st) =>
    let d := { d with st := st, ranges := [] }
    if r < 0 then .error (mallocError tracenum 0 "mm_init failed.", d)
    else checkOps A tracenum 0 d ops

/-! ## eval_mm_util and eval_mm_speed -/

/-- How the driver ends before its traces do. -/
inductive Fatal where
  /-- an application error is printed, and the driver exits -/
  | appError (msg : String)
  /-- an assertion fails -/
  | abort
  /-- the allocator does not return -/
  | lost

/-- The result of a call, if it returns. -/
def answered {α : Type} : Option α → Except Fatal α
  | some a => .ok a
  | none => .error .lost

/-- The heap is reset and the allocator initialized. -/
def replayInit (A : Allocator τ) (d : Driver τ) (msg : String) : Except Fatal (Driver τ) := do
  let (r, st) ← answered (A.mmInit { d.st with lib := d.st.lib.memResetBrk })
  if r < 0 then .error (.appError msg) else .ok { d with st := st }

/-- A measurement of space: the driver, the current total size of all allocated blocks and the
largest one so far, both `int`. -/
structure Usage (τ : Type) where
  driver : Driver τ
  totalSize : Int
  maxTotalSize : Int

/-- The statistics with `n` bytes more. -/
def Usage.grow (u : Usage τ) (d : Driver τ) (n : Int) : Usage τ where
  driver := d
  totalSize := u.totalSize + n
  maxTotalSize := if u.maxTotalSize < u.totalSize + n then u.totalSize + n else u.maxTotalSize

/-- Remembers region and size. -/
def Driver.record (d : Driver τ) (st : State τ) (p : Nat) (op : TraceOp) : Driver τ :=
  { d with
    st := st
    blocks := Function.update d.blocks op.index p
    blockSizes := Function.update d.blockSizes op.index (ofInt op.size) }

/-- One operation of `eval_mm_util`. -/
def utilOp (A : Allocator τ) (u : Usage τ) (op : TraceOp) : Except Fatal (Usage τ) :=
  let d := u.driver
  match op.type with
  | .alloc => do
    let (p, st) ← answered (A.mmMalloc d.st (ofInt op.size))
    if p = 0 then .error (.appError "mm_malloc failed in eval_mm_util")
    else .ok (u.grow (d.record st p op) op.size)
  | .realloc => do
    let oldsize := toInt (d.blockSizes op.index)
    let (newp, st) ← answered (A.mmRealloc d.st (d.blocks op.index) (ofInt op.size))
    if newp = 0 then .error (.appError "mm_realloc failed in eval_mm_util")
    else .ok (u.grow (d.record st newp op) (op.size - oldsize))
  | .free => do
    let size := toInt (d.blockSizes op.index)
    let st ← answered (A.mmFree d.st (d.blocks op.index))
    .ok { u with driver := { d with st := st }, totalSize := u.totalSize - size }

/-- Evaluates the space utilization on the operations of a trace: the high water mark, which is to
be divided by the heap size, with the driver as it is left. -/
def evalMmUtil (A : Allocator τ) (d : Driver τ) (ops : List TraceOp) :
    Except Fatal ((Int × Nat) × Driver τ) := do
  let d ← replayInit A d "mm_init failed in eval_mm_util"
  let u ← ops.foldlM (utilOp A) ⟨d, 0, 0⟩
  .ok ((u.maxTotalSize, u.driver.st.lib.memHeapsize), u.driver)

/-- One operation of `eval_mm_speed`. -/
def speedOp (A : Allocator τ) (d : Driver τ) (op : TraceOp) : Except Fatal (Driver τ) :=
  match op.type with
  | .alloc => do
    let (p, st) ← answered (A.mmMalloc d.st (ofInt op.size))
    if p = 0 then .error (.appError "mm_malloc error in eval_mm_speed")
    else .ok { d with st := st, blocks := Function.update d.blocks op.index p }
  | .realloc => do
    let (newp, st) ← answered (A.mmRealloc d.st (d.blocks op.index) (ofInt op.size))
    if newp = 0 then .error (.appError "mm_realloc error in eval_mm_speed")
    else .ok { d with st := st, blocks := Function.update d.blocks op.index newp }
  | .free => do
    let st ← answered (A.mmFree d.st (d.blocks op.index))
    .ok { d with st := st }

/-- The function whose running time is measured. -/
def evalMmSpeed (A : Allocator τ) (ops : List TraceOp) (d : Driver τ) :
    Except Fatal (Driver τ) := do
  let d ← replayInit A d "mm_init failed in eval_mm_speed"
  ops.foldlM (speedOp A) d

/-- The runs of `ftimer_gettod(f, argp, n)`. -/
def ftimerGettod (f : Driver τ → Except Fatal (Driver τ)) : Nat → Driver τ → Except Fatal (Driver τ)
  | 0, d => .ok d
  | n + 1, d => do
    let d ← f d
    ftimerGettod f n d

/-- The runs that are timed for a call of `fsecs`. -/
def timedRuns : Nat := 10

/-! ## The loop of main -/

/-- A trace as it has been read, with what `malloc` has left in its two arrays. -/
structure Trace where
  ops : List TraceOp
  blocks : Nat → Nat
  blockSizes : Nat → Nat

/-- The stats of a trace that do not depend on the time. -/
structure Stats where
  /-- number of ops in the trace -/
  ops : Nat
  /-- was the trace processed correctly by the allocator? -/
  valid : Bool
  /-- space utilization, if it was measured -/
  util : Option (Int × Nat)
  deriving DecidableEq

/-- What `main` keeps from one trace to the next: the memory and the allocator, the range list, the
number of errors, what has been printed, and the stats. -/
structure World (τ : Type) where
  st : State τ
  ranges : List Range
  errors : Nat
  printed : List String
  stats : List Stats

/-- One trace. -/
def evalTrace (A : Allocator τ) (i : Nat) (w : World τ) (t : Trace) : Except Fatal (World τ) :=
  match checkMmValid A i ⟨w.st, w.ranges, t.blocks, t.blockSizes⟩ t.ops with
  | .error (.mallocError line, d) =>
    .ok ⟨d.st, d.ranges, w.errors + 1, w.printed ++ [line],
      w.stats ++ [⟨t.ops.length, false, none⟩]⟩
  | .error (.abort, _) => .error .abort
  | .error (.lost, _) => .error .lost
  | .ok d => do
    let (util, d) ← evalMmUtil A d t.ops
    let d ← ftimerGettod (evalMmSpeed A t.ops) timedRuns d
    .ok ⟨d.st, d.ranges, w.errors, w.printed, w.stats ++ [⟨t.ops.length, true, some util⟩]⟩

/-- The traces from the one with number `i` on. -/
def evalTraces (A : Allocator τ) : Nat → World τ → List Trace → Except Fatal (World τ)
  | _, w, [] => .ok w
  | i, w, t :: ts => do
    let w ← evalTrace A i w t
    evalTraces A (i + 1) w ts

/-- The aggregate that `main` prints. -/
inductive Summary where
  /-- the performance index -/
  | perfIndex
  /-- `Terminated with %d errors` -/
  | terminated (errors : Nat)
  deriving DecidableEq

/-- The summary of a run. -/
def World.summary (w : World τ) : Summary :=
  if w.errors = 0 then .perfIndex else .terminated w.errors

/-- The number of traces processed correctly. -/
def World.numcorrect (w : World τ) : Nat :=
  w.stats.foldl (fun n s => if s.valid then n + 1 else n) 0

/-! ## The check -/

variable {A : Allocator τ} {tracenum opnum i : Nat} {d d' : Driver τ} {op : TraceOp}
  {ops : List TraceOp} {w w' : World τ} {t : Trace} {ts : List Trace} {e : Stop} {line : String}

/-- An operation with the driver it leaves is the operation. -/
theorem checkOp_eq (A : Allocator τ) (tracenum opnum : Nat) (d : Driver τ) (op : TraceOp) :
    (checkOp A tracenum opnum d op).mapError Prod.fst = evalOp A tracenum opnum d op := by
  unfold checkOp evalOp
  cases op.type with
  | alloc =>
    cases A.mmMalloc d.st (ofInt op.size) with
    | none => rfl
    | some r =>
      by_cases hp : r.1 = 0
      · simp [hp, returned, Except.mapError, bind, Except.bind]
      · cases hadd : addRange r.2.lib d.ranges r.1 op.size tracenum opnum with
        | error e => simp [hp, hadd, returned, Except.mapError, bind, Except.bind]
        | ok rs =>
          simp [hp, hadd, returned, Except.mapError, bind, Except.bind, Driver.remember]
  | realloc =>
    cases hr : A.mmRealloc d.st (d.blocks op.index) (ofInt op.size) with
    | none => simp [hr, returned, Except.mapError, bind, Except.bind]
    | some r =>
      by_cases hp : r.1 = 0
      · simp [hr, hp, returned, Except.mapError, bind, Except.bind]
      · cases hadd : addRange r.2.lib (removeRange d.ranges (d.blocks op.index)) r.1 op.size
            tracenum opnum with
        | error e => simp [hr, hp, hadd, returned, Except.mapError, bind, Except.bind]
        | ok rs =>
          cases hpres : preserved r.2.mem r.1 (toInt (d.blockSizes op.index)) op.size op.index with
          | false => simp [hr, hp, hadd, hpres, returned, Except.mapError, bind, Except.bind]
          | true =>
            simp [hr, hp, hadd, hpres, returned, Except.mapError, bind, Except.bind,
              Driver.remember]
  | free =>
    cases hf : A.mmFree d.st (d.blocks op.index) with
    | none => simp [hf, returned, Except.mapError, bind, Except.bind]
    | some st => simp [hf, returned, Except.mapError, bind, Except.bind]

/-- Without the driver at its end, a check of the requests is the loop of `eval_mm_valid`. -/
theorem checkOps_eq (A : Allocator τ) (tracenum opnum : Nat) (d : Driver τ) (ops : List TraceOp) :
    (checkOps A tracenum opnum d ops).mapError Prod.fst = evalOps A tracenum opnum d ops := by
  induction ops generalizing opnum d with
  | nil => rfl
  | cons op ops ih =>
    rw [checkOps, evalOps, ← checkOp_eq]
    cases checkOp A tracenum opnum d op with
    | error e => rfl
    | ok d' => exact ih (opnum + 1) d'

/-- The check with the driver it leaves is the check. -/
theorem checkMmValid_eq (A : Allocator τ) (tracenum : Nat) (d : Driver τ) (ops : List TraceOp) :
    (checkMmValid A tracenum d ops).mapError Prod.fst = evalMmValid A tracenum d ops := by
  rw [checkMmValid, evalMmValid, evalInit]
  cases A.mmInit { d.st with lib := d.st.lib.memResetBrk } with
  | none => rfl
  | some r =>
    by_cases hr : r.1 < 0
    · simp [hr, returned, Except.mapError, bind, Except.bind]
    · simp only [hr, if_false, returned, bind, Except.bind]
      exact checkOps_eq ..

/-- The error is that of the operation with number `opnum`, on one line. -/
def Stop.At (tracenum opnum : Nat) (e : Stop) : Prop :=
  ∀ line, e = .mallocError line → ∃ msg, e = Mdriver.mallocError tracenum opnum msg

/-- The error of `add_range` names the request. -/
theorem addRange_error {m : Memlib} {ranges : List Range} {lo : Nat} {size : Int}
    (h : addRange m ranges lo size tracenum opnum = .error e) : e.At tracenum opnum := by
  rintro line rfl
  unfold addRange at h
  dsimp only at h
  split at h
  · cases h
  · split at h
    · cases h
      exact ⟨_, rfl⟩
    · split at h
      · cases h
        exact ⟨_, rfl⟩
      · split at h
        · cases h
          exact ⟨_, rfl⟩
        · cases h

/-- An operation that ends the check reports its own number. -/
theorem checkOp_error (h : checkOp A tracenum opnum d op = .error (e, d')) :
    e.At tracenum opnum := by
  have hown : ∀ msg, (mallocError tracenum opnum msg).At tracenum opnum :=
    fun msg _ _ => ⟨msg, rfl⟩
  have hlost : Stop.lost.At tracenum opnum := fun line hl => by cases hl
  unfold checkOp at h
  cases ht : op.type with simp only [ht] at h
  | alloc =>
    split at h
    · cases h
      exact hlost
    · split at h
      · cases h
        exact hown _
      · split at h
        · next hadd =>
          cases h
          exact addRange_error hadd
        · cases h
  | realloc =>
    split at h
    · cases h
      exact hlost
    · split at h
      · cases h
        exact hown _
      · split at h
        · next hadd =>
          cases h
          exact addRange_error hadd
        · split at h
          · cases h
          · cases h
            exact hown _
  | free =>
    split at h
    · cases h
      exact hlost
    · cases h

/-- The error of a check names the request that failed. -/
theorem checkOps_error (h : checkOps A tracenum opnum d ops = .error (e, d')) :
    ∃ n < ops.length, e.At tracenum (opnum + n) := by
  induction ops generalizing opnum d with
  | nil => cases h
  | cons op ops ih =>
    rw [checkOps] at h
    cases hop : checkOp A tracenum opnum d op with
    | error x =>
      rw [hop] at h
      cases h
      exact ⟨0, Nat.succ_pos _, checkOp_error hop⟩
    | ok d₁ =>
      rw [hop] at h
      obtain ⟨n, hn, he⟩ := ih (show checkOps A tracenum (opnum + 1) d₁ ops = _ from h)
      exact ⟨n + 1, Nat.succ_lt_succ hn, (Nat.add_right_comm opnum n 1) ▸ he⟩

/-- The error line of a check names its trace, and the number of one of its operations. -/
theorem checkMmValid_error (h : checkMmValid A tracenum d ops = .error (.mallocError line, d')) :
    ∃ n < max 1 ops.length, ∃ msg, Stop.mallocError line = mallocError tracenum n msg := by
  unfold checkMmValid at h
  split at h
  · cases h
  · split at h
    · cases h
      exact ⟨0, Nat.lt_of_lt_of_le Nat.zero_lt_one (Nat.le_max_left ..), _, rfl⟩
    · obtain ⟨n, hn, he⟩ := checkOps_error h
      exact ⟨n, Nat.lt_of_lt_of_le hn (Nat.le_max_right ..), by simpa using he line rfl⟩

/-! ## One trace -/

/-- The driver as a trace finds it. -/
def World.driver (w : World τ) (t : Trace) : Driver τ := ⟨w.st, w.ranges, t.blocks, t.blockSizes⟩

/-- A trace the driver finds an error in counts as one error, with its line printed. -/
theorem evalTrace_invalid
    (h : checkMmValid A i (w.driver t) t.ops = .error (.mallocError line, d)) :
    evalTrace A i w t = .ok ⟨d.st, d.ranges, w.errors + 1, w.printed ++ [line],
      w.stats ++ [⟨t.ops.length, false, none⟩]⟩ := by
  rw [World.driver] at h
  rw [evalTrace, h]

/-- A trace that loses the driver ends it. -/
theorem evalTrace_lost (h : checkMmValid A i (w.driver t) t.ops = .error (.lost, d)) :
    evalTrace A i w t = .error .lost := by
  rw [World.driver] at h
  rw [evalTrace, h]

/-- A trace that passes is measured for utilization and speed. -/
theorem evalTrace_valid {d₁ d₂ : Driver τ} {util : Int × Nat}
    (h : checkMmValid A i (w.driver t) t.ops = .ok d) (hu : evalMmUtil A d t.ops = .ok (util, d₁))
    (hs : ftimerGettod (evalMmSpeed A t.ops) timedRuns d₁ = .ok d₂) :
    evalTrace A i w t = .ok ⟨d₂.st, d₂.ranges, w.errors, w.printed,
      w.stats ++ [⟨t.ops.length, true, some util⟩]⟩ := by
  rw [World.driver] at h
  rw [evalTrace, h]
  exact bind_eq_ok.2 ⟨_, hu, bind_eq_ok.2 ⟨d₂, hs, rfl⟩⟩

/-! ## The summary -/

/-- What `main` has counted and printed fits the stats of the traces so far. -/
structure World.Consistent (w : World τ) : Prop where
  errors : w.errors = w.stats.countP fun s => !s.valid
  util : ∀ s ∈ w.stats, s.util.isSome = s.valid
  /-- an error line for each trace that is not valid, in the order of the traces -/
  printed : List.Forall₂ (fun x line => ∃ n < max 1 x.1.ops, ∃ msg,
    Stop.mallocError line = mallocError x.2 n msg) (w.stats.zipIdx.filter fun x => !x.1.valid)
    w.printed

/-- **Step lemma.** One trace more. -/
theorem World.Consistent.evalTrace (C : w.Consistent)
    (h : evalTrace A w.stats.length w t = .ok w') :
    w'.Consistent ∧ ∃ s, w'.stats = w.stats ++ [s] ∧ s.ops = t.ops.length := by
  unfold Mdriver.evalTrace at h
  split at h
  · next line d hcheck =>
    cases h
    obtain ⟨n, hn, msg, hl⟩ := checkMmValid_error hcheck
    refine ⟨⟨?_, ?_, ?_⟩, _, rfl, rfl⟩
    · simp [C.errors]
    · exact List.forall_mem_append.2 ⟨C.util, by simp⟩
    · simp only [List.zipIdx_append, List.filter_append]
      exact List.rel_append C.printed (.cons ⟨n, hn, msg, by simpa using hl⟩ .nil)
  · cases h
  · cases h
  · next d hcheck =>
    obtain ⟨⟨util, d₁⟩, -, h⟩ := bind_eq_ok.1 h
    obtain ⟨d₂, -, h⟩ := bind_eq_ok.1 h
    cases h
    refine ⟨⟨?_, ?_, ?_⟩, _, rfl, rfl⟩
    · simp [C.errors]
    · exact List.forall_mem_append.2 ⟨C.util, by simp⟩
    · simpa [List.zipIdx_append] using C.printed

/-- The traces evaluated leave the numbers consistent, one record for each. -/
theorem World.Consistent.evalTraces (C : w.Consistent)
    (h : evalTraces A w.stats.length w ts = .ok w') :
    w'.Consistent ∧ w'.stats.map Stats.ops = w.stats.map Stats.ops ++ ts.map (·.ops.length) := by
  induction ts generalizing w with
  | nil =>
    cases h
    exact ⟨C, by simp⟩
  | cons t ts ih =>
    obtain ⟨w₁, hstep, h⟩ := bind_eq_ok.1 h
    obtain ⟨C₁, s, hs, hops⟩ := C.evalTrace hstep
    have hlen : w.stats.length + 1 = w₁.stats.length := by simp [hs]
    rw [hlen] at h
    obtain ⟨C', hs'⟩ := ih C₁ h
    exact ⟨C', by simp [hs', hs, hops]⟩

/-- The correct traces are counted. -/
theorem numcorrect_eq (w : World τ) : w.numcorrect = w.stats.countP Stats.valid := by
  have hcount : ∀ (l : List Stats) (n : Nat),
      l.foldl (fun n s => if s.valid then n + 1 else n) n = n + l.countP Stats.valid := by
    intro l
    induction l with
    | nil => exact fun n => rfl
    | cons s l ih =>
      intro n
      rw [List.foldl_cons, ih]
      cases hs : s.valid with
      | false => simp [hs]
      | true =>
        rw [List.countP_cons_of_pos hs, if_pos rfl]
        omega
  rw [World.numcorrect, hcount, Nat.zero_add]

/-- **The summary.** Whatever the allocator does, when `main` gets to the end of its traces each of
them has its stats, every trace is counted as correct or as an error, the lines printed are one for
each trace that is not valid, in order and with its number and that of one of its requests, and the
performance index is printed exactly when all traces are valid. -/
theorem evalTraces_report {w w' : World τ} (he : w.errors = 0) (hp : w.printed = [])
    (hs : w.stats = []) (h : Mdriver.evalTraces A 0 w ts = .ok w') :
    w'.stats.map Stats.ops = ts.map (·.ops.length) ∧
      w'.numcorrect + w'.errors = ts.length ∧
      (∀ s ∈ w'.stats, s.util.isSome = s.valid) ∧
      List.Forall₂ (fun x line => ∃ n < max 1 x.1.ops, ∃ msg,
        Stop.mallocError line = mallocError x.2 n msg)
        (w'.stats.zipIdx.filter fun x => !x.1.valid) w'.printed ∧
      (w'.summary = .perfIndex ↔ ∀ s ∈ w'.stats, s.valid = true) := by
  have C : w.Consistent := ⟨by simp [he, hs], by simp [hs], by simp [hp, hs]⟩
  have hz : w.stats.length = 0 := by rw [hs, List.length_nil]
  obtain ⟨C', hops⟩ := C.evalTraces (hz ▸ h)
  rw [hs, List.map_nil, List.nil_append] at hops
  refine ⟨hops, ?_, C'.util, C'.printed, ?_⟩
  · have hlen := congrArg List.length hops
    rw [List.length_map, List.length_map] at hlen
    have := List.length_eq_countP_add_countP Stats.valid (l := w'.stats)
    rw [numcorrect_eq, C'.errors, ← hlen, this]
    simp
  · unfold World.summary
    by_cases h0 : w'.errors = 0
    · rw [if_pos h0]
      rw [C'.errors, List.countP_eq_zero] at h0
      exact iff_of_true rfl (by simpa using h0)
    · rw [if_neg h0]
      rw [C'.errors, List.countP_eq_zero] at h0
      exact iff_of_false (by simp) fun hall => h0 (by simpa using hall)

end

/-- A block that is moved, with the id 0 and then with the id 128. -/
def movedTraces : List Trace :=
  [⟨movedOps 0, fun _ => 0, fun _ => 0⟩, ⟨movedOps 128, fun _ => 0, fun _ => 0⟩]

/-- The scripted allocator as `main` finds it. -/
def scriptedWorld (script : List Nat) : World (List Nat) :=
  ⟨(scriptedDriver script).st, [], 0, [], []⟩

/-- The first trace is valid and is replayed eleven times, the second is not: one of two traces is
counted as correct. -/
theorem evalTraces_report_moved : ∃ w',
    evalTraces scripted 0 (scriptedWorld (List.replicate 13 [16, 48]).flatten) movedTraces =
      .ok w' ∧ w'.errors = 1 ∧ w'.numcorrect + w'.errors = 2 := by
  obtain ⟨w', h, he⟩ : ∃ w', evalTraces scripted 0
      (scriptedWorld (List.replicate 13 [16, 48]).flatten) movedTraces = .ok w' ∧
        w'.errors = 1 := ⟨_, rfl, rfl⟩
  exact ⟨w', h, he, (evalTraces_report rfl rfl rfl h).2.1⟩

end Mdriver
