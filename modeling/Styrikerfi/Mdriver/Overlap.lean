import Styrikerfi.Mdriver.Ranges
import Styrikerfi.Lib.Run

/-!
# What a valid verdict says about overlap

`Check` is a check under way with its history: besides the driver's own state, the payloads handed
out by the allocator and not freed. They are recorded from the calls alone: a request adds what the
allocator answers, and a block is given back by its address. `verdict_eq_one_iff` says that a
verdict 1 is a run of the check over all operations.

The range list is the list of payloads held (`Recorded`), so what is accepted next to it is `Apart`
from each payload held or `Encloses` it. The second happens: `overlap_valid` is a check that hands
out the middle of a block first and the block around it next. `valid_iff` has the exact condition,
on the payloads as they are handed out.
-/

namespace Mdriver

open Machine32 Malloc

section
variable {τ : Type}

/-- A check under way: the number of the next operation, the driver's state, and the payloads
allocated and not freed, latest first. -/
structure Check (τ : Type) where
  opnum : Nat
  driver : Driver τ
  held : List Payload

/-- The payload the allocator answers the operation with. -/
def Check.handsOut (A : Allocator τ) (c : Check τ) (op : TraceOp) : Option Payload :=
  match op.type with
  | .alloc => (A.mmMalloc c.driver.st (ofInt op.size)).map fun r => ⟨r.1, op.size.toNat⟩
  | .realloc => (A.mmRealloc c.driver.st (c.driver.blocks op.index) (ofInt op.size)).map fun r =>
      ⟨r.1, op.size.toNat⟩
  | .free => none

/-- The payloads that stay allocated: the others are given back, by their address. -/
def Check.kept (c : Check τ) (op : TraceOp) : List Payload :=
  match op.type with
  | .alloc => c.held
  | .realloc | .free => c.held.eraseP fun q => q.lo = c.driver.blocks op.index

/-- One operation that passes. -/
def Check.step (A : Allocator τ) (tracenum : Nat) (c : Check τ) (op : TraceOp) :
    Option (Check τ) :=
  match evalOp A tracenum c.opnum c.driver op with
  | .ok d => some ⟨c.opnum + 1, d, (c.handsOut A op).toList ++ c.kept op⟩
  | .error _ => none

/-- A check that gets past the operations `ops`, with every state it goes through, and the state
after the last of them. -/
def Passes (A : Allocator τ) (tracenum : Nat) (d : Driver τ) (ops : List TraceOp)
    (tr : List (Check τ × TraceOp)) (c : Check τ) : Prop :=
  ∃ d₀, evalInit A tracenum d = .ok d₀ ∧ Run (Check.step A tracenum) ⟨0, d₀, []⟩ tr c ∧
    tr.map Prod.snd = ops

variable {A : Allocator τ} {tracenum : Nat} {d d' : Driver τ} {op : TraceOp} {ops : List TraceOp}
  {c c' : Check τ} {tr : List (Check τ × TraceOp)}

/-- A step of the check is one of the driver, with what it hands out and keeps. -/
theorem Check.step_eq_some_iff : c.step A tracenum op = some c' ↔
    ∃ d, evalOp A tracenum c.opnum c.driver op = .ok d ∧
      c' = ⟨c.opnum + 1, d, (c.handsOut A op).toList ++ c.kept op⟩ := by
  unfold Check.step
  split
  · rename_i d hd
    rw [hd]
    exact ⟨fun h => ⟨d, rfl, (Option.some.inj h).symm⟩,
      fun ⟨_, h, hc⟩ => by rw [hc, Except.ok.inj h]⟩
  · rename_i e he
    rw [he]
    exact ⟨(nomatch ·), fun ⟨_, h, _⟩ => nomatch h⟩

/-! ## The loop and the run -/

/-- The loop gets past the operations exactly when the steps of the check do. -/
theorem evalOps_eq_ok_iff : evalOps A tracenum c.opnum c.driver ops = .ok d' ↔
    ∃ c', exec (Check.step A tracenum) c ops = some c' ∧ c'.driver = d' := by
  induction ops generalizing c with
  | nil => exact ⟨fun h => ⟨c, rfl, Except.ok.inj h⟩, fun ⟨_, h, hd⟩ => by cases h; rw [← hd]; rfl⟩
  | cons op ops ih =>
    simp only [evalOps, bind_eq_ok, exec, Option.bind_eq_some_iff, Check.step_eq_some_iff]
    constructor
    · rintro ⟨d, hd, h⟩
      obtain ⟨c', hc', hd'⟩ := (ih (c := ⟨_, d, _⟩)).1 h
      exact ⟨c', ⟨_, ⟨d, hd, rfl⟩, hc'⟩, hd'⟩
    · rintro ⟨c', ⟨_, ⟨d, hd, rfl⟩, hc'⟩, hd'⟩
      exact ⟨d, hd, ih.2 ⟨c', hc', hd'⟩⟩

/-- The verdict is one if and only if the evaluation returns. -/
theorem verdict_eq_one {x : Except Stop (Driver τ)} : verdict x = some 1 ↔ ∃ d, x = .ok d := by
  match x with
  | .ok d => exact ⟨fun _ => ⟨d, rfl⟩, fun _ => rfl⟩
  | .error (.mallocError _) =>
    exact ⟨fun h => absurd (Option.some.inj h) (by decide), fun ⟨_, h⟩ => nomatch h⟩
  | .error .abort | .error .lost => exact ⟨(nomatch ·), fun ⟨_, h⟩ => nomatch h⟩

/-- A check that gets through all requests is a passing run. -/
theorem Passes.of_exec {d₀ : Driver τ} (h0 : evalInit A tracenum d = .ok d₀)
    (h : exec (Check.step A tracenum) ⟨0, d₀, []⟩ ops = some c) :
    Passes A tracenum d ops (traceFrom (Check.step A tracenum) ⟨0, d₀, []⟩ ops) c :=
  ⟨d₀, h0, Run.start.exec h, traceFrom_actions h⟩

/-- The verdict is 1 exactly when the check gets past every operation. -/
theorem verdict_eq_one_iff :
    verdict (evalMmValid A tracenum d ops) = some 1 ↔ ∃ tr c, Passes A tracenum d ops tr c := by
  rw [verdict_eq_one]
  simp only [evalMmValid, bind_eq_ok]
  constructor
  · rintro ⟨d', d₀, h0, h⟩
    obtain ⟨c, hc, -⟩ := (evalOps_eq_ok_iff (c := ⟨0, d₀, []⟩)).1 h
    exact ⟨_, c, .of_exec h0 hc⟩
  · rintro ⟨tr, c, d₀, h0, hr, rfl⟩
    exact ⟨c.driver, d₀, h0, (evalOps_eq_ok_iff (c := ⟨0, d₀, []⟩)).2 ⟨c, exec_of_run hr, rfl⟩⟩

/-! ## What is recorded -/

/-- The range list is the list of payloads held, and each has a byte. -/
structure Recorded (c : Check τ) : Prop where
  ranges : c.driver.ranges = c.held.map Payload.range
  pos : ∀ p ∈ c.held, 0 < p.len

/-- What is kept was held. -/
theorem Check.kept_sublist (c : Check τ) (op : TraceOp) : List.Sublist (c.kept op) c.held := by
  unfold Check.kept
  split
  · exact List.Sublist.refl _
  · exact List.eraseP_sublist
  · exact List.eraseP_sublist

/-- A payload accepted next to payloads held becomes one of them, apart from each or around it. -/
theorem Recorded.accepted {m : Memlib} {rs : List Range} {held : List Payload} {p tracenum opnum : Nat}
    {size : Int} (hsz : size < 2 ^ 31) (hpos : ∀ q ∈ held, 0 < q.len)
    (h : addRange m (held.map Payload.range) p size tracenum opnum = .ok rs) :
    rs = (⟨p, size.toNat⟩ :: held).map Payload.range ∧ 0 < size.toNat ∧
      ∀ q ∈ held, (Payload.mk p size.toNat).Apart q ∨ (Payload.mk p size.toNat).Encloses q := by
  obtain ⟨hpl, hno, rfl⟩ := (addRange_eq_ok_iff hsz).1 h
  have hp := hpl.pos
  refine ⟨rfl, by omega, fun q hq => ?_⟩
  exact (Range.not_hit_iff (p := ⟨p, size.toNat⟩) (by dsimp only; omega) (hpos q hq)).1
    (hno _ (List.mem_map_of_mem hq))

/-- **Step lemma.** An operation that passes keeps the record, and what it hands out is apart from
every payload kept or around it. -/
theorem Recorded.step (hc : Recorded c) (h : c.step A tracenum op = some c') :
    Recorded c' ∧ ∀ p ∈ c.handsOut A op, ∀ q ∈ c.kept op, p.Apart q ∨ p.Encloses q := by
  obtain ⟨d, hd, rfl⟩ := Check.step_eq_some_iff.1 h
  have hkept : ∀ q ∈ c.kept op, 0 < q.len := fun q hq =>
    hc.pos q ((c.kept_sublist op).subset hq)
  cases ht : op.type with
  | alloc =>
    obtain ⟨p, st, rs, hm, hadd, rfl⟩ := (evalOp_alloc ht).1 hd
    have hout : c.handsOut A op = some ⟨p, op.size.toNat⟩ := by simp only [Check.handsOut, ht, hm,
      Option.map_some]
    have hk : c.kept op = c.held := by simp only [Check.kept, ht]
    rw [hc.ranges, ← hk] at hadd
    obtain ⟨rfl, hlen, hap⟩ := Recorded.accepted op.int.2 hkept hadd
    rw [hout]
    exact ⟨⟨rfl, List.forall_mem_cons.2 ⟨hlen, hkept⟩⟩, fun _ hp => Option.mem_some.1 hp ▸ hap⟩
  | realloc =>
    obtain ⟨p, st, rs, hm, hadd, -, rfl⟩ := (evalOp_realloc ht).1 hd
    have hout : c.handsOut A op = some ⟨p, op.size.toNat⟩ := by simp only [Check.handsOut, ht, hm,
      Option.map_some]
    have hk : c.kept op = c.held.eraseP fun q => q.lo = c.driver.blocks op.index := by
      simp only [Check.kept, ht]
    rw [hc.ranges, removeRange_map, ← hk] at hadd
    obtain ⟨rfl, hlen, hap⟩ := Recorded.accepted op.int.2 hkept hadd
    rw [hout]
    exact ⟨⟨rfl, List.forall_mem_cons.2 ⟨hlen, hkept⟩⟩, fun _ hp => Option.mem_some.1 hp ▸ hap⟩
  | free =>
    obtain ⟨st, -, rfl⟩ := (evalOp_free ht).1 hd
    have hout : c.handsOut A op = none := by simp only [Check.handsOut, ht]
    have hk : c.kept op = c.held.eraseP fun q => q.lo = c.driver.blocks op.index := by
      simp only [Check.kept, ht]
    rw [hout]
    refine ⟨⟨?_, hkept⟩, fun _ hp => nomatch hp⟩
    change removeRange c.driver.ranges (c.driver.blocks op.index) = (c.kept op).map Payload.range
    rw [hc.ranges, removeRange_map, hk]

/-- Payloads held apart stay apart over an operation exactly when what it hands out encloses none
of those kept. -/
theorem Recorded.apart_step (hc : Recorded c) (h : c.step A tracenum op = some c')
    (hap : c.held.Pairwise Payload.Apart) :
    c'.held.Pairwise Payload.Apart ↔
      ∀ p ∈ c.handsOut A op, ∀ q ∈ c.kept op, ¬ p.Encloses q := by
  have hnew := (hc.step h).2
  obtain ⟨d, -, rfl⟩ := Check.step_eq_some_iff.1 h
  have hkept : (c.kept op).Pairwise Payload.Apart := hap.sublist (c.kept_sublist op)
  cases ho : c.handsOut A op with
  | none => exact ⟨fun _ _ => (nomatch ·), fun _ => hkept⟩
  | some p =>
    simp only [ho, Option.mem_some, forall_eq'] at hnew
    simp only [Option.toList_some, List.singleton_append, List.pairwise_cons, Option.mem_some,
      forall_eq']
    exact ⟨fun h q hq => (h.1 q hq).not_encloses,
      fun h => ⟨fun q hq => (hnew q hq).resolve_right (h q hq), hkept⟩⟩

/-- **Run lemma.** In a run of the check the payloads held are apart after every operation exactly
when no payload handed out encloses one that is kept. -/
theorem passes_apart_iff {d₀ : Driver τ} (h0 : d₀.ranges = [])
    (hr : Run (Check.step A tracenum) ⟨0, d₀, []⟩ tr c) :
    (∀ s ∈ tr.map Prod.fst ++ [c], s.held.Pairwise Payload.Apart) ↔
      ∀ x ∈ tr, ∀ p ∈ x.1.handsOut A x.2, ∀ q ∈ x.1.kept x.2, ¬ p.Encloses q := by
  refine (hr.invariant (I := fun tr c => Recorded c ∧
    ((∀ s ∈ tr.map Prod.fst ++ [c], s.held.Pairwise Payload.Apart) ↔
      ∀ x ∈ tr, ∀ p ∈ x.1.handsOut A x.2, ∀ q ∈ x.1.kept x.2, ¬ p.Encloses q)) ?_ ?_).2
  · refine ⟨⟨h0, fun _ => (nomatch ·)⟩, fun _ _ => (nomatch ·), fun _ s hs => ?_⟩
    rw [List.mem_singleton.1 hs]
    exact List.Pairwise.nil
  · rintro tr s op s' ⟨hrec, hiff⟩ hst
    refine ⟨(hrec.step hst).1, ?_⟩
    simp only [List.map_append, List.map_cons, List.map_nil, List.forall_mem_append,
      List.forall_mem_singleton] at hiff ⊢
    constructor
    · rintro ⟨⟨hall, hs⟩, hs'⟩
      exact ⟨hiff.1 ⟨hall, hs⟩, (hrec.apart_step hst hs).1 hs'⟩
    · rintro ⟨hall, hlast⟩
      have hs := hiff.2 hall
      exact ⟨hs, (hrec.apart_step hst hs.2).2 hlast⟩

/-- The evaluation begins with no ranges. -/
theorem evalInit_ranges (h : evalInit A tracenum d = .ok d') : d'.ranges = [] := by
  simp only [evalInit, bind_eq_ok] at h
  obtain ⟨⟨r, st⟩, -, h⟩ := h
  dsimp only at h
  split at h
  · cases h
  · exact Except.ok.inj h ▸ rfl

end

/-! ## Valid verdicts -/

/-- **A valid verdict, and overlap.** The verdict is 1 when the check gets past every operation, and
then the payloads allocated and not freed were apart after each of them exactly when none was handed
out around one still allocated. For one payload: among ranges of at least one byte, a placed payload
is accepted just when it meets none, unless all of them miss its ends and one lies between. -/
theorem valid_iff {τ : Type} (A : Allocator τ) (tracenum : Nat) (d : Driver τ)
    (ops : List TraceOp) :
    (verdict (evalMmValid A tracenum d ops) = some 1 ↔ ∃ tr c, Passes A tracenum d ops tr c) ∧
    (∀ tr c, Passes A tracenum d ops tr c →
      ((∀ s ∈ tr.map Prod.fst ++ [c], s.held.Pairwise Payload.Apart) ↔
        ∀ x ∈ tr, ∀ p ∈ x.1.handsOut A x.2, ∀ q ∈ x.1.kept x.2, ¬ p.Encloses q)) ∧
    ∀ (m : Memlib) (ranges : List Range) (lo : Nat) (size : Int) (opnum : Nat), size < 2 ^ 31 →
      Placed m lo size → (∀ r ∈ ranges, r.lo ≤ r.hi) →
      (((∃ rs, addRange m ranges lo size tracenum opnum = .ok rs) ↔
          ∀ r ∈ ranges, ¬ r.Meets lo (lo + size.toNat - 1)) ↔
        ((∀ r ∈ ranges, ¬ r.Hit lo (lo + size.toNat - 1)) →
          ∀ r ∈ ranges, ¬ r.Inside lo (lo + size.toNat - 1))) := by
  refine ⟨verdict_eq_one_iff, ?_, fun m ranges lo size opnum => addRange_iff_apart_iff⟩
  rintro tr c ⟨d₀, h0, hr, -⟩
  exact passes_apart_iff (evalInit_ranges h0) hr

/-! ## A block around another -/

/-- An allocator that takes the whole heap and answers with the addresses of a list, in turn; a
block is moved with its bytes. -/
def scripted : Allocator (List Nat) where
  mmInit st := some (0, { st with lib := { st.lib with
    memBrk := st.lib.memStartBrk + maxHeap
    le_brk := Nat.le_add_right ..
    brk_le := Nat.le_refl _ } })
  mmMalloc st _ :=
    match st.own with
    | [] => some (0, st)
    | p :: ps => some (p, { st with own := ps })
  mmRealloc st ptr size :=
    match st.own with
    | [] => some (0, st)
    | p :: ps => some (p, { st with mem := copy st.mem p ptr size, own := ps })
  mmFree st _ := some st

/-- A driver before the check, for the heap at address 8 and the addresses `script`. -/
def scriptedDriver (script : List Nat) : Driver (List Nat) where
  st := ⟨fun _ => 0, ⟨8, 8, by decide, by decide, by decide, by decide⟩, script⟩
  ranges := []
  blocks := fun _ => 0
  blockSizes := fun _ => 0

/-- 8 bytes at 24, and then the 24 bytes from 16 on, which end at 40. -/
def aroundOps : List TraceOp :=
  [{ type := .alloc, index := 0, size := 8 }, { type := .alloc, index := 1, size := 24 }]

/-- The second payload is handed out behind the first: the verdict is 1, and they are apart. -/
theorem valid_iff_behind : ∃ tr c, Passes scripted 0 (scriptedDriver [24, 32]) aroundOps tr c ∧
    verdict (evalMmValid scripted 0 (scriptedDriver [24, 32]) aroundOps) = some 1 ∧
    c.held = [⟨32, 24⟩, ⟨24, 8⟩] ∧
    (∀ s ∈ tr.map Prod.fst ++ [c], s.held.Pairwise Payload.Apart) ∧
    ((∃ rs, addRange ⟨8, 56, by decide, by decide, by decide, by decide⟩ [⟨24, 31⟩] 32 24 0 1 =
        .ok rs) ↔ ∀ r ∈ [Range.mk 24 31], ¬ r.Meets 32 55) := by
  obtain ⟨hverdict, happart, hadd⟩ := valid_iff scripted 0 (scriptedDriver [24, 32]) aroundOps
  obtain ⟨d₀, h0, c, hc, hheld, hout⟩ :
      ∃ d₀, evalInit scripted 0 (scriptedDriver [24, 32]) = .ok d₀ ∧
      ∃ c, exec (Check.step scripted 0) ⟨0, d₀, []⟩ aroundOps = some c ∧
        c.held = [⟨32, 24⟩, ⟨24, 8⟩] ∧
        ∀ x ∈ traceFrom (Check.step scripted 0) ⟨0, d₀, []⟩ aroundOps,
          ∀ p ∈ x.1.handsOut scripted x.2, ∀ q ∈ x.1.kept x.2, ¬ p.Encloses q :=
    ⟨_, rfl, _, rfl, rfl, by decide⟩
  have hp : Passes scripted 0 (scriptedDriver [24, 32]) aroundOps _ c := .of_exec h0 hc
  refine ⟨_, c, hp, hverdict.2 ⟨_, c, hp⟩, hheld, (happart _ c hp).2 hout, ?_⟩
  refine (hadd _ [⟨24, 31⟩] 32 24 1 (by decide) ⟨by decide, by decide, by decide, by decide⟩
    (by decide)).2 fun _ r hr => ?_
  rw [List.mem_singleton.1 hr]
  exact fun hin => absurd hin.1 (by decide)

/-- The second payload is handed out around the first, and the verdict is 1. -/
theorem overlap_valid :
    verdict (evalMmValid scripted 0 (scriptedDriver [24, 16]) aroundOps) = some 1 ∧
    (∃ tr c, Passes scripted 0 (scriptedDriver [24, 16]) aroundOps tr c ∧
      ¬ c.held.Pairwise Payload.Apart) ∧
    ∃ m : Memlib, Placed m 16 24 ∧ Range.Meets ⟨24, 31⟩ 16 39 ∧
      ∃ rs, addRange m [⟨24, 31⟩] 16 24 0 1 = .ok rs := by
  refine ⟨rfl, ?_, ⟨8, 48, by decide, by decide, by decide, by decide⟩,
    ⟨by decide, by decide, by decide, by decide⟩, by unfold Range.Meets; decide, _, rfl⟩
  obtain ⟨d₀, h0, c, hc, hheld⟩ : ∃ d₀, evalInit scripted 0 (scriptedDriver [24, 16]) = .ok d₀ ∧
      ∃ c, exec (Check.step scripted 0) ⟨0, d₀, []⟩ aroundOps = some c ∧
        c.held = [⟨16, 24⟩, ⟨24, 8⟩] := ⟨_, rfl, _, rfl, rfl⟩
  refine ⟨_, c, .of_exec h0 hc, ?_⟩
  rw [hheld]
  decide

end Mdriver
