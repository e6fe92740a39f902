import Styrikerfi.Malloc.Baseline
import Styrikerfi.Mdriver.Report

/-!
# The baseline under the driver

An allocator keeps its contract (`Contract`) when an invariant of its state and of the payloads held
goes through every call: a request is granted beside the others, or it is refused or ends the
process in a state that is full, and the payloads may be written to. Against such an allocator the
check of a disciplined trace has nothing to say but that (`Audited.run`), or that a moved block
cannot be read back (`Excused`).

The allocator of `mm-firstfit.c` keeps the contract (`firstfit_contract`), and so the check never
finds a payload of its misaligned, outside the heap or on another one (`firstfit_check`).
-/

namespace Malloc

open Machine32

/-! ## The storage stays -/

section
variable {h h' : Heap} {p : Nat}

/-- `coalesce` leaves the break. -/
theorem Firstfit.sameFrame_coalesce (h : Heap) (bp : Nat) : h.SameFrame (coalesce h bp).2 := by
  unfold coalesce
  dsimp only
  split
  · exact .refl h
  · split
    · exact (Heap.SameFrame.put ..).trans (.put ..)
    · split <;> exact (Heap.SameFrame.put ..).trans (.put ..)

/-- `extend_heap` only moves the break up. -/
theorem Firstfit.grows_extendHeap (h : Heap) (words : Nat) : h.Grows (extendHeap h words).2 := by
  obtain ⟨size, hsize⟩ : ∃ size, size =
    if words % 2 ≠ 0 then (words + 1) * wsize % 2 ^ 32 else words * wsize % 2 ^ 32 := ⟨_, rfl⟩
  have hs := Heap.Grows.memSbrk h (toInt size)
  unfold extendHeap
  dsimp only
  rw [← hsize]
  generalize h.memSbrk (toInt size) = r at hs
  refine hs.trans ?_
  split
  · exact .refl _
  · exact ((Heap.SameFrame.put ..).trans ((Heap.SameFrame.put ..).trans
      ((Heap.SameFrame.put ..).trans (sameFrame_coalesce ..)))).grows

/-- `mm_init` only moves the break up. -/
theorem Firstfit.grows_mmInit (h : Heap) : h.Grows (mmInit h).2 := by
  have hs := Heap.Grows.memSbrk h (4 * wsize)
  unfold mmInit
  dsimp only
  generalize h.memSbrk (4 * wsize) = r at hs
  refine hs.trans ?_
  split
  · exact ⟨rfl, rfl, Nat.le_refl _, id⟩
  · have hwords : r.2.Grows { (((r.2.put r.1 0).put (wadd r.1 wsize) (pack overhead 1)).put
        (wadd r.1 dsize) (pack overhead 1)).put (wadd (wadd r.1 wsize) dsize) (pack 0 1) with
        heapListp := wadd r.1 dsize } := ⟨rfl, rfl, Nat.le_refl _, id⟩
    split <;> exact hwords.trans (grows_extendHeap ..)

/-- `mm_malloc` only moves the break up. -/
theorem Firstfit.grows_mmMalloc {size : Nat} (hm : mmMalloc h size = some (p, h')) :
    h.Grows h' := by
  unfold mmMalloc at hm
  split at hm
  · cases hm
    exact .refl h
  · obtain ⟨bp, -, hm⟩ := Option.map_eq_some_iff.1 hm
    split at hm
    · cases hm
      exact (sameFrame_place ..).grows
    · have hext := grows_extendHeap h (max (adjust size) chunksize / wsize)
      dsimp only at hm
      split at hm
      · cases hm
        exact hext
      · cases hm
        exact hext.trans (sameFrame_place ..).grows

/-- `mm_free` leaves the break. -/
theorem Firstfit.sameFrame_mmFree (h : Heap) (bp : Nat) : h.SameFrame (mmFree h bp) :=
  (Heap.SameFrame.put ..).trans ((Heap.SameFrame.put ..).trans (sameFrame_coalesce ..))

/-- `mm_realloc` only moves the break up. -/
theorem Firstfit.grows_mmRealloc {ptr size : Nat} (hm : mmRealloc h ptr size = some (.ret p h')) :
    h.Grows h' := by
  obtain ⟨⟨q, g⟩, hq, hret⟩ := Option.map_eq_some_iff.1 hm
  dsimp only at hret
  split at hret
  · cases hret
  · cases hret
    exact (grows_mmMalloc hq).trans ((Heap.SameFrame.memcpy ..).trans (sameFrame_mmFree ..)).grows

/-- The payload of a held request may be filled. -/
theorem Firstfit.Inv.fill {s : Session} {bs : List Block} (I : Inv s bs) {x : Nat × Nat}
    (hx : x ∈ s.live) (c : UInt8) :
    Inv ⟨{ s.heap with mem := Machine32.fill s.heap.mem x.1 c x.2 }, s.live⟩ bs := by
  obtain ⟨b, hb, hbp, hr⟩ := I.holding.room x hx
  have hl : Heap.Layout { s.heap with mem := Machine32.fill s.heap.mem x.1 c x.2 } bs :=
    I.holding.layout.of_payload (mem_allocs.1 hb).1 ⟨rfl, rfl, rfl, rfl, rfl⟩
      fun q hq => if_neg (by omega)
  exact ⟨⟨hl, I.holding.held, I.holding.room⟩, I.merged⟩

end

end Malloc

namespace Mdriver

open Machine32 Malloc

/-! ## The contract of an allocator -/

section
variable {τ : Type} {A : Allocator τ} {I : State τ → List Store.Extent → Prop}
  {Full : State τ → Nat → Prop}

/-- A payload of `n` bytes at `p` is handed out beside the payloads `others`, whose bytes stay. -/
structure Grants (I : State τ → List Store.Extent → Prop) (st st' : State τ)
    (others : List Store.Extent) (p n : Nat) : Prop where
  ne : p ≠ 0
  kept : I st' ((p, n) :: others)
  same : ∀ x ∈ others, Store.Same st.mem st'.mem x

/-- **The contract**: the invariant `I` of the state and of the payloads held says that these are
aligned, in the heap and apart, and goes through every call and every write to a payload. A request
of a size for which the state is `Full` may be refused, or end the process. -/
structure Contract (A : Allocator τ) (I : State τ → List Store.Extent → Prop)
    (Full : State τ → Nat → Prop) : Prop where
  within : ∀ {st live x}, I st live → x ∈ live →
    x.1 % alignment = 0 ∧ st.lib.memStartBrk ≤ x.1 ∧ x.1 + x.2 ≤ st.lib.memBrk
  apart : ∀ {st live}, I st live → live.Pairwise Store.Extent.Apart
  nodup : ∀ {st live}, I st live → (live.map Prod.fst).Nodup
  fill : ∀ {st live x}, I st live → x ∈ live → ∀ c,
    I { st with mem := Machine32.fill st.mem x.1 c x.2 } live
  malloc : ∀ {st live n}, I st live → n ≠ 0 → n < 2 ^ 31 → ∃ p st',
    A.mmMalloc st n = some (p, st') ∧ (p = 0 ∧ Full st' n ∨ Grants I st st' live p n)
  realloc : ∀ {st live ptr m n}, I st live → (ptr, m) ∈ live → n ≠ 0 → n < 2 ^ 31 →
    A.mmRealloc st ptr n = none ∧ Full st n ∨ ∃ p st', A.mmRealloc st ptr n = some (p, st') ∧
      Grants I st st' (Store.without ptr live) p n ∧
      ∀ i < min m n, st'.mem (p + i) = st.mem (ptr + i)
  free : ∀ {st live ptr}, I st live → ptr ∈ live.map Prod.fst →
    ∃ st', A.mmFree st ptr = some st' ∧ I st' (Store.without ptr live) ∧
      ∀ x ∈ Store.without ptr live, Store.Same st.mem st'.mem x

/-- What ends the check of an operation, with the driver it leaves, and is not held against the
payloads of the allocator: a full state in which a request is refused or the process ends, or a
moved block that cannot be read back. -/
inductive Excused (Full : State τ → Nat → Prop) (tracenum opnum : Nat) (op : TraceOp) :
    Stop × Driver τ → Prop
  | refused {d : Driver τ} (ht : op.type = .alloc) (hfull : Full d.st op.size.toNat) :
      Excused Full tracenum opnum op (mallocError tracenum opnum "mm_malloc failed.", d)
  | illegible {d : Driver τ} (hleg : ¬ Legible op) : Excused Full tracenum opnum op
      (mallocError tracenum opnum "mm_realloc did not preserve the data from old block", d)
  | exit {d : Driver τ} (ht : op.type = .realloc) (hfull : Full d.st op.size.toNat) :
      Excused Full tracenum opnum op (.lost, d)

/-- The payloads of the ids that are held. -/
def Driver.live (d : Driver τ) (held : List (Nat × Nat)) : List Store.Extent :=
  held.map fun x => (d.blocks x.1, x.2)

/-- The driver in the middle of a check of an allocator that keeps its contract: its arrays and its
range list are right for what is held, and the bytes of each payload are the low byte of its id. -/
structure Audited (I : State τ → List Store.Extent → Prop) (d : Driver τ)
    (held : List (Nat × Nat)) : Prop where
  kept : I d.st (d.live held)
  sizes : ∀ x ∈ held, d.blockSizes x.1 = x.2 ∧ 1 ≤ x.2 ∧ x.2 < 2 ^ 31
  ranges : d.ranges = ((d.live held).map payload).map Payload.range
  bytes : ∀ x ∈ held, ∀ i < x.2, d.st.mem (d.blocks x.1 + i) = UInt8.ofNat (lowByte x.1)

variable {d : Driver τ} {held rest : List (Nat × Nat)} {op : TraceOp} {ops : List TraceOp}
  {st st' : State τ} {p n : Nat}

/-! ## One operation -/

/-- The blocks held are at distinct addresses. -/
theorem Audited.pointers (C : Contract A I Full) (D : Audited I d held) :
    (held.map fun x => d.blocks x.1).Nodup := by
  have hn := C.nodup D.kept
  rwa [Driver.live, List.map_map] at hn

/-- The payloads held are not empty. -/
theorem Audited.pos (D : Audited I d held) (hrest : ∀ x ∈ rest, x ∈ held) :
    ∀ q ∈ (d.live rest).map payload, 0 < q.len := by
  intro q hq
  obtain ⟨y, hy, rfl⟩ := List.mem_map.1 hq
  obtain ⟨x, hx, rfl⟩ := List.mem_map.1 hy
  exact (D.sizes x (hrest x hx)).2.1

/-- What is handed out is a correct payload beside the others. -/
theorem Grants.correct (C : Contract A I Full) {others : List Store.Extent}
    (G : Grants I st st' others p n) : Correct st'.lib (others.map payload) ⟨p, n⟩ := by
  obtain ⟨hmod, hlo, hhi⟩ := C.within G.kept List.mem_cons_self
  refine ⟨hmod, hlo, hhi, fun q hq => ?_⟩
  obtain ⟨x, hx, rfl⟩ := List.mem_map.1 hq
  exact (List.pairwise_cons.1 (C.apart G.kept)).1 x hx

/-- The driver after a payload has been filled and remembered. -/
theorem Driver.live_remember (d : Driver τ) (st : State τ) (rs : List Range)
    (hrest : ∀ x ∈ rest, x.1 ≠ op.index) :
    (d.remember st rs p op).live ((op.index, n) :: rest) = (p, n) :: d.live rest := by
  simp only [Driver.live, Driver.remember, List.map_cons, Function.update_self]
  refine congrArg _ (List.map_congr_left fun x hx => ?_)
  rw [Function.update_of_ne (hrest x hx)]

/-- **Step lemma.** A payload handed out is filled and remembered, beside the ids `rest` that stay
held. -/
theorem Audited.remember (C : Contract A I Full) (D : Audited I d held) (h1 : 1 ≤ op.size)
    (hrest : ∀ x ∈ rest, x ∈ held ∧ x.1 ≠ op.index)
    (G : Grants I d.st st' (d.live rest) p op.size.toNat) :
    Audited I (d.remember st' (((Payload.mk p op.size.toNat) :: (d.live rest).map payload).map
      Payload.range) p op) ((op.index, op.size.toNat) :: rest) := by
  have hsize := TraceOp.ofInt_size h1
  have hlive := d.live_remember (p := p) (n := op.size.toNat) st' (((Payload.mk p op.size.toNat) ::
    (d.live rest).map payload).map Payload.range) fun x hx => (hrest x hx).2
  refine ⟨?_, ?_, ?_, ?_⟩
  · rw [hlive, Driver.remember, hsize]
    exact C.fill G.kept List.mem_cons_self _
  · rintro x (_ | ⟨_, hx⟩)
    · exact ⟨by simp [Driver.remember, hsize], by dsimp only; omega, op.size_lt⟩
    · obtain ⟨hx, hne⟩ := hrest x hx
      simpa [Driver.remember, hne] using D.sizes x hx
  · rw [hlive]
    rfl
  · intro x hx i hi
    simp only [Driver.remember, hsize]
    rcases List.mem_cons.1 hx with rfl | hx
    · rw [Function.update_self]
      exact if_pos ⟨Nat.le_add_right .., Nat.add_lt_add_left hi _⟩
    · obtain ⟨hheld, hne⟩ := hrest x hx
      have hm : (d.blocks x.1, x.2) ∈ d.live rest := List.mem_map_of_mem hx
      have hap := (List.pairwise_cons.1 (C.apart G.kept)).1 _ hm
      rw [Function.update_of_ne hne, same_fill _ hap i hi]
      exact (G.same _ hm i hi).trans (D.bytes x hheld i hi)

/-- The check of one operation passes and is legible, or ends with an excuse. -/
def Driver.PassesOr (A : Allocator τ) (I : State τ → List Store.Extent → Prop)
    (Full : State τ → Nat → Prop) (d : Driver τ) (held : List (Nat × Nat)) (tracenum opnum : Nat)
    (op : TraceOp) : Prop :=
  (∃ d', checkOp A tracenum opnum d op = .ok d' ∧ Legible op ∧ Audited I d' (op.hold held)) ∨
    ∃ e, checkOp A tracenum opnum d op = .error e ∧ Excused Full tracenum opnum op e

/-- The block of an id that is held, in the arrays and among the payloads; the others stay. -/
theorem Audited.find (C : Contract A I Full) (D : Audited I d held) (ha : op.Allowed held)
    (ht : op.type ≠ .alloc) : ∃ n, (op.index, n) ∈ held ∧
      (d.blocks op.index, n) ∈ d.live held ∧
      Store.without (d.blocks op.index) (d.live held) = d.live (Store.without op.index held) ∧
      removeRange d.ranges (d.blocks op.index) =
        ((d.live (Store.without op.index held)).map payload).map Payload.range := by
  obtain ⟨⟨i, n⟩, hx, hxi⟩ := List.mem_map.1 (ha.2.2 ht)
  obtain rfl : i = op.index := hxi
  have hwithout : Store.without (d.blocks op.index) (d.live held) =
      d.live (Store.without op.index held) :=
    without_pointers (D.pointers C) (List.mem_map_of_mem (f := Prod.fst) hx)
  have hranges := removeRange_payloads (C.nodup D.kept) (d.blocks op.index)
  rw [← D.ranges, hwithout] at hranges
  exact ⟨n, hx, List.mem_map.2 ⟨_, hx, rfl⟩, hwithout, hranges⟩

/-- A request for a new block. -/
theorem Audited.alloc (C : Contract A I Full) (D : Audited I d held) (ha : op.Allowed held)
    (ht : op.type = .alloc) (tracenum opnum : Nat) : d.PassesOr A I Full held tracenum opnum op := by
  have h1 := ha.1 (by rw [ht]; decide)
  have hleg : Legible op := fun he => by
    rw [ht] at he
    cases he
  have hnew : ∀ x ∈ held, x ∈ held ∧ x.1 ≠ op.index := fun x hx =>
    ⟨hx, fun he => ha.2.1 (he ▸ List.mem_map_of_mem hx) ht⟩
  have hhold : op.hold held = (op.index, op.size.toNat) :: held := by
    simp only [TraceOp.hold, ht]
  obtain ⟨p, st', hm, hp⟩ := C.malloc D.kept (by omega) op.size_lt
  rw [← TraceOp.ofInt_size h1] at hm
  rcases hp with ⟨rfl, hfull⟩ | G
  · refine .inr ⟨_, ?_, .refused (d := { d with st := st' }) ht hfull⟩
    simp only [checkOp, ht, hm, if_true]
  · have hadd : addRange st'.lib _ p op.size tracenum opnum = _ :=
      ((G.correct C).accepted (D.pos fun x hx => hx) h1 op.int.2 _).2 rfl
    rw [← D.ranges] at hadd
    refine .inl ⟨_, ?_, hleg, hhold ▸ D.remember C h1 hnew G⟩
    simp only [checkOp, ht, hm, if_neg G.ne, hadd]
    rfl

/-- A block that is moved: its contents are read back where signed characters allow it. -/
theorem Audited.moved (C : Contract A I Full) (D : Audited I d held) (ha : op.Allowed held)
    (ht : op.type = .realloc) (tracenum opnum : Nat) (hn : (op.index, n) ∈ held)
    (hm : A.mmRealloc d.st (d.blocks op.index) op.size.toNat = some (p, st'))
    (G : Grants I d.st st' (Store.without (d.blocks op.index) (d.live held)) p op.size.toNat)
    (hkept : ∀ i < min n op.size.toNat, st'.mem (p + i) = d.st.mem (d.blocks op.index + i)) :
    d.PassesOr A I Full held tracenum opnum op := by
  have h1 := ha.1 (by rw [ht]; decide)
  have hhold : op.hold held = (op.index, op.size.toNat) :: Store.without op.index held := by
    simp only [TraceOp.hold, ht]
  obtain ⟨-, -, -, hwithout, hranges⟩ := D.find C ha (by rw [ht]; decide)
  obtain ⟨hs, hpos, hlt⟩ := D.sizes _ hn
  rw [← TraceOp.ofInt_size h1] at hm
  rw [hwithout] at G
  have hadd : addRange st'.lib _ p op.size tracenum opnum = _ :=
    ((G.correct C).accepted (D.pos fun y hy => (mem_without.1 hy).1) h1 op.int.2 _).2 rfl
  rw [← hranges] at hadd
  have hpres := preserved_iff p hpos hlt h1 fun j hj =>
    (hkept j hj).trans (D.bytes _ hn j (by omega))
  rw [← hs] at hpres
  by_cases hlow : lowByte op.index < 128
  · refine .inl ⟨_, ?_, fun _ => hlow, hhold ▸ D.remember C h1 (fun y hy => mem_without.1 hy) G⟩
    simp only [checkOp, ht, hm, if_neg G.ne, hadd, hpres.2 hlow, if_true]
    rfl
  · refine .inr ⟨(_, { d with
        st := st'
        ranges := (Payload.mk p op.size.toNat ::
          (d.live (Store.without op.index held)).map payload).map Payload.range }), ?_,
      .illegible fun hleg => hlow (hleg ht)⟩
    simp only [checkOp, ht, hm, if_neg G.ne, hadd, hpres, hlow, if_false]

/-- A request to move a block. -/
theorem Audited.realloc (C : Contract A I Full) (D : Audited I d held) (ha : op.Allowed held)
    (ht : op.type = .realloc) (tracenum opnum : Nat) :
    d.PassesOr A I Full held tracenum opnum op := by
  have h1 := ha.1 (by rw [ht]; decide)
  obtain ⟨n, hn, hlive, -⟩ := D.find C ha (by rw [ht]; decide)
  rcases C.realloc D.kept hlive (by omega) op.size_lt with ⟨hm, hfull⟩ | ⟨p, st', hm, G, hkept⟩
  · rw [← TraceOp.ofInt_size h1] at hm
    refine .inr ⟨(.lost, d), ?_, .exit ht hfull⟩
    simp only [checkOp, ht, hm]
  · exact D.moved C ha ht tracenum opnum hn hm G hkept

/-- A request to free a block. -/
theorem Audited.free (C : Contract A I Full) (D : Audited I d held) (ha : op.Allowed held)
    (ht : op.type = .free) (tracenum opnum : Nat) : d.PassesOr A I Full held tracenum opnum op := by
  have hleg : Legible op := fun he => by
    rw [ht] at he
    cases he
  have hhold : op.hold held = Store.without op.index held := by simp only [TraceOp.hold, ht]
  obtain ⟨n, -, hlive, hwithout, hranges⟩ := D.find C ha (by rw [ht]; decide)
  obtain ⟨st', hm, hkept, hsame⟩ := C.free D.kept (List.mem_map_of_mem (f := Prod.fst) hlive)
  rw [hwithout] at hkept hsame
  have hsub : ∀ y ∈ Store.without op.index held, y ∈ held := fun y hy => (mem_without.1 hy).1
  refine .inl ⟨{ d with st := st', ranges := removeRange d.ranges (d.blocks op.index) }, ?_, hleg,
    ?_⟩
  · simp only [checkOp, ht, hm]
  · rw [hhold]
    exact ⟨hkept, fun y hy => D.sizes y (hsub y hy), hranges, fun y hy i hi =>
      (hsame _ (List.mem_map_of_mem hy) i hi).trans (D.bytes y (hsub y hy) i hi)⟩

/-- **Step lemma.** An allowed operation passes and is legible, or ends the check with an excuse. -/
theorem Audited.step (C : Contract A I Full) (D : Audited I d held) (ha : op.Allowed held)
    (tracenum opnum : Nat) : d.PassesOr A I Full held tracenum opnum op := by
  cases ht : op.type with
  | alloc => exact D.alloc C ha ht tracenum opnum
  | realloc => exact D.realloc C ha ht tracenum opnum
  | free => exact D.free C ha ht tracenum opnum

/-! ## The check -/

/-- **Run lemma.** A disciplined trace passes and is legible, or ends at its first operation with an
excuse. -/
theorem Audited.run (C : Contract A I Full) (D : Audited I d held) (hd : Disciplined held ops)
    (tracenum opnum : Nat) :
    ((∃ d', checkOps A tracenum opnum d ops = .ok d') ∧ ∀ op ∈ ops, Legible op) ∨
      ∃ i op e, checkOps A tracenum opnum d ops = .error e ∧ ops[i]? = some op ∧
        (∀ o ∈ ops.take i, Legible o) ∧ Excused Full tracenum (opnum + i) op e := by
  induction ops generalizing d held opnum with
  | nil => exact .inl ⟨⟨d, rfl⟩, fun _ ho => absurd ho List.not_mem_nil⟩
  | cons op ops ih =>
    obtain ⟨ha, hd⟩ := hd
    rw [checkOps]
    rcases D.step C ha tracenum opnum with ⟨d', hop, hleg, D'⟩ | ⟨e, hop, hex⟩
    · rw [hop]
      rcases ih D' hd (opnum + 1) with ⟨hok, hall⟩ | ⟨i, o, e, herr, hget, hall, hex⟩
      · exact .inl ⟨hok, List.forall_mem_cons.2 ⟨hleg, hall⟩⟩
      · refine .inr ⟨i + 1, o, e, herr, hget, List.forall_mem_cons.2 ⟨hleg, hall⟩, ?_⟩
        rwa [Nat.add_assoc, Nat.add_comm 1] at hex
    · rw [hop]
      exact .inr ⟨0, op, e, rfl, rfl, fun _ ho => absurd ho List.not_mem_nil, hex⟩

/-- `eval_mm_valid` on an allocator that keeps its contract from `mm_init` on. -/
theorem Contract.check (C : Contract A I Full) {r : Int}
    (hinit : A.mmInit { d.st with lib := d.st.lib.memResetBrk } = some (r, st')) (hr : 0 ≤ r)
    (hI : I st' []) (hd : Disciplined [] ops) (tracenum : Nat) :
    ((∃ d', checkMmValid A tracenum d ops = .ok d') ∧ ∀ op ∈ ops, Legible op) ∨
      ∃ i op e, checkMmValid A tracenum d ops = .error e ∧ ops[i]? = some op ∧
        (∀ o ∈ ops.take i, Legible o) ∧ Excused Full tracenum i op e := by
  have D : Audited I { d with st := st', ranges := [] } [] :=
    ⟨hI, fun x hx => absurd hx List.not_mem_nil, rfl, fun x hx => absurd hx List.not_mem_nil⟩
  rw [checkMmValid, hinit]
  simp only [if_neg (Int.not_lt.2 hr)]
  rcases D.run C hd tracenum 0 with hok | ⟨i, op, e, herr, hget, hall, hex⟩
  · exact .inl hok
  · rw [Nat.zero_add] at hex
    exact .inr ⟨i, op, e, herr, hget, hall, hex⟩

end

/-! ## The baseline -/

/-- The allocator of `mm-firstfit.c`. -/
def firstfit : Allocator Globals where
  mmInit st := some ((Firstfit.mmInit st.heap).1, st.after (Firstfit.mmInit st.heap).2)
  mmMalloc st size := (Firstfit.mmMalloc st.heap size).map fun (p, h) => (p, st.after h)
  mmRealloc st ptr size :=
    match Firstfit.mmRealloc st.heap ptr size with
    | some (.ret p h) => some (p, st.after h)
    | _ => none
  mmFree st bp := some (st.after (Firstfit.mmFree st.heap bp))

/-- The heap of the state is that of a session in which `live` is held. -/
def Tiled (st : State Globals) (live : List Store.Extent) : Prop :=
  ∃ bs, Firstfit.Inv ⟨st.heap, live⟩ bs

/-- The heap of the state is exhausted. -/
def Exhausted (st : State Globals) (size : Nat) : Prop := st.heap.Exhausted size

section
variable {st : State Globals} {live : List Store.Extent} {ptr m n : Nat}

/-- `mm_malloc` returns `NULL` with the heap exhausted, or grants a block. -/
theorem Tiled.malloc (T : Tiled st live) (h0 : n ≠ 0) (hlt : n < 2 ^ 31) :
    ∃ p st', firstfit.mmMalloc st n = some (p, st') ∧
      (p = 0 ∧ Exhausted st' n ∨ Grants Tiled st st' live p n) := by
  obtain ⟨bs, I⟩ := T
  obtain ⟨s', bs', hs, I', hdoes⟩ := I.malloc hlt
  rw [Firstfit.serve, if_pos hlt] at hs
  obtain ⟨⟨p, h⟩, hm, hs⟩ := Option.map_eq_some_iff.1 hs
  have hheap := State.heap_after (Firstfit.grows_mmMalloc hm)
  refine ⟨p, st.after h, by simp only [firstfit, hm, Option.map_some], ?_⟩
  by_cases hp : p = 0
  · rcases I.implicit.mmMalloc hlt with ⟨hnull, hfull⟩ | ⟨a, h', bs'', hm', T⟩
    · cases hnull.symm.trans hm
      refine .inl ⟨rfl, ?_⟩
      rw [Exhausted, hheap]
      exact hfull h0
    · -- a block is not at `NULL`
      cases hm'.symm.trans hm
      have ha := mem_allocs.1 (T.added.mem_iff.2 List.mem_cons_self)
      exact absurd hp (T.implicit.layout.bp_ne ha.1)
  · have hs : ⟨h, (p, n) :: live⟩ = s' := (if_neg hp).symm.trans hs
    have he : Firstfit.event ⟨st.heap, live⟩ (.malloc n) = some (.alloc p n) := by
      simp only [Firstfit.event, hm, if_neg hp]
    rw [he, ← hs] at hdoes
    rw [← hs] at I'
    refine .inr ⟨hp, ⟨bs', ?_⟩, fun x hx => (hdoes.2 x hx).2⟩
    rw [hheap]
    exact I'

/-- `mm_realloc` crashes with the heap exhausted, or grants a block with the bytes of the old one.
-/
theorem Tiled.realloc (T : Tiled st live) (hx : (ptr, m) ∈ live) (h0 : n ≠ 0)
    (hlt : n < 2 ^ 31) : firstfit.mmRealloc st ptr n = none ∧ Exhausted st n ∨
      ∃ p st', firstfit.mmRealloc st ptr n = some (p, st') ∧
        Grants Tiled st st' (Store.without ptr live) p n ∧
        ∀ i < min m n, st'.mem (p + i) = st.mem (ptr + i) := by
  obtain ⟨bs, I⟩ := T
  have hp : ptr ∈ live.map Prod.fst := List.mem_map_of_mem (f := Prod.fst) hx
  rcases I.realloc hp hlt with ⟨hexit, hfull⟩ | ⟨s', bs', hs, I', hdoes⟩
  · refine .inl ⟨?_, hfull h0⟩
    simp only [firstfit]
    rw [hexit]
  rw [Firstfit.serve, if_pos ⟨hp, hlt⟩] at hs
  dsimp only at hs
  cases hm : Firstfit.mmRealloc st.heap ptr n with rw [hm] at hs
  | none => cases hs
  | some o =>
    cases o with
    | exit status h => cases hs
    | ret p h =>
      have hheap := State.heap_after (Firstfit.grows_mmRealloc hm)
      have hs : ⟨h, (p, n) :: Store.without ptr live⟩ = s' := Option.some.inj hs
      have he : Firstfit.event ⟨st.heap, live⟩ (.realloc ptr n) = some (.move ptr p n) := by
        simp only [Firstfit.event, hm]
      rw [he, ← hs] at hdoes
      rw [← hs] at I'
      have hne := (I'.holding.within List.mem_cons_self).1
      refine .inr ⟨p, st.after h, by simp only [firstfit, hm], ⟨hne, ⟨bs', ?_⟩,
        fun x hx => (hdoes.2.2.1 x hx).2⟩, hdoes.2.2.2 m hx⟩
      rw [hheap]
      exact I'

/-- `mm_free` takes the block from the client and keeps the other payloads. -/
theorem Tiled.free (T : Tiled st live) (hp : ptr ∈ live.map Prod.fst) :
    ∃ st', firstfit.mmFree st ptr = some st' ∧ Tiled st' (Store.without ptr live) ∧
      ∀ x ∈ Store.without ptr live, Store.Same st.mem st'.mem x := by
  obtain ⟨bs, I⟩ := T
  obtain ⟨s', bs', hs, I', hdoes⟩ := I.free hp
  rw [Firstfit.serve, if_pos hp] at hs
  cases hs
  have hheap := State.heap_after (Firstfit.sameFrame_mmFree st.heap ptr).grows
  refine ⟨_, rfl, ⟨bs', ?_⟩, hdoes.2.2⟩
  rw [hheap]
  exact I'

end

/-- The baseline keeps the contract of an allocator. -/
theorem firstfit_contract : Contract firstfit Tiled Exhausted where
  within := fun ⟨_, I⟩ hx => (I.holding.within hx).2
  apart := fun ⟨_, I⟩ => I.holding.apart
  nodup := fun ⟨_, I⟩ => I.holding.nodup
  fill := fun ⟨bs, I⟩ hx c => ⟨bs, I.fill hx c⟩
  malloc := Tiled.malloc
  realloc := Tiled.realloc
  free := Tiled.free

/-- **The driver on the baseline.** A trace asks for one byte at least whenever it asks for memory,
allocates new ids and moves and frees held ones (`Disciplined`); the storage is placed so that no
sum of `mem_sbrk` wraps (`Heap.Placed`). Its check on `mm-firstfit.c` passes, with every moved block
read back, or it ends at the first operation for which no free block fits and the storage has no
room, or at a moved block whose id has a low byte of 128 or more. -/
theorem firstfit_check {d : Driver Globals} {ops : List TraceOp} (tracenum : Nat)
    (hstart : d.st.lib.memStartBrk % 8 = 0) (hd : Disciplined [] ops) :
    ((∃ d', checkMmValid firstfit tracenum d ops = .ok d') ∧ ∀ op ∈ ops, Legible op) ∨
      ∃ i op e, checkMmValid firstfit tracenum d ops = .error e ∧ ops[i]? = some op ∧
        (∀ o ∈ ops.take i, Legible o) ∧ Excused Exhausted tracenum i op e := by
  have hstart : d.st.heap.memStartBrk % 8 = 0 := hstart
  have haddr : d.st.heap.memMaxAddr < 2 ^ 32 := d.st.lib.addressable
  have hroom : d.st.heap.memStartBrk + 4112 ≤ d.st.heap.memMaxAddr :=
    Nat.add_le_add_left (show 4112 ≤ maxHeap by decide) _
  obtain ⟨h, hi, bs, I⟩ := Firstfit.inv_init hstart (Nat.pos_iff_ne_zero.1 d.st.lib.start_pos) haddr
    hroom
  rw [← State.heap_reset] at hi
  have hg := Firstfit.grows_mmInit (State.heap { d.st with lib := d.st.lib.memResetBrk })
  have hinit : firstfit.mmInit { d.st with lib := d.st.lib.memResetBrk } = some (0,
      State.after { d.st with lib := d.st.lib.memResetBrk } h) := by
    simp only [firstfit, hi]
  rw [hi] at hg
  refine firstfit_contract.check hinit (Int.le_refl 0) ⟨bs, ?_⟩ hd tracenum
  rw [State.heap_after hg]
  exact I

/-- On zeroed storage the check of the block of id 128 ends with an excuse. -/
theorem firstfit_check_moved : ∃ i op e,
    checkMmValid firstfit 0 ⟨zeroed, [], fun _ => 0, fun _ => 0⟩ (movedOps 128) = .error e ∧
      (movedOps 128)[i]? = some op ∧ Excused Exhausted 0 i op e := by
  have hlow : ¬ ∀ op ∈ movedOps 128, Legible op := by decide
  rcases firstfit_check (d := ⟨zeroed, [], fun _ => 0, fun _ => 0⟩) 0 rfl
    (movedOps_disciplined 128) with ⟨-, hall⟩ | ⟨i, op, e, herr, hget, -, hex⟩
  · exact absurd hall hlow
  · exact ⟨i, op, e, herr, hget, hex⟩

end Mdriver
