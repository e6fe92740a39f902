import Styrikerfi.Mdriver.Student

/-!
# What the driver reports of mm.c

A trace that only moves and frees what it holds is judged on the ledger, without memory (`judge`):
either every request is granted, or there is a first one that is not. The check of the driver on the
heap comes to the same verdict (`mm_verdict`), and where the trace is valid the replays that measure
space and time get through as well (`mm_util`, `mm_speed`): the high water mark is the largest
number of bytes the trace has held, and the heap is never smaller.

So what `main` reports of a list of traces is a function of each of them alone (`mm_report`): it
depends neither on what the memory holds nor on the other traces, and not on what `malloc` has left
in the arrays of the traces.
-/

namespace Mdriver

open Machine32 Malloc

/-! ## Traces -/

/-- The ids that are held after a request, with the sizes asked for, latest first. -/
def TraceOp.hold (held : List (Nat × Nat)) (op : TraceOp) : List (Nat × Nat) :=
  match op.type with
  | .alloc => (op.index, op.size.toNat) :: held
  | .realloc => (op.index, op.size.toNat) :: Store.without op.index held
  | .free => Store.without op.index held

/-- The request asks for at least one byte, allocates a new id, and moves or frees one that is
held. -/
def TraceOp.Allowed (held : List (Nat × Nat)) (op : TraceOp) : Prop :=
  (op.type ≠ .free → 1 ≤ op.size) ∧ (op.index ∈ held.map Prod.fst ↔ op.type ≠ .alloc)

instance (held : List (Nat × Nat)) (op : TraceOp) : Decidable (op.Allowed held) :=
  inferInstanceAs (Decidable ((_ → _) ∧ (_ ↔ _)))

/-- Every request of the trace is allowed. -/
def Disciplined : List (Nat × Nat) → List TraceOp → Prop
  | _, [] => True
  | held, op :: ops => op.Allowed held ∧ Disciplined (op.hold held) ops

/-- The bytes that are held. -/
def demand (held : List (Nat × Nat)) : Nat := (held.map Prod.snd).sum

/-- The most bytes that are held at one time. -/
def peak : List (Nat × Nat) → List TraceOp → Nat
  | held, [] => demand held
  | held, op :: ops => max (demand held) (peak (op.hold held) ops)

instance (op : TraceOp) : Decidable (Legible op) := inferInstanceAs (Decidable (_ → _))

/-- How a trace comes out. -/
inductive Judgement where
  /-- the ledger at the end -/
  | valid (l : Ledger)
  | invalid
  | exit
  | damaged

/-- The first request that is not granted or cannot be read back ends the trace. -/
def judge : Ledger → (Nat → Nat) → List TraceOp → Judgement
  | l, _, [] => .valid l
  | l, ptrs, op :: ops =>
    match request l (ptrs op.index) op with
    | .done p l' =>
      if Legible op then judge l' (Function.update ptrs op.index p) ops else .invalid
    | .refused => .invalid
    | .exit => .exit
    | .damaged => .damaged

/-- The value of `eval_mm_valid`, if it returns. -/
def Judgement.verdict : Judgement → Option Int
  | .valid _ => some 1
  | .invalid => some 0
  | .exit | .damaged => none

/-- A trace on storage at `start`. -/
def judgeTrace (start : Nat) (ops : List TraceOp) : Judgement :=
  judge (.init start (start + maxHeap)) (fun _ => 0) ops

section
variable {held : List (Nat × Nat)} {op : TraceOp} {ops : List TraceOp} {ptrs : Nat → Nat}
  {l l' : Ledger} {st st' : State Globals} {d : Driver Globals} {p n index : Nat}

/-- With distinct keys, to erase the first of a key is to leave out the key. -/
theorem eraseP_eq_filter {α : Type} {xs : List α} {f : α → Nat} (h : (xs.map f).Nodup) (k : Nat) :
    (xs.eraseP fun x => decide (f x = k)) = xs.filter fun x => decide (f x ≠ k) := by
  induction xs with
  | nil => rfl
  | cons x xs ih =>
    obtain ⟨hx, h⟩ := List.nodup_cons.1 h
    by_cases hk : f x = k
    · rw [List.eraseP_cons, decide_eq_true hk, cond_true, List.filter_cons, if_neg (by simp [hk])]
      have hne : ∀ y ∈ xs, f y ≠ k := fun y hy he =>
        hx (List.mem_map.2 ⟨y, hy, he.trans hk.symm⟩)
      exact (List.filter_eq_self.2 fun y hy => decide_eq_true (hne y hy)).symm
    · rw [List.eraseP_cons, decide_eq_false hk, cond_false, List.filter_cons, if_pos (by simp [hk]),
        ih h]

/-- What is left without an id is what has another one. -/
theorem mem_without {x : Nat × Nat} : x ∈ Store.without index held ↔ x ∈ held ∧ x.1 ≠ index := by
  simp [Store.without]

/-- Without one id the others are held. -/
theorem demand_without (h : (held.map Prod.fst).Nodup) (hx : (index, n) ∈ held) :
    demand (Store.without index held) + n = demand held := by
  induction held with
  | nil => cases hx
  | cons x held ih =>
    obtain ⟨hx', h⟩ := List.nodup_cons.1 h
    by_cases hi : x.1 = index
    · have hrest : Store.without index held = held :=
        List.filter_eq_self.2 fun y hy => decide_eq_true fun he =>
          hx' (hi.trans he.symm ▸ List.mem_map_of_mem hy)
      have hn : x = (index, n) := by
        rcases List.mem_cons.1 hx with he | hm
        · exact he.symm
        · exact absurd (hi ▸ List.mem_map_of_mem hm) hx'
      have hcons : Store.without index (x :: held) = Store.without index held :=
        List.filter_cons_of_neg (by simp [hi])
      rw [hcons, hrest, hn]
      simp [demand, Nat.add_comm]
    · have hm : (index, n) ∈ held :=
        (List.mem_cons.1 hx).resolve_left fun he => hi (he ▸ rfl)
      have hcons : Store.without index (x :: held) = x :: Store.without index held :=
        List.filter_cons_of_pos (by simp [hi])
      rw [hcons]
      have := ih h hm
      simp only [demand, List.map_cons, List.sum_cons] at this ⊢
      omega

/-- What is held at the start is at most the peak. -/
theorem demand_le_peak (held : List (Nat × Nat)) (ops : List TraceOp) :
    demand held ≤ peak held ops := by
  cases ops with
  | nil => exact Nat.le_refl _
  | cons op ops => exact Nat.le_max_left ..

/-- What is held after a request for memory is new, or another id that was held before. -/
theorem TraceOp.Allowed.mem_hold (ha : op.Allowed held) (ht : op.type ≠ .free) {x : Nat × Nat}
    (hx : x ∈ op.hold held) : x = (op.index, op.size.toNat) ∨ x ∈ held ∧ x.1 ≠ op.index := by
  unfold TraceOp.hold at hx
  split at hx
  · next ha' =>
    refine (List.mem_cons.1 hx).imp_right fun hx => ⟨hx, fun he => ?_⟩
    exact ha.2.1 (he ▸ List.mem_map_of_mem hx) ha'
  · exact (List.mem_cons.1 hx).imp_right mem_without.1
  · next hf => exact absurd hf ht

/-- A free gives no new pointer. -/
theorem request_free {ptr : Nat} (ht : op.type = .free) (hr : request l ptr op = .done p l') :
    p = ptr := by
  simp only [request, ht] at hr
  cases hr
  rfl

/-! ## The ids and the ledger -/

/-- The ids that are held have the payloads of the ledger. -/
structure Holds (ptrs : Nat → Nat) (l : Ledger) (held : List (Nat × Nat)) : Prop where
  live : l.live = held.map fun x => (ptrs x.1, x.2)
  nodup : (l.live.map Prod.fst).Nodup

/-- The blocks held are at distinct addresses. -/
theorem Holds.pointers (H : Holds ptrs l held) : (held.map fun x => ptrs x.1).Nodup := by
  have := H.nodup
  rwa [H.live, List.map_map] at this

/-- Ids are held once. -/
theorem Holds.ids (H : Holds ptrs l held) : (held.map Prod.fst).Nodup := by
  have : ((held.map Prod.fst).map ptrs).Nodup := by
    rw [List.map_map]
    exact H.pointers
  exact this.of_map _

/-- What the trace holds is live in the ledger. -/
theorem Holds.mem (H : Holds ptrs l held) {x : Nat × Nat} (hx : x ∈ held) :
    (ptrs x.1, x.2) ∈ l.live := by
  rw [H.live]
  exact List.mem_map_of_mem hx

/-- Where ids have pointers of their own, an id leaves with its payload. -/
theorem without_pointers (hn : (held.map fun x => ptrs x.1).Nodup)
    (hi : index ∈ held.map Prod.fst) :
    Store.without (ptrs index) (held.map fun x => (ptrs x.1, x.2)) =
      (Store.without index held).map fun x => (ptrs x.1, x.2) := by
  obtain ⟨y, hy, rfl⟩ := List.mem_map.1 hi
  rw [Store.without, List.filter_map, Store.without]
  congr 1
  refine List.filter_congr fun x hx => ?_
  have hinj : ptrs x.1 = ptrs y.1 ↔ x.1 = y.1 :=
    ⟨fun he => congrArg Prod.fst (List.inj_on_of_nodup_map hn hx hy he), congrArg ptrs⟩
  simp [hinj]

/-- Without an id its payload is not held. -/
theorem Holds.without (H : Holds ptrs l held) (hi : index ∈ held.map Prod.fst) :
    Store.without (ptrs index) l.live =
      (Store.without index held).map fun x => (ptrs x.1, x.2) := by
  rw [H.live]
  exact without_pointers H.pointers hi

/-- **Step lemma.** An allowed request that is granted. -/
theorem Holds.done (H : Holds ptrs l held) (ha : op.Allowed held)
    (hr : request l (ptrs op.index) op = .done p l') (hn : (l'.live.map Prod.fst).Nodup) :
    Holds (Function.update ptrs op.index p) l' (op.hold held) := by
  refine ⟨?_, hn⟩
  have hkeep : ∀ xs : List (Nat × Nat), (∀ x ∈ xs, x.1 ≠ op.index) →
      (xs.map fun x => (Function.update ptrs op.index p x.1, x.2)) =
        xs.map fun x => (ptrs x.1, x.2) := fun xs hxs =>
    List.map_congr_left fun x hx => by rw [Function.update_of_ne (hxs x hx)]
  have hwithout := hkeep (Store.without op.index held) fun x hx => (mem_without.1 hx).2
  cases ht : op.type with
  | alloc =>
    have hnew : ∀ x ∈ held, x.1 ≠ op.index := fun x hx he =>
      (ha.2.1 (he ▸ List.mem_map_of_mem hx)) ht
    simp only [request, ht] at hr
    split at hr
    · cases hr
    · cases hr
      simp only [TraceOp.hold, ht, List.map_cons, Function.update_self, hkeep held hnew, H.live]
  | realloc =>
    have hi := ha.2.2 (by rw [ht]; decide)
    simp only [request, ht] at hr
    split at hr
    · split at hr
      · cases hr
      · cases hr
        simp only [TraceOp.hold, ht, List.map_cons, Function.update_self, hwithout, H.without hi]
    · cases hr
    · cases hr
  | free =>
    have hi := ha.2.2 (by rw [ht]; decide)
    simp only [request, ht] at hr
    cases hr
    simp only [TraceOp.hold, ht, Function.update_eq_self, H.without hi]

/-! ## The check -/

/-- A held request as a payload. -/
def payload (x : Nat × Nat) : Payload := ⟨x.1, x.2⟩

/-- A payload leaves the range list. -/
theorem removeRange_payloads {xs : List (Nat × Nat)} (hn : (xs.map Prod.fst).Nodup) (ptr : Nat) :
    removeRange ((xs.map payload).map Payload.range) ptr =
      ((Store.without ptr xs).map payload).map Payload.range := by
  have hkeys : ((xs.map payload).map Payload.lo).Nodup := by
    rw [List.map_map]
    exact hn
  rw [removeRange_map, eraseP_eq_filter hkeys ptr, List.filter_map]
  rfl

/-- The live pointers are distinct. -/
theorem Ready.nodup (R : Ready st l) : (l.live.map Prod.fst).Nodup := R.inv.nodup

/-- Filling a payload leaves those apart from it alone. -/
theorem same_fill {mem : Mem} {x : Store.Extent} (c : UInt8) (h : Store.Extent.Apart (p, n) x) :
    Store.Same mem (fill mem p c n) x := fun i hi => if_neg fun hin => by
  unfold Store.Extent.Apart at h
  dsimp only at h
  omega

/-- What is handed out is a correct payload beside the others. -/
theorem Granted.correct {others : List Store.Extent} (G : Granted st st' l' others p n) :
    Correct st'.lib (others.map payload) ⟨p, n⟩ := by
  have hx : (p, n) ∈ l'.live := by
    rw [G.live]
    exact List.mem_cons_self
  obtain ⟨-, hmod, hlo, hhi⟩ := G.ready.inv.holding.within hx
  refine ⟨hmod, hlo, hhi, fun q hq => ?_⟩
  obtain ⟨x, hx, rfl⟩ := List.mem_map.1 hq
  exact (G.others x hx).1

/-- The driver in the middle of a check: its arrays and its range list are right for what is held,
and the bytes of each payload are the low byte of its id. -/
structure Checked (d : Driver Globals) (ptrs : Nat → Nat) (l : Ledger)
    (held : List (Nat × Nat)) : Prop where
  ready : Ready d.st l
  holds : Holds ptrs l held
  sizes : ∀ x ∈ held, 1 ≤ x.2 ∧ x.2 < 2 ^ 31
  blocks : ∀ x ∈ held, d.blocks x.1 = ptrs x.1 ∧ d.blockSizes x.1 = x.2
  ranges : d.ranges = (l.live.map payload).map Payload.range
  bytes : ∀ x ∈ held, ∀ i < x.2, d.st.mem (ptrs x.1 + i) = UInt8.ofNat (lowByte x.1)

/-- The payloads held are not empty. -/
theorem Checked.pos (C : Checked d ptrs l held) {xs : List (Nat × Nat)}
    (hxs : ∀ x ∈ xs, x ∈ l.live) : ∀ q ∈ xs.map payload, 0 < q.len := by
  intro q hq
  obtain ⟨x, hx, rfl⟩ := List.mem_map.1 hq
  have hx := hxs x hx
  rw [C.holds.live] at hx
  obtain ⟨y, hy, rfl⟩ := List.mem_map.1 hx
  exact (C.sizes y hy).1

/-- The range of a payload leaves the list. -/
theorem Checked.removed (C : Checked d ptrs l held) (ptr : Nat) :
    removeRange d.ranges ptr = ((Store.without ptr l.live).map payload).map Payload.range := by
  rw [C.ranges]
  exact removeRange_payloads C.holds.nodup ptr

/-- **Step lemma.** After a request that is granted the payload is filled and remembered. -/
theorem Checked.remember (C : Checked d ptrs l held) (ha : op.Allowed held) (ht : op.type ≠ .free)
    (hr : request l (ptrs op.index) op = .done p l') {others : List Store.Extent}
    (G : Granted d.st st' l' others p op.size.toNat)
    (hothers : ∀ x ∈ held, x.1 ≠ op.index → (ptrs x.1, x.2) ∈ others) :
    Checked (d.remember st' ((others.map payload).map Payload.range |>.cons
      (Payload.mk p op.size.toNat).range) p op) (Function.update ptrs op.index p) l'
      (op.hold held) := by
  have h1 := ha.1 ht
  have hsize := TraceOp.ofInt_size h1
  have hlive : (p, op.size.toNat) ∈ l'.live := by
    rw [G.live]
    exact List.mem_cons_self
  refine
    { ready := ?_
      holds := C.holds.done ha hr G.ready.nodup
      sizes := fun x hx => ?_
      blocks := fun x hx => ?_
      ranges := by rw [G.live]; rfl
      bytes := fun x hx i hi => ?_ }
  · rw [Driver.remember, hsize]
    exact G.ready.fill hlive _
  · rcases ha.mem_hold ht hx with rfl | ⟨hx, -⟩
    · exact ⟨by dsimp only; omega, op.size_lt⟩
    · exact C.sizes x hx
  · rcases ha.mem_hold ht hx with rfl | ⟨hx, hne⟩
    · simp [Driver.remember, hsize]
    · simpa [Driver.remember, hne] using C.blocks x hx
  · simp only [Driver.remember, hsize]
    rcases ha.mem_hold ht hx with rfl | ⟨hx, hne⟩
    · rw [Function.update_self]
      exact if_pos ⟨Nat.le_add_right .., Nat.add_lt_add_left hi _⟩
    · rw [Function.update_of_ne hne]
      obtain ⟨hap, hsame⟩ := G.others _ (hothers x hx hne)
      rw [same_fill _ hap i hi]
      exact (hsame i hi).trans (C.bytes x hx i hi)

/-- After a free the other payloads are as they were. -/
theorem Checked.freed (C : Checked d ptrs l held) (ha : op.Allowed held) (ht : op.type = .free)
    (hr : request l (ptrs op.index) op = .done p l') (R' : Ready st' l')
    (hlive : l'.live = Store.without (ptrs op.index) l.live)
    (hsame : ∀ x ∈ Store.without (ptrs op.index) l.live, Store.Same d.st.mem st'.mem x) :
    Checked { d with st := st', ranges := removeRange d.ranges (ptrs op.index) }
      (Function.update ptrs op.index p) l' (op.hold held) := by
  have hi := ha.2.2 (show op.type ≠ .alloc by rw [ht]; decide)
  have hhold : op.hold held = Store.without op.index held := by simp only [TraceOp.hold, ht]
  have hp : Function.update ptrs op.index p = ptrs := by
    rw [request_free ht hr]
    exact Function.update_eq_self ..
  have H := C.holds.done ha hr R'.nodup
  rw [hp, hhold] at H ⊢
  have hsub : ∀ x ∈ Store.without op.index held, x ∈ held := fun x hx => (mem_without.1 hx).1
  exact
    { ready := R'
      holds := H
      sizes := fun x hx => C.sizes x (hsub x hx)
      blocks := fun x hx => C.blocks x (hsub x hx)
      ranges := by rw [C.removed, hlive]
      bytes := fun x hx i hlt => by
        have hm := H.mem hx
        rw [hlive] at hm
        exact (hsame _ hm i hlt).trans (C.bytes x (hsub x hx) i hlt) }

/-- The check of one request comes out as the ledger says. -/
def Driver.Answers (d : Driver Globals) (ptrs : Nat → Nat) (l : Ledger) (held : List (Nat × Nat))
    (tracenum opnum : Nat) (op : TraceOp) : Prop :=
  (∃ p l' d', request l (ptrs op.index) op = .done p l' ∧ Legible op ∧
      checkOp mm tracenum opnum d op = .ok d' ∧
      Checked d' (Function.update ptrs op.index p) l' (op.hold held) ∧
      d'.st.lib.memStartBrk = d.st.lib.memStartBrk) ∨
    (∃ msg d', checkOp mm tracenum opnum d op = .error (mallocError tracenum opnum msg, d') ∧
      d'.st.lib.memStartBrk = d.st.lib.memStartBrk ∧
      (request l (ptrs op.index) op = .refused ∨
        ∃ p l', request l (ptrs op.index) op = .done p l' ∧ ¬ Legible op)) ∨
    (∃ d', checkOp mm tracenum opnum d op = .error (.lost, d') ∧
      request l (ptrs op.index) op = .exit) ∨
    request l (ptrs op.index) op = .damaged

/-- The block of an id that is held, in the arrays and on the ledger. -/
theorem Checked.find (C : Checked d ptrs l held) (ha : op.Allowed held) (ht : op.type ≠ .alloc) :
    ∃ n, (op.index, n) ∈ held ∧ d.blocks op.index = ptrs op.index ∧
      d.blockSizes op.index = n ∧ (ptrs op.index, n) ∈ l.live := by
  obtain ⟨⟨i, n⟩, hx, hxi⟩ := List.mem_map.1 (ha.2.2 ht)
  obtain rfl : i = op.index := hxi
  obtain ⟨hb, hs⟩ := C.blocks _ hx
  exact ⟨n, hx, hb, hs, C.holds.mem hx⟩

/-- A request for a new block. -/
theorem Checked.alloc (C : Checked d ptrs l held) (ha : op.Allowed held) (ht : op.type = .alloc)
    (tracenum opnum : Nat) : d.Answers ptrs l held tracenum opnum op := by
  have h1 := ha.1 (by rw [ht]; decide)
  have hleg : Legible op := fun he => by
    rw [ht] at he
    cases he
  cases hr : request l (ptrs op.index) op with
  | done p l' =>
    obtain ⟨st', hm, G⟩ := C.ready.alloc ht h1 hr
    have hadd : addRange st'.lib _ p op.size tracenum opnum = _ :=
      (G.correct.accepted (C.pos fun x hx => hx) h1 op.int.2 _).2 rfl
    rw [← C.ranges] at hadd
    refine .inl ⟨p, l', _, hr, hleg, ?_, C.remember ha (by rw [ht]; decide) hr G
      fun x hx _ => C.holds.mem hx, G.grows.start⟩
    simp only [checkOp, ht, hm, if_neg G.ne, hadd]
    rfl
  | refused =>
    obtain ⟨st', hm, hstart⟩ := C.ready.alloc_refused ht h1 hr
    refine .inr (.inl ⟨"mm_malloc failed.", { d with st := st' }, ?_, hstart, .inl hr⟩)
    simp only [checkOp, ht, hm, if_true]
  | exit | damaged =>
    simp only [request, ht] at hr
    split at hr <;> cases hr

/-- A block that the ledger moves: its contents are read back where signed characters allow it. -/
theorem Checked.moved (C : Checked d ptrs l held) (ha : op.Allowed held) (ht : op.type = .realloc)
    (tracenum opnum : Nat) (hr : request l (ptrs op.index) op = .done p l') :
    d.Answers ptrs l held tracenum opnum op := by
  have h1 := ha.1 (by rw [ht]; decide)
  obtain ⟨n, hx, hb, hs, hlive⟩ := C.find ha (by rw [ht]; decide)
  obtain ⟨st', hm, G, hkept⟩ := C.ready.realloc ht h1 hlive hr
  have hadd : addRange st'.lib _ p op.size tracenum opnum = _ :=
    (G.correct.accepted (C.pos fun x hx => (mem_without.1 hx).1) h1 op.int.2 _).2 rfl
  rw [← C.removed] at hadd
  have hpres := preserved_iff p (C.sizes _ hx).1 (C.sizes _ hx).2 h1 fun j hj =>
    (hkept j hj).trans (C.bytes _ hx j (by omega))
  rw [← hs] at hpres
  by_cases hlow : lowByte op.index < 128
  · refine .inl ⟨p, l', _, hr, fun _ => hlow, ?_, C.remember ha (by rw [ht]; decide) hr G
      fun y hy hne => ?_, G.grows.start⟩
    · simp only [checkOp, ht, hb, hm, if_neg G.ne, hadd, hpres.2 hlow, if_true]
      rfl
    · refine mem_without.2 ⟨C.holds.mem hy, fun he => hne ?_⟩
      rw [List.inj_on_of_nodup_map C.holds.pointers hy hx he]
  · refine .inr (.inl ⟨"mm_realloc did not preserve the data from old block", { d with
        st := st'
        ranges := (Payload.mk p op.size.toNat ::
          (Store.without (ptrs op.index) l.live).map payload).map Payload.range }, ?_,
      G.grows.start, .inr ⟨p, l', hr, fun hleg => hlow (hleg ht)⟩⟩)
    simp only [checkOp, ht, hb, hm, if_neg G.ne, hadd, hpres, hlow, if_false]

/-- A request to move a block. -/
theorem Checked.realloc (C : Checked d ptrs l held) (ha : op.Allowed held)
    (ht : op.type = .realloc) (tracenum opnum : Nat) :
    d.Answers ptrs l held tracenum opnum op := by
  have h1 := ha.1 (by rw [ht]; decide)
  obtain ⟨n, -, hb, -, hlive⟩ := C.find ha (by rw [ht]; decide)
  have hmem : ptrs op.index ∈ l.live.map Prod.fst := List.mem_map.2 ⟨_, hlive, rfl⟩
  cases hr : request l (ptrs op.index) op with
  | done p l' => exact C.moved ha ht tracenum opnum hr
  | refused =>
    obtain ⟨st', hm, hstart⟩ := C.ready.realloc_refused ht h1 hmem hr
    refine .inr (.inl ⟨"mm_realloc failed.", { d with st := st' }, ?_, hstart, .inl hr⟩)
    simp only [checkOp, ht, hb, hm, if_true]
  | exit =>
    have hm := C.ready.realloc_exit ht h1 hmem hr
    refine .inr (.inr (.inl ⟨d, ?_, hr⟩))
    simp only [checkOp, ht, hb, hm]
  | damaged => exact .inr (.inr (.inr hr))

/-- A request to free a block. -/
theorem Checked.free (C : Checked d ptrs l held) (ha : op.Allowed held) (ht : op.type = .free)
    (tracenum opnum : Nat) : d.Answers ptrs l held tracenum opnum op := by
  obtain ⟨n, -, hb, -, hlive⟩ := C.find ha (by rw [ht]; decide)
  obtain ⟨st', l', hm, hr, R', hl', hgrows, hsame⟩ := C.ready.free ht
    (show ptrs op.index ∈ l.live.map Prod.fst from List.mem_map.2 ⟨_, hlive, rfl⟩)
  have hleg : Legible op := fun he => by
    rw [ht] at he
    cases he
  refine .inl ⟨_, l', _, hr, hleg, ?_, C.freed ha ht hr R' hl' hsame, hgrows.start⟩
  simp only [checkOp, ht, hb, hm]

/-- **Step lemma.** One request. -/
theorem Checked.step (C : Checked d ptrs l held) (ha : op.Allowed held) (tracenum opnum : Nat) :
    d.Answers ptrs l held tracenum opnum op := by
  cases ht : op.type with
  | alloc => exact C.alloc ha ht tracenum opnum
  | realloc => exact C.realloc ha ht tracenum opnum
  | free => exact C.free ha ht tracenum opnum

/-! ## The verdict -/

/-- The check comes out as the trace is judged, on the same storage. -/
inductive Comes (start : Nat) :
    Judgement → Except (Stop × Driver Globals) (Driver Globals) → Prop
  | valid {l : Ledger} {d : Driver Globals} (hstart : d.st.lib.memStartBrk = start) :
      Comes start (.valid l) (.ok d)
  | invalid {line : String} {d : Driver Globals} (hstart : d.st.lib.memStartBrk = start) :
      Comes start .invalid (.error (.mallocError line, d))
  | exit {d : Driver Globals} : Comes start .exit (.error (.lost, d))
  | damaged {r : Except (Stop × Driver Globals) (Driver Globals)} : Comes start .damaged r

/-- **Run lemma.** The requests of a trace. -/
theorem Checked.run (C : Checked d ptrs l held) (hd : Disciplined held ops)
    (tracenum opnum : Nat) :
    Comes d.st.lib.memStartBrk (judge l ptrs ops) (checkOps mm tracenum opnum d ops) := by
  induction ops generalizing d ptrs l held opnum with
  | nil => exact .valid rfl
  | cons op ops ih =>
    obtain ⟨ha, hd⟩ := hd
    rw [judge, checkOps]
    rcases C.step ha tracenum opnum with ⟨p, l', d', hr, hleg, hop, C', hstart⟩ |
      ⟨msg, d', hop, hstart, hr⟩ | ⟨d', hop, hr⟩ | hr
    · simp only [hr, hop, if_pos hleg, ← hstart]
      exact ih C' hd (opnum + 1)
    · rw [hop]
      rcases hr with hr | ⟨p, l', hr, hleg⟩
      · simp only [hr]
        exact .invalid hstart
      · simp only [hr, if_neg hleg]
        exact .invalid hstart
    · simp only [hop, hr]
      exact .exit
    · simp only [hr]
      exact .damaged

/-- `eval_mm_valid` on a disciplined trace. -/
theorem checkMmValid_comes (hstart : d.st.lib.memStartBrk % 8 = 0) (hd : Disciplined [] ops)
    (tracenum : Nat) :
    Comes d.st.lib.memStartBrk (judgeTrace d.st.lib.memStartBrk ops)
      (checkMmValid mm tracenum d ops) := by
  obtain ⟨st', hi, R, hs⟩ := mmInit_ready d.st hstart
  have C : Checked { d with st := st', ranges := [] } (fun _ => 0)
      (.init d.st.lib.memStartBrk (d.st.lib.memStartBrk + maxHeap)) [] :=
    { ready := R
      holds := ⟨rfl, .nil⟩
      sizes := fun x hx => absurd hx List.not_mem_nil
      blocks := fun x hx => absurd hx List.not_mem_nil
      ranges := rfl
      bytes := fun x hx => absurd hx List.not_mem_nil }
  have hrun := C.run hd tracenum 0
  rw [show ({ d with st := st', ranges := [] } : Driver Globals).st.lib.memStartBrk = _ from hs]
    at hrun
  rw [checkMmValid, hi]
  exact hrun

/-- **The verdict on mm.c.** On a trace that asks for one byte at least whenever it asks for memory,
allocates new ids, moves and frees held ones (`Disciplined`) and makes no block outgrow its chunk,
the check comes to the verdict that the ledger gives: 1 when every request is granted and the moved
blocks can be read back, 0 when a request before that is refused or cannot, and none when the
process exits. It depends on nothing that the memory held before. `memcpy` copies as `memmove` does,
and the storage is placed so that no sum of `mem_sbrk` wraps (`Heap.Placed`). -/
theorem mm_verdict {d : Driver Globals} {ops : List TraceOp} (tracenum : Nat)
    (hstart : d.st.lib.memStartBrk % 8 = 0) (hd : Disciplined [] ops)
    (hj : judgeTrace d.st.lib.memStartBrk ops ≠ .damaged) :
    verdict (evalMmValid mm tracenum d ops) =
      (judgeTrace d.st.lib.memStartBrk ops).verdict := by
  have hc := checkMmValid_comes hstart hd tracenum
  rw [← checkMmValid_eq]
  generalize checkMmValid mm tracenum d ops = r at hc
  generalize judgeTrace d.st.lib.memStartBrk ops = j at hc hj
  cases hc with
  | valid | invalid | exit => rfl
  | damaged => exact absurd rfl hj

/-! ## The measurements -/

/-- The pointers that the driver has remembered are right for what is held. -/
structure Tracked (d : Driver Globals) (ptrs : Nat → Nat) (l : Ledger)
    (held : List (Nat × Nat)) : Prop where
  ready : Ready d.st l
  holds : Holds ptrs l held
  blocks : ∀ x ∈ held, d.blocks x.1 = ptrs x.1

/-- What the allocator answers to a request that is granted on the ledger. -/
theorem Tracked.answer (T : Tracked d ptrs l held) (ha : op.Allowed held)
    (hr : request l (ptrs op.index) op = .done p l') : ∃ st', Ready st' l' ∧
      d.st.heap.Grows st'.heap ∧
      match op.type with
      | .alloc => p ≠ 0 ∧ mm.mmMalloc d.st (ofInt op.size) = some (p, st')
      | .realloc => p ≠ 0 ∧
          mm.mmRealloc d.st (d.blocks op.index) (ofInt op.size) = some (p, st')
      | .free => mm.mmFree d.st (d.blocks op.index) = some st' := by
  cases ht : op.type with
  | alloc =>
    obtain ⟨st', hm, G⟩ := T.ready.alloc ht (ha.1 (by rw [ht]; decide)) hr
    exact ⟨st', G.ready, G.grows, G.ne, hm⟩
  | realloc =>
    obtain ⟨x, hx, hxi⟩ := List.mem_map.1 (ha.2.2 (by rw [ht]; decide))
    have hb := T.blocks x hx
    have hlive := T.holds.mem hx
    rw [hxi] at hb hlive
    obtain ⟨st', hm, G, -⟩ := T.ready.realloc ht (ha.1 (by rw [ht]; decide)) hlive hr
    exact ⟨st', G.ready, G.grows, G.ne, by rw [hb]; exact hm⟩
  | free =>
    obtain ⟨x, hx, hxi⟩ := List.mem_map.1 (ha.2.2 (by rw [ht]; decide))
    have hb := T.blocks x hx
    have hlive := T.holds.mem hx
    rw [hxi] at hb hlive
    obtain ⟨st', l₁, hm, hr', R', -, hgrows, -⟩ := T.ready.free ht
      (show ptrs op.index ∈ l.live.map Prod.fst from List.mem_map.2 ⟨_, hlive, rfl⟩)
    cases hr'.symm.trans hr
    exact ⟨st', R', hgrows, by rw [hb]; exact hm⟩

/-- The pointers are right again when the new one has been remembered. -/
theorem Tracked.next {d' : Driver Globals} (T : Tracked d ptrs l held) (ha : op.Allowed held)
    (hr : request l (ptrs op.index) op = .done p l') (R' : Ready d'.st l')
    (hb : d'.blocks = if op.type = .free then d.blocks else Function.update d.blocks op.index p) :
    Tracked d' (Function.update ptrs op.index p) l' (op.hold held) := by
  refine ⟨R', T.holds.done ha hr R'.nodup, fun x hx => ?_⟩
  by_cases ht : op.type = .free
  · rw [hb, if_pos ht, request_free ht hr, Function.update_eq_self]
    simp only [TraceOp.hold, ht] at hx
    exact T.blocks x (mem_without.1 hx).1
  · rw [hb, if_neg ht]
    rcases ha.mem_hold ht hx with rfl | ⟨hx, hne⟩
    · rw [Function.update_self, Function.update_self]
    · rw [Function.update_of_ne hne, Function.update_of_ne hne, T.blocks x hx]

/-- A request that is granted is timed. -/
theorem Tracked.speedOp (T : Tracked d ptrs l held) (ha : op.Allowed held)
    (hr : request l (ptrs op.index) op = .done p l') : ∃ d', speedOp mm d op = .ok d' ∧
      Tracked d' (Function.update ptrs op.index p) l' (op.hold held) ∧
      d.st.heap.Grows d'.st.heap := by
  obtain ⟨st', R', hgrows, hm⟩ := T.answer ha hr
  cases ht : op.type with rw [ht] at hm
  | alloc =>
    refine ⟨{ d with st := st', blocks := Function.update d.blocks op.index p }, ?_,
      T.next ha hr R' (by rw [ht]; rfl), hgrows⟩
    simp only [Mdriver.speedOp, ht, hm.2, answered]
    exact if_neg hm.1
  | realloc =>
    refine ⟨{ d with st := st', blocks := Function.update d.blocks op.index p }, ?_,
      T.next ha hr R' (by rw [ht]; rfl), hgrows⟩
    simp only [Mdriver.speedOp, ht, hm.2, answered]
    exact if_neg hm.1
  | free =>
    refine ⟨{ d with st := st' }, ?_, T.next ha hr R' (by rw [ht]; rfl), hgrows⟩
    simp only [Mdriver.speedOp, ht, hm, answered]
    rfl

/-- A measurement of space: the statistics are right as well. -/
structure Measured (u : Usage Globals) (ptrs : Nat → Nat) (l : Ledger)
    (held : List (Nat × Nat)) : Prop where
  tracked : Tracked u.driver ptrs l held
  sizes : ∀ x ∈ held, x.2 < 2 ^ 31 ∧ u.driver.blockSizes x.1 = x.2
  total : u.totalSize = demand held
  most : (demand held : Int) ≤ u.maxTotalSize

/-- The highest total so far, after some bytes more. -/
theorem Usage.grow_max (u : Usage Globals) (d : Driver Globals) (n : Int) :
    (u.grow d n).maxTotalSize = max u.maxTotalSize (u.totalSize + n) := by
  simp only [Usage.grow]
  split <;> omega

/-- **Step lemma.** A request that is granted is measured: the current total is the number of bytes
held, and the largest one so far takes it into account. -/
theorem Measured.utilOp {u : Usage Globals} (M : Measured u ptrs l held) (ha : op.Allowed held)
    (hr : request l (ptrs op.index) op = .done p l') : ∃ u', utilOp mm u op = .ok u' ∧
      Measured u' (Function.update ptrs op.index p) l' (op.hold held) ∧
      u'.maxTotalSize = max u.maxTotalSize (demand (op.hold held)) ∧
      u.driver.st.heap.Grows u'.driver.st.heap := by
  have T := M.tracked
  obtain ⟨st', R', hgrows, hm⟩ := T.answer ha hr
  have hsizes : op.type ≠ .free → ∀ x ∈ op.hold held, x.2 < 2 ^ 31 ∧
      (u.driver.record st' p op).blockSizes x.1 = x.2 := by
    intro ht x hx
    rcases ha.mem_hold ht hx with rfl | ⟨hx, hne⟩
    · exact ⟨op.size_lt, by simp [Driver.record, TraceOp.ofInt_size (ha.1 ht)]⟩
    · simpa [Driver.record, hne] using M.sizes x hx
  cases ht : op.type with rw [ht] at hm hsizes
  | alloc =>
    have h1 := ha.1 (by rw [ht]; decide)
    have hdemand : u.totalSize + op.size = demand (op.hold held) := by
      simp only [TraceOp.hold, ht, demand, List.map_cons, List.sum_cons, M.total]
      omega
    refine ⟨u.grow (u.driver.record st' p op) op.size, ?_,
      ⟨T.next ha hr R' (by rw [ht]; rfl), hsizes (by decide), hdemand, ?_⟩, ?_, hgrows⟩
    · simp only [Mdriver.utilOp, ht, hm.2, answered]
      exact if_neg hm.1
    · rw [Usage.grow_max, hdemand]
      exact le_max_right ..
    · rw [Usage.grow_max, hdemand]
  | realloc =>
    have h1 := ha.1 (by rw [ht]; decide)
    obtain ⟨x, hx, hxi⟩ := List.mem_map.1 (ha.2.2 (by rw [ht]; decide))
    obtain ⟨hlt, hs⟩ := M.sizes x hx
    rw [hxi] at hs
    have hdemand : u.totalSize + (op.size - toInt (u.driver.blockSizes op.index)) =
        demand (op.hold held) := by
      have hrest := demand_without T.holds.ids (show (op.index, x.2) ∈ held from hxi ▸ hx)
      rw [hs, toInt_of_lt hlt, M.total, ← hrest]
      simp only [TraceOp.hold, ht, demand, List.map_cons, List.sum_cons]
      omega
    refine ⟨u.grow (u.driver.record st' p op)
        (op.size - toInt (u.driver.blockSizes op.index)), ?_,
      ⟨T.next ha hr R' (by rw [ht]; rfl), hsizes (by decide), hdemand, ?_⟩, ?_, hgrows⟩
    · simp only [Mdriver.utilOp, ht, hm.2, answered]
      exact if_neg hm.1
    · rw [Usage.grow_max, hdemand]
      exact le_max_right ..
    · rw [Usage.grow_max, hdemand]
  | free =>
    obtain ⟨x, hx, hxi⟩ := List.mem_map.1 (ha.2.2 (by rw [ht]; decide))
    obtain ⟨hlt, hs⟩ := M.sizes x hx
    rw [hxi] at hs
    have hrest := demand_without T.holds.ids (show (op.index, x.2) ∈ held from hxi ▸ hx)
    have hhold : op.hold held = Store.without op.index held := by simp only [TraceOp.hold, ht]
    have hmost := M.most
    refine ⟨{ u with
        driver := { u.driver with st := st' }
        totalSize := u.totalSize - toInt (u.driver.blockSizes op.index) }, ?_,
      ⟨T.next ha hr R' (by rw [ht]; rfl), fun y hy => ?_, ?_, ?_⟩, ?_, hgrows⟩
    · simp only [Mdriver.utilOp, ht, hm, answered]
      rfl
    · rw [hhold] at hy
      exact M.sizes y (mem_without.1 hy).1
    · dsimp only
      rw [hhold, hs, toInt_of_lt hlt, M.total]
      omega
    · dsimp only
      rw [hhold]
      omega
    · dsimp only
      rw [hhold]
      omega

/-- A valid trace begins with a request that is granted. -/
theorem judge_valid (hj : judge l ptrs (op :: ops) = .valid l') :
    ∃ p l₁, request l (ptrs op.index) op = .done p l₁ ∧
      judge l₁ (Function.update ptrs op.index p) ops = .valid l' := by
  rw [judge] at hj
  split at hj
  · next p l₁ hr =>
    split at hj
    · exact ⟨p, l₁, hr, hj⟩
    · cases hj
  · cases hj
  · cases hj
  · cases hj

/-- **Run lemma.** A valid trace is timed to its end. -/
theorem Tracked.run (T : Tracked d ptrs l held) (hd : Disciplined held ops)
    (hj : judge l ptrs ops = .valid l') :
    ∃ d', ops.foldlM (Mdriver.speedOp mm) d = .ok d' ∧ d.st.heap.Grows d'.st.heap := by
  induction ops generalizing d ptrs l held with
  | nil => exact ⟨d, rfl, .refl _⟩
  | cons op ops ih =>
    obtain ⟨ha, hd⟩ := hd
    obtain ⟨p, l₁, hr, hj⟩ := judge_valid hj
    obtain ⟨d₁, hop, T₁, hg⟩ := T.speedOp ha hr
    obtain ⟨d', hrun, hg'⟩ := ih T₁ hd hj
    exact ⟨d', by rw [List.foldlM_cons, hop]; exact hrun, hg.trans hg'⟩

/-- What is held has room between the start of the storage and the break. -/
theorem Tracked.demand_le (T : Tracked d ptrs l held) :
    d.st.lib.memStartBrk + demand held ≤ d.st.lib.memBrk := by
  have hsum := T.ready.inv.sum_le
  have hdemand : (l.live.map Prod.snd).sum = demand held := by
    rw [T.holds.live, List.map_map]
    rfl
  rwa [hdemand] at hsum

/-- **Run lemma.** A valid trace is measured to its end, and the most it has held has room in the
heap. -/
theorem Measured.run {u : Usage Globals} (M : Measured u ptrs l held) (hd : Disciplined held ops)
    (hj : judge l ptrs ops = .valid l') : ∃ u', ops.foldlM (Mdriver.utilOp mm) u = .ok u' ∧
      Ready u'.driver.st l' ∧ u.driver.st.heap.Grows u'.driver.st.heap ∧
      u'.maxTotalSize = max u.maxTotalSize (peak held ops) ∧
      u.driver.st.lib.memStartBrk + peak held ops ≤ u'.driver.st.lib.memBrk := by
  induction ops generalizing u ptrs l held with
  | nil =>
    have hl : l = l' := by
      rw [judge] at hj
      cases hj
      rfl
    exact ⟨u, rfl, hl ▸ M.tracked.ready, .refl _, (max_eq_left M.most).symm, M.tracked.demand_le⟩
  | cons op ops ih =>
    obtain ⟨ha, hd⟩ := hd
    obtain ⟨p, l₁, hr, hj⟩ := judge_valid hj
    obtain ⟨u₁, hop, M₁, hmax, hg⟩ := M.utilOp ha hr
    obtain ⟨u', hrun, R', hg', hmax', hle⟩ := ih M₁ hd hj
    have hmost := M.most
    have hpeak := demand_le_peak (op.hold held) ops
    have hroom := M.tracked.demand_le
    have hstart : u₁.driver.st.lib.memStartBrk = u.driver.st.lib.memStartBrk := hg.start
    have hbrk : u.driver.st.lib.memBrk ≤ u'.driver.st.lib.memBrk := (hg.trans hg').brk
    refine ⟨u', by rw [List.foldlM_cons, hop]; exact hrun, R', hg.trans hg', ?_, ?_⟩
    · rw [hmax', hmax]
      simp only [peak]
      omega
    · simp only [peak]
      omega

/-- **Space.** On a valid disciplined trace `eval_mm_util` gets to the end: the high water mark is
the most bytes that the trace has held, the heap size is that of the ledger, and the mark is not
above it. -/
theorem mm_util {d : Driver Globals} {ops : List TraceOp} {l : Ledger}
    (hstart : d.st.lib.memStartBrk % 8 = 0) (hd : Disciplined [] ops)
    (hj : judgeTrace d.st.lib.memStartBrk ops = .valid l) :
    ∃ d', evalMmUtil mm d ops =
        .ok (((peak [] ops : Nat), l.brk - d.st.lib.memStartBrk), d') ∧
      peak [] ops ≤ l.brk - d.st.lib.memStartBrk ∧
      d'.st.lib.memStartBrk = d.st.lib.memStartBrk := by
  obtain ⟨st', hi, R, hs⟩ := mmInit_ready d.st hstart
  have M : Measured ⟨{ d with st := st' }, 0, 0⟩ (fun _ => 0)
      (.init d.st.lib.memStartBrk (d.st.lib.memStartBrk + maxHeap)) [] :=
    { tracked := ⟨R, ⟨rfl, .nil⟩, fun x hx => absurd hx List.not_mem_nil⟩
      sizes := fun x hx => absurd hx List.not_mem_nil
      total := rfl
      most := Int.le_refl 0 }
  obtain ⟨u', hrun, R', hg, hmax, hle⟩ := M.run hd hj
  dsimp only at hmax hle
  have hend : u'.driver.st.lib.memStartBrk = d.st.lib.memStartBrk :=
    (show _ = st'.lib.memStartBrk from hg.start).trans hs
  have hbrk : u'.driver.st.lib.memBrk = l.brk := R'.brk
  have hmark : u'.maxTotalSize = (peak [] ops : Nat) := by omega
  have hsize : u'.driver.st.lib.memHeapsize = l.brk - d.st.lib.memStartBrk := by
    rw [Memlib.memHeapsize, wsub_of_le u'.driver.st.lib.le_brk, hbrk, hend]
  refine ⟨u'.driver, ?_, by omega, hend⟩
  have hinit : replayInit mm d "mm_init failed in eval_mm_util" = .ok { d with st := st' } := by
    rw [replayInit, hi]
    rfl
  rw [evalMmUtil, hinit]
  refine bind_eq_ok.2 ⟨_, rfl, bind_eq_ok.2 ⟨u', hrun, ?_⟩⟩
  rw [hmark, hsize]

/-- **Time.** A valid disciplined trace can be timed as often as one likes. -/
theorem mm_speed {ops : List TraceOp} {l : Ledger} (hd : Disciplined [] ops) (n : Nat) :
    ∀ {d : Driver Globals}, d.st.lib.memStartBrk % 8 = 0 →
      judgeTrace d.st.lib.memStartBrk ops = .valid l →
      ∃ d', ftimerGettod (evalMmSpeed mm ops) n d = .ok d' ∧
        d'.st.lib.memStartBrk = d.st.lib.memStartBrk := by
  induction n with
  | zero => exact fun {d} _ _ => ⟨d, rfl, rfl⟩
  | succ n ih =>
    intro d hstart hj
    obtain ⟨st', hi, R, hs⟩ := mmInit_ready d.st hstart
    have T : Tracked { d with st := st' } (fun _ => 0)
        (.init d.st.lib.memStartBrk (d.st.lib.memStartBrk + maxHeap)) [] :=
      ⟨R, ⟨rfl, .nil⟩, fun x hx => absurd hx List.not_mem_nil⟩
    obtain ⟨d₁, hrun, hg⟩ := T.run hd hj
    have hs₁ : d₁.st.lib.memStartBrk = d.st.lib.memStartBrk :=
      (show _ = st'.lib.memStartBrk from hg.start).trans hs
    have hinit : replayInit mm d "mm_init failed in eval_mm_speed" = .ok { d with st := st' } := by
      rw [replayInit, hi]
      rfl
    obtain ⟨d', hrest, hs'⟩ := ih (hs₁ ▸ hstart) (hs₁ ▸ hj)
    refine ⟨d', bind_eq_ok.2 ⟨d₁, ?_, hrest⟩, hs'.trans hs₁⟩
    rw [evalMmSpeed, hinit]
    exact hrun

/-! ## The report of main -/

/-- The stats of a trace that is judged; there are none when the process exits. -/
def Judgement.stats (start : Nat) (ops : List TraceOp) : Judgement → Option Stats
  | .valid l => some ⟨ops.length, true, some ((peak [] ops : Nat), l.brk - start)⟩
  | .invalid => some ⟨ops.length, false, none⟩
  | .exit | .damaged => none

/-- The stats of a trace on storage at `start`. -/
def reportOf (start : Nat) (t : Trace) : Option Stats :=
  (judgeTrace start t.ops).stats start t.ops

/-- One trace. -/
theorem mm_evalTrace {w : World Globals} {t : Trace} {i start : Nat}
    (hw : w.st.lib.memStartBrk = start) (hstart : start % 8 = 0) (hd : Disciplined [] t.ops)
    (hj : judgeTrace start t.ops ≠ .damaged) :
    (∃ s w', reportOf start t = some s ∧ evalTrace mm i w t = .ok w' ∧
        w'.stats = w.stats ++ [s] ∧ w'.st.lib.memStartBrk = start) ∨
      reportOf start t = none ∧ evalTrace mm i w t = .error .lost := by
  subst hw
  have hc := checkMmValid_comes (d := w.driver t) hstart hd i
  rw [show (w.driver t).st = w.st from rfl] at hc
  rw [reportOf]
  generalize hr : checkMmValid mm i (w.driver t) t.ops = r at hc
  generalize hjt : judgeTrace w.st.lib.memStartBrk t.ops = j at hc hj ⊢
  cases hc with
  | damaged => exact absurd rfl hj
  | exit => exact .inr ⟨rfl, evalTrace_lost hr⟩
  | invalid hs => exact .inl ⟨_, _, rfl, evalTrace_invalid hr, rfl, hs⟩
  | @valid l d hs =>
    rw [← hs] at hstart hjt ⊢
    obtain ⟨d₁, hu, -, hs₁⟩ := mm_util hstart hd hjt
    obtain ⟨d₂, hf, hs₂⟩ := mm_speed hd timedRuns (hs₁ ▸ hstart) (hs₁ ▸ hjt)
    exact .inl ⟨_, _, rfl, evalTrace_valid hr hu hf, rfl, hs₂.trans hs₁⟩

/-- **The report on mm.c.** For disciplined traces that make no block outgrow its chunk, the stats
that `main` arrives at are those of each trace by itself; where one of them makes the process exit
there are none. -/
theorem mm_report {w : World Globals} {ts : List Trace} {i start : Nat}
    (hw : w.st.lib.memStartBrk = start) (hstart : start % 8 = 0)
    (ht : ∀ t ∈ ts, Disciplined [] t.ops ∧ judgeTrace start t.ops ≠ .damaged) :
    match ts.mapM (reportOf start) with
    | some stats => ∃ w', evalTraces mm i w ts = .ok w' ∧ w'.stats = w.stats ++ stats
    | none => evalTraces mm i w ts = .error .lost := by
  induction ts generalizing w i with
  | nil => exact ⟨w, rfl, (List.append_nil _).symm⟩
  | cons t ts ih =>
    obtain ⟨⟨hd, hj⟩, ht⟩ := List.forall_mem_cons.1 ht
    rw [List.mapM_cons, evalTraces]
    rcases mm_evalTrace (i := i) hw hstart hd hj with ⟨s, w₁, hs, he, hst, hw₁⟩ | ⟨hs, he⟩
    · have := ih (i := i + 1) hw₁ ht
      rw [hs, he]
      cases hm : ts.mapM (reportOf start) with
      | none =>
        rw [hm] at this
        exact this
      | some stats =>
        rw [hm] at this
        obtain ⟨w', he', hst'⟩ := this
        exact ⟨w', he', by rw [hst', hst, List.append_assoc]; rfl⟩
    · rw [hs, he]
      rfl

end

/-! ## A block that is moved -/

/-- An empty heap on storage at `start`. -/
def Memlib.empty (start : Nat) (h : 0 < start ∧ start + maxHeap < 2 ^ 32) : Memlib where
  memStartBrk := start
  memBrk := start
  start_pos := h.1
  le_brk := Nat.le_refl start
  brk_le := Nat.le_add_right start maxHeap
  addressable := h.2

/-- Zeroed storage at address 8. -/
def zeroed : State Globals := ⟨fun _ => 0, .empty 8 (by decide), ⟨0, 0, []⟩⟩

/-- The requests of the example hold what they name. -/
theorem movedOps_disciplined (index : Nat) : Disciplined [] (movedOps index) := by
  simp [Disciplined, TraceOp.Allowed, TraceOp.hold, movedOps]

/-- The block of id 0 grows into the rest of the chunk; that of id 128 does too, but cannot be read
back. -/
theorem movedOps_judged : (∃ l, judgeTrace 8 (movedOps 0) = .valid l ∧ l.brk = 4120) ∧
    judgeTrace 8 (movedOps 128) = .invalid := ⟨⟨_, rfl, rfl⟩, rfl⟩

/-- The verdicts are 1 and 0. -/
theorem mm_verdict_moved :
    verdict (evalMmValid mm 0 ⟨zeroed, [], fun _ => 0, fun _ => 0⟩ (movedOps 0)) = some 1 ∧
      verdict (evalMmValid mm 0 ⟨zeroed, [], fun _ => 0, fun _ => 0⟩ (movedOps 128)) = some 0 := by
  obtain ⟨⟨l, hl, -⟩, hinv⟩ := movedOps_judged
  have h₀ := mm_verdict (d := ⟨zeroed, [], fun _ => 0, fun _ => 0⟩) 0 rfl (movedOps_disciplined 0)
    (by rw [show zeroed.lib.memStartBrk = 8 from rfl, hl]; exact nofun)
  have h₁ := mm_verdict (d := ⟨zeroed, [], fun _ => 0, fun _ => 0⟩) 0 rfl
    (movedOps_disciplined 128)
    (by rw [show zeroed.lib.memStartBrk = 8 from rfl, hinv]; exact nofun)
  rw [show zeroed.lib.memStartBrk = 8 from rfl] at h₀ h₁
  rw [hl] at h₀
  rw [hinv] at h₁
  exact ⟨h₀, h₁⟩

/-- The traces of the example damage no heap. -/
theorem movedTraces_undamaged :
    ∀ t ∈ movedTraces, Disciplined [] t.ops ∧ judgeTrace 8 t.ops ≠ .damaged := by
  obtain ⟨⟨l, hl, -⟩, hinv⟩ := movedOps_judged
  intro t ht
  rcases List.mem_pair.1 ht with rfl | rfl
  · exact ⟨movedOps_disciplined 0, by rw [hl]; exact nofun⟩
  · exact ⟨movedOps_disciplined 128, by rw [hinv]; exact nofun⟩

/-- The first trace is valid, and the second is not. -/
theorem movedTraces_report : movedTraces.mapM (reportOf 8) =
    some [⟨2, true, some (16, 4112)⟩, ⟨2, false, none⟩] := by
  obtain ⟨⟨l, hl, hbrk⟩, hinv⟩ := movedOps_judged
  simp only [movedTraces, List.mapM_cons, List.mapM_nil, reportOf, hl, hinv, Judgement.stats, hbrk]
  rfl

end Mdriver
