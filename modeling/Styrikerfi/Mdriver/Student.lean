import Styrikerfi.Malloc.Resizing
import Styrikerfi.Mdriver.Evaluate
import Mathlib.Algebra.Order.BigOperators.Group.List
import Mathlib.Algebra.Order.Ring.Nat

/-!
# The allocator of mm.c under the driver

`mm` is the allocator of `mm.c` as the driver calls it: a call of `mm_realloc` that exits the
process does not come back. Whatever is in the memory, no function of `mm.c` moves the storage or
takes the break out of it (`Heap.Grows`), so that the driver and the allocator share one break.

A request of a trace has an answer on the ledger (`Ledger.request`), which the allocator gives on
the heap (`Session.Follows.alloc`, `Session.Follows.moved`, `Session.Follows.freed`), and a payload
may be filled (`Session.Follows.fill`).
-/

namespace Malloc

open Machine32 Tiling LinkedList

/-! ## The storage stays -/

/-- The storage is the same, and the break has not gone down nor left it. -/
structure Heap.Grows (h h' : Heap) : Prop where
  start : h'.memStartBrk = h.memStartBrk
  limit : h'.memMaxAddr = h.memMaxAddr
  brk : h.memBrk ≤ h'.memBrk
  inside : h.memBrk ≤ h.memMaxAddr → h'.memBrk ≤ h'.memMaxAddr

section
variable {h h' h₁ h₂ h₃ : Heap} {p : Nat}

/-- What leaves the break only moves it up. -/
theorem Heap.SameFrame.grows (s : h.SameFrame h') : h.Grows h' :=
  ⟨s.memStartBrk, s.memMaxAddr, s.memBrk.ge, fun hle => by rwa [s.memBrk, s.memMaxAddr]⟩

namespace Heap.Grows

/-- Nothing changed only moves the break up. -/
theorem refl (h : Heap) : h.Grows h := (SameFrame.refl h).grows

/-- The break is moved up through several changes. -/
theorem trans (a : h₁.Grows h₂) (b : h₂.Grows h₃) : h₁.Grows h₃ :=
  ⟨b.1.trans a.1, b.2.trans a.2, a.3.trans b.3, fun hle => b.4 (a.4 hle)⟩

/-- `mem_sbrk` only moves the break up. -/
theorem memSbrk (h : Heap) (incr : Int) : h.Grows (h.memSbrk incr).2 := by
  unfold Heap.memSbrk
  split
  · exact refl h
  · next hno => exact ⟨rfl, rfl, Nat.le_add_right .., fun _ => by dsimp only; omega⟩

/-- `extend_heap` only moves the break up. -/
theorem extendHeap (h : Heap) (words : Nat) : h.Grows (h.extendHeap words).2 := by
  obtain ⟨size, hsize⟩ : ∃ size, size =
    if words % 2 ≠ 0 then (words + 1) * wsize % 2 ^ 32 else words * wsize % 2 ^ 32 := ⟨_, rfl⟩
  have hs := memSbrk h (toInt size)
  unfold Heap.extendHeap
  dsimp only
  rw [← hsize]
  generalize h.memSbrk (toInt size) = r at hs
  refine hs.trans ?_
  split
  · exact refl _
  · exact ((SameFrame.put ..).trans ((SameFrame.put ..).trans ((SameFrame.put ..).trans
      (.coalesce ..)))).grows

/-- `mm_init` only moves the break up. -/
theorem mmInit (h : Heap) : h.Grows h.mmInit.2 := by
  have hs := memSbrk h (4 * wsize)
  cases hr : h.memSbrk (4 * wsize) with
  | mk p g =>
    rw [hr] at hs
    by_cases hp : p = 0
    · have he : h.mmInit = (-1, { g with heapListp := p }) := by
        simp only [Heap.mmInit, hr, if_pos hp]
      rw [he]
      exact hs.trans ⟨rfl, rfl, Nat.le_refl _, id⟩
    · obtain ⟨hstart, hbrk, hmax, -⟩ := g.initWords_vars p
      have hwords : g.Grows (g.initWords p) := ⟨hstart, hmax, hbrk.ge, fun hle => by omega⟩
      have hext := extendHeap (g.initWords p) (chunksize / wsize)
      cases he : (g.initWords p).extendHeap (chunksize / wsize) with
      | mk r g' =>
        rw [he] at hext
        have hgrow : g.Grows g' := hwords.trans hext
        rw [Heap.mmInit_eq hr hp rfl he]
        split <;> exact hs.trans hgrow

/-- `mm_malloc` only moves the break up. -/
theorem mmMalloc {size : Nat} (hm : h.mmMalloc size = some (p, h')) : h.Grows h' := by
  unfold Heap.mmMalloc at hm
  split at hm
  · cases hm
    exact refl h
  · obtain ⟨bp, -, hm⟩ := Option.map_eq_some_iff.1 hm
    split at hm
    · cases hm
      exact (SameFrame.place ..).grows
    · have hext := extendHeap h (max (adjust size) chunksize / wsize)
      dsimp only at hm
      split at hm
      · cases hm
        exact hext
      · cases hm
        exact hext.trans (SameFrame.place ..).grows

/-- `mm_free` only moves the break up. -/
theorem mmFree (h : Heap) (bp : Nat) : h.Grows (h.mmFree bp) := (SameFrame.mmFree h bp).grows

/-- The extending branch only moves the break up. -/
theorem reallocExtend (h : Heap) (ptr newsize copySize : Nat) :
    h.Grows (h.reallocExtend ptr newsize copySize).2 := by
  refine trans (extendHeap h (chunksize / wsize)) ?_
  cases hext : h.extendHeap (chunksize / wsize) with
  | mk q g =>
    by_cases hq : q = 0
    · simp only [Heap.reallocExtend, hext, if_pos hq]
      exact refl g
    · exact (Heap.reallocExtend_frame hext hq).2.grows

/-- The branch that moves the block only moves the break up. -/
theorem reallocMove {ptr size copySize : Nat}
    (hr : h.reallocMove ptr size copySize = some (.ret p h')) : h.Grows h' := by
  obtain ⟨⟨q, g⟩, hm, hret⟩ := Option.map_eq_some_iff.1 hr
  dsimp only at hret
  split at hret
  · cases hret
  · cases hret
    exact (mmMalloc hm).trans ((SameFrame.memcpy ..).trans (.mmFree ..)).grows

/-- `mm_realloc` only moves the break up. -/
theorem mmRealloc {ptr size : Nat} (hm : h.mmRealloc ptr size = some (.ret p h')) :
    h.Grows h' := by
  unfold Heap.mmRealloc at hm
  split at hm
  · obtain ⟨⟨q, g⟩, hm, hret⟩ := Option.map_eq_some_iff.1 hm
    cases hret
    exact mmMalloc hm
  · split at hm
    · cases hm
      exact ⟨rfl, rfl, Nat.le_refl _, id⟩
    · dsimp only at hm
      split at hm
      · cases hm
        exact refl h
      · cases hm
        exact (SameFrame.reallocShrink ..).grows
      · cases hm
        exact (SameFrame.reallocAbsorbNext ..).grows
      · cases hm
        exact (SameFrame.reallocAbsorbPrev ..).grows
      · cases hm
        exact (SameFrame.reallocAbsorbBoth ..).grows
      · cases hm
        exact reallocExtend ..
      · exact reallocMove hm

end Heap.Grows

end

/-- The payload of a held request may be filled. -/
theorem Session.Follows.fill {s : Session} {l : Ledger} {x : Nat × Nat} (F : s.Follows l)
    (hx : x ∈ s.live) (c : UInt8) :
    Session.Follows ⟨{ s.heap with mem := fill s.heap.mem x.1 c x.2 }, s.live⟩ l := by
  obtain ⟨b, hb, hbx, hroom⟩ := F.inv.room x hx
  obtain ⟨hbm, ha⟩ := mem_allocs.1 hb
  have hs : s.heap.SameFrame { s.heap with mem := Machine32.fill s.heap.mem x.1 c x.2 } :=
    ⟨rfl, rfl, rfl, rfl, rfl⟩
  have hwf := F.inv.wellFormed.of_payload hbm ha hs rfl fun q hq => if_neg (by omega)
  exact ⟨⟨hwf, F.inv.held, F.inv.room⟩, F.brk, F.limit, F.live⟩

/-- The requests held have room in the heap together. -/
theorem Session.Inv.sum_le {s : Session} {bs : List Block} {fl : List Nat} (I : s.Inv bs fl) :
    s.heap.memStartBrk + (s.live.map Prod.snd).sum ≤ s.heap.memBrk := by
  have hl := I.wellFormed.layout
  have htiles := Tiles.sum hl.tiles
  have hlistp := hl.listp
  -- each request against the size of its block, which is read at its pointer
  have hroom : (s.live.map Prod.snd).sum ≤
      (s.live.map fun x => s.heap.getSize (hdrp x.1)).sum := by
    refine List.sum_le_sum fun x hx => ?_
    obtain ⟨b, hb, hbx, hle⟩ := I.room x hx
    rw [← hbx, hl.getSize (mem_allocs.1 hb).1]
    omega
  have hsizes : (s.live.map fun x => s.heap.getSize (hdrp x.1)).sum =
      ((allocs bs).map Block.size).sum := by
    have := (I.held.map fun p => s.heap.getSize (hdrp p)).sum_nat
    rw [List.map_map, List.map_map] at this
    refine this.trans (congrArg List.sum (List.map_congr_left fun b hb => ?_))
    exact hl.getSize (mem_allocs.1 hb).1
  have hall : ((allocs bs).map Block.size).sum ≤ (bs.map Block.size).sum :=
    (List.filter_sublist.map Block.size).sum_le_sum fun _ _ => Nat.zero_le _
  omega

/-- A session begins on the storage of the driver, whatever it holds. -/
theorem Heap.mmInit_follows {h₀ : Heap} (hstart : h₀.memStartBrk % 8 = 0)
    (hlimit : h₀.memMaxAddr = h₀.memStartBrk + maxHeap)
    (haddr : h₀.memStartBrk + maxHeap < 2 ^ 32) (hpos : 0 < h₀.memStartBrk) :
    ∃ h, h₀.memResetBrk.mmInit = (0, h) ∧
      Session.Follows ⟨h, []⟩ (.init h₀.memStartBrk h₀.memMaxAddr) := by
  have hmax : maxHeap = 20971520 := rfl
  have haddr : h₀.memMaxAddr < 2 ^ 32 := by omega
  have hroom : h₀.memStartBrk + 4112 ≤ h₀.memMaxAddr := by omega
  obtain ⟨h, hi⟩ := Heap.mmInit_succeeds (h := h₀.memResetBrk) hstart rfl haddr
    (Nat.pos_iff_ne_zero.1 hpos) hroom
  exact ⟨h, hi, Session.follows_init hstart haddr hi⟩

end Malloc

namespace Mdriver

open Machine32 Malloc

/-! ## The allocator -/

/-- The globals of `mm.c`, and what the C library's `free` was called with. -/
structure Globals where
  heapListp : Nat
  freeListp : Nat
  libcFreed : List Nat

/-- The break is moved, as far as the storage goes. -/
def Memlib.setBrk (m : Memlib) (brk : Nat) : Memlib :=
  if h : m.memStartBrk ≤ brk ∧ brk ≤ m.memStartBrk + maxHeap then
    { m with memBrk := brk, le_brk := h.1, brk_le := h.2 }
  else m

/-- The heap that the functions of `mm.c` work on. -/
def State.heap (st : State Globals) : Heap where
  mem := st.mem
  memStartBrk := st.lib.memStartBrk
  memBrk := st.lib.memBrk
  memMaxAddr := st.lib.memStartBrk + maxHeap
  heapListp := st.own.heapListp
  freeListp := st.own.freeListp
  libcFreed := st.own.libcFreed

/-- The state after a call that leaves the heap `h`. -/
def State.after (st : State Globals) (h : Heap) : State Globals where
  mem := h.mem
  lib := st.lib.setBrk h.memBrk
  own := ⟨h.heapListp, h.freeListp, h.libcFreed⟩

/-- The allocator of `mm.c`. -/
def mm : Allocator Globals where
  mmInit st := some (st.heap.mmInit.1, st.after st.heap.mmInit.2)
  mmMalloc st size := (st.heap.mmMalloc size).map fun (p, h) => (p, st.after h)
  mmRealloc st ptr size :=
    match st.heap.mmRealloc ptr size with
    | some (.ret p h) => some (p, st.after h)
    | _ => none
  mmFree st bp := some (st.after (st.heap.mmFree bp))

section
variable {st st' : State Globals} {h : Heap} {l l' : Ledger} {op : TraceOp} {p ptr : Nat}

@[simp] theorem State.after_start : (st.after h).lib.memStartBrk = st.lib.memStartBrk := by
  unfold State.after Memlib.setBrk
  dsimp only
  split <;> rfl

@[simp] theorem State.after_mem : (st.after h).mem = h.mem := rfl

/-- A heap that the functions of `mm.c` can leave is the heap of the state after the call. -/
theorem State.heap_after (g : st.heap.Grows h) : (st.after h).heap = h := by
  obtain ⟨hstart, hlimit, hbrk, hinside⟩ := g
  have hstart : h.memStartBrk = st.lib.memStartBrk := hstart
  have hlimit : h.memMaxAddr = st.lib.memStartBrk + maxHeap := hlimit
  have hbrk : st.lib.memBrk ≤ h.memBrk := hbrk
  have hinside : h.memBrk ≤ h.memMaxAddr := hinside st.lib.brk_le
  have hle := st.lib.le_brk
  have hb : (st.lib.setBrk h.memBrk).memBrk = h.memBrk := by
    rw [Memlib.setBrk, dif_pos ⟨by omega, by omega⟩]
  have hs : (st.lib.setBrk h.memBrk).memStartBrk = st.lib.memStartBrk :=
    State.after_start
  cases h
  simp only [State.heap, State.after, hb, hs, Heap.mk.injEq, true_and, and_true]
  exact ⟨hstart.symm, hlimit.symm⟩

/-- The driver's `mm_init` is that of the heap. -/
theorem mm_init {r : Int} (hi : st.heap.mmInit = (r, h)) : mm.mmInit st = some (r, st.after h) := by
  have hdef : mm.mmInit st = some (st.heap.mmInit.1, st.after st.heap.mmInit.2) := by rw [mm]
  rw [hdef, hi]

/-- The driver's `mm_malloc` is that of the heap. -/
theorem mm_malloc {size : Nat} (hm : st.heap.mmMalloc size = some (p, h)) :
    mm.mmMalloc st size = some (p, st.after h) := by
  simp only [mm, hm, Option.map_some]

/-- The driver's `mm_realloc` is that of the heap. -/
theorem mm_realloc {size : Nat} (hm : st.heap.mmRealloc ptr size = some (.ret p h)) :
    mm.mmRealloc st ptr size = some (p, st.after h) := by
  simp only [mm, hm]

/-- Where `mm_realloc` exits, the call does not come back. -/
theorem mm_realloc_exit {size : Nat} {status : Int}
    (hm : st.heap.mmRealloc ptr size = some (.exit status h)) :
    mm.mmRealloc st ptr size = none := by
  simp only [mm, hm]

/-! ## Requests on the ledger -/

/-- How a request of a trace comes out. -/
inductive Answer where
  /-- the pointer of the id after it, and the ledger -/
  | done (p : Nat) (l : Ledger)
  /-- `NULL` -/
  | refused
  /-- the process exits -/
  | exit
  /-- a block has outgrown the chunk of its extension -/
  | damaged

/-- A request of a trace for the id whose pointer is `ptr`. -/
def request (l : Ledger) (ptr : Nat) (op : TraceOp) : Answer :=
  match op.type with
  | .alloc =>
    let r := l.shape.malloc l.brk l.limit op.size.toNat
    if r.1 = 0 then .refused
    else .done r.1 ⟨r.2.2, r.2.1, l.limit, (r.1, op.size.toNat) :: l.live⟩
  | .realloc =>
    match l.shape.realloc l.brk l.limit ptr op.size.toNat with
    | .ret p brk t =>
      if p = 0 then .refused
      else .done p ⟨t, brk, l.limit, (p, op.size.toNat) :: Store.without ptr l.live⟩
    | .exit => .exit
    | .damaged => .damaged
  | .free => .done ptr { l with shape := l.shape.free ptr, live := Store.without ptr l.live }

/-- The heap of the state is that of a session that follows the ledger. -/
def Ready (st : State Globals) (l : Ledger) : Prop := Session.Follows ⟨st.heap, l.live⟩ l

/-- A payload of `n` bytes at `p` has been handed out, beside the payloads `others`. -/
structure Granted (st st' : State Globals) (l' : Ledger) (others : List Store.Extent)
    (p n : Nat) : Prop where
  ne : p ≠ 0
  grows : st.heap.Grows st'.heap
  ready : Ready st' l'
  live : l'.live = (p, n) :: others
  others : ∀ x ∈ others, Store.Extent.Apart (p, n) x ∧ Store.Same st.mem st'.mem x

/-- The size of a request, as the allocator is given it. -/
theorem TraceOp.ofInt_size (h1 : 1 ≤ op.size) : ofInt op.size = op.size.toNat :=
  ofInt_of_nonneg (by omega) op.int.2

/-- A size of a trace is below half the address space. -/
theorem TraceOp.size_lt (op : TraceOp) : op.size.toNat < 2 ^ 31 := by
  have := op.int.2
  omega

/-- What `mm_malloc` answers is on the ledger. -/
theorem Ready.mmMalloc (R : Ready st l) {size : Nat} (hlt : size < 2 ^ 31) :
    ∃ h, st.heap.mmMalloc size = some ((l.shape.malloc l.brk l.limit size).1, h) ∧
      (st.after h).heap = h := by
  obtain ⟨-, -, -, -, -, ha⟩ := Session.Follows.malloc R hlt
  obtain ⟨⟨q, h⟩, hm, he⟩ := Option.map_eq_some_iff.1 ha
  obtain ⟨hq, -⟩ := Prod.mk.inj he
  exact ⟨h, hq ▸ hm, State.heap_after (.mmMalloc hm)⟩

/-- A request for memory is granted where it is on the ledger. -/
theorem Ready.alloc (R : Ready st l) (ht : op.type = .alloc) (h1 : 1 ≤ op.size)
    (hr : request l ptr op = .done p l') : ∃ st', mm.mmMalloc st (ofInt op.size) = some (p, st') ∧
      Granted st st' l' l.live p op.size.toNat := by
  have hlt := op.size_lt
  obtain ⟨h, hm, hheap⟩ := R.mmMalloc hlt
  simp only [request, ht] at hr
  split at hr
  · cases hr
  next hp =>
  cases hr
  obtain ⟨s', l₁, hs, hl, F, -⟩ := Session.Follows.malloc R hlt
  have hdoes := Session.Follows.does R (d := .malloc op.size.toNat) trivial hs
  have hs' : s' =
      ⟨h, ((l.shape.malloc l.brk l.limit op.size.toNat).1, op.size.toNat) :: l.live⟩ := by
    rw [Session.step, if_pos hlt, hm, Option.map_some, Option.some.injEq] at hs
    exact hs.symm.trans (if_neg hp)
  have hl' : l₁ = _ := (Option.some.inj ((if_pos hlt).symm.trans hl)).symm
  rw [if_neg hp] at hl'
  have he : Session.event ⟨st.heap, l.live⟩ (.malloc op.size.toNat) =
      some (.alloc (l.shape.malloc l.brk l.limit op.size.toNat).1 op.size.toNat) := by
    simp only [Session.event, hm, if_neg hp]
  rw [he, hs'] at hdoes
  rw [hs', hl'] at F
  refine ⟨st.after h, ?_, hp, ?_, ?_, rfl, hdoes.2⟩
  · rw [TraceOp.ofInt_size h1, mm_malloc hm]
  · rw [hheap]
    exact .mmMalloc hm
  · rw [Ready, hheap]
    exact F

/-- It is refused where it is on the ledger. -/
theorem Ready.alloc_refused (R : Ready st l) (ht : op.type = .alloc) (h1 : 1 ≤ op.size)
    (hr : request l ptr op = .refused) : ∃ st', mm.mmMalloc st (ofInt op.size) = some (0, st') ∧
      st'.lib.memStartBrk = st.lib.memStartBrk := by
  obtain ⟨h, hm, -⟩ := R.mmMalloc op.size_lt
  simp only [request, ht] at hr
  split at hr
  · next hp =>
    refine ⟨st.after h, ?_, State.after_start⟩
    rw [TraceOp.ofInt_size h1, mm_malloc hm, hp]
  · cases hr

/-- A block is moved where it is on the ledger, and its contents go along. -/
theorem Ready.realloc (R : Ready st l) (ht : op.type = .realloc) (h1 : 1 ≤ op.size) {n : Nat}
    (hx : (ptr, n) ∈ l.live) (hr : request l ptr op = .done p l') :
    ∃ st', mm.mmRealloc st ptr (ofInt op.size) = some (p, st') ∧
      Granted st st' l' (Store.without ptr l.live) p op.size.toNat ∧
      ∀ i < min n op.size.toNat, st'.mem (p + i) = st.mem (ptr + i) := by
  have hlt := op.size_lt
  simp only [request, ht] at hr
  cases hl : l.shape.realloc l.brk l.limit ptr op.size.toNat with rw [hl] at hr
  | exit | damaged => cases hr
  | ret q brk t =>
    dsimp only at hr
    split at hr
    · cases hr
    next hp =>
    cases hr
    obtain ⟨h, hm, F, -, hkept⟩ := Session.Follows.realloc R hx (by omega) hlt hl
    obtain ⟨hown, hothers⟩ := hkept hp
    have hlive : regrant l.live ptr p op.size.toNat = (p, op.size.toNat) ::
        Store.without ptr l.live := if_neg hp
    dsimp only at hm F
    rw [hlive] at F
    have hap := F.inv.holding.apart
    have hheap := State.heap_after (.mmRealloc hm)
    refine ⟨st.after h, ?_, ⟨hp, ?_, ?_, rfl, fun x hx' => ?_⟩, hown⟩
    · rw [TraceOp.ofInt_size h1, mm_realloc hm]
    · rw [hheap]
      exact .mmRealloc hm
    · rw [Ready, hheap]
      exact F
    · exact ⟨(List.pairwise_cons.1 hap).1 x hx', hothers x hx'⟩

/-- It is refused, with the heap as it was, where it is on the ledger. -/
theorem Ready.realloc_refused (R : Ready st l) (ht : op.type = .realloc) (h1 : 1 ≤ op.size)
    (hx : ptr ∈ l.live.map Prod.fst) (hr : request l ptr op = .refused) :
    ∃ st', mm.mmRealloc st ptr (ofInt op.size) = some (0, st') ∧
      st'.lib.memStartBrk = st.lib.memStartBrk := by
  have hlt := op.size_lt
  obtain ⟨x, hxl, rfl⟩ := List.mem_map.1 hx
  simp only [request, ht] at hr
  cases hl : l.shape.realloc l.brk l.limit x.1 op.size.toNat with rw [hl] at hr
  | exit | damaged => cases hr
  | ret q brk t =>
    dsimp only at hr
    split at hr
    · next hp =>
      obtain ⟨h, hm, -⟩ := Session.Follows.realloc R hxl (by omega) hlt hl
      dsimp only at hm
      refine ⟨st.after h, ?_, State.after_start⟩
      rw [TraceOp.ofInt_size h1, mm_realloc hm, hp]
    · cases hr

/-- The process exits where it does on the ledger. -/
theorem Ready.realloc_exit (R : Ready st l) (ht : op.type = .realloc) (h1 : 1 ≤ op.size)
    (hx : ptr ∈ l.live.map Prod.fst) (hr : request l ptr op = .exit) :
    mm.mmRealloc st ptr (ofInt op.size) = none := by
  have hlt := op.size_lt
  simp only [request, ht] at hr
  cases hl : l.shape.realloc l.brk l.limit ptr op.size.toNat with rw [hl] at hr
  | damaged => cases hr
  | ret q brk t =>
    dsimp only at hr
    split at hr <;> cases hr
  | exit =>
    have hm := Session.Follows.realloc_exit R hx (by omega) hlt hl
    dsimp only at hm
    rw [TraceOp.ofInt_size h1, mm_realloc_exit hm]

/-- A block is freed. -/
theorem Ready.free (R : Ready st l) (ht : op.type = .free) (hx : ptr ∈ l.live.map Prod.fst) :
    ∃ st' l', mm.mmFree st ptr = some st' ∧ request l ptr op = .done ptr l' ∧ Ready st' l' ∧
      l'.live = Store.without ptr l.live ∧ st.heap.Grows st'.heap ∧
      ∀ x ∈ Store.without ptr l.live, Store.Same st.mem st'.mem x := by
  obtain ⟨s', l₁, hs, hl, F, -⟩ := Session.Follows.free R hx
  have hdoes := Session.Follows.does R (d := .free ptr) trivial hs
  have hs' : s' = ⟨st.heap.mmFree ptr, Store.without ptr l.live⟩ :=
    (Option.some.inj ((if_pos hx).symm.trans hs)).symm
  have hl' : l₁ = _ := (Option.some.inj ((if_pos hx).symm.trans hl)).symm
  rw [hs'] at hdoes
  rw [hs', hl'] at F
  refine ⟨st.after (st.heap.mmFree ptr),
    { l with shape := l.shape.free ptr, live := Store.without ptr l.live }, rfl,
    by simp only [request, ht], ?_, rfl, ?_, hdoes.2.2⟩
  · rw [Ready, State.heap_after (.mmFree st.heap ptr)]
    exact F
  · rw [State.heap_after (.mmFree st.heap ptr)]
    exact .mmFree st.heap ptr

/-- The storage ends `MAX_HEAP` bytes after its beginning. -/
theorem State.heap_limit (st : State Globals) :
    st.heap.memMaxAddr = st.lib.memStartBrk + maxHeap := rfl

/-- The heap begins where the storage does. -/
theorem State.heap_start (st : State Globals) : st.heap.memStartBrk = st.lib.memStartBrk := rfl

/-- The break is put back at the beginning of the heap. -/
theorem State.heap_reset (st : State Globals) :
    State.heap { st with lib := st.lib.memResetBrk } = st.heap.memResetBrk := by
  simp only [State.heap, Heap.memResetBrk, Memlib.memResetBrk]

/-- After `mem_reset_brk` and `mm_init` nothing is held, whatever the memory held before. -/
theorem mmInit_ready (st : State Globals) (hstart : st.lib.memStartBrk % 8 = 0) :
    ∃ st', mm.mmInit { st with lib := st.lib.memResetBrk } = some (0, st') ∧
      Ready st' (.init st.lib.memStartBrk (st.lib.memStartBrk + maxHeap)) ∧
      st'.lib.memStartBrk = st.lib.memStartBrk := by
  have haddr : st.heap.memStartBrk + maxHeap < 2 ^ 32 := st.lib.addressable
  obtain ⟨h, hi, F⟩ := Heap.mmInit_follows hstart st.heap_limit haddr st.lib.start_pos
  have hg := Heap.Grows.mmInit (State.heap { st with lib := st.lib.memResetBrk })
  rw [st.heap_limit, st.heap_start] at F
  rw [← st.heap_reset] at hi
  rw [hi] at hg
  refine ⟨State.after { st with lib := st.lib.memResetBrk } h, mm_init hi, ?_, State.after_start⟩
  rw [Ready, State.heap_after hg]
  exact F

/-- A payload that is held may be filled. -/
theorem Ready.fill (R : Ready st l) {x : Nat × Nat} (hx : x ∈ l.live) (c : UInt8) :
    Ready { st with mem := Machine32.fill st.mem x.1 c x.2 } l :=
  Session.Follows.fill R hx c

end

end Mdriver
