import Styrikerfi.Malloc.Firstfit
import Styrikerfi.Malloc.Resizing

/-!
# Sessions on the implicit-list allocator

A client of `mm-firstfit.c`, reallocation included: its `mm_realloc` allocates, copies and frees.
Every function keeps a heap whose blocks tile it with no two free neighbours (`Heap.Implicit`), and
the payloads of the blocks it is not called for.

So what the client has is a store of arrays, as under `mm.c` (`baseline_stores`), but for every
client: no block is grown in place, and none can outgrow the chunk that an extension adds. A call
that the client may make returns, or a reallocation finds no block and exits (`baseline_sound`).
-/

namespace Malloc

open Machine32 Tiling LinkedList

/-! ## mm_realloc -/

/-- The naive `mm_realloc`; `none` when the search for a block never ends. -/
def Firstfit.mmRealloc (h : Heap) (ptr size : Nat) : Option Outcome :=
  (mmMalloc h size).map fun (newp, h) =>
    if newp = 0 then .exit 1 h
    else
      let copySize := h.getSize (hdrp ptr)
      let copySize := if size < copySize then size else copySize
      .ret newp (mmFree (h.memcpy newp ptr copySize) ptr)

/-- One demand, if the client may make it and it returns. -/
def Firstfit.serve (s : Session) : Demand → Option Session
  | .malloc size =>
    if size < 2 ^ 31 then
      (mmMalloc s.heap size).map fun (p, h) =>
        if p = 0 then { s with heap := h } else ⟨h, (p, size) :: s.live⟩
    else none
  | .realloc ptr size =>
    if ptr ∈ s.live.map Prod.fst ∧ size < 2 ^ 31 then
      match mmRealloc s.heap ptr size with
      | some (.ret p h) => some ⟨h, (p, size) :: Store.without ptr s.live⟩
      | _ => none
    else none
  | .free ptr =>
    if ptr ∈ s.live.map Prod.fst then some ⟨mmFree s.heap ptr, Store.without ptr s.live⟩ else none
  | .write p v =>
    if ∃ x ∈ s.live, x.1 ≤ p ∧ p < x.1 + x.2 then
      some { s with heap := { s.heap with mem := Function.update s.heap.mem p v } }
    else none

/-- What a demand does to the arrays of the client. -/
def Firstfit.event (s : Session) : Demand → Option (Store.Event UInt8)
  | .malloc size =>
    match mmMalloc s.heap size with
    | some (p, _) => if p = 0 then none else some (.alloc p size)
    | none => none
  | .realloc ptr size =>
    match mmRealloc s.heap ptr size with
    | some (.ret p _) => some (.move ptr p size)
    | _ => none
  | .free ptr => some (.free ptr)
  | .write p v => some (.write p v)

/-- The blocks tile the heap, and no two adjacent ones are free. -/
structure Heap.Implicit (h : Heap) (bs : List Block) : Prop where
  layout : h.Layout bs
  merged : Merged bs

/-- No free block fits a request of `size` bytes, and the break cannot be moved as far as one
needs. -/
def Heap.Exhausted (h : Heap) (size : Nat) : Prop :=
  (∃ bs, h.Layout bs ∧ ∀ b ∈ bs, b.alloc = false → b.size < adjust size) ∧
    ¬ (max (adjust size) chunksize < 2 ^ 31 ∧
      h.memBrk + max (adjust size) chunksize ≤ h.memMaxAddr)

/-- What a successful allocation of `size` bytes does: `a` is a new block among those of `bs`. -/
structure Heap.Takes (h : Heap) (bs : List Block) (h' : Heap) (bs' : List Block) (a : Block)
    (size : Nat) : Prop where
  implicit : h'.Implicit bs'
  size : size + 8 ≤ a.size
  added : (allocs bs').Perm (a :: allocs bs)
  keeps : h.Keeps h' (allocs bs)

section
variable {h h' g : Heap} {bs cs ds pre post : List Block} {a b u : Block} {asize words size : Nat}

/-! ## What is kept -/

/-- What keeps many payloads keeps fewer. -/
theorem Heap.Keeps.mono (hk : h.Keeps h' cs) (hs : ∀ c ∈ ds, c ∈ cs) : h.Keeps h' ds :=
  fun c hc => hk c (hs c hc)

/-- A change inside a block of a layout keeps the payloads of the others. -/
theorem Heap.Frame.keeps (hf : h.Frame h' (u.bp - 4) (u.bp + u.size - 4) [])
    (hl : g.Layout (pre ++ u :: post)) : h.Keeps h' (pre ++ post) := by
  intro c hc q h1 h2
  have := hl.tiles.apart c hc
  exact hf.mem q (by omega) fun x hx => absurd hx List.not_mem_nil

/-- A change of a payload keeps the layout. -/
theorem Heap.Layout.of_payload (hl : h.Layout bs) (hb : b ∈ bs) (hs : h.SameFrame h')
    (hm : ∀ q, q < b.bp ∨ b.bp + b.size ≤ q + 8 → h'.mem q = h.mem q) : h'.Layout bs := by
  have hB := hl.bounds hb
  have := hB.lo; have := hB.size
  have ht := hl.tags b hb
  obtain ⟨pre, post, rfl⟩ := List.append_of_mem hb
  obtain ⟨hpre, hpost⟩ := hl.tiles.split
  have hl' : h.Layout (pre ++ [b] ++ post) := by simpa using hl
  have hone : Tiles Block.bp Block.size b.bp [b] (b.bp + b.size) := ⟨rfl, rfl⟩
  have hframe : h.Frame h' (b.bp - 4) (b.bp + b.size - 4) [] := ⟨hs, fun q hq _ => hm q (by omega)⟩
  have htag : h'.Tagged b := ⟨(Heap.get_congr fun q _ h2 => hm q (by omega)).trans ht.header,
    (Heap.get_congr fun q h1 _ => hm q (by omega)).trans ht.footer⟩
  have := hl'.replace hpre hone hpost hframe nofun (by simpa using ⟨hB.mod, hB.size⟩)
    (by simpa using htag)
  simpa using this

/-- A free block at the end is none of the allocated ones. -/
theorem allocs_take_freeLast (pre : List Block) :
    allocs (pre.take (pre.length - (freeLast pre).length)) = allocs pre := by
  have hl := congrArg allocs (take_freeLast pre)
  rwa [allocs_append, allocs_of_free fun c hc => freeLast_free hc, List.append_nil] at hl

/-- A free block at the beginning is none of the allocated ones. -/
theorem allocs_drop_freeHead (post : List Block) :
    allocs (post.drop (freeHead post).length) = allocs post := by
  have hr := congrArg allocs (drop_freeHead post)
  rwa [allocs_append, allocs_of_free fun c hc => freeHead_free hc, List.nil_append] at hr

/-- Coalescing changes no allocated block. -/
theorem Shape.allocs_coalesce (pre : List Block) (b : Block) (post : List Block) (fl : List Nat) :
    allocs (Shape.coalesce pre b post fl).blocks = allocs pre ++ allocs post := by
  rw [Shape.coalesce, allocs_append, allocs_cons_free rfl, allocs_take_freeLast,
    allocs_drop_freeHead]

/-- `coalesce` keeps the payloads of the allocated blocks. -/
theorem Firstfit.coalesce_keeps (hl : h.Layout (pre ++ b :: post)) (hb : b.alloc = false) :
    h.Keeps (coalesce h b.bp).2 (allocs pre ++ allocs post) := by
  obtain ⟨-, hlay, hframe⟩ := coalesce_layout hl hb []
  refine (hframe.keeps hlay).mono fun c hc => ?_
  rw [← allocs_take_freeLast pre, ← allocs_drop_freeHead post, ← allocs_append] at hc
  exact (mem_allocs.1 hc).1

/-- A pointer of a layout is not `NULL`. -/
theorem Heap.Layout.bp_ne (hl : h.Layout bs) (hb : b ∈ bs) : b.bp ≠ 0 := by
  have := (hl.bounds hb).lo
  omega

/-! ## The functions -/

/-- `mm_free` -/
theorem Heap.Implicit.mmFree (H : h.Implicit (pre ++ b :: post)) :
    ∃ bs, (Firstfit.mmFree h b.bp).Implicit bs ∧ allocs bs = allocs pre ++ allocs post ∧
      h.Keeps (Firstfit.mmFree h b.bp) (allocs pre ++ allocs post) := by
  have hl := H.layout
  have hl' : (h.retag b.freed).Layout (pre ++ b.freed :: post) := hl.retag_self rfl rfl
  obtain ⟨hpre, hpost⟩ := H.merged.of_append
  refine ⟨_, ⟨(Firstfit.mmFree_layout hl []).1,
    Shape.coalesce_merged hpre (List.isChain_cons.1 hpost).2 _ _⟩, Shape.allocs_coalesce .., ?_⟩
  have htags : h.Keeps (h.retag b.freed) (pre ++ post) :=
    (h.retag_frame [] (hl'.bounds (b := b.freed) (by simp)).fits).keeps hl'
  rw [Firstfit.mmFree_eq hl (by simp)]
  refine (htags.mono fun c hc => ?_).trans (Firstfit.coalesce_keeps hl' rfl)
  rw [← allocs_append] at hc
  exact (mem_allocs.1 hc).1

/-- `place` -/
theorem Heap.Implicit.place (H : h.Implicit bs) (hb : b ∈ bs) (hfree : b.alloc = false)
    (hmod : asize % 8 = 0) (hmin : 16 ≤ asize) (hle : asize ≤ b.size) :
    ∃ a bs', a.bp = b.bp ∧ asize ≤ a.size ∧ (Firstfit.place h b.bp asize).Implicit bs' ∧
      (allocs bs').Perm (a :: allocs bs) ∧ h.Keeps (Firstfit.place h b.bp asize) (allocs bs) := by
  have hl := H.layout
  have hframe := Firstfit.place_frame hl hb hmod hmin hle
  obtain ⟨pre, post, rfl⟩ := List.append_of_mem hb
  obtain ⟨hpre, hbpost⟩ := H.merged.of_append
  have hpost : Merged post := (List.isChain_cons.1 hbpost).2
  have hall : allocs (pre ++ b :: post) = allocs pre ++ allocs post := by
    rw [allocs_append, allocs_cons_free hfree]
  have hk : h.Keeps (Firstfit.place h b.bp asize) (allocs (pre ++ b :: post)) := by
    refine (hframe.keeps hl).mono fun c hc => ?_
    rw [hall, ← allocs_append] at hc
    exact (mem_allocs.1 hc).1
  rw [hall]
  rw [hall] at hk
  by_cases hs : asize + 16 ≤ b.size
  · have hhead : Merged (pre ++ [b.head asize]) :=
      merged_insert hpre .nil (fun _ _ => .inr rfl) fun _ _ => .inl rfl
    have hm := Shape.coalesce_merged hhead hpost (b.rest asize) []
    rw [Shape.coalesce_rest H.merged hfree] at hm
    refine ⟨b.head asize, _, rfl, Nat.le_refl _, ⟨Firstfit.place_split hl hmod hmin hs, hm⟩, ?_, hk⟩
    rw [allocs_append, allocs_cons_alloc rfl, allocs_cons_free rfl]
    exact List.perm_middle
  · refine ⟨⟨b.bp, b.size, true⟩, _, rfl, hle, ⟨Firstfit.place_all hl hle hs,
      merged_insert hpre hpost (fun _ _ => .inr rfl) fun _ _ => .inl rfl⟩, ?_, hk⟩
    rw [allocs_append, allocs_cons_alloc rfl]
    exact List.perm_middle

/-- `extend_heap` with an even number of words. -/
theorem Heap.Implicit.extendHeap (H : h.Implicit bs) (heven : words % 2 = 0) (hmin : 4 ≤ words)
    (hlt : words * 4 < 2 ^ 32) : Firstfit.extendHeap h words = (0, h) ∧
        ¬ (words * 4 < 2 ^ 31 ∧ h.memBrk + words * 4 ≤ h.memMaxAddr) ∨
      ∃ h' bs', ∃ u ∈ bs', Firstfit.extendHeap h words = (u.bp, h') ∧ u.alloc = false ∧
        words * 4 ≤ u.size ∧ h'.Implicit bs' ∧ allocs bs' = allocs bs ∧
        h.Keeps h' (allocs bs) := by
  have hl := H.layout
  by_cases hs : words * 4 < 2 ^ 31 ∧ h.memBrk + words * 4 ≤ h.memMaxAddr
  · obtain ⟨n, hn⟩ : ∃ n : Block, n = ⟨h.memBrk, words * 4, false⟩ := ⟨_, rfl⟩
    have hbp : n.bp = h.memBrk := by rw [hn]
    have hsize : n.size = words * 4 := by rw [hn]
    have hfree : n.alloc = false := by rw [hn]
    have hgrow := hl.grow hbp (by omega) (by omega) (by omega)
    obtain ⟨hret, hlay, -⟩ := Firstfit.extendHeap_layout hl heven hmin hs []
    obtain ⟨u, hu, hubp, hufree, husize⟩ := Shape.mem_extend ⟨bs, []⟩ h.memBrk (words * 4)
    refine .inr ⟨_, _, u, hu, Prod.ext (hret.trans hubp.symm) rfl, hufree, husize,
      ⟨hlay, Shape.coalesce_merged H.merged .nil _ _⟩, ?_, ?_⟩
    · rw [Shape.extend, Shape.allocs_coalesce, allocs_nil, List.append_nil]
    · -- below the old break only the footer of the last block is written again
      have hk : h.Keeps (h.grow n) (allocs bs) := fun c hc q _ h2 => by
        have hB := hl.bounds (mem_allocs.1 hc).1
        have := hB.hi; have := hB.size
        exact Heap.grow_mem hbp (by omega) (by omega)
      have hk' := Firstfit.coalesce_keeps hgrow hfree
      rw [allocs_nil, List.append_nil] at hk'
      rw [Firstfit.extendHeap_eq hl heven hmin hs hbp hsize hfree]
      exact hk.trans hk'
  · exact .inl ⟨Firstfit.extendHeap_fail h heven hlt hs, hs⟩

/-- **`mm_malloc`** always returns: `NULL` with an unchanged heap when that is exhausted, or a new
block. -/
theorem Heap.Implicit.mmMalloc (H : h.Implicit bs) (hlt : size < 2 ^ 31) :
    Firstfit.mmMalloc h size = some (0, h) ∧ (size ≠ 0 → h.Exhausted size) ∨
      ∃ a h' bs', Firstfit.mmMalloc h size = some (a.bp, h') ∧ h.Takes bs h' bs' a size := by
  by_cases h0 : size = 0
  · exact .inl ⟨if_pos h0, absurd h0⟩
  obtain ⟨hmod, hmin, hsz, hmax⟩ := adjust_spec (show size + 15 < 2 ^ 32 by omega)
  rcases Firstfit.findFit_cases H.layout (adjust size) with
    ⟨hr, hnone⟩ | ⟨b, hb, hr, hb0, hfree, hle⟩
  · -- no block fits: the heap is extended
    obtain ⟨words, hwords, hw4, heven, hlarge⟩ := extend_words hmod
    have hchunk : chunksize = 4096 := rfl
    simp only [Firstfit.mmMalloc, if_neg h0, hr, Option.map_some, hwords, ne_eq, not_true_eq_false,
      if_false]
    rcases H.extendHeap heven (by omega) (by omega) with
      ⟨he, hfull⟩ | ⟨g, bs₁, u, hu, he, hfree, hsize, H', hall, hk⟩
    · rw [he, if_pos rfl]
      rw [hw4] at hfull
      exact .inl ⟨rfl, fun _ => ⟨⟨bs, H.layout, hnone⟩, hfull⟩⟩
    · obtain ⟨a, bs', hbp, hasize, H'', hadd, hk'⟩ := H'.place hu hfree hmod hmin (by omega)
      rw [hall] at hadd hk'
      rw [he, if_neg (H'.layout.bp_ne hu), ← hbp]
      rw [← hbp] at H'' hk'
      exact .inr ⟨a, _, bs', rfl, H'', by omega, hadd, hk.trans hk'⟩
  · obtain ⟨a, bs', hbp, hasize, H', hadd, hk⟩ := H.place hb hfree hmod hmin hle
    simp only [Firstfit.mmMalloc, if_neg h0, hr, Option.map_some, if_pos hb0]
    rw [← hbp] at H' hk ⊢
    exact .inr ⟨a, _, bs', rfl, H', by omega, hadd, hk⟩

/-- Allocated blocks are listed once. -/
theorem Heap.Layout.allocs_nodup (hl : h.Layout bs) : (allocs bs).Nodup := by
  have hn : (bs.map Block.bp).Nodup := hl.tiles.nodup fun b hb => by
    have := (hl.sizes b hb).2
    omega
  exact (List.Nodup.of_map _ hn).filter _

/-- **`mm_realloc`** of an allocated block: the process exits with the heap unchanged when that is
exhausted, or there is a new block with the contents of the old one, which is freed. -/
theorem Heap.Implicit.mmRealloc (H : h.Implicit (pre ++ b :: post)) (hb : b.alloc = true)
    (hlt : size < 2 ^ 31) : Firstfit.mmRealloc h b.bp size = some (.exit 1 h) ∧
        (size ≠ 0 → h.Exhausted size) ∨
      ∃ a h' bs', Firstfit.mmRealloc h b.bp size = some (.ret a.bp h') ∧ h'.Implicit bs' ∧
        size + 8 ≤ a.size ∧ (allocs bs').Perm (a :: (allocs pre ++ allocs post)) ∧
        h.Keeps h' (allocs pre ++ allocs post) ∧
        h.Moved h' b.bp a.bp (min (b.size - 8) size) := by
  rcases H.mmMalloc hlt with ⟨hnull, hfull⟩ | ⟨a, g, bs₁, hm, T⟩
  · exact .inl ⟨by rw [Firstfit.mmRealloc, hnull]; rfl, hfull⟩
  have hl := T.implicit.layout
  have hsize := T.size
  have hold : (allocs (pre ++ b :: post)).Perm (b :: (allocs pre ++ allocs post)) := by
    rw [allocs_append, allocs_cons_alloc hb]
    exact List.perm_middle
  have hadd : (allocs bs₁).Perm (a :: b :: (allocs pre ++ allocs post)) :=
    T.added.trans (hold.cons a)
  have hnodup := (hadd.nodup_iff.1 hl.allocs_nodup)
  have ham := mem_allocs.1 (hadd.mem_iff.2 List.mem_cons_self)
  have hbm := mem_allocs.1 (hadd.mem_iff.2 (List.mem_cons_of_mem _ List.mem_cons_self))
  obtain ⟨k, hk⟩ : ∃ k, k = if size < b.size then size else b.size := ⟨_, rfl⟩
  have hkle : k ≤ size ∧ min (b.size - 8) size ≤ k := by rw [hk]; split <;> omega
  have hcode : Firstfit.mmRealloc h b.bp size =
      some (.ret a.bp (Firstfit.mmFree (g.memcpy a.bp b.bp k) b.bp)) := by
    simp only [Firstfit.mmRealloc, hm, Option.map_some, if_neg (hl.bp_ne ham.1), hl.getSize hbm.1,
      hk]
  -- the copy stays inside the payload of the new block
  have hmem : ∀ q, q < a.bp ∨ a.bp + k ≤ q → (g.memcpy a.bp b.bp k).mem q = g.mem q :=
    fun q hq => copy_of_sep hq
  have Hc : (g.memcpy a.bp b.bp k).Implicit bs₁ :=
    ⟨hl.of_payload ham.1 ⟨rfl, rfl, rfl, rfl, rfl⟩ fun q hq => hmem q (by omega), T.implicit.merged⟩
  have hkc : g.Keeps (g.memcpy a.bp b.bp k) (allocs pre ++ allocs post) := by
    intro c hc q h1 h2
    have hcm := mem_allocs.1 (hadd.mem_iff.2 (List.mem_cons_of_mem _ (List.mem_cons_of_mem _ hc)))
    have hne : c ≠ a := by
      rintro rfl
      exact (List.nodup_cons.1 hnodup).1 (List.mem_cons_of_mem _ hc)
    have := hl.apart hcm.1 ham.1 hne
    exact hmem q (by omega)
  -- the old block is freed
  obtain ⟨l, r, rfl⟩ := List.append_of_mem hbm.1
  obtain ⟨bs₂, H₂, hall, hkf⟩ := Hc.mmFree
  have hrest : (allocs l ++ allocs r).Perm (a :: (allocs pre ++ allocs post)) := by
    rw [allocs_append, allocs_cons_alloc hb] at hadd
    exact ((List.perm_middle.symm.trans hadd).trans (.swap ..)).cons_inv
  have hkept : g.Keeps _ (allocs pre ++ allocs post) :=
    hkc.trans (hkf.mono fun c hc => hrest.mem_iff.2 (List.mem_cons_of_mem _ hc))
  refine .inr ⟨a, _, bs₂, hcode, H₂, hsize, hall ▸ hrest, ?_, fun i hi => ?_⟩
  · exact (T.keeps.mono fun c hc => hold.mem_iff.2 (List.mem_cons_of_mem _ hc)).trans hkept
  · have hb' : b ∈ allocs (pre ++ b :: post) := hold.mem_iff.2 List.mem_cons_self
    have hkb : h.Keeps g [b] := T.keeps.mono fun c hc => List.mem_singleton.1 hc ▸ hb'
    have hcopy := hkb.memcpy (Nat.min_le_left (b.size - 8) size) hkle.2 a.bp i hi
    exact (hkf a (hrest.mem_iff.2 List.mem_cons_self) _ (by omega) (by omega)).trans hcopy

end

/-! ## Sessions -/

/-- The blocks tile the heap with no two free neighbours, and the allocated ones are those the
client holds. -/
structure Firstfit.Inv (s : Session) (bs : List Block) : Prop where
  holding : s.heap.Holding bs s.live
  merged : Merged bs

section
variable {s s' : Session} {d : Demand} {h h' : Heap} {bs cs : List Block} {x : Nat × Nat}
  {size ptr p : Nat} {v : UInt8}

/-- Between two requests the heap is tiled, with no two free neighbours. -/
theorem Firstfit.Inv.implicit (I : Inv s bs) : s.heap.Implicit bs := ⟨I.holding.layout, I.merged⟩

/-- Where payloads are kept, a request held for one of them keeps its bytes. -/
theorem Heap.Keeps.same (hk : h.Keeps h' cs) (hx : ∃ b ∈ cs, b.bp = x.1 ∧ x.2 + 8 ≤ b.size) :
    Store.Same h.mem h'.mem x := by
  obtain ⟨b, hb, hbp, hr⟩ := hx
  intro i hi
  exact hk b hb _ (by omega) (by omega)

/-- What one demand does: the session after it keeps the invariant, and its memory is changed as the
event says. -/
def Firstfit.Serves (s : Session) (d : Demand) : Prop :=
  ∃ s' bs', serve s d = some s' ∧ Inv s' bs' ∧
    Store.Does s.heap.mem s'.heap.mem s.live s'.live (event s d)

/-- A `mm_malloc` below half the address space is served. -/
theorem Firstfit.Inv.malloc (I : Inv s bs) (hlt : size < 2 ^ 31) : Serves s (.malloc size) := by
  rcases I.implicit.mmMalloc hlt with ⟨hnull, -⟩ | ⟨a, h', bs', hm, T⟩
  · have he : event s (.malloc size) = none := by simp only [event, hnull, if_true]
    refine ⟨s, bs, ?_, I, ?_⟩
    · rw [serve, if_pos hlt, hnull]
      rfl
    · rw [he]
      exact ⟨rfl, fun _ _ _ _ => rfl⟩
  · have ha := mem_allocs.1 (T.added.mem_iff.2 List.mem_cons_self)
    have hp := T.implicit.layout.bp_ne ha.1
    have H := Heap.Holding.grant T.implicit.layout T.added T.size I.holding.held I.holding.room
    have he : event s (.malloc size) = some (.alloc a.bp size) := by
      simp only [event, hm, if_neg hp]
    refine ⟨⟨h', (a.bp, size) :: s.live⟩, bs', ?_, ⟨H, T.implicit.merged⟩, ?_⟩
    · rw [serve, if_pos hlt, hm, Option.map_some]
      exact congrArg some (if_neg hp)
    · rw [he]
      exact ⟨rfl, fun x hx => ⟨(List.pairwise_cons.1 H.apart).1 x hx,
        T.keeps.same (I.holding.room x hx)⟩⟩

/-- A `mm_free` of a live block is served. -/
theorem Firstfit.Inv.free (I : Inv s bs) (hp : ptr ∈ s.live.map Prod.fst) :
    Serves s (.free ptr) := by
  obtain ⟨pre, b, post, rfl, rfl, ha⟩ := I.holding.split hp
  obtain ⟨hheld, hroom⟩ := I.holding.release ha
  obtain ⟨bs', H, hall, hk⟩ := I.implicit.mmFree
  exact ⟨_, bs', if_pos hp, ⟨⟨H.layout, hall ▸ hheld, hall ▸ hroom⟩, H.merged⟩, hp, rfl,
    fun x hx => hk.same (hroom x hx)⟩

/-- A reallocation is served, or the process exits with the heap unchanged and exhausted. -/
theorem Firstfit.Inv.realloc (I : Inv s bs) (hp : ptr ∈ s.live.map Prod.fst) (hlt : size < 2 ^ 31) :
    mmRealloc s.heap ptr size = some (.exit 1 s.heap) ∧ (size ≠ 0 → s.heap.Exhausted size) ∨
      Serves s (.realloc ptr size) := by
  obtain ⟨pre, b, post, rfl, rfl, ha⟩ := I.holding.split hp
  obtain ⟨hheld, hroom⟩ := I.holding.release ha
  rcases I.implicit.mmRealloc ha hlt with hexit | ⟨a, h', bs', hm, H, hsize, hadd, hk, hmv⟩
  · exact .inl hexit
  have G := Heap.Holding.grant H.layout hadd hsize hheld hroom
  have he : event s (.realloc b.bp size) = some (.move b.bp a.bp size) := by
    simp only [event, hm]
  refine .inr ⟨⟨h', (a.bp, size) :: Store.without b.bp s.live⟩, bs', ?_, ⟨G, H.merged⟩, ?_⟩
  · rw [serve, if_pos ⟨hp, hlt⟩, hm]
  · rw [he]
    refine ⟨hp, rfl, fun y hy => ⟨(List.pairwise_cons.1 G.apart).1 y hy, hk.same (hroom y hy)⟩, ?_⟩
    intro n hn i hi
    -- the request held for the old block fits in its payload
    obtain ⟨c, hc, hcp, hle⟩ := I.holding.room _ hn
    have hcb : c = b := I.holding.layout.bp_inj (mem_allocs.1 hc).1 (by simp) hcp
    rw [hcb] at hle
    dsimp only at hle
    exact hmv i (by omega)

/-- A write of a client into a block of its own is served. -/
theorem Firstfit.Inv.write (I : Inv s bs) (hx : ∃ x ∈ s.live, x.1 ≤ p ∧ p < x.1 + x.2) :
    Serves s (.write p v) := by
  have hl : Heap.Layout { s.heap with mem := Function.update s.heap.mem p v } bs := by
    obtain ⟨x, hxm, h1, h2⟩ := hx
    obtain ⟨b, hb, hbp, hr⟩ := I.holding.room x hxm
    exact I.holding.layout.of_payload (mem_allocs.1 hb).1 ⟨rfl, rfl, rfl, rfl, rfl⟩
      fun q hq => Function.update_of_ne (show q ≠ p by omega) v s.heap.mem
  exact ⟨_, bs, if_pos hx, ⟨⟨hl, I.holding.held, I.holding.room⟩, I.merged⟩, hx, rfl, rfl⟩

/-- **Step lemma.** Every demand keeps the invariant and does to the memory what its event says. -/
theorem Firstfit.Inv.serve (I : ∃ bs, Inv s bs) (hst : Firstfit.serve s d = some s') :
    (∃ bs, Inv s' bs) ∧ Store.Does s.heap.mem s'.heap.mem s.live s'.live (event s d) := by
  obtain ⟨bs, I⟩ := I
  have hdone : Serves s d → (∃ bs, Inv s' bs) ∧
      Store.Does s.heap.mem s'.heap.mem s.live s'.live (event s d) := by
    rintro ⟨s'', bs', hs, I', hd⟩
    cases hs.symm.trans hst
    exact ⟨⟨bs', I'⟩, hd⟩
  cases d with
  | malloc size => exact hdone (I.malloc (Option.ite_none_right_eq_some.1 hst).1)
  | realloc ptr size =>
    obtain ⟨⟨hp, hlt⟩, hret⟩ := Option.ite_none_right_eq_some.1 hst
    rcases I.realloc hp hlt with ⟨hexit, -⟩ | hserves
    · rw [hexit] at hret
      cases hret
    · exact hdone hserves
  | free ptr => exact hdone (I.free (Option.ite_none_right_eq_some.1 hst).1)
  | write p v => exact hdone (I.write (Option.ite_none_right_eq_some.1 hst).1)

/-- A session begins with `mm_init` on an empty heap with room for a chunk. -/
theorem Firstfit.inv_init {h₀ : Heap} (hstart : h₀.memStartBrk % 8 = 0) (h0 : h₀.memStartBrk ≠ 0)
    (haddr : h₀.memMaxAddr < 2 ^ 32) (hroom : h₀.memStartBrk + 4112 ≤ h₀.memMaxAddr) :
    ∃ h, mmInit h₀.memResetBrk = (0, h) ∧ ∃ bs, Inv ⟨h, []⟩ bs := by
  obtain ⟨h, hi, hl, -⟩ := mmInit_layout (h := h₀.memResetBrk) hstart rfl haddr h0 hroom
  exact ⟨h, hi, _, ⟨hl, .nil, fun x hx => absurd hx List.not_mem_nil⟩, List.isChain_singleton _⟩

/-- The invariant holds in every state a session reaches. -/
theorem Firstfit.inv_reachable {h₀ : Heap} (hstart : h₀.memStartBrk % 8 = 0)
    (h0 : h₀.memStartBrk ≠ 0) (haddr : h₀.memMaxAddr < 2 ^ 32)
    (hroom : h₀.memStartBrk + 4112 ≤ h₀.memMaxAddr) (hi : mmInit h₀.memResetBrk = (0, h))
    (hr : Reachable Firstfit.serve ⟨h, []⟩ s) : ∃ bs, Inv s bs := by
  obtain ⟨h', hi', I⟩ := inv_init hstart h0 haddr hroom
  cases hi'.symm.trans hi
  exact hr.invariant (I := fun s => ∃ bs, Inv s bs) I fun I hst => (Inv.serve I hst).1

/-- **The baseline's heap.** In every state that a session on `mm-firstfit.c` reaches, the blocks
lead from the prologue to the break with equal tags, no two adjacent ones are free and the allocated
ones are those held; what is held is aligned, in the heap and apart; and every call that the client
may make, of a size below 2^31, returns, or is a reallocation that exits with the heap unchanged. -/
theorem baseline_sound {h₀ : Heap} (hstart : h₀.memStartBrk % 8 = 0) (h0 : h₀.memStartBrk ≠ 0)
    (haddr : h₀.memMaxAddr < 2 ^ 32) (hroom : h₀.memStartBrk + 4112 ≤ h₀.memMaxAddr)
    (hi : Firstfit.mmInit h₀.memResetBrk = (0, h)) (hr : Reachable Firstfit.serve ⟨h, []⟩ s) :
    (∃ bs, s.heap.Walk s.heap.heapListp (s.heap.prologue :: bs) s.heap.memBrk ∧ Merged bs ∧
        (∀ b ∈ bs, b.bp % 8 = 0 ∧ b.size % 8 = 0 ∧ 16 ≤ b.size ∧
          s.heap.get (hdrp b.bp) = s.heap.get (s.heap.ftrp b.bp)) ∧
        (s.live.map Prod.fst).Perm ((allocs bs).map Block.bp)) ∧
      (∀ x ∈ s.live, x.1 ≠ 0 ∧ x.1 % 8 = 0 ∧ s.heap.memStartBrk ≤ x.1 ∧
        x.1 + x.2 ≤ s.heap.memBrk) ∧
      s.live.Pairwise Store.Extent.Apart ∧
      (∀ size < 2 ^ 31, (Firstfit.serve s (.malloc size)).isSome) ∧
      ∀ x ∈ s.live, (Firstfit.serve s (.free x.1)).isSome ∧
        ∀ size < 2 ^ 31, (Firstfit.serve s (.realloc x.1 size)).isSome ∨
          Firstfit.mmRealloc s.heap x.1 size = some (.exit 1 s.heap) := by
  obtain ⟨bs, I⟩ := Firstfit.inv_reachable hstart h0 haddr hroom hi hr
  have hl := I.holding.layout
  have hsome : ∀ {d}, Firstfit.Serves s d → (Firstfit.serve s d).isSome := by
    rintro d ⟨s', -, hs, -⟩
    exact Option.isSome_iff_exists.2 ⟨s', hs⟩
  refine ⟨⟨bs, hl.walk, I.merged, fun b hb => hl.user hb, I.holding.held⟩,
    fun x hx => I.holding.within hx, I.holding.apart, fun size hlt => hsome (I.malloc hlt),
    fun x hx => ?_⟩
  have hp := List.mem_map_of_mem (f := Prod.fst) hx
  exact ⟨hsome (I.free hp), fun size hlt => (I.realloc hp hlt).symm.imp hsome And.left⟩

/-- **The baseline is a store of arrays.** Every session on `mm-firstfit.c` runs as a store does:
the arrays created, moved, written to and given back are those of its demands, no two share an
address, and every byte that was written is found in its array until that goes. -/
theorem baseline_stores {h₀ : Heap} (hstart : h₀.memStartBrk % 8 = 0) (h0 : h₀.memStartBrk ≠ 0)
    (haddr : h₀.memMaxAddr < 2 ^ 32) (hroom : h₀.memStartBrk + 4112 ≤ h₀.memMaxAddr)
    (hi : Firstfit.mmInit h₀.memResetBrk = (0, h)) {tr : List (Session × Demand)}
    (hr : Run Firstfit.serve ⟨h, []⟩ tr s) :
    ∃ tr' st, Run Store.step [] tr' st ∧
      tr'.map Prod.snd = tr.filterMap (fun x => Firstfit.event x.1 x.2) ∧
      st.map Store.Cells.extent = s.live ∧ Store.Holds s.heap.mem st ∧
      st.Pairwise fun c d => c.extent.Apart d.extent := by
  obtain ⟨tr', st, hr', hx, hh, ha⟩ := hr.stores (m := fun s => s.heap.mem) (x := Session.live)
    (e := Firstfit.event) (I := fun s => ∃ bs, Firstfit.Inv s bs) (C := fun _ _ => True) rfl
    (Firstfit.inv_reachable hstart h0 haddr hroom hi .start)
    (fun I _ hst => Firstfit.Inv.serve I hst) fun _ _ => trivial
  exact ⟨tr', st, hr', ha, hx, hh, Store.apart_of_reachable hr'.reachable⟩

end

/-- A block of 100 bytes is written to and moved behind another, and the next one gets its place. -/
def baselineDemands : List Demand :=
  [.malloc 100, .malloc 40, .write 24 7, .realloc 24 200, .malloc 10]

/-- On zeroed storage at address 8 a client of the baseline makes these demands, and finds what it
has written. -/
theorem baseline_run : ∃ h s, Firstfit.mmInit (memInit (fun _ => 0) 8).memResetBrk = (0, h) ∧
    exec Firstfit.serve ⟨h, []⟩ baselineDemands = some s ∧
    s.live = [(24, 10), (184, 200), (136, 40)] ∧ s.heap.mem 184 = 7 := by
  have hstart : (memInit (fun _ => 0) 8).memStartBrk % 8 = 0 := rfl
  obtain ⟨h, hi, -⟩ := Firstfit.inv_init hstart (by decide) (by decide) (by decide)
  have he : (exec Firstfit.serve ⟨(Firstfit.mmInit (memInit (fun _ => 0) 8).memResetBrk).2, []⟩
      baselineDemands).map (fun s => (s.live, s.heap.mem 184)) =
        some ([(24, 10), (184, 200), (136, 40)], 7) := by decide +kernel
  rw [hi] at he
  obtain ⟨s, hs, hread⟩ := Option.map_eq_some_iff.1 he
  obtain ⟨hlive, hmem⟩ := Prod.mk.inj hread
  exact ⟨h, s, hi, hs, hlive, hmem⟩

/-- After these demands the blocks lead from the prologue to the break, and the three payloads are
apart. -/
theorem baseline_sound_moved : ∃ h s bs,
    Firstfit.mmInit (memInit (fun _ => 0) 8).memResetBrk = (0, h) ∧
    exec Firstfit.serve ⟨h, []⟩ baselineDemands = some s ∧
    s.live = [(24, 10), (184, 200), (136, 40)] ∧
    s.heap.Walk s.heap.heapListp (s.heap.prologue :: bs) s.heap.memBrk ∧ Merged bs ∧
    s.live.Pairwise Store.Extent.Apart := by
  obtain ⟨h, s, hi, hs, hlive, -⟩ := baseline_run
  obtain ⟨⟨bs, hw, hmerged, -⟩, -, hapart, -⟩ := baseline_sound rfl (by decide) (by decide)
    (by decide) hi (Reachable.start.exec hs)
  exact ⟨h, s, bs, hi, hs, hlive, hw, hmerged, hapart⟩

/-- And the store has the arrays that are held, with the byte that was written before the move. -/
theorem baseline_stores_moved : ∃ h s st,
    Firstfit.mmInit (memInit (fun _ => 0) 8).memResetBrk = (0, h) ∧
    exec Firstfit.serve ⟨h, []⟩ baselineDemands = some s ∧
    st.map Store.Cells.extent = [(24, 10), (184, 200), (136, 40)] ∧
    Store.Holds s.heap.mem st ∧ s.heap.mem 184 = 7 := by
  obtain ⟨h, s, hi, hs, hlive, hmem⟩ := baseline_run
  obtain ⟨-, st, -, -, hx, hh, -⟩ := baseline_stores rfl (by decide) (by decide) (by decide) hi
    (Run.start.exec hs)
  exact ⟨h, s, st, hi, hs, hx.trans hlive, hh, hmem⟩

end Malloc
