import Styrikerfi.Malloc.Allocate

/-!
# The allocator refines the abstract heap

A heap that is well formed with the blocks and the free list of a shape (`Heap.Has`) is taken by
`mm_free`, `find_fit`, `place`, `extend_heap` and `mm_malloc` to one with the shape that the
operation of the same name on shapes gives. Pointers returned and the break are functions of the
shape, so the allocator reads nothing else from the memory.
-/

namespace Malloc

open Machine32 Tiling LinkedList

/-- The heap is well formed with the blocks and the free list of the shape. -/
def Heap.Has (h : Heap) (s : Shape) : Prop := h.WellFormed s.blocks s.list

section
variable {h h' : Heap} {s : Shape} {bs pre post : List Block} {b n : Block} {fl : List Nat}
  {asize words size : Nat}

/-- The block at a pointer of a well-formed heap is found there. -/
theorem Heap.WellFormed.locate (H : h.WellFormed (pre ++ b :: post) fl) :
    locate b.bp (pre ++ b :: post) = some (pre, b, post) := by
  refine locate_append fun c hc hbp => ?_
  have hcm : c ∈ pre ++ post := List.mem_append_left _ hc
  have := H.layout.tiles.apart c hcm
  have := (H.layout.bounds (mem_insert_middle (b := b) hcm)).size
  have := (H.layout.bounds (b := b) (by simp)).size
  omega

/-- A free is the coalescing of the freed block. -/
theorem Heap.Has.free_eq (H : h.Has ⟨pre ++ b :: post, fl⟩) :
    Shape.free ⟨pre ++ b :: post, fl⟩ b.bp = .coalesce pre b.freed post fl := by
  rw [Shape.free, Heap.WellFormed.locate H]

/-- `mm_free` -/
theorem Heap.Has.mmFree (H : h.Has s) (hb : b ∈ s.blocks) (ha : b.alloc = true) :
    (h.mmFree b.bp).Has (s.free b.bp) := by
  obtain ⟨blocks, list⟩ := s
  obtain ⟨pre, post, rfl⟩ := List.append_of_mem hb
  rw [H.free_eq]
  exact (H.mmFree ha).1

/-- `place` -/
theorem Heap.Has.place (H : h.Has s) (hb : b ∈ s.blocks) (ha : b.alloc = false)
    (hmod : asize % 8 = 0) (hmin : 16 ≤ asize) (hle : asize ≤ b.size) :
    (h.place b.bp asize).Has (s.place b.bp asize) := by
  obtain ⟨blocks, list⟩ := s
  obtain ⟨pre, post, rfl⟩ := List.append_of_mem hb
  have hs : Shape.place ⟨pre ++ b :: post, list⟩ b.bp asize = if asize + 16 ≤ b.size then
      .coalesce (pre ++ [b.head asize]) (b.rest asize) post (list.erase b.bp)
      else ⟨pre ++ ⟨b.bp, b.size, true⟩ :: post, list.erase b.bp⟩ := by
    rw [Shape.place, H.locate]
  rw [hs]
  split
  · next hsplit => exact (H.place_split ha hmod hmin hsplit).1
  · next hsplit =>
    have hw : wsub b.size asize = b.size - asize := wsub_of_le hle
    exact (H.place_all ha (show ¬ 8 + 8 ≤ wsub b.size asize by omega) rfl).1

/-- `find_fit` -/
theorem Heap.Has.findFit (H : h.Has s) (asize : Nat) :
    h.findFit asize = some (s.findFit asize) := by
  refine Heap.WellFormed.findFit_eq H fun b hb => ?_
  rw [Bool.eq_iff_iff, List.any_eq_true, decide_eq_true_iff]
  constructor
  · rintro ⟨c, hc, hfit⟩
    rw [Bool.and_eq_true, decide_eq_true_iff, decide_eq_true_iff] at hfit
    exact H.layout.bp_inj hc hb hfit.1 ▸ hfit.2
  · exact fun hle => ⟨b, hb, by simpa using hle⟩

/-- `extend_heap` where there is room -/
theorem Heap.Has.extendHeap (H : h.Has s) (heven : words % 2 = 0) (hmin : 4 ≤ words)
    (hroom : words * 4 < 2 ^ 31 ∧ h.memBrk + words * 4 ≤ h.memMaxAddr) :
    (h.extendHeap words).1 = (s.extend h.memBrk (words * 4)).1 ∧
      Heap.SameFrame { h with memBrk := h.memBrk + words * 4 } (h.extendHeap words).2 ∧
      (h.extendHeap words).2.Has (s.extend h.memBrk (words * 4)).2 := by
  obtain ⟨hloose, -⟩ := Heap.WellFormed.grow_loose (n := ⟨h.memBrk, words * 4, false⟩) H rfl
    (show words * 4 % 8 = 0 by omega) (show 16 ≤ words * 4 by omega) rfl hroom.2
  rw [Heap.WellFormed.extendHeap_eq (n := ⟨h.memBrk, words * 4, false⟩) H heven hmin hroom rfl rfl
    rfl]
  exact ⟨hloose.coalesce.1, ((SameFrame.put ..).trans ((SameFrame.put ..).trans (.put ..))).trans
    (.coalesce ..), hloose.coalesce_shape⟩

/-- The block that `extend_heap` returns. -/
theorem Shape.mem_extend (s : Shape) (brk size : Nat) : ∃ u ∈ (s.extend brk size).2.blocks,
    u.bp = (s.extend brk size).1 ∧ u.alloc = false ∧ size ≤ u.size := by
  refine ⟨_, List.mem_append_right _ List.mem_cons_self, rfl, rfl, ?_⟩
  simp only [Block.joined, Block.union, List.map_append, List.map_cons, List.sum_append,
    List.sum_cons]
  omega

/-- How `mm_malloc` comes out for the block size `asize`: a free block is large enough, the heap
grows, or there is no room for it to grow. -/
inductive Heap.Allocation (h : Heap) (s : Shape) (asize : Nat) : Nat × Heap → Prop
  | fits {b : Block} (hb : b ∈ s.blocks) (hfree : b.alloc = false) (hle : asize ≤ b.size)
      (hfit : h.findFit asize = some b.bp) (h0 : b.bp ≠ 0) :
      Allocation h s asize (b.bp, h.place b.bp asize)
  | grows {g : Heap} {u : Block} (hnone : ∀ b ∈ s.blocks, b.alloc = false → b.size < asize)
      (hfit : h.findFit asize = some 0)
      (hroom : max asize chunksize < 2 ^ 31 ∧ h.memBrk + max asize chunksize ≤ h.memMaxAddr)
      (hg : g.Has (s.extend h.memBrk (max asize chunksize)).2)
      (hframe : Heap.SameFrame { h with memBrk := h.memBrk + max asize chunksize } g)
      (hu : u ∈ (s.extend h.memBrk (max asize chunksize)).2.blocks)
      (hubp : u.bp = (s.extend h.memBrk (max asize chunksize)).1) (hfree : u.alloc = false)
      (hle : asize ≤ u.size) (h0 : u.bp ≠ 0) : Allocation h s asize (u.bp, g.place u.bp asize)
  | refused (hnone : ∀ b ∈ s.blocks, b.alloc = false → b.size < asize)
      (hfit : h.findFit asize = some 0)
      (hroom : ¬ (max asize chunksize < 2 ^ 31 ∧
        h.memBrk + max asize chunksize ≤ h.memMaxAddr)) : Allocation h s asize (0, h)

/-- `mm_malloc` of a size that is not zero returns one of the ways of an allocation. -/
theorem Heap.Has.mmMalloc_cases (H : h.Has s) (h0 : size ≠ 0) (hlt : size < 2 ^ 31) :
    ∃ r, h.mmMalloc size = some r ∧ h.Allocation s (adjust size) r := by
  obtain ⟨hmod, hmin, -, hmax⟩ := adjust_spec (show size + 15 < 2 ^ 32 by omega)
  obtain ⟨r, hr, hfit⟩ := Heap.WellFormed.findFit H (adjust size)
  rcases hfit with ⟨rfl, hnone⟩ | ⟨hr0, b, hb, hbr, hfree, hle⟩
  · obtain ⟨words, hwords, hw4, heven, hlarge⟩ := extend_words hmod
    have hn := hw4.symm
    have hchunk : chunksize = 4096 := rfl
    rw [Heap.mmMalloc_extends h0 hr hwords]
    by_cases hroom : words * 4 < 2 ^ 31 ∧ h.memBrk + words * 4 ≤ h.memMaxAddr
    · obtain ⟨hbp, hsame, hhas⟩ := H.extendHeap heven (by omega) hroom
      obtain ⟨u, hu, hubp, hufree, husize⟩ := s.mem_extend h.memBrk (words * 4)
      have hu0 : u.bp ≠ 0 := Linked.ne_null hhas.links _ (hhas.mem_list hu hufree)
      have hgrow : h.Allocation s (adjust size)
          (u.bp, (h.extendHeap words).2.place u.bp (adjust size)) :=
        .grows hnone hr (hn ▸ hroom) (hn ▸ hhas) (hn ▸ hsame) (hn ▸ hu) (hn ▸ hubp) hufree
          (by omega) hu0
      rw [hbp, ← hubp, if_neg hu0]
      exact ⟨_, rfl, hgrow⟩
    · rw [h.extendHeap_fail heven (by omega) hroom, if_pos rfl]
      exact ⟨_, rfl, .refused hnone hr (hn ▸ hroom)⟩
  · rw [Heap.mmMalloc_fits h0 hr hr0, ← hbr]
    exact ⟨_, rfl, .fits hb hfree hle (hbr ▸ hr) (hbr ▸ hr0)⟩

/-- **`mm_malloc`** computes the abstract allocation: it always returns, and pointer, break and heap
are those of the shape. -/
theorem Heap.Has.mmMalloc (H : h.Has s) (hlt : size < 2 ^ 31) :
    ∃ h', h.mmMalloc size = some ((s.malloc h.memBrk h.memMaxAddr size).1, h') ∧
      Heap.SameFrame { h with memBrk := (s.malloc h.memBrk h.memMaxAddr size).2.1 } h' ∧
      h'.Has (s.malloc h.memBrk h.memMaxAddr size).2.2 := by
  by_cases h0 : size = 0
  · rw [Heap.mmMalloc, Shape.malloc, if_pos h0, if_pos h0]
    exact ⟨h, rfl, .refl h, H⟩
  obtain ⟨hmod, hmin, -, -⟩ := adjust_spec (show size + 15 < 2 ^ 32 by omega)
  obtain ⟨r, hr, hcase⟩ := H.mmMalloc_cases h0 hlt
  rw [hr]
  cases hcase with
  | fits hb hfree hle hfit hb0 =>
    obtain hs := Option.some.inj ((H.findFit _).symm.trans hfit)
    simp only [Shape.malloc, if_neg h0, hs, if_pos hb0]
    exact ⟨_, rfl, .place .., H.place hb hfree hmod hmin hle⟩
  | grows _ hfit hroom hg hframe hu hubp hfree hle =>
    obtain hs := Option.some.inj ((H.findFit _).symm.trans hfit)
    simp only [Shape.malloc, if_neg h0, hs, ne_eq, not_true, if_false, if_pos hroom, ← hubp]
    exact ⟨_, rfl, hframe.trans (.place ..), hg.place hu hfree hmod hmin hle⟩
  | refused _ hfit hroom =>
    obtain hs := Option.some.inj ((H.findFit _).symm.trans hfit)
    simp only [Shape.malloc, if_neg h0, hs, ne_eq, not_true, if_false, if_neg hroom]
    exact ⟨h, rfl, .refl h, H⟩

/-- A heap has one shape. -/
theorem Heap.WellFormed.unique {bs' : List Block} {fl' : List Nat} (H : h.WellFormed bs fl)
    (H' : h.WellFormed bs' fl') : bs = bs' ∧ fl = fl' :=
  ⟨H.layout.unique H'.layout, Seg.unique H.links H'.links⟩

/-- `mm_init` on an empty heap -/
theorem Heap.mmInit_has (hstart : h.memStartBrk % 8 = 0) (hbrk : h.memBrk = h.memStartBrk)
    (haddr : h.memMaxAddr < 2 ^ 32) (hi : h.mmInit = (0, h')) :
    h'.Has (.init h.memStartBrk) ∧ h'.memMaxAddr = h.memMaxAddr ∧
      h'.memBrk = h.memStartBrk + 4112 ∧ h'.memStartBrk = h.memStartBrk := by
  rcases Heap.mmInit_cases hstart hbrk haddr with
    ⟨-, hfail⟩ | ⟨hroom, g, words, hw, hok, hg, hst, hm, hb⟩
  · rw [hi] at hfail
    cases hfail
  · cases hi.symm.trans hok
    have hhas : g.Has ⟨[], []⟩ := hg
    have hinit : Shape.init h.memStartBrk = (Shape.extend ⟨[], []⟩ g.memBrk (words * 4)).2 := by
      rw [hb, hbrk, hw]
      rfl
    obtain ⟨-, hsame, hhas'⟩ := hhas.extendHeap (show words % 2 = 0 by omega) (by omega)
      ⟨by omega, by omega⟩
    refine ⟨hinit ▸ hhas', hsame.memMaxAddr.trans hm, hsame.memBrk.trans ?_,
      hsame.memStartBrk.trans hst⟩
    show g.memBrk + words * 4 = _
    omega

end

end Malloc
