import Styrikerfi.Malloc.Refine
import Styrikerfi.Malloc.Session

/-!
# The implicit-list allocator

`mm-firstfit.c`, the baseline that `mm.c` was made from: the same tags and no free list, so that
`find_fit` walks all blocks from the prologue. Its functions act on the same heaps and leave
`free_listp` alone. On the layout of a heap they do what the operations of shapes do
(`Firstfit.coalesce_layout`, `mmFree_layout`, `place_layout`, `extendHeap_layout`), and so what
those of `mm.c` do: two heaps with the same blocks and break keep them the same (`firstfit_agrees`).
-/

namespace Malloc

open Machine32 Tiling LinkedList

/-! ## mm-firstfit.c -/

/-- Boundary tag coalescing. Returns the coalesced block. -/
def Firstfit.coalesce (h : Heap) (bp : Nat) : Nat × Heap :=
  let prevAlloc := h.getAlloc (h.ftrp (h.prevBlkp bp))
  let nextAlloc := h.getAlloc (hdrp (h.nextBlkp bp))
  let size := h.getSize (hdrp bp)
  if prevAlloc ≠ 0 ∧ nextAlloc ≠ 0 then (bp, h)
  else if prevAlloc ≠ 0 ∧ nextAlloc = 0 then
    let size := wadd size (h.getSize (hdrp (h.nextBlkp bp)))
    let h := h.put (hdrp bp) (pack size 0)
    let h := h.put (h.ftrp bp) (pack size 0)
    (bp, h)
  else if prevAlloc = 0 ∧ nextAlloc ≠ 0 then
    let size := wadd size (h.getSize (hdrp (h.prevBlkp bp)))
    let h := h.put (h.ftrp bp) (pack size 0)
    let h := h.put (hdrp (h.prevBlkp bp)) (pack size 0)
    (h.prevBlkp bp, h)
  else
    let size := wadd size
      (wadd (h.getSize (hdrp (h.prevBlkp bp))) (h.getSize (h.ftrp (h.nextBlkp bp))))
    let h := h.put (hdrp (h.prevBlkp bp)) (pack size 0)
    let h := h.put (h.ftrp (h.nextBlkp bp)) (pack size 0)
    (h.prevBlkp bp, h)

/-- Extends the heap with a free block and returns its block pointer, `NULL` on failure. -/
def Firstfit.extendHeap (h : Heap) (words : Nat) : Nat × Heap :=
  let size := if words % 2 ≠ 0 then (words + 1) * wsize % 2 ^ 32 else words * wsize % 2 ^ 32
  let (bp, h) := h.memSbrk (toInt size)
  if bp = sbrkFailed then (0, h)
  else
    let h := h.put (hdrp bp) (pack size 0)
    let h := h.put (h.ftrp bp) (pack size 0)
    let h := h.put (hdrp (h.nextBlkp bp)) (pack 0 1)
    coalesce h bp

/-- Places a block of `asize` bytes at the start of free block `bp`, and splits if the remainder
would be at least the minimum block size. -/
def Firstfit.place (h : Heap) (bp asize : Nat) : Heap :=
  let csize := h.getSize (hdrp bp)
  if dsize + overhead ≤ wsub csize asize then
    let h := h.put (hdrp bp) (pack asize 1)
    let h := h.put (h.ftrp bp) (pack asize 1)
    let bp := h.nextBlkp bp
    let h := h.put (hdrp bp) (pack (wsub csize asize) 0)
    h.put (h.ftrp bp) (pack (wsub csize asize) 0)
  else
    let h := h.put (hdrp bp) (pack csize 1)
    h.put (h.ftrp bp) (pack csize 1)

/-- The first fit search from `bp` on; `none` when the fuel runs out. -/
def Firstfit.findFitFrom (h : Heap) (asize : Nat) : Nat → Nat → Option Nat
  | 0, _ => none
  | fuel + 1, bp =>
    if h.getSize (hdrp bp) = 0 then some 0
    else if h.getAlloc (hdrp bp) = 0 ∧ asize ≤ h.getSize (hdrp bp) then some bp
    else findFitFrom h asize fuel (h.nextBlkp bp)

/-- Finds a fit for a block with `asize` bytes, `NULL` if there is none. -/
def Firstfit.findFit (h : Heap) (asize : Nat) : Option Nat :=
  findFitFrom h asize (2 ^ 32) h.heapListp

/-- Initializes the memory manager. -/
def Firstfit.mmInit (h : Heap) : Int × Heap :=
  let (p, h) := h.memSbrk (4 * wsize)
  if p = 0 then (-1, { h with heapListp := p })
  else
    let h := h.put p 0
    let h := h.put (wadd p wsize) (pack overhead 1)
    let h := h.put (wadd p dsize) (pack overhead 1)
    let h := h.put (wadd (wadd p wsize) dsize) (pack 0 1)
    let h := { h with heapListp := wadd p dsize }
    let (bp, h) := extendHeap h (chunksize / wsize)
    if bp = 0 then (-1, h) else (0, h)

/-- Allocates a block with at least `size` bytes of payload; `none` when the search never ends. -/
def Firstfit.mmMalloc (h : Heap) (size : Nat) : Option (Nat × Heap) :=
  if size = 0 then some (0, h)
  else
    let asize := adjust size
    (findFit h asize).map fun bp =>
      if bp ≠ 0 then (bp, place h bp asize)
      else
        let extendsize := max asize chunksize
        let (bp, h) := extendHeap h (extendsize / wsize)
        if bp = 0 then (0, h) else (bp, place h bp asize)

/-- Frees a block. -/
def Firstfit.mmFree (h : Heap) (bp : Nat) : Heap :=
  let size := h.getSize (hdrp bp)
  let h := h.put (hdrp bp) (pack size 0)
  let h := h.put (h.ftrp bp) (pack size 0)
  (coalesce h bp).2

section
variable {h g : Heap} {bs pre mid post l r : List Block} {b u : Block} {fl : List Nat}
  {asize words : Nat}

/-! ## Retagging a layout -/

/-- Neighbours get the tags of one block of the same extent. -/
theorem Heap.Layout.retag_one (hl : h.Layout (pre ++ mid ++ post))
    (hmid : ∀ {lo hi}, Tiles Block.bp Block.size lo mid hi → lo = u.bp ∧ hi = u.bp + u.size)
    (hsz : u.size % 8 = 0 ∧ 16 ≤ u.size) : (h.retag u).Layout (pre ++ u :: post) := by
  obtain ⟨hi, ht, hpost⟩ := Tiles.append.1 hl.tiles
  obtain ⟨lo, hpre, ht⟩ := Tiles.append.1 ht
  obtain ⟨rfl, rfl⟩ := hmid ht
  have hfit : u.Fits := hl.fits hpre hpost hsz
  have hone : Tiles Block.bp Block.size u.bp [u] (u.bp + u.size) := ⟨rfl, rfl⟩
  simpa using hl.replace hpre hone hpost (h.retag_frame [] hfit) nofun (by simpa using hsz)
    (by simpa using h.retag_tagged hfit)

/-- Tags written over neighbours make one block of them. -/
theorem Heap.Layout.retag_union (hl : h.Layout (pre ++ (l ++ b :: r) ++ post))
    (hu : u = Block.union (l ++ b :: r)) : (h.retag u).Layout (pre ++ u :: post) := by
  subst hu
  exact hl.retag_one Block.union_extent (Block.union_sizes fun c hc =>
    hl.sizes c (List.mem_append_left _ (List.mem_append_right _ hc)))

/-- One block gets the tags of another of its extent. -/
theorem Heap.Layout.retag_self (hl : h.Layout (pre ++ b :: post)) (hbp : u.bp = b.bp)
    (hsize : u.size = b.size) : (h.retag u).Layout (pre ++ u :: post) := by
  have hl' : h.Layout (pre ++ [b] ++ post) := by simpa using hl
  refine hl'.retag_one (fun {lo hi} ht => ?_) (hsize ▸ hl.sizes b (by simp))
  obtain ⟨rfl, rfl⟩ : b.bp = lo ∧ lo + b.size = hi := ht
  exact ⟨hbp.symm, by rw [hbp, hsize]⟩

/-! ## The functions on a layout -/

/-- `coalesce`: the block and its free neighbours become one free block, and nothing is written
outside it. -/
theorem Firstfit.coalesce_layout (hl : h.Layout (pre ++ b :: post)) (hb : b.alloc = false)
    (fl : List Nat) : (coalesce h b.bp).1 = (Block.joined pre b post).bp ∧
      (coalesce h b.bp).2.Layout (Shape.coalesce pre b post fl).blocks ∧
      h.Frame (coalesce h b.bp).2 ((Block.joined pre b post).bp - 4)
        ((Block.joined pre b post).bp + (Block.joined pre b post).size - 4) [] := by
  have hbm : b ∈ pre ++ b :: post := by simp
  unfold Shape.coalesce Block.joined
  cases hbef : (h.before pre).alloc with
  | true =>
    rw [freeLast_eq_nil hbef]
    cases haft : (h.after post).alloc with
    | true =>
      have hub : Block.union [b] = b := by
        cases b
        simp_all [Block.union]
      have hcode : coalesce h b.bp = (b.bp, h) := by
        simp [coalesce, hl.prev_alloc, hl.next_alloc, hbef, haft]
      rw [freeHead_eq_nil haft, List.nil_append, hub, hcode]
      exact ⟨rfl, by simpa using hl, .refl h _ _ _⟩
    | false =>
      obtain ⟨n, post', rfl, hn⟩ := after_free haft
      have hr : freeHead (n :: post') = [n] := by simp [freeHead, hn]
      have hnm : n ∈ pre ++ b :: n :: post' := by simp
      have hnb : n.bp = b.bp + b.size := hl.after.2.1
      obtain ⟨u, hu⟩ : ∃ u, u = Block.union [b, n] := ⟨_, rfl⟩
      have hu' : u = ⟨b.bp, b.size + n.size, false⟩ := by simpa [Block.union] using hu
      have hword : pack u.size 0 = u.word := by rw [hu']; rfl
      obtain ⟨hsize, htags⟩ := hl.outer_next hu'
      have hcode : coalesce h b.bp = (b.bp, h.retag u) := by
        simp [coalesce, hl.prev_alloc, hbef, hn, hl.nextBlkp hbm, ← hnb, hl.getSize hbm,
          hl.getSize hnm, hl.getAlloc hnm, hsize, hword, htags]
      have hl' : h.Layout (pre ++ ([] ++ b :: [n]) ++ post') := by simpa using hl
      have hlu := hl'.retag_union hu
      have hframe := h.retag_frame [] (hlu.bounds (b := u) (by simp)).fits
      rw [hr, hcode]
      exact ⟨by simp [Block.union], by simpa [hu] using hlu, by simpa [hu] using hframe⟩
  | false =>
    obtain ⟨pre', p, rfl, hp⟩ := before_free hbef
    have hr : freeLast (pre' ++ [p]) = [p] := by simp [freeLast, hp]
    have hpm : p ∈ (pre' ++ [p]) ++ b :: post := by simp
    have hprev : h.prevBlkp b.bp = p.bp := by simpa using hl.prevBlkp
    have hpa : h.getAlloc (h.ftrp p.bp) = 0 := by simpa [hprev, hp] using hl.prev_alloc
    rw [hr]
    cases haft : (h.after post).alloc with
    | true =>
      obtain ⟨u, hu⟩ : ∃ u, u = Block.union [p, b] := ⟨_, rfl⟩
      have hu' : u = ⟨p.bp, p.size + b.size, false⟩ := by simpa [Block.union] using hu
      have hword : pack u.size 0 = u.word := by rw [hu']; rfl
      obtain ⟨hsize, hfoot₁, htags, hfoot₂⟩ := hl.outer_prev hu'
      have hcode : coalesce h b.bp = (p.bp, h.retag u) := by
        simp [coalesce, hl.next_alloc, haft, hpa, hprev, hl.getSize hbm, hl.getSize hpm,
          hl.ftrp hbm, hsize, hword, hfoot₁, hfoot₂, htags]
      have hl' : h.Layout (pre' ++ ([p] ++ b :: []) ++ post) := by simpa using hl
      have hlu := hl'.retag_union hu
      have hframe := h.retag_frame [] (hlu.bounds (b := u) (by simp)).fits
      rw [freeHead_eq_nil haft, hcode]
      exact ⟨by simp [Block.union], by simpa [hu] using hlu, by simpa [hu] using hframe⟩
    | false =>
      obtain ⟨n, post', rfl, hn⟩ := after_free haft
      have hr' : freeHead (n :: post') = [n] := by simp [freeHead, hn]
      have hnm : n ∈ (pre' ++ [p]) ++ b :: n :: post' := by simp
      have hnb : n.bp = b.bp + b.size := hl.after.2.1
      obtain ⟨u, hu⟩ : ∃ u, u = Block.union [p, b, n] := ⟨_, rfl⟩
      have hu' : u = ⟨p.bp, p.size + (b.size + n.size), false⟩ := by simpa [Block.union] using hu
      have hword : pack u.size 0 = u.word := by rw [hu']; rfl
      obtain ⟨hsize, hnext, hftr, htags, hprev₃⟩ := hl.outer_both hu'
      have hnfoot : h.getSize (n.bp + n.size - 8) = n.size := by
        rw [Heap.getSize, (hl.tags n hnm).footer, n.word_size (hl.bounds hnm).mod]
      have hna : h.getAlloc (hdrp n.bp) = 0 := by simpa [hn] using hl.getAlloc hnm
      have hcode : coalesce h b.bp = (p.bp, h.retag u) := by
        simp [coalesce, hna, hpa, hprev, hl.nextBlkp hbm, ← hnb, hl.getSize hbm, hl.getSize hpm,
          hl.ftrp hnm, hnfoot, hsize, hword, hnext, hftr, htags, hprev₃]
      have hl' : h.Layout (pre' ++ ([p] ++ b :: [n]) ++ post') := by simpa using hl
      have hlu := hl'.retag_union hu
      have hframe := h.retag_frame [] (hlu.bounds (b := u) (by simp)).fits
      rw [hr', hcode]
      exact ⟨by simp [Block.union], by simpa [hu] using hlu, by simpa [hu] using hframe⟩

/-- `mm_free` coalesces the block, tagged as free. -/
theorem Firstfit.mmFree_eq (hl : h.Layout bs) (hb : b ∈ bs) :
    mmFree h b.bp = (coalesce (h.retag b.freed) b.freed.bp).2 := by
  have hB := (hl.bounds hb).fits
  have hfit : b.freed.Fits := ⟨hB.mod, hB.size, hB.lo, hB.hi⟩
  have htags := h.put_tags hfit rfl (show pack b.size 0 = b.freed.word from rfl)
  simp only [mmFree, hl.getSize hb]
  exact congrArg (fun g => (coalesce g b.bp).2) htags

/-- `mm_free` -/
theorem Firstfit.mmFree_layout (hl : h.Layout (pre ++ b :: post)) (fl : List Nat) :
    (mmFree h b.bp).Layout (Shape.coalesce pre b.freed post fl).blocks ∧
      h.SameFrame (mmFree h b.bp) := by
  obtain ⟨-, hlay, hframe⟩ :=
    coalesce_layout (hl.retag_self (u := b.freed) rfl rfl) rfl fl
  rw [mmFree_eq hl (by simp)]
  exact ⟨hlay, (Heap.SameFrame.put ..).trans ((Heap.SameFrame.put ..).trans hframe.toSameFrame)⟩

/-- `place` leaves the break. -/
theorem Firstfit.sameFrame_place (h : Heap) (bp asize : Nat) : h.SameFrame (place h bp asize) := by
  unfold place
  dsimp only
  split
  · exact (Heap.SameFrame.put ..).trans ((Heap.SameFrame.put ..).trans
      ((Heap.SameFrame.put ..).trans (.put ..)))
  · exact (Heap.SameFrame.put ..).trans (.put ..)

/-- `place` on the whole of a block tags it as allocated. -/
theorem Firstfit.place_whole (hl : h.Layout bs) (hb : b ∈ bs) (hle : asize ≤ b.size)
    (hs : ¬ asize + 16 ≤ b.size) : place h b.bp asize = h.retag ⟨b.bp, b.size, true⟩ := by
  have hB := (hl.bounds hb).fits
  have hfit : Block.Fits ⟨b.bp, b.size, true⟩ := ⟨hB.mod, hB.size, hB.lo, hB.hi⟩
  have hw : wsub b.size asize = b.size - asize := wsub_of_le hle
  have hno : ¬ dsize + overhead ≤ b.size - asize := show ¬ 16 ≤ b.size - asize by omega
  have htags := h.put_tags hfit rfl
    (show pack b.size 1 = Block.word ⟨b.bp, b.size, true⟩ from rfl)
  simp only [place, hl.getSize hb, hw, if_neg hno]
  exact htags

/-- `place` on the whole of a block. -/
theorem Firstfit.place_all (hl : h.Layout (pre ++ b :: post)) (hle : asize ≤ b.size)
    (hs : ¬ asize + 16 ≤ b.size) :
    (place h b.bp asize).Layout (pre ++ ⟨b.bp, b.size, true⟩ :: post) := by
  rw [place_whole hl (by simp) hle hs]
  exact hl.retag_self rfl rfl

/-- `place` that splits a block tags its two parts. -/
theorem Firstfit.place_parts (hl : h.Layout bs) (hb : b ∈ bs) (hmod : asize % 8 = 0)
    (hmin : 16 ≤ asize) (hs : asize + 16 ≤ b.size) :
    place h b.bp asize = (h.retag (b.head asize)).retag (b.rest asize) := by
  have hB := hl.bounds hb
  have := hB.fits.lo; have := hB.fits.hi
  have hafit := hB.head_fits hmod hmin (show asize ≤ b.size by omega)
  have hffit := hB.rest_fits hmod hs
  generalize hg : h.retag (b.head asize) = g
  have htag : g.Tagged (b.head asize) := hg ▸ h.retag_tagged hafit
  obtain ⟨hnext, -⟩ := hB.split_tags hmod hmin hs htag
  have hw : wsub b.size asize = b.size - asize := wsub_of_le (by omega)
  have hle : dsize + overhead ≤ b.size - asize := show 16 ≤ b.size - asize by omega
  have ht₁ : (h.put (hdrp b.bp) (pack asize 1)).put
      ((h.put (hdrp b.bp) (pack asize 1)).ftrp b.bp) (pack asize 1) = g :=
    (h.put_tags hafit rfl rfl).trans hg
  have ht₂ : (g.put (hdrp (b.rest asize).bp) (pack (b.size - asize) 0)).put
      ((g.put (hdrp (b.rest asize).bp) (pack (b.size - asize) 0)).ftrp (b.rest asize).bp)
      (pack (b.size - asize) 0) = g.retag (b.rest asize) := g.put_tags hffit rfl rfl
  simp only [place, hl.getSize hb, hw, if_pos hle, ht₁, hnext, ht₂]

/-- `place` writes nothing outside the block. -/
theorem Firstfit.place_frame (hl : h.Layout bs) (hb : b ∈ bs) (hmod : asize % 8 = 0)
    (hmin : 16 ≤ asize) (hle : asize ≤ b.size) :
    h.Frame (place h b.bp asize) (b.bp - 4) (b.bp + b.size - 4) [] := by
  have hB := hl.bounds hb
  by_cases hs : asize + 16 ≤ b.size
  · have hafit := hB.head_fits hmod hmin hle
    have hffit := hB.rest_fits hmod hs
    rw [place_parts hl hb hmod hmin hs]
    refine ((h.retag_frame [] hafit).mono (fun _ => ⟨Nat.le_refl _, ?_⟩) fun _ hx => hx).trans
      ((Heap.retag_frame _ [] hffit).mono (fun _ => ⟨?_, ?_⟩) fun _ hx => hx)
    · show b.bp + asize - 4 ≤ _
      omega
    · show b.bp - 4 ≤ b.bp + asize - 4
      omega
    · show b.bp + asize + (b.size - asize) - 4 ≤ b.bp + b.size - 4
      omega
  · have hfit := hB.fits
    rw [place_whole hl hb hle hs]
    exact h.retag_frame [] (u := ⟨b.bp, b.size, true⟩) ⟨hfit.mod, hfit.size, hfit.lo, hfit.hi⟩

/-- `place` splits a block. -/
theorem Firstfit.place_split (hl : h.Layout (pre ++ b :: post)) (hmod : asize % 8 = 0)
    (hmin : 16 ≤ asize) (hs : asize + 16 ≤ b.size) :
    (place h b.bp asize).Layout (pre ++ b.head asize :: b.rest asize :: post) := by
  have hbm : b ∈ pre ++ b :: post := by simp
  have hB := hl.bounds hbm
  have hafit := hB.head_fits hmod hmin (show asize ≤ b.size by omega)
  have hffit := hB.rest_fits hmod hs
  have hframe := place_frame hl hbm hmod hmin (show asize ≤ b.size by omega)
  rw [place_parts hl hbm hmod hmin hs] at hframe ⊢
  generalize hg : h.retag (b.head asize) = g at hframe ⊢
  have htag : g.Tagged (b.head asize) := hg ▸ h.retag_tagged hafit
  obtain ⟨-, htag'⟩ := hB.split_tags hmod hmin hs htag
  obtain ⟨hpre, hpost⟩ := hl.tiles.split
  have hl' : h.Layout (pre ++ [b] ++ post) := by simpa using hl
  have htwo : Tiles Block.bp Block.size b.bp [b.head asize, b.rest asize] (b.bp + b.size) :=
    ⟨rfl, rfl, show b.bp + asize + (b.size - asize) = b.bp + b.size by omega⟩
  have := hl'.replace hpre htwo hpost hframe nofun
    (by simpa using ⟨⟨hafit.mod, hafit.size⟩, hffit.mod, hffit.size⟩)
    (by simpa using ⟨htag', g.retag_tagged hffit⟩)
  simpa using this

/-- From a block of the layout on, the search finds the first free block that is large enough. -/
theorem Firstfit.findFitFrom_eq {a fuel : Nat} (hl : h.Layout bs)
    (ht : Tiles Block.bp Block.size a l h.memBrk) (hsub : ∀ b ∈ l, b ∈ bs) (hf : l.length < fuel) :
    findFitFrom h asize fuel a =
      some (((l.find? fun b => !b.alloc && decide (asize ≤ b.size)).map Block.bp).getD 0) := by
  induction l generalizing a fuel with
  | nil =>
    obtain ⟨fuel, rfl⟩ := Nat.exists_eq_succ_of_ne_zero (Nat.ne_of_gt hf)
    obtain rfl : a = h.memBrk := ht
    have := hl.le_brk
    exact if_pos (Heap.getSize_of_header (b := h.epilogue) hl.epilogue rfl (by omega))
  | cons b l ih =>
    obtain ⟨fuel, rfl⟩ := Nat.exists_eq_succ_of_ne_zero (Nat.ne_of_gt (Nat.zero_lt_of_lt hf))
    obtain ⟨rfl, ht⟩ := ht
    have hb := hsub b List.mem_cons_self
    have hsz := (hl.bounds hb).size
    have hnext := ih (by rw [← hl.nextBlkp hb] at ht; exact ht)
      (fun c hc => hsub c (List.mem_cons_of_mem _ hc)) (Nat.lt_of_succ_lt_succ hf)
    rw [findFitFrom, hl.getSize hb, hl.getAlloc hb, if_neg (by omega), hnext, List.find?_cons]
    cases ha : b.alloc with
    | true => simp
    | false =>
      by_cases hfit : asize ≤ b.size
      · simp [hfit]
      · simp [hfit]

/-- `find_fit` ends at the first free block that is large enough. -/
theorem Firstfit.findFit_eq (hl : h.Layout bs) (asize : Nat) : findFit h asize =
    some (((bs.find? fun b => !b.alloc && decide (asize ≤ b.size)).map Block.bp).getD 0) := by
  obtain ⟨hat, hnext⟩ := hl.prologue_at
  have hsize : h.getSize (hdrp h.heapListp) = 8 := congrArg Block.size hat
  have halloc : h.getAlloc (hdrp h.heapListp) ≠ 0 := of_decide_eq_true (congrArg Block.alloc hat)
  have hlen : bs.length < 2 ^ 32 - 1 := by
    have := hl.tiles.length_le fun b hb => by have := (hl.sizes b hb).2; omega
    have := hl.brk_lt; have := hl.listp
    omega
  have hcode : findFit h asize = findFitFrom h asize (2 ^ 32 - 1) (h.heapListp + 8) := by
    show findFitFrom h asize (2 ^ 32 - 1 + 1) h.heapListp = _
    rw [findFitFrom, hsize, if_neg (by decide), if_neg fun hc => halloc hc.1, hnext]
  exact hcode.trans (findFitFrom_eq hl hl.tiles (fun _ hb => hb) hlen)

/-- `find_fit` returns `NULL` where no free block is large enough, and otherwise one that is. -/
theorem Firstfit.findFit_cases (hl : h.Layout bs) (asize : Nat) :
    findFit h asize = some 0 ∧ (∀ b ∈ bs, b.alloc = false → b.size < asize) ∨
      ∃ b ∈ bs, findFit h asize = some b.bp ∧ b.bp ≠ 0 ∧ b.alloc = false ∧ asize ≤ b.size := by
  rw [findFit_eq hl]
  cases hfind : bs.find? fun b => !b.alloc && decide (asize ≤ b.size) with
  | none =>
    refine .inl ⟨rfl, fun b hb ha => ?_⟩
    have := List.find?_eq_none.1 hfind b hb
    simp only [ha, Bool.not_false, Bool.true_and, decide_eq_true_iff] at this
    omega
  | some b =>
    have hb := List.mem_of_find?_eq_some hfind
    have hfit := List.find?_some hfind
    rw [Bool.and_eq_true, Bool.not_eq_true', decide_eq_true_iff] at hfit
    refine .inr ⟨b, hb, rfl, ?_, hfit⟩
    have := (hl.bounds hb).lo
    omega

/-- `find_fit` ends, and returns `NULL` exactly when no free block is large enough. -/
theorem Firstfit.findFit_spec (hl : h.Layout bs) (asize : Nat) : ∃ r, findFit h asize = some r ∧
    (r = 0 ↔ ∀ b ∈ bs, b.alloc = false → b.size < asize) := by
  rcases findFit_cases hl asize with ⟨hr, hno⟩ | ⟨b, hb, hr, h0, hfree, hle⟩
  · exact ⟨0, hr, iff_of_true rfl hno⟩
  · exact ⟨b.bp, hr, iff_of_false h0 fun hno => Nat.not_lt.2 hle (hno b hb hfree)⟩

/-- `extend_heap` where there is room coalesces a free block in the new area. -/
theorem Firstfit.extendHeap_eq (hl : h.Layout bs) (heven : words % 2 = 0) (hmin : 4 ≤ words)
    (hs : words * 4 < 2 ^ 31 ∧ h.memBrk + words * 4 ≤ h.memMaxAddr) (hbp : b.bp = h.memBrk)
    (hsize : b.size = words * 4) (hfree : b.alloc = false) :
    extendHeap h words = coalesce (h.grow b) b.bp := by
  obtain ⟨g, hsbrk, hne, htags, hgrow⟩ := hl.extend_writes heven hmin hs hbp hsize hfree
  simp only [extendHeap, words_size heven (show words * 4 < 2 ^ 32 by omega), hsbrk, if_neg hne,
    htags, hgrow]

/-- `extend_heap` where there is room -/
theorem Firstfit.extendHeap_layout (hl : h.Layout bs) (heven : words % 2 = 0) (hmin : 4 ≤ words)
    (hs : words * 4 < 2 ^ 31 ∧ h.memBrk + words * 4 ≤ h.memMaxAddr) (fl : List Nat) :
    (extendHeap h words).1 = (Shape.extend ⟨bs, fl⟩ h.memBrk (words * 4)).1 ∧
      (extendHeap h words).2.Layout (Shape.extend ⟨bs, fl⟩ h.memBrk (words * 4)).2.blocks ∧
      Heap.SameFrame { h with memBrk := h.memBrk + words * 4 } (extendHeap h words).2 := by
  obtain ⟨n, hn⟩ : ∃ n : Block, n = ⟨h.memBrk, words * 4, false⟩ := ⟨_, rfl⟩
  have hbp : n.bp = h.memBrk := by rw [hn]
  have hsize : n.size = words * 4 := by rw [hn]
  have hfree : n.alloc = false := by rw [hn]
  have hl' := hl.grow hbp (by omega) (by omega) (by omega)
  obtain ⟨hret, hlay, hframe⟩ := coalesce_layout hl' hfree fl
  rw [extendHeap_eq hl heven hmin hs hbp hsize hfree, Shape.extend, ← hn]
  have hgrown : Heap.SameFrame { h with memBrk := h.memBrk + words * 4 } (h.grow n) := by
    rw [Heap.grow, hsize]
    exact (Heap.SameFrame.put ..).trans ((Heap.SameFrame.put ..).trans (.put ..))
  exact ⟨hret, hlay, hgrown.trans hframe.toSameFrame⟩

/-- `extend_heap` where the break cannot move up -/
theorem Firstfit.extendHeap_fail (h : Heap) (heven : words % 2 = 0) (hlt : words * 4 < 2 ^ 32)
    (hs : ¬ (words * 4 < 2 ^ 31 ∧ h.memBrk + words * 4 ≤ h.memMaxAddr)) :
    extendHeap h words = (0, h) := by
  have hsbrk := h.memSbrk_toInt hlt
  rw [if_neg hs] at hsbrk
  simp only [extendHeap, words_size heven hlt, hsbrk, if_true]

/-- The head of the free list is no part of a layout. -/
theorem Heap.Layout.setFreeListp (hl : h.Layout bs) (v : Nat) : (h.setFreeListp v).Layout bs :=
  ⟨hl.aligned, hl.inBounds, hl.addressable, hl.listp, ⟨hl.prologue.header, hl.prologue.footer⟩,
    hl.tiles, hl.sizes, fun b hb => ⟨(hl.tags b hb).header, (hl.tags b hb).footer⟩, hl.epilogue⟩

/-- `mm_init` after its request for memory: the first words, and one extension. -/
theorem Firstfit.mmInit_eq {p r : Nat} {g g' : Heap} (hs : h.memSbrk (4 * wsize) = (p, g))
    (hp : p ≠ 0) (hw : chunksize / wsize = words)
    (he : extendHeap ((g.initWords p).setFreeListp g.freeListp) words = (r, g')) :
    mmInit h = if r = 0 then (-1, g') else (0, g') := by
  have hwords : (g.initWords p).setFreeListp g.freeListp = { (((g.put p 0).put (wadd p wsize)
      (pack overhead 1)).put (wadd p dsize) (pack overhead 1)).put (wadd (wadd p wsize) dsize)
      (pack 0 1) with heapListp := wadd p dsize } := rfl
  rw [hwords] at he
  simp only [mmInit, hs, if_neg hp, hw, he]

/-- `mm_init` on an empty heap, where there is room for the four words and a chunk -/
theorem Firstfit.mmInit_layout (hstart : h.memStartBrk % 8 = 0) (hbrk : h.memBrk = h.memStartBrk)
    (haddr : h.memMaxAddr < 2 ^ 32) (h0 : h.memBrk ≠ 0) (hroom : h.memBrk + 4112 ≤ h.memMaxAddr) :
    ∃ h', mmInit h = (0, h') ∧ h'.Layout (Shape.init h.memStartBrk).blocks ∧
      h'.memStartBrk = h.memStartBrk ∧ h'.memBrk = h.memStartBrk + 4112 ∧
      h'.memMaxAddr = h.memMaxAddr := by
  have hsbrk : h.memSbrk (4 * wsize) = if 16 < 2 ^ 31 ∧ h.memBrk + 16 ≤ h.memMaxAddr then
      (h.memBrk, { h with memBrk := h.memBrk + 16 }) else (sbrkFailed, h) :=
    h.memSbrk_toInt (show 16 < 2 ^ 32 by decide)
  rw [if_pos ⟨by decide, by omega⟩] at hsbrk
  obtain ⟨words, hwords⟩ : ∃ words, chunksize / wsize = words := ⟨_, rfl⟩
  have h1024 : words = 1024 := hwords.symm
  obtain ⟨g, hg⟩ : ∃ g : Heap, g = { h with memBrk := h.memBrk + 16 } := ⟨_, rfl⟩
  rw [← hg] at hsbrk
  have hgbrk : g.memBrk = h.memBrk + 16 := by rw [hg]
  have hgstart : g.memStartBrk = h.memStartBrk := by rw [hg]
  have hgmax : g.memMaxAddr = h.memMaxAddr := by rw [hg]
  have hempty := Heap.initWords_wellFormed (g := g) (p := h.memBrk) (by rw [hgstart, hbrk])
    (hbrk ▸ hstart) hgbrk (by omega) (by omega)
  obtain ⟨e₁, e₂, e₃, -, -⟩ := g.initWords_vars h.memBrk
  have hl := hempty.layout.setFreeListp g.freeListp
  obtain ⟨gi, hgi⟩ : ∃ gi, gi = (g.initWords h.memBrk).setFreeListp g.freeListp := ⟨_, rfl⟩
  have hframe := Heap.SameFrame.setFreeListp (g.initWords h.memBrk) g.freeListp
  rw [← hgi] at hl hframe
  have hgi₁ : gi.memStartBrk = h.memStartBrk := hframe.memStartBrk.trans (e₁.trans hgstart)
  have hgi₂ : gi.memBrk = h.memBrk + 16 := hframe.memBrk.trans (e₂.trans hgbrk)
  have hgi₃ : gi.memMaxAddr = h.memMaxAddr := hframe.memMaxAddr.trans (e₃.trans hgmax)
  obtain ⟨hr, hlay, hsame⟩ := extendHeap_layout hl (show words % 2 = 0 by omega) (by omega)
    ⟨by omega, by omega⟩ []
  have hinit : Shape.extend ⟨[], []⟩ gi.memBrk (words * 4) =
      (h.memStartBrk + 16, Shape.init h.memStartBrk) := by
    rw [hgi₂, hbrk, h1024]
    rfl
  rw [hinit] at hr hlay
  have hret : (extendHeap gi words).1 = h.memStartBrk + 16 := hr
  have hext : extendHeap ((g.initWords h.memBrk).setFreeListp g.freeListp) words =
      (h.memStartBrk + 16, (extendHeap gi words).2) := by
    rw [← hgi]
    exact Prod.ext hret rfl
  have hcode := mmInit_eq hsbrk h0 hwords hext
  rw [if_neg (by omega)] at hcode
  refine ⟨_, hcode, hlay, hsame.memStartBrk.trans hgi₁, hsame.memBrk.trans ?_,
    hsame.memMaxAddr.trans hgi₃⟩
  show gi.memBrk + words * 4 = h.memStartBrk + 4112
  omega

/-- An odd number of words is rounded up. -/
theorem Heap.extendHeap_odd (h : Heap) (hodd : words % 2 = 1) :
    h.extendHeap words = h.extendHeap (words + 1) := by
  rw [Heap.extendHeap, Heap.extendHeap, if_pos (by omega), if_neg (by omega)]

/-- An odd number of words is rounded up here too. -/
theorem Firstfit.extendHeap_odd (h : Heap) (hodd : words % 2 = 1) :
    extendHeap h words = extendHeap h (words + 1) := by
  rw [extendHeap, extendHeap, if_pos (by omega), if_neg (by omega)]

end

/-! ## The two allocators -/

/-- The heap `h` of `mm.c` is well formed with the blocks of `s`, and the heap `g` of
`mm-firstfit.c` has these blocks and the same break. -/
structure Agree (h g : Heap) (s : Shape) : Prop where
  explicit : h.Has s
  implicit : g.Layout s.blocks
  start : g.memStartBrk = h.memStartBrk
  brk : g.memBrk = h.memBrk
  limit : g.memMaxAddr = h.memMaxAddr

/-- The break is the same in both heaps, and so are the header and the footer of every block. -/
def SameTags (h g : Heap) (bs : List Block) : Prop :=
  g.memBrk = h.memBrk ∧ ∀ b ∈ bs, g.get (hdrp b.bp) = h.get (hdrp b.bp) ∧
    g.get (g.ftrp b.bp) = h.get (h.ftrp b.bp)

section
variable {h g h' g' : Heap} {s t : Shape} {b : Block} {asize words size : Nat}

/-- The two heaps of an `Agree` have the same tags and the same break. -/
theorem Agree.same (A : Agree h g s) : SameTags h g s.blocks := by
  refine ⟨A.brk, fun b hb => ?_⟩
  have hl := A.explicit.layout
  have h4 : 4 ≤ b.bp := by have := (hl.bounds hb).lo; omega
  rw [hl.ftrp hb, A.implicit.ftrp hb, hdrp_eq h4, (hl.tags b hb).header, (hl.tags b hb).footer,
    (A.implicit.tags b hb).header, (A.implicit.tags b hb).footer]
  exact ⟨rfl, rfl⟩

/-- Heaps that an operation leaves with one shape agree. -/
theorem Agree.next (A : Agree h g s) {brk : Nat} (hh : Heap.SameFrame { h with memBrk := brk } h')
    (hg : Heap.SameFrame { g with memBrk := brk } g') (H : h'.Has t) (L : g'.Layout t.blocks) :
    Agree h' g' t :=
  ⟨H, L, hg.memStartBrk.trans (A.start.trans hh.memStartBrk.symm), hg.memBrk.trans hh.memBrk.symm,
    hg.memMaxAddr.trans (A.limit.trans hh.memMaxAddr.symm)⟩

/-- The break stays where it is. -/
theorem Agree.stay (A : Agree h g s) (hh : h.SameFrame h') (hg : g.SameFrame g') (H : h'.Has t)
    (L : g'.Layout t.blocks) : Agree h' g' t :=
  A.next hh (by rw [← A.brk]; exact hg) H L

/-- On the same storage the two allocators begin with heaps that agree. -/
theorem Agree.init {h₀ g₀ : Heap} (hstart : h₀.memStartBrk % 8 = 0) (haddr : h₀.memMaxAddr < 2 ^ 32)
    (hs : g₀.memStartBrk = h₀.memStartBrk) (hm : g₀.memMaxAddr = h₀.memMaxAddr)
    (hi : h₀.memResetBrk.mmInit = (0, h)) :
    ∃ g, Firstfit.mmInit g₀.memResetBrk = (0, g) ∧ Agree h g (.init h₀.memStartBrk) := by
  rcases Heap.mmInit_cases (h := h₀.memResetBrk) hstart rfl haddr with
    ⟨-, hfail⟩ | ⟨⟨h0, hroom⟩, -⟩
  · rw [hi] at hfail
    cases hfail
  · have h0' : g₀.memResetBrk.memBrk ≠ 0 := fun he => h0 (hs.symm.trans he)
    have hroom' : g₀.memResetBrk.memBrk + 4112 ≤ g₀.memResetBrk.memMaxAddr := by
      show g₀.memStartBrk + 4112 ≤ g₀.memMaxAddr
      rw [hs, hm]
      exact hroom
    obtain ⟨hhas, hmax, hbrk, hst⟩ := Heap.mmInit_has (h := h₀.memResetBrk) hstart rfl haddr hi
    obtain ⟨g, hg, hlay, hgst, hgbrk, hgmax⟩ := Firstfit.mmInit_layout (h := g₀.memResetBrk)
      (hs ▸ hstart) rfl (hm ▸ haddr) h0' hroom'
    have hs' : g₀.memResetBrk.memStartBrk = h₀.memResetBrk.memStartBrk := hs
    rw [hs'] at hlay hgst hgbrk
    exact ⟨g, hg, hhas, hlay, hgst.trans hst.symm, hgbrk.trans hbrk.symm,
      hgmax.trans (hm.trans hmax.symm)⟩

/-- `mm_free` -/
theorem Agree.mmFree (A : Agree h g s) (hb : b ∈ s.blocks) (ha : b.alloc = true) :
    Agree (h.mmFree b.bp) (Firstfit.mmFree g b.bp) (s.free b.bp) := by
  obtain ⟨blocks, list⟩ := s
  obtain ⟨pre, post, rfl⟩ := List.append_of_mem hb
  obtain ⟨hlay, hsame⟩ := Firstfit.mmFree_layout A.implicit list
  exact A.stay (.mmFree h b.bp) hsame (A.explicit.mmFree hb ha) (A.explicit.free_eq ▸ hlay)

/-- The remainder of a free block has no free neighbour, so coalescing it joins nothing. -/
theorem Shape.coalesce_rest {pre post : List Block} (hm : Merged (pre ++ b :: post))
    (hb : b.alloc = false) (fl : List Nat) :
    (Shape.coalesce (pre ++ [b.head asize]) (b.rest asize) post fl).blocks =
      pre ++ b.head asize :: b.rest asize :: post := by
  obtain ⟨hpre, hbpost⟩ := hm.of_append
  have hpost : Merged post := (List.isChain_cons.1 hbpost).2
  have hhead : Merged (pre ++ [b.head asize]) :=
    merged_insert hpre .nil (fun _ _ => .inr rfl) fun _ _ => .inl rfl
  have hall : Merged ((pre ++ [b.head asize]) ++ b.rest asize :: post) := by
    refine merged_insert hhead hpost (fun p hp => .inl ?_) fun n hn => .inr (hbpost.after hb n hn)
    rw [List.getLast?_concat] at hp
    cases hp
    rfl
  rw [Shape.coalesce_blocks rfl hhead hpost, merge_of_merged hall, List.append_assoc]
  rfl

/-- `place` -/
theorem Agree.place (A : Agree h g s) (hb : b ∈ s.blocks) (ha : b.alloc = false)
    (hmod : asize % 8 = 0) (hmin : 16 ≤ asize) (hle : asize ≤ b.size) :
    Agree (h.place b.bp asize) (Firstfit.place g b.bp asize) (s.place b.bp asize) := by
  refine A.stay (.place h b.bp asize) (Firstfit.sameFrame_place g b.bp asize)
    (A.explicit.place hb ha hmod hmin hle) ?_
  obtain ⟨blocks, list⟩ := s
  obtain ⟨pre, post, rfl⟩ := List.append_of_mem hb
  rw [Shape.place, A.explicit.locate]
  dsimp only
  split
  · next hs =>
    rw [Shape.coalesce_rest A.explicit.merged ha]
    exact Firstfit.place_split A.implicit hmod hmin hs
  · next hs => exact Firstfit.place_all A.implicit hle hs

/-- `find_fit` -/
theorem Agree.findFit (A : Agree h g s) (asize : Nat) : ∃ p q, h.findFit asize = some p ∧
    Firstfit.findFit g asize = some q ∧ (p = 0 ↔ q = 0) := by
  obtain ⟨p, hp, hfit⟩ := Heap.WellFormed.findFit A.explicit asize
  obtain ⟨q, hq, hno⟩ := Firstfit.findFit_spec A.implicit asize
  refine ⟨p, q, hp, hq, ?_⟩
  rw [hno]
  rcases hfit with ⟨h0, hall⟩ | ⟨h0, b, hb, -, hfree, hle⟩
  · exact iff_of_true h0 hall
  · exact iff_of_false h0 fun hall => Nat.not_lt.2 hle (hall b hb hfree)

/-- `extend_heap` with an even number of words: the same failure, or the same growth. -/
theorem Agree.extendHeap_even (A : Agree h g s) (heven : words % 2 = 0) (hmin : 4 ≤ words)
    (hlt : words * 4 < 2 ^ 32) :
    h.extendHeap words = (0, h) ∧ Firstfit.extendHeap g words = (0, g) ∨
      ∃ t, ∃ u ∈ t.blocks, u.bp ≠ 0 ∧ u.alloc = false ∧ words * 4 ≤ u.size ∧
        (h.extendHeap words).1 = u.bp ∧ (Firstfit.extendHeap g words).1 = u.bp ∧
        Agree (h.extendHeap words).2 (Firstfit.extendHeap g words).2 t := by
  by_cases hroom : words * 4 < 2 ^ 31 ∧ h.memBrk + words * 4 ≤ h.memMaxAddr
  · have hroom' : words * 4 < 2 ^ 31 ∧ g.memBrk + words * 4 ≤ g.memMaxAddr := by
      rwa [A.brk, A.limit]
    obtain ⟨hp, hsame, hhas⟩ := A.explicit.extendHeap heven hmin hroom
    obtain ⟨hq, hlay, hsame'⟩ := Firstfit.extendHeap_layout A.implicit heven hmin hroom' s.list
    rw [A.brk] at hq hlay hsame'
    obtain ⟨u, hu, hubp, hfree, hsize⟩ := s.mem_extend h.memBrk (words * 4)
    exact .inr ⟨_, u, hu, Linked.ne_null hhas.links _ (hhas.mem_list hu hfree), hfree, hsize,
      hp.trans hubp.symm, hq.trans hubp.symm, A.next hsame hsame' hhas hlay⟩
  · refine .inl ⟨h.extendHeap_fail heven hlt hroom, Firstfit.extendHeap_fail g heven hlt ?_⟩
    rwa [A.brk, A.limit]

/-- `extend_heap` -/
theorem Agree.extendHeap (A : Agree h g s) (hmin : 1024 ≤ words) (hmax : words ≤ 2 ^ 29 + 2) :
    ∃ t, (Firstfit.extendHeap g words).1 = (h.extendHeap words).1 ∧
      Agree (h.extendHeap words).2 (Firstfit.extendHeap g words).2 t := by
  have heven : ∀ n, n % 2 = 0 → 1024 ≤ n → n ≤ 2 ^ 29 + 2 →
      ∃ t, (Firstfit.extendHeap g n).1 = (h.extendHeap n).1 ∧
        Agree (h.extendHeap n).2 (Firstfit.extendHeap g n).2 t := by
    intro n hn h1 h2
    rcases A.extendHeap_even hn (by omega) (by omega) with ⟨e, e'⟩ | ⟨t, u, -, -, -, -, hp, hq, A'⟩
    · rw [e, e']
      exact ⟨s, rfl, A⟩
    · exact ⟨t, hq.trans hp.symm, A'⟩
  rcases Nat.mod_two_eq_zero_or_one words with hn | hn
  · exact heven words hn hmin hmax
  · rw [h.extendHeap_odd hn, Firstfit.extendHeap_odd g hn]
    exact heven (words + 1) (by omega) (by omega) (by omega)

/-- `mm_malloc`: both fail or neither does, and the break is the same. -/
theorem Agree.mmMalloc (A : Agree h g s) (hlt : size < 2 ^ 31) : ∃ p h' q g',
    h.mmMalloc size = some (p, h') ∧ Firstfit.mmMalloc g size = some (q, g') ∧
      (p = 0 ↔ q = 0) ∧ g'.memBrk = h'.memBrk := by
  by_cases h0 : size = 0
  · rw [Heap.mmMalloc, Firstfit.mmMalloc, if_pos h0, if_pos h0]
    exact ⟨0, h, 0, g, rfl, rfl, Iff.rfl, A.brk⟩
  obtain ⟨hmod, hmin, -, hmax⟩ := adjust_spec (show size + 15 < 2 ^ 32 by omega)
  obtain ⟨p, q, hp, hq, hpq⟩ := A.findFit (adjust size)
  obtain ⟨words, hwords, hw4, heven, hlarge⟩ := extend_words hmod
  have hchunk : chunksize = 4096 := rfl
  simp only [Heap.mmMalloc, Firstfit.mmMalloc, if_neg h0, hp, hq, Option.map_some, hwords]
  by_cases hp0 : p = 0
  · rw [if_neg (not_not.2 hp0), if_neg (not_not.2 (hpq.1 hp0))]
    rcases A.extendHeap_even heven (by omega) (by omega) with
      ⟨e, e'⟩ | ⟨t, u, hu, hu0, hfree, hsize, e, e', A'⟩
    · rw [e, e', if_pos rfl, if_pos rfl]
      exact ⟨0, h, 0, g, rfl, rfl, Iff.rfl, A.brk⟩
    · rw [e, e', if_neg hu0, if_neg hu0]
      have A'' := A'.place hu hfree hmod hmin (by omega)
      exact ⟨_, _, _, _, rfl, rfl, Iff.rfl, A''.brk⟩
  · rw [if_pos hp0, if_pos fun h => hp0 (hpq.2 h)]
    have hbrk := (Heap.SameFrame.place h p (adjust size)).memBrk
    exact ⟨_, _, _, _, rfl, rfl, hpq,
      (Firstfit.sameFrame_place ..).memBrk.trans (A.brk.trans hbrk.symm)⟩

/-- **The explicit list refines the baseline.** From heaps with the same blocks and break, every
operation leaves heaps with the same blocks, tags and break; a search fails in one heap exactly when
it does in the other, and an allocation moves the break of both alike. -/
theorem firstfit_agrees (A : Agree h g s) :
    (∀ b ∈ s.blocks, b.alloc = true →
      ∃ t, Agree (h.mmFree b.bp) (Firstfit.mmFree g b.bp) t ∧
        SameTags (h.mmFree b.bp) (Firstfit.mmFree g b.bp) t.blocks) ∧
    (∀ words, 1024 ≤ words → words ≤ 2 ^ 29 + 2 →
      ∃ t, (Firstfit.extendHeap g words).1 = (h.extendHeap words).1 ∧
        Agree (h.extendHeap words).2 (Firstfit.extendHeap g words).2 t ∧
        SameTags (h.extendHeap words).2 (Firstfit.extendHeap g words).2 t.blocks) ∧
    (∀ b ∈ s.blocks, b.alloc = false → ∀ asize, asize % 8 = 0 → 16 ≤ asize → asize ≤ b.size →
      ∃ t, Agree (h.place b.bp asize) (Firstfit.place g b.bp asize) t ∧
        SameTags (h.place b.bp asize) (Firstfit.place g b.bp asize) t.blocks) ∧
    (∀ asize, ∃ p q, h.findFit asize = some p ∧ Firstfit.findFit g asize = some q ∧
      (p = 0 ↔ q = 0)) ∧
    ∀ size < 2 ^ 31, ∃ p h' q g', h.mmMalloc size = some (p, h') ∧
      Firstfit.mmMalloc g size = some (q, g') ∧ (p = 0 ↔ q = 0) ∧ g'.memBrk = h'.memBrk := by
  refine ⟨fun b hb ha => ?_, fun words hmin hmax => ?_, fun b hb ha asize hmod hmin hle => ?_,
    A.findFit, fun _ => A.mmMalloc⟩
  · have A' := A.mmFree hb ha
    exact ⟨_, A', A'.same⟩
  · obtain ⟨t, hret, A'⟩ := A.extendHeap hmin hmax
    exact ⟨t, hret, A', A'.same⟩
  · have A' := A.place hb ha hmod hmin hle
    exact ⟨_, A', A'.same⟩

/-- After the two `mm_init` on zeroed storage at address 8, both allocators search a block of 5000
bytes in vain, and extend the heap alike. -/
theorem firstfit_agrees_init : ∃ h g, (memInit (fun _ => 0) 8).memResetBrk.mmInit = (0, h) ∧
    Firstfit.mmInit (memInit (fun _ => 0) 8).memResetBrk = (0, g) ∧
    (∃ t, (Firstfit.extendHeap g 1250).1 = (h.extendHeap 1250).1 ∧
      Agree (h.extendHeap 1250).2 (Firstfit.extendHeap g 1250).2 t ∧
      SameTags (h.extendHeap 1250).2 (Firstfit.extendHeap g 1250).2 t.blocks) ∧
    ∃ p q, h.findFit 5000 = some p ∧ Firstfit.findFit g 5000 = some q ∧ (p = 0 ↔ q = 0) := by
  have hstart : (memInit (fun _ => 0) 8).memStartBrk % 8 = 0 := rfl
  have haddr : (memInit (fun _ => 0) 8).memMaxAddr < 2 ^ 32 := by decide
  obtain ⟨h, hi⟩ := memInit_zero
  obtain ⟨g, hg, A⟩ := Agree.init hstart haddr rfl rfl hi
  obtain ⟨-, hext, -, hfit, -⟩ := firstfit_agrees A
  exact ⟨h, g, hi, hg, hext 1250 (by decide) (by decide), hfit 5000⟩

end

end Malloc
