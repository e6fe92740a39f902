import Styrikerfi.Malloc.Order

/-!
# What a call of `mm_malloc` comes to

A call of `mm_malloc` is served from a free block, served from a heap that grows, or refused
(`Heap.Allocation`). A block that was taken from the free list goes back to where it was: split or
not, `mm_free` gives the layout of before (`Heap.Has.place_free`), and so does the pair of calls.
When the heap grew, the pair leaves the growth behind, joined with the free blocks that the heap
ended in (`malloc_free`). A call is refused exactly when no free block is large enough and the break
cannot move, and then nothing has changed (`malloc_null_iff`).
-/

namespace Malloc

open Machine32 Tiling LinkedList

/-- The layout `bs'` is `bs` with the free blocks at its end, and the area from the break `brk` to
the break `brk'`, made one free block. -/
def GrownAtEnd (bs bs' : List Block) (brk brk' : Nat) : Prop :=
  ∃ pre run, bs = pre ++ run ∧ (∀ c ∈ run, c.alloc = false) ∧
    (∀ p ∈ pre.getLast?, p.alloc = true) ∧
    let start := (run.head?.map Block.bp).getD brk
    bs' = pre ++ [⟨start, brk' - start, false⟩]

section
variable {h : Heap} {s : Shape} {bs pre post : List Block} {b : Block} {fl : List Nat}
  {asize brk n size : Nat}

/-! ## Allocating and freeing -/

/-- A free block that is split in two makes itself again. -/
theorem Block.union_split (hb : b.alloc = false) (hn : n ≤ b.size) :
    Block.union [(b.head n).freed, b.rest n] = b := by
  obtain ⟨p, size, alloc⟩ := b
  obtain rfl : alloc = false := hb
  have hsum : n + (size - n) = size := Nat.add_sub_cancel' hn
  simp [Block.union, Block.head, Block.rest, Block.freed, hsum]

/-- The blocks after `place` on a free block. -/
theorem Heap.Has.place_blocks (H : h.Has ⟨pre ++ b :: post, fl⟩) (hb : b.alloc = false)
    (asize : Nat) : (Shape.place ⟨pre ++ b :: post, fl⟩ b.bp asize).blocks =
      if asize + 16 ≤ b.size then pre ++ b.head asize :: b.rest asize :: post
      else pre ++ ⟨b.bp, b.size, true⟩ :: post := by
  have hm := H.merged.of_append
  have hpost := (List.isChain_cons.1 hm.2).2
  rw [Shape.place, H.locate]
  dsimp only
  split
  · have hright : Merged (b.rest asize :: post) :=
      List.isChain_cons.2 ⟨fun c hc => .inr (hm.2.after hb c hc), hpost⟩
    have hleft : Merged (pre ++ [b.head asize]) :=
      merged_insert hm.1 .nil (fun _ _ => .inr rfl) fun _ hc => by cases hc
    have hall : Merged (pre ++ b.head asize :: b.rest asize :: post) :=
      merged_insert hm.1 hright (fun _ _ => .inr rfl) fun _ _ => .inl rfl
    rw [Shape.coalesce_blocks rfl hleft hpost, List.append_assoc, List.singleton_append,
      merge_of_merged hall]
  · rfl

/-- The blocks after `place` begin, where `b` was, with an allocated block whose end of use gives
the blocks of before. -/
theorem Heap.Has.place_taken (H : h.Has ⟨pre ++ b :: post, fl⟩) (hb : b.alloc = false)
    (hle : asize ≤ b.size) : ∃ a rest, a.bp = b.bp ∧ a.alloc = true ∧
      (Shape.place ⟨pre ++ b :: post, fl⟩ b.bp asize).blocks = pre ++ a :: rest ∧
      merge (pre ++ a.freed :: rest) = pre ++ b :: post := by
  have hself : merge (pre ++ b :: post) = pre ++ b :: post := merge_of_merged H.merged
  have hblocks := H.place_blocks hb asize
  split at hblocks
  · have hfree : ∀ c ∈ [(b.head asize).freed, b.rest asize], c.alloc = false := by
      simp [Block.freed, Block.rest]
    have hjoin : merge (pre ++ [(b.head asize).freed, b.rest asize] ++ post) = _ :=
      merge_union (List.cons_ne_nil _ _) hfree
    rw [Block.union_split hb hle, hself, List.append_assoc] at hjoin
    exact ⟨b.head asize, b.rest asize :: post, rfl, rfl, hblocks, hjoin⟩
  · have hfreed : Block.freed ⟨b.bp, b.size, true⟩ = b := by
      obtain ⟨p, size, alloc⟩ := b
      obtain rfl : alloc = false := hb
      rfl
    exact ⟨⟨b.bp, b.size, true⟩, post, rfl, rfl, hblocks, by rw [hfreed, hself]⟩

/-- **`mm_free` undoes `place`.** -/
theorem Heap.Has.place_free (H : h.Has s) (hb : b ∈ s.blocks) (ha : b.alloc = false)
    (hmod : asize % 8 = 0) (hmin : 16 ≤ asize) (hle : asize ≤ b.size) :
    ∃ t, ((h.place b.bp asize).mmFree b.bp).Has t ∧ t.blocks = s.blocks := by
  have hP := H.place hb ha hmod hmin hle
  obtain ⟨blocks, list⟩ := s
  obtain ⟨pre, post, rfl⟩ := List.append_of_mem hb
  obtain ⟨a, rest, hab, haa, hblocks, hmerge⟩ := Heap.Has.place_taken H ha hle
  generalize Shape.place ⟨pre ++ b :: post, list⟩ b.bp asize = t at hP hblocks
  obtain ⟨blocks', list'⟩ := t
  obtain rfl : blocks' = pre ++ a :: rest := hblocks
  have ham : a ∈ pre ++ a :: rest := by simp
  have hF := hP.mmFree ham haa
  have hfree := hP.free_blocks ham
  rw [(Heap.WellFormed.layout hP).mark_one, hmerge] at hfree
  rw [hab] at hF hfree
  exact ⟨_, hF, hfree⟩

/-- The canonical form of a layout with a free area after it. -/
theorem merge_grown {a : Nat} (ht : Tiles Block.bp Block.size a bs brk) (hm : Merged bs) (n : Nat) :
    GrownAtEnd bs (merge (bs ++ [⟨brk, n, false⟩])) brk (brk + n) := by
  obtain ⟨c, hc⟩ : ∃ c : Block, c = ⟨brk, n, false⟩ := ⟨_, rfl⟩
  obtain ⟨pre, hpre⟩ : ∃ pre, pre = bs.take (bs.length - (freeLast bs).length) := ⟨_, rfl⟩
  have hbs : bs = pre ++ freeLast bs := by rw [hpre, take_freeLast]
  have hlast : ∀ p ∈ pre.getLast?, p.alloc = true := hpre ▸ take_freeLast_alloc hm
  refine ⟨pre, freeLast bs, hbs, fun d hd => freeLast_free hd, hlast, ?_⟩
  rw [← hc]
  have hfree : ∀ d ∈ freeLast bs ++ [c], d.alloc = false := by
    intro d hd
    rcases List.mem_append.1 hd with hd | hd
    · exact freeLast_free hd
    · rw [List.mem_singleton.1 hd, hc]
  have hmpre : Merged pre := by
    rw [hbs] at hm
    exact hm.of_append.1
  have hmerge : merge (bs ++ [c]) = pre ++ [Block.union (freeLast bs ++ [c])] := by
    have hjoin : merge (pre ++ (freeLast bs ++ [c]) ++ []) = _ := merge_union (by simp) hfree
    rw [List.append_nil, ← List.append_assoc, ← hbs] at hjoin
    rw [hjoin]
    exact merge_of_merged (merged_insert hmpre .nil (fun p hp => .inl (hlast p hp))
      fun _ hn => by cases hn)
  -- the union ends at the new break
  obtain ⟨hstart, hend⟩ : (Block.union (freeLast bs ++ [c])).bp =
      ((freeLast bs).head?.map Block.bp).getD brk ∧
      brk + n =
        (Block.union (freeLast bs ++ [c])).bp + (Block.union (freeLast bs ++ [c])).size := by
    rw [hbs] at ht
    obtain ⟨m, -, ht⟩ := Tiles.append.1 ht
    have hc' : Tiles Block.bp Block.size brk [c] (brk + n) := by rw [hc]; exact ⟨rfl, rfl⟩
    refine ⟨?_, (Block.union_extent (Tiles.append.2 ⟨brk, ht, hc'⟩)).2⟩
    cases freeLast bs with
    | nil => rw [hc]; rfl
    | cons d l => rfl
  dsimp only
  rw [hmerge, ← hstart, hend, Nat.add_sub_cancel_left]
  rfl

/-- **The pair of calls.** Where `find_fit` finds a block, blocks, break and listed blocks are as
before; where the heap grows, only its end has changed. -/
theorem Heap.WellFormed.malloc_free (H : h.WellFormed bs fl) (h1 : 1 ≤ size) (hlt : size < 2 ^ 31) :
    ∃ p h', h.mmMalloc size = some (p, h') ∧
      (∀ r, h.findFit (adjust size) = some r → r ≠ 0 → p = r ∧ ∃ fl',
        (h'.mmFree p).WellFormed bs fl' ∧ fl'.Perm fl ∧ (h'.mmFree p).memBrk = h.memBrk) ∧
      (h.findFit (adjust size) = some 0 → p ≠ 0 → ∃ bs' fl',
        (h'.mmFree p).WellFormed bs' fl' ∧
        (h'.mmFree p).memBrk = h.memBrk + max (adjust size) chunksize ∧
        GrownAtEnd bs bs' h.memBrk (h'.mmFree p).memBrk) := by
  have hhas : h.Has ⟨bs, fl⟩ := H
  obtain ⟨hmod, hmin, -, -⟩ := adjust_spec (show size + 15 < 2 ^ 32 by omega)
  obtain ⟨⟨p, h'⟩, hr, hcase⟩ := hhas.mmMalloc_cases (show size ≠ 0 by omega) hlt
  refine ⟨p, h', hr, ?_⟩
  have hbrk := (Heap.SameFrame.mmFree h' p).memBrk
  cases hcase with
  | fits hb hfree hle hfit h0 =>
    obtain ⟨⟨bs', fl'⟩, hwf, hblocks⟩ := hhas.place_free hb hfree hmod hmin hle
    obtain rfl : bs' = bs := hblocks
    refine ⟨fun r hfit' _ => ?_, fun hnull => absurd (Option.some.inj (hfit.symm.trans hnull)) h0⟩
    exact ⟨Option.some.inj (hfit.symm.trans hfit'), fl', hwf,
      (Heap.WellFormed.listed hwf).trans H.listed.symm,
      hbrk.trans (Heap.SameFrame.place ..).memBrk⟩
  | grows hnone hfit hroom hg hframe hu hubp hfree hle h0 =>
    refine ⟨fun r hfit' hr0 => absurd (Option.some.inj (hfit'.symm.trans hfit)) hr0, fun _ _ => ?_⟩
    obtain ⟨⟨bs', fl'⟩, hwf, hblocks⟩ := hg.place_free hu hfree hmod hmin hle
    have hbs' : bs' = merge (bs ++ [⟨h.memBrk, max (adjust size) chunksize, false⟩]) :=
      hblocks.trans (Shape.coalesce_blocks rfl H.merged .nil fl)
    have hbrk' := hbrk.trans ((Heap.SameFrame.place ..).memBrk.trans hframe.memBrk)
    refine ⟨bs', fl', hwf, hbrk', ?_⟩
    rw [hbrk', hbs']
    exact merge_grown H.layout.tiles H.merged _
  | refused _ hfit =>
    refine ⟨fun r hfit' hr0 => absurd ?_ hr0, fun _ h0 => absurd rfl h0⟩
    exact Option.some.inj (hfit'.symm.trans hfit)

/-! ## Refusals -/

/-- A request is refused exactly when no free block is large enough and the break cannot move, and
then nothing has changed. -/
theorem Heap.WellFormed.malloc_null (H : h.WellFormed bs fl)
    (hmax : h.memMaxAddr = h.memStartBrk + maxHeap) (h1 : 1 ≤ size) (hlt : size < 2 ^ 31) :
    ∃ p h', h.mmMalloc size = some (p, h') ∧
      (p = 0 ↔ (∀ b ∈ bs, b.alloc = false → b.size < adjust size) ∧
        h.memMaxAddr < h.memBrk + max (adjust size) chunksize) ∧ (p = 0 → h' = h) := by
  have hhas : h.Has ⟨bs, fl⟩ := H
  obtain ⟨⟨p, h'⟩, hr, hcase⟩ := hhas.mmMalloc_cases (show size ≠ 0 by omega) hlt
  refine ⟨p, h', hr, ?_⟩
  cases hcase with
  | @fits b hb hfree hle hfit h0 =>
    refine ⟨iff_of_false h0 ?_, fun hp => absurd hp h0⟩
    rintro ⟨hnone, -⟩
    have := hnone b hb hfree
    omega
  | grows hnone hfit hroom hg hframe hu hubp hfree hle h0 =>
    exact ⟨iff_of_false h0 fun hfull => by omega, fun hp => absurd hp h0⟩
  | refused hnone _ hroom =>
    refine ⟨iff_of_true rfl ⟨hnone, ?_⟩, fun _ => rfl⟩
    -- what does not fit in an `int` does not fit in the simulated memory
    have hlo := H.layout.listp
    have hle := H.layout.le_brk
    have hmem : maxHeap = 20971520 := rfl
    omega

end

/-! ## Sessions -/

section
variable {h₀ h : Heap} {s s' : Session} {r : Request} {size : Nat}

/-- A request moves neither the heap nor its limit. -/
theorem Session.step_limits (I : ∃ bs fl, s.Inv bs fl) (hst : s.step r = some s') :
    s'.heap.memStartBrk = s.heap.memStartBrk ∧ s'.heap.memMaxAddr = s.heap.memMaxAddr := by
  obtain ⟨bs, fl, I⟩ := I
  have hhas : s.heap.Has ⟨bs, fl⟩ := I.wellFormed
  cases r with
  | malloc size =>
    rw [Session.step] at hst
    split at hst
    · next hlt =>
      obtain ⟨h', hm, hframe, -⟩ := hhas.mmMalloc hlt
      rw [hm, Option.map_some, Option.some.injEq] at hst
      rw [← hst]
      dsimp only
      split <;> exact ⟨hframe.memStartBrk, hframe.memMaxAddr⟩
    · cases hst
  | free bp =>
    rw [Session.step] at hst
    split at hst
    · cases hst
      have hframe := Heap.SameFrame.mmFree s.heap bp
      exact ⟨hframe.memStartBrk, hframe.memMaxAddr⟩
    · cases hst
  | write p v =>
    rw [Session.step] at hst
    split at hst
    · cases hst
      exact ⟨rfl, rfl⟩
    · cases hst

/-- **Freeing undoes an allocation.** In every state of a session, `mm_free(mm_malloc(size))` leaves
blocks, break and listed blocks as they were where `find_fit` finds a block; where the heap grows
instead, all but its end is as it was, and the free blocks before the old epilogue have become one
with the new area. -/
theorem session_malloc_free (hstart : h₀.memStartBrk % 8 = 0) (haddr : h₀.memMaxAddr < 2 ^ 32)
    (hi : h₀.memResetBrk.mmInit = (0, h)) (hr : Reachable Session.step ⟨h, []⟩ s) (h1 : 1 ≤ size)
    (hlt : size < 2 ^ 31) : ∃ bs fl p h', s.heap.Sound bs fl ∧
      s.heap.mmMalloc size = some (p, h') ∧
      (∀ r, s.heap.findFit (adjust size) = some r → r ≠ 0 → p = r ∧ ∃ fl',
        (h'.mmFree p).Sound bs fl' ∧ fl'.Perm fl ∧ (h'.mmFree p).memBrk = s.heap.memBrk) ∧
      (s.heap.findFit (adjust size) = some 0 → p ≠ 0 → ∃ bs' fl', (h'.mmFree p).Sound bs' fl' ∧
        (h'.mmFree p).memBrk = s.heap.memBrk + max (adjust size) chunksize ∧
        GrownAtEnd bs bs' s.heap.memBrk (h'.mmFree p).memBrk) := by
  obtain ⟨bs, fl, I⟩ := hr.invariant (I := fun s => ∃ bs fl, s.Inv bs fl)
    (Session.inv_init hstart haddr hi) Session.Inv.step
  obtain ⟨p, h', hm, hfits, hgrows⟩ := I.wellFormed.malloc_free h1 hlt
  refine ⟨bs, fl, p, h', I.wellFormed.sound, hm, fun r hfit h0 => ?_, fun hfit h0 => ?_⟩
  · obtain ⟨hp, fl', hwf, hperm, hbrk⟩ := hfits r hfit h0
    exact ⟨hp, fl', hwf.sound, hperm, hbrk⟩
  · obtain ⟨bs', fl', hwf, hbrk, hgrown⟩ := hgrows hfit h0
    exact ⟨bs', fl', hwf.sound, hbrk, hgrown⟩

/-- On the fresh heap 100 bytes are taken from the chunk at 24, and given back. -/
theorem session_malloc_free_fits : ∃ h p h', (memInit (fun _ => 0) 8).memResetBrk.mmInit = (0, h) ∧
    h.mmMalloc 100 = some (p, h') ∧ ∃ bs fl', (h'.mmFree p).Sound bs fl' ∧
      (h'.mmFree p).memBrk = h.memBrk := by
  obtain ⟨h, hi⟩ := memInit_zero
  obtain ⟨bs, fl, p, h', -, hm, hfits, -⟩ := session_malloc_free rfl (by decide) hi .start
    (show 1 ≤ 100 by decide) (by decide)
  have hhas : h.Has (.init 8) := (Session.follows_init rfl (by decide) hi).inv.wellFormed
  obtain ⟨-, fl', hs, -, hbrk⟩ := hfits _ (hhas.findFit _) (by decide)
  exact ⟨h, p, h', hi, hm, bs, fl', hs, hbrk⟩

/-- **Out of memory.** In every state of a session, `mm_malloc(size)` returns `NULL` exactly when no
free block met on the way from the prologue to the epilogue has the rounded size, and the break plus
that size, or `CHUNKSIZE` if it is more, exceeds the limit; and then the heap is unchanged. -/
theorem malloc_null_iff (hstart : h₀.memStartBrk % 8 = 0)
    (hmax : h₀.memMaxAddr = h₀.memStartBrk + maxHeap) (haddr : h₀.memMaxAddr < 2 ^ 32)
    (hi : h₀.memResetBrk.mmInit = (0, h)) (hr : Reachable Session.step ⟨h, []⟩ s) (h1 : 1 ≤ size)
    (hlt : size < 2 ^ 31) : ∃ bs p h', s.heap.Walk s.heap.heapListp bs s.heap.memBrk ∧
      s.heap.mmMalloc size = some (p, h') ∧
      let asize := max minimum ((size + overhead + (dsize - 1)) / dsize * dsize)
      (p = 0 ↔ (∀ b ∈ bs, b.alloc = false → b.size < asize) ∧
        s.heap.memMaxAddr < s.heap.memBrk + max asize chunksize) ∧ (p = 0 → h' = s.heap) := by
  obtain ⟨⟨bs, fl, I⟩, hlim⟩ := hr.invariant
    (I := fun s => (∃ bs fl, s.Inv bs fl) ∧ s.heap.memMaxAddr = s.heap.memStartBrk + maxHeap)
    ⟨Session.inv_init hstart haddr hi, by
      obtain ⟨-, hm, -, hst⟩ := Heap.mmInit_has (h := h₀.memResetBrk) hstart rfl haddr hi
      rw [hst, hm]
      exact hmax⟩
    fun J hst => by
      obtain ⟨hs, hm⟩ := Session.step_limits J.1 hst
      exact ⟨Session.Inv.step J.1 hst, by rw [hs, hm]; exact J.2⟩
  obtain ⟨p, h', hm, hnull, hsame⟩ := I.wellFormed.malloc_null hlim h1 hlt
  refine ⟨s.heap.prologue :: bs, p, h', I.wellFormed.sound.walk, hm, ?_⟩
  rw [← adjust_eq (show size + 15 < 2 ^ 32 by omega)]
  refine ⟨hnull.trans (and_congr_left fun _ => ?_), hsame⟩
  -- the prologue is allocated
  rw [List.forall_mem_cons]
  exact (and_iff_right fun hp => by cases hp).symm

end

/-- Two blocks take all of the 20 MB: one more byte is refused. -/
theorem malloc_null_iff_full : ∃ h s, (memInit (fun _ => 0) 8).memResetBrk.mmInit = (0, h) ∧
    exec Session.step ⟨h, []⟩ [.malloc 4088, .malloc 20967400] = some s ∧
    s.heap.mmMalloc 1 = some (0, s.heap) ∧ s.heap.memMaxAddr < s.heap.memBrk + 4096 := by
  obtain ⟨h, s, hi, hs, H, hbrk, hmax⟩ := memInit_zero_full
  obtain ⟨bs, p, h', -, hm, hnull, hsame⟩ := malloc_null_iff rfl rfl (by decide) hi
    (Reachable.start.exec hs) (show 1 ≤ 1 by decide) (by decide)
  have hhas : s.heap.Has ⟨[⟨24, 4096, true⟩, ⟨4120, 20967408, true⟩], []⟩ := H
  obtain ⟨g, hg, -, -⟩ := hhas.mmMalloc (show 1 < 2 ^ 31 by decide)
  rw [hm, hbrk, hmax] at hg
  obtain rfl : p = 0 := (Prod.mk.inj (Option.some.inj hg)).1
  obtain rfl := hsame rfl
  exact ⟨h, s, hi, hs, hm, (hnull.1 rfl).2⟩

end Malloc
