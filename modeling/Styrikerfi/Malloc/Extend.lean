import Styrikerfi.Malloc.Realloc
import Styrikerfi.Malloc.Session

/-!
# Reallocation of the last block

When the block before the epilogue has to grow and nothing else fits, `mm_realloc` extends the heap
by `CHUNKSIZE` and makes the block larger inside the new area. What is left of the chunk becomes a
free block, whatever its size: the block grows as intended exactly when at least a minimum block is
left (`mmRealloc_extend_iff`). With a remainder of 8 bytes the links of the new free block
overwrite the epilogue. With no remainder the header of the remainder is the epilogue and its footer
is the footer of the grown block. With a negative remainder the grown block ends above the break.

After a bad remainder `coalesce` may follow words above the break, whatever they hold, so the
failing side rests on what any call of `coalesce` does last: it inserts its result, and that result
is its argument or is computed from the word before it (`Heap.coalesce_insert`).
-/

namespace Malloc

open Machine32 Tiling LinkedList

/-- The block at `ptr` has grown in a heap that is well formed again: it is allocated, has room for
`size` bytes and ends at or below the break, and no block is smaller than the minimum. -/
def Heap.Grown (ptr size : Nat) (o : Option Outcome) : Prop :=
  ∃ h bs fl a, o = some (.ret ptr h) ∧ h.WellFormed bs fl ∧ (∀ c ∈ bs, minimum ≤ c.size) ∧
    a ∈ bs ∧ a.bp = ptr ∧ a.alloc = true ∧ size + overhead ≤ a.size ∧ ptr + a.size ≤ h.memBrk

section
variable {h h' g : Heap} {bs pre : List Block} {a b c n : Block} {fl : List Nat}
  {size newsize ptr p : Nat}

/-! ## The operations on any heap -/

/-- `insert_block` puts the block at the head of the list. -/
theorem Heap.insertBlock_freeListp (g : Heap) (p : Nat) : (g.insertBlock p).freeListp = p := by
  unfold Heap.insertBlock
  split <;> rfl

/-- `insertBlock` writes the two links of its block and the back link of the old head. -/
theorem Heap.insertBlock_mem {q : Nat} (h1 : q < p ∨ p + 4 ≤ q)
    (h2 : q < wadd p wsize ∨ wadd p wsize + 4 ≤ q)
    (h3 : g.freeListp ≠ 0 → q < g.freeListp ∨ g.freeListp + 4 ≤ q) :
    (g.insertBlock p).mem q = g.mem q := by
  unfold Heap.insertBlock
  split
  · exact (Heap.mem_put_of_sep h2).trans (Heap.mem_put_of_sep h1)
  · next h0 =>
    exact (Heap.mem_put_of_sep h2).trans
      ((Heap.mem_put_of_sep h1).trans (Heap.mem_put_of_sep (h3 h0)))

/-- The old head comes after the inserted block. -/
theorem Heap.insertBlock_next (h0 : g.freeListp ≠ 0) (hlt : g.freeListp < 2 ^ 32) :
    (g.insertBlock p).next p = g.freeListp := by
  rw [Heap.insertBlock, if_neg h0]
  exact Heap.get_put _ _ hlt

/-- Inserting `NULL` clears the back link of the old head. -/
theorem Heap.insertBlock_null {q : Nat} (h0 : g.freeListp ≠ 0) (h8 : 8 ≤ q)
    (hlo : g.freeListp ≤ q) (hhi : q < g.freeListp + 4) : (g.insertBlock 0).mem q = 0 := by
  have hw : wadd 0 wsize = 4 := rfl
  rw [Heap.insertBlock, if_neg h0]
  refine (Heap.mem_put_of_sep (by omega)).trans ((Heap.mem_put_of_sep (by omega)).trans ?_)
  show Machine32.store g.mem g.freeListp 0 q = 0
  rw [Machine32.store, if_neg (by omega), if_pos hhi, Nat.zero_div]
  rfl

/-- The first byte of an odd word is not zero. -/
theorem Heap.mem_ne_zero {q : Nat} (hodd : h.get q % 2 = 1) : h.mem q ≠ 0 := by
  intro h0
  rw [Heap.get, load, h0] at hodd
  have : (0 : UInt8).toNat = 0 := rfl
  omega

/-- The block `free_listp` points to is a free block. -/
theorem Heap.WellFormed.head_free (H : h.WellFormed bs fl) (h0 : h.freeListp ≠ 0) :
    h.freeListp ∈ fl ∧ ∃ d ∈ bs, d.alloc = false ∧ d.bp = h.freeListp := by
  have hm : h.freeListp ∈ fl := by
    have hk := H.links
    cases fl with
    | nil => exact absurd hk h0
    | cons x fl => rw [hk.1]; exact List.mem_cons_self
  exact ⟨hm, H.mem_free _ hm⟩

/-- When the heap is well formed after an insertion, the insertion did not write to the footer of an
allocated last block: it wrote to links of listed blocks, or, where `NULL` was inserted, it cleared
four bytes in a row, which hit neither that footer nor the epilogue header after it. -/
theorem Heap.insertBlock_last_footer (H : (g.insertBlock p).WellFormed (pre ++ [a]) fl)
    (ha : a.alloc = true) : g.get (a.bp + a.size - 8) = a.word := by
  have hl := H.layout
  have ham : a ∈ pre ++ [a] := by simp
  have hB := hl.bounds ham
  have := hB.lo; have := hB.hi; have := hB.size; have := hB.brk
  rw [← (hl.tags a ham).footer]
  have htag : (g.insertBlock p).TagAddr (pre ++ [a]) (a.bp + a.size - 8) :=
    .inr (.inr (.inr ⟨a, ham, by omega⟩))
  refine (Heap.get_congr fun q h1 h2 => ?_).symm
  have hfp := g.insertBlock_freeListp p
  by_cases hp : p = 0
  · subst hp
    have hend : a.bp + a.size = (g.insertBlock 0).memBrk := hl.tiles.split.2
    have hfoot : (g.insertBlock 0).mem (a.bp + a.size - 8) ≠ 0 := Heap.mem_ne_zero (by
      rw [(hl.tags a ham).footer, Block.word_alloc hB.mod, ha]; rfl)
    have hepi : (g.insertBlock 0).mem (a.bp + a.size - 4) ≠ 0 := Heap.mem_ne_zero (by
      rw [hend, hl.epilogue, Block.word_alloc (show 0 % 8 = 0 from rfl)]; rfl)
    have hw : wadd 0 wsize = 4 := rfl
    refine Heap.insertBlock_mem (by omega) (by omega) fun h0 => ?_
    by_contra hin
    have hz : ∀ x, 8 ≤ x → g.freeListp ≤ x → x < g.freeListp + 4 → (g.insertBlock 0).mem x = 0 :=
      fun x => Heap.insertBlock_null h0
    by_cases hf : g.freeListp ≤ a.bp + a.size - 8
    · exact hfoot (hz _ (by omega) hf (by omega))
    · exact hepi (hz _ (by omega) (by omega) (by omega))
  · have hlist : ∀ x ∈ fl, a.bp + a.size - 8 + 4 ≤ x ∨ x + 8 ≤ a.bp + a.size - 8 := by
      intro x hx
      obtain ⟨d, hd, -, rfl⟩ := H.mem_free x hx
      exact hl.tag_apart htag hd
    have hpm : p ∈ fl := by
      have := (H.head_free (by rw [hfp]; exact hp)).1
      rwa [hfp] at this
    have := hlist p hpm
    have hlt := (hl.spaced H.listedIn).lt p hpm
    have hw : wadd p wsize = p + 4 := wadd_of_lt (show p + 4 < 2 ^ 32 by omega)
    refine Heap.insertBlock_mem (by omega) (by omega) fun h0 => ?_
    by_cases hf : g.freeListp < 2 ^ 32
    · have hnext := Heap.insertBlock_next (p := p) h0 hf
      have hfm : g.freeListp ∈ fl := by
        rw [← hnext] at h0 ⊢
        exact (Linked.next_mem H.links hpm).resolve_left h0
      have := hlist _ hfm
      omega
    · omega

/-! ## The extended heap -/

/-- The chunk the heap is extended by, as a free block. -/
def Heap.chunk (h : Heap) : Block := ⟨h.memBrk, chunksize, false⟩

/-- After a successful extension, the chunk follows the last block and is at the front of the free
list. -/
theorem Heap.WellFormed.extendHeap_last (H : h.WellFormed (pre ++ [b]) fl) (hb : b.alloc = true)
    (hext : (h.extendHeap (chunksize / wsize)).1 ≠ 0) :
    ∃ g, h.extendHeap (chunksize / wsize) = (h.chunk.bp, g) ∧
      g.WellFormed (pre ++ [b, h.chunk]) (h.chunk.bp :: fl) ∧ g.memBrk = h.memBrk + 4096 ∧
      ∀ q, h.memBrk + 4096 ≤ q → g.mem q = h.mem q := by
  obtain ⟨words, hwords⟩ : ∃ words, words = chunksize / wsize := ⟨_, rfl⟩
  have h1024 : words = 1024 := hwords
  rw [← hwords] at hext ⊢
  have hs : words * 4 < 2 ^ 31 ∧ h.memBrk + words * 4 ≤ h.memMaxAddr := by
    by_contra hs
    exact hext (by rw [h.extendHeap_fail (by omega) (by omega) hs])
  obtain ⟨n, hn⟩ : ∃ n, n = h.chunk := ⟨_, rfl⟩
  have hnbp : n.bp = h.memBrk := by rw [hn]; rfl
  have hnsize : n.size = words * 4 := by rw [hn, h1024]; rfl
  have hnfree : n.alloc = false := by rw [hn]; rfl
  obtain ⟨hloose, -⟩ := H.grow_loose hnbp (by omega) (by omega) hnfree (by omega)
  have hbefore : ((h.grow n).before (pre ++ [b])).alloc = true := by rw [Heap.before_concat, hb]
  obtain ⟨hr, C⟩ := hloose.coalesce_none hbefore rfl
  have hcode := H.extendHeap_eq (by omega) (by omega) hs hnbp hnsize hnfree
  have hbrk : ((h.grow n).coalesce n.bp).2.memBrk = h.memBrk + n.size := C.frame.memBrk
  have hwf := C.wellFormed
  have hlo := H.layout.le_brk; have hlp := H.layout.listp
  rw [hcode, ← hn]
  refine ⟨_, Prod.ext hr rfl, by simpa using hwf, hbrk.trans (by omega), fun q hq => ?_⟩
  refine (C.frame.mem q (by omega) fun x hx => ?_).trans ?_
  · obtain ⟨d, hd, -, rfl⟩ := H.mem_free x hx
    have := (H.layout.bounds hd).hi; have := (H.layout.bounds hd).size
    omega
  · exact (Heap.mem_put_of_sep (by omega)).trans ((Heap.mem_put_of_sep (by omega)).trans
      (Heap.mem_put_of_sep (by omega)))

/-! ## The grown block -/

/-- The block `b` grown to `newsize` bytes. -/
def Block.grown (b : Block) (newsize : Nat) : Block := ⟨b.bp, newsize, true⟩

/-- What is left of the chunk after a block, with the allocated tags it gets before it is freed. -/
def Block.leftover (b : Block) (newsize : Nat) : Block :=
  ⟨b.bp + newsize, chunksize - (newsize - b.size), true⟩

/-- The break does not move after the extension, whatever the sizes are. -/
theorem Heap.reallocExtend_frame {q copySize : Nat}
    (hext : h.extendHeap (chunksize / wsize) = (q, g)) (hq : q ≠ 0) :
    (h.reallocExtend ptr newsize copySize).1 = ptr ∧
      g.SameFrame (h.reallocExtend ptr newsize copySize).2 := by
  simp only [Heap.reallocExtend, hext, if_neg hq]
  exact ⟨trivial, (SameFrame.removeBlock ..).trans ((SameFrame.put ..).trans
    ((SameFrame.put ..).trans ((SameFrame.put ..).trans ((SameFrame.put ..).trans (.mmFree ..)))))⟩

/-- The extension branch for the last block: the heap is extended by the chunk, which leaves the
free list again, the block gets its new tags, and the `rest` bytes after it are tagged and freed. -/
theorem Heap.WellFormed.reallocExtend_eq (H : h.WellFormed (pre ++ [b]) fl) (hb : b.alloc = true)
    (hext : (h.extendHeap (chunksize / wsize)).1 ≠ 0) (hle : b.size ≤ newsize) {rest : Nat}
    (hrest : wsub chunksize (newsize - b.size) = rest) :
    ∃ g : Heap, h.extendHeap (chunksize / wsize) = (h.chunk.bp, g) ∧
      g.WellFormed (pre ++ [b, h.chunk]) (h.chunk.bp :: fl) ∧
      g.memBrk = h.memBrk + 4096 ∧ (∀ q, h.memBrk + 4096 ≤ q → g.mem q = h.mem q) ∧
      ∃ g₁ g₂ g₃ g₄ : Heap,
        h.reallocExtend b.bp newsize b.size = (b.bp, g₄.mmFree (g₄.nextBlkp b.bp)) ∧
        g₁ = (g.removeBlock h.chunk.bp).put (hdrp b.bp) (pack newsize 1) ∧
        g₂ = g₁.put (g₁.ftrp b.bp) (pack newsize 1) ∧
        g₃ = g₂.put (hdrp (g₂.nextBlkp b.bp)) (pack rest 1) ∧
        g₄ = g₃.put (g₃.ftrp (g₃.nextBlkp b.bp)) (pack rest 1) := by
  obtain ⟨g, hg, hwf, hbrk, habove⟩ := H.extendHeap_last hb hext
  rw [hg] at hext
  have hl := hwf.layout
  have hnm : h.chunk ∈ pre ++ [b, h.chunk] := by simp
  have hnb : h.chunk.bp = b.bp + b.size := hl.tiles.split.2.1
  have hnext : g.nextBlkp b.bp = h.chunk.bp := by rw [hl.nextBlkp (b := b) (by simp), hnb]
  have hgrow : wsub newsize b.size = newsize - b.size := wsub_of_le hle
  have hsize : g.getSize (hdrp h.chunk.bp) = chunksize := hl.getSize hnm
  refine ⟨g, hg, hwf, hbrk, habove, _, _, _, _, ?_, rfl, rfl, rfl, rfl⟩
  simp only [Heap.reallocExtend, hg, if_neg hext, hnext, hsize, hgrow, hrest]

/-- The heap with the grown block and the leftover as allocated blocks, when the leftover is a block
at all. -/
theorem Heap.WellFormed.grown (H : h.WellFormed (pre ++ [b, n]) (n.bp :: fl)) (hb : b.alloc = true)
    (hn : n.alloc = false) (hn4096 : n.size = 4096) (hmod : newsize % 8 = 0)
    (hlt : b.size < newsize) (hle : newsize ≤ b.size + 4080) :
    (((h.removeBlock n.bp).retag (b.grown newsize)).retag (b.leftover newsize)).WellFormed
      (pre ++ [b.grown newsize] ++ [b.leftover newsize]) fl := by
  have hl := H.layout
  have hbm : b ∈ pre ++ [b, n] := by simp
  have hnm : n ∈ pre ++ [b, n] := by simp
  have hB := hl.bounds hbm
  have hN := hl.bounds hnm
  have := hB.fits.lo; have := hB.size; have := hB.mod; have := hN.hi; have := hN.brk
  have hnb : n.bp = b.bp + b.size := hl.tiles.split.2.1
  obtain ⟨a, ha⟩ : ∃ a, a = b.grown newsize := ⟨_, rfl⟩
  obtain ⟨f, hf⟩ : ∃ f, f = b.leftover newsize := ⟨_, rfl⟩
  have habp : a.bp = b.bp := by rw [ha]; rfl
  have hasize : a.size = newsize := by rw [ha]; rfl
  have haa : a.alloc = true := by rw [ha]; rfl
  have hfbp : f.bp = b.bp + newsize := by rw [hf]; rfl
  have hfsize : f.size = 4096 - (newsize - b.size) := by rw [hf]; rfl
  have hfa : f.alloc = true := by rw [hf]; rfl
  have hafit : a.Fits := ⟨by omega, by omega, by omega, by omega⟩
  have hffit : f.Fits := ⟨by omega, by omega, by omega, by omega⟩
  rw [← ha, ← hf]
  obtain ⟨-, hk, hfr⟩ := hl.removeBlock H.links H.listedIn List.mem_cons_self
  rw [List.erase_cons_head] at hk
  generalize h.removeBlock n.bp = g at *
  have hlist : fl.Perm (freeBps pre) := by
    have := H.listed
    rw [freeBps_append, freeBps_cons_alloc hb, freeBps_cons_free hn] at this
    exact List.Perm.cons_inv (this.trans List.perm_append_comm)
  have hout : ∀ x ∈ fl, x + 16 ≤ b.bp := by
    intro x hx
    obtain ⟨d, hd, -, rfl⟩ := mem_freeBps.1 (hlist.mem_iff.1 hx)
    have hdm : d ∈ pre ++ [b, n] := by simp [hd]
    have := (hl.bounds hdm).size
    have := (hl.tiles.split.1.bounds d hd).2
    omega
  have hsp : Spaced fl := (hl.spaced H.listedIn).mono fun _ hx => List.mem_cons_of_mem _ hx
  have hframe : h.Frame ((g.retag a).retag f) (b.bp - 4) (n.bp + n.size - 4) (n.bp :: fl) :=
    (hfr.mono (by omega) fun _ hx => hx).trans
      (((g.retag_frame _ hafit).mono (by omega) fun _ hx => hx).trans
        (((g.retag a).retag_frame _ hffit).mono (by omega) fun _ hx => hx))
  have htaga : ((g.retag a).retag f).Tagged a := by
    have ht := g.retag_tagged hafit
    exact ⟨(Heap.get_retag_of_sep hffit (by omega) (by omega)).trans ht.header,
      (Heap.get_retag_of_sep hffit (by omega) (by omega)).trans ht.footer⟩
  refine ⟨?_, ?_, ?_, ?_⟩
  · obtain ⟨lo, hpre, hmid⟩ := Tiles.append.1 hl.tiles
    obtain rfl : b.bp = lo := hmid.1
    have hend : n.bp + n.size = h.memBrk := by rw [hnb]; exact hmid.2.2
    have hl' : h.Layout (pre ++ [b, n] ++ []) := by simpa using hl
    have hmid' : Tiles Block.bp Block.size b.bp [a, f] (n.bp + n.size) :=
      ⟨habp, by rw [hasize]; exact hfbp, show b.bp + a.size + f.size = n.bp + n.size by omega⟩
    have := hl'.replace hpre hmid'
      (show Tiles Block.bp Block.size (n.bp + n.size) [] h.memBrk from hend) hframe
      (by simpa using H.listedIn)
      (by simpa using ⟨⟨hafit.mod, hafit.size⟩, hffit.mod, hffit.size⟩)
      (by simpa using ⟨htaga, (g.retag a).retag_tagged hffit⟩)
    simpa using this
  · have hm : Merged pre := (List.isChain_append.1 H.merged).1
    have hma : Merged (pre ++ [a]) :=
      merged_insert hm .nil (fun _ _ => .inr haa) fun _ _ => .inl haa
    exact merged_insert hma .nil (fun _ _ => .inr hfa) fun _ _ => .inl hfa
  · exact (hk.retag hsp hafit fun x hx => .inl (by have := hout x hx; omega)).retag hsp hffit
      fun x hx => .inl (by have := hout x hx; omega)
  · rw [freeBps_append, freeBps_append, freeBps_cons_alloc haa, freeBps_cons_alloc hfa]
    simpa [freeBps] using hlist

/-- The tags of the two are written outside the old payload of the block. -/
theorem Heap.WellFormed.grown_keeps (H : h.WellFormed (pre ++ [b, n]) (n.bp :: fl))
    (hb : b.alloc = true) (hlt : b.size < newsize) :
    h.Keeps (((h.removeBlock n.bp).retag (b.grown newsize)).retag (b.leftover newsize))
      (allocs pre ++ [b]) := by
  have hl := H.layout
  have hB := hl.bounds (b := b) (by simp)
  have := hB.fits.lo; have := hB.size
  obtain ⟨-, -, hfr⟩ := hl.removeBlock H.links H.listedIn List.mem_cons_self
  have hcs : ∀ c ∈ allocs pre ++ [b], c ∈ pre ++ [b, n] ∧ c.alloc = true ∧
      (c.bp + c.size ≤ b.bp ∨ c = b) := by
    intro c hc
    rcases List.mem_append.1 hc with hc | hc
    · obtain ⟨hc, ha⟩ := mem_allocs.1 hc
      exact ⟨List.mem_append_left _ hc, ha, .inl (hl.tiles.split.1.bounds c hc).2⟩
    · obtain rfl := List.mem_singleton.1 hc
      exact ⟨by simp, hb, .inr rfl⟩
  have hk : h.Keeps (h.removeBlock n.bp) (allocs pre ++ [b]) := hl.keeps hfr H.mem_free
    fun c hc => ⟨(hcs c hc).1, (hcs c hc).2.1, .inr (.inr (Nat.le_refl 0))⟩
  intro c hc q h1 h2
  have hq : q + 4 < b.bp ∨ b.bp ≤ q ∧ q + 8 < b.bp + b.size := by
    rcases (hcs c hc).2.2 with hle | rfl
    · have := (hl.bounds (hcs c hc).1).size
      omega
    · exact .inr ⟨h1, h2⟩
  have hg : (b.grown newsize).bp = b.bp ∧ (b.grown newsize).size = newsize := ⟨rfl, rfl⟩
  have hr : (b.leftover newsize).bp = b.bp + newsize := rfl
  refine (Heap.mem_put_of_sep (by omega)).trans ((Heap.mem_put_of_sep (by omega)).trans
    ((Heap.mem_put_of_sep (by omega)).trans ((Heap.mem_put_of_sep (by omega)).trans ?_)))
  exact hk c hc q h1 h2

/-- The heap after a block has grown: the leftover is a free block at the front of the list. -/
theorem Heap.WellFormed.extended (H : h.WellFormed (pre ++ [b]) fl) (hb : b.alloc = true)
    (hext : (h.extendHeap (chunksize / wsize)).1 ≠ 0) (hmod : newsize % 8 = 0)
    (hlt : b.size < newsize) (hle : newsize ≤ b.size + 4080) :
    (h.reallocExtend b.bp newsize b.size).1 = b.bp ∧
      (h.reallocExtend b.bp newsize b.size).2.WellFormed
        (Shape.coalesce (pre ++ [b.grown newsize]) (b.leftover newsize).freed [] fl).blocks
        (Shape.coalesce (pre ++ [b.grown newsize]) (b.leftover newsize).freed [] fl).list ∧
      allocs (Shape.coalesce (pre ++ [b.grown newsize]) (b.leftover newsize).freed [] fl).blocks =
        allocs pre ++ [b.grown newsize] ∧
      h.Keeps (h.reallocExtend b.bp newsize b.size).2 (allocs pre ++ [b]) := by
  have hrest : wsub chunksize (newsize - b.size) = (b.leftover newsize).size :=
    wsub_of_le (show newsize - b.size ≤ 4096 by omega)
  obtain ⟨g, hg, hwf, -, -, g₁, g₂, g₃, g₄, hret, h₁, h₂, h₃, h₄⟩ :=
    H.reallocExtend_eq hb hext (Nat.le_of_lt hlt) hrest
  have hgrown := hwf.grown hb rfl rfl hmod hlt hle
  have hcode : h.reallocExtend b.bp newsize b.size = (b.bp, (((g.removeBlock h.chunk.bp).retag
      (b.grown newsize)).retag (b.leftover newsize)).mmFree (b.leftover newsize).bp) := by
    have hfit := (hgrown.layout.bounds (b := b.grown newsize) (by simp)).fits
    have hffit := (hgrown.layout.bounds (b := b.leftover newsize) (by simp)).fits
    have hlbp : (b.leftover newsize).bp = b.bp + newsize := rfl
    have h4 : 4 ≤ b.bp := hfit.lo
    have h16 : 16 ≤ newsize := hfit.size
    have h16' := hffit.size
    have hread : ∀ g' : Heap, g'.get (b.bp - 4) = (b.grown newsize).word →
        g'.nextBlkp b.bp = (b.leftover newsize).bp := fun g' hg' =>
      Heap.nextBlkp_of_header hg' hmod h4 (show b.bp + newsize < 2 ^ 32 from hfit.hi)
    have hhdr : hdrp (b.leftover newsize).bp = (b.leftover newsize).bp - 4 := hdrp_eq hffit.lo
    have htag := (g.removeBlock h.chunk.bp).retag_tagged hfit
    have hg₂ : g₂ = (g.removeBlock h.chunk.bp).retag (b.grown newsize) := by
      rw [h₂, h₁]
      exact Heap.put_tags _ hfit rfl rfl
    rw [← hg₂] at htag ⊢
    rw [hread g₂ htag.header] at h₃
    have hhead₃ : g₃.get (b.bp - 4) = (b.grown newsize).word := by
      rw [h₃, hhdr]
      exact (Heap.get_put_of_sep (by omega)).trans htag.header
    have hg₄ : g₄ = g₂.retag (b.leftover newsize) := by
      rw [h₄, hread g₃ hhead₃, h₃]
      exact g₂.put_tags hffit rfl rfl
    have hhead₄ : (g₂.retag (b.leftover newsize)).get (b.bp - 4) = (b.grown newsize).word :=
      (Heap.get_retag_of_sep hffit (by omega) (by omega)).trans htag.header
    rw [hret, hg₄, hread _ hhead₄]
  have hgk : h.Keeps g (allocs pre ++ [b]) := by
    have heven : chunksize / wsize % 2 = 0 := by decide
    rcases H.extendHeap heven (by decide) (by decide) with
      ⟨hfail, -⟩ | ⟨-, _, _, _, -, -, -, -, -, -, hk⟩
    · exact absurd (congrArg Prod.fst hfail) hext
    · rw [hg, allocs_append, allocs_cons_alloc hb] at hk
      exact hk
  obtain ⟨hwf', hall, hk⟩ := hgrown.mmFree (b := b.leftover newsize) rfl
  have hpa : allocs (pre ++ [b.grown newsize]) ++ allocs [] = allocs pre ++ [b.grown newsize] := by
    rw [allocs_append, allocs_cons_alloc (b := b.grown newsize) rfl, allocs_nil, List.append_nil]
  rw [hpa] at hall hk
  rw [hcode]
  refine ⟨rfl, hwf', hall, hgk.trans ((hwf.grown_keeps hb hlt).trans fun c hc q h1 h2 => ?_)⟩
  rcases List.mem_append.1 hc with hc | hc
  · exact hk c (List.mem_append_left _ hc) q h1 h2
  · obtain rfl := List.mem_singleton.1 hc
    exact hk (c.grown newsize) (by simp) q h1 (show q + 8 < c.bp + newsize by omega)

/-- **The growing side.** A block is left of the chunk. -/
theorem Heap.WellFormed.grown_of_le (H : h.WellFormed (pre ++ [b]) fl) (hb : b.alloc = true)
    (hext : (h.extendHeap (chunksize / wsize)).1 ≠ 0) (hmod : newsize % 8 = 0)
    (hlt : b.size < newsize) (hle : newsize ≤ b.size + 4080) (hsz : size + 8 ≤ newsize) :
    Heap.Grown b.bp size (some (.ret (h.reallocExtend b.bp newsize b.size).1
      (h.reallocExtend b.bp newsize b.size).2)) := by
  obtain ⟨hr, hwf', hall, -⟩ := H.extended hb hext hmod hlt hle
  have ham := (mem_allocs (c := b.grown newsize)).1 (by rw [hall]; simp)
  rw [hr]
  exact ⟨_, _, _, b.grown newsize, rfl, hwf', fun c hc => (hwf'.layout.bounds hc).size, ham.1, rfl,
    rfl, hsz, (hwf'.layout.bounds ham.1).hi⟩

/-- A leftover of 8 bytes or none after the block `a` gets its tags and is freed: the last step is a
coalescing of the block after `a`, and with 8 bytes the tags of `a` are still in place before it. -/
theorem Heap.Tagged.free_leftover (ht : g.Tagged a) (hfit : a.Fits) {q rest : Nat}
    (hq : a.bp + a.size = q) (hmod : rest % 8 = 0) (hle : rest ≤ 8) (hlt : q + rest < 2 ^ 32)
    {g₁ g₂ : Heap}
    (h₁ : g₁ = g.put (hdrp (g.nextBlkp a.bp)) (pack rest 1))
    (h₂ : g₂ = g₁.put (g₁.ftrp (g₁.nextBlkp a.bp)) (pack rest 1)) :
    ∃ g' : Heap, g₂.mmFree (g₂.nextBlkp a.bp) = (g'.coalesce q).2 ∧
      (rest = 8 → g'.get (a.bp - 4) = a.word ∧ g'.get (q - 8) = a.word) := by
  have h4 := hfit.lo; have h16 := hfit.size; have hhi := hfit.hi
  have hhead := ht.header
  have hfoot : g.get (q - 8) = a.word := by rw [← hq]; exact ht.footer
  have hread : ∀ g' : Heap, g'.get (a.bp - 4) = a.word → g'.nextBlkp a.bp = q := fun g' hg' => by
    rw [← hq]
    exact Heap.nextBlkp_of_header hg' hfit.mod h4 hhi
  have hhdr : hdrp q = q - 4 := hdrp_eq (by omega)
  -- the leftover, allocated and then free, as its tags describe it
  obtain ⟨f, hfs, hfa⟩ : ∃ f : Block, f.size = rest ∧ f.alloc = true :=
    ⟨⟨q, rest, true⟩, rfl, rfl⟩
  obtain ⟨e, hes, hea⟩ : ∃ e : Block, e.size = rest ∧ e.alloc = false :=
    ⟨⟨q, rest, false⟩, rfl, rfl⟩
  have hfw : pack rest 1 = f.word := by rw [Block.word, hfs, hfa]; rfl
  have hew : pack rest 0 = e.word := by rw [Block.word, hes, hea]; rfl
  have hword : ∀ c : Block, c.size = rest → c.word < 2 ^ 32 := fun c hc => by
    have := c.toNat_alloc_lt; rw [c.word_eq (by omega)]; omega
  have hftr : ∀ {g' : Heap} {c : Block}, g'.get (q - 4) = c.word → c.size = rest →
      g'.ftrp q = q + rest - 8 := fun {g' c} hg' hc => by
    rw [Heap.ftrp_of_header hg' (by omega) (by omega) (by omega) (by omega), hc]
  rw [hread g hhead, hhdr, hfw] at h₁
  have hhead₁ : g₁.get (a.bp - 4) = a.word := by
    rw [h₁]
    exact (Heap.get_put_of_sep (by omega)).trans hhead
  have hhdr₁ : g₁.get (q - 4) = f.word := by rw [h₁]; exact g.get_put _ (hword f hfs)
  rw [hread g₁ hhead₁, hftr hhdr₁ hfs, hfw] at h₂
  have hhead₂ : g₂.get (a.bp - 4) = a.word := by
    rw [h₂]
    exact (Heap.get_put_of_sep (by omega)).trans hhead₁
  have hsize₂ : g₂.getSize (q - 4) = rest := by
    rw [h₂, Heap.getSize, Heap.get_put_of_sep (by omega), hhdr₁, f.word_size (by omega), hfs]
  have hftr₂ := hftr (g₂.get_put (q - 4) (hword e hes)) hes
  refine ⟨(g₂.put (q - 4) e.word).put (q + rest - 8) e.word, ?_, fun h8 => ⟨?_, ?_⟩⟩
  · simp only [hread g₂ hhead₂, Heap.mmFree, hhdr, hsize₂, hew, hftr₂]
  · exact (Heap.get_put_of_sep (by omega)).trans ((Heap.get_put_of_sep (by omega)).trans hhead₂)
  · have hsep₁ : q - 8 + 4 ≤ q + rest - 8 ∨ q + rest - 8 + 4 ≤ q - 8 := by omega
    have hsep₂ : q - 8 + 4 ≤ q - 4 ∨ q - 4 + 4 ≤ q - 8 := by omega
    rw [Heap.get_put_of_sep hsep₁, Heap.get_put_of_sep hsep₂, h₂, Heap.get_put_of_sep hsep₁, h₁,
      Heap.get_put_of_sep hsep₂, hfoot]

/-- With 8 bytes or none left of the chunk, the last step is a coalescing of the block after the
grown one; with 8 bytes left, the tags of the grown block are in place before it. -/
theorem Heap.WellFormed.reallocExtend_coalesce (H : h.WellFormed (pre ++ [b]) fl)
    (hb : b.alloc = true) (hext : (h.extendHeap (chunksize / wsize)).1 ≠ 0) {rest : Nat}
    (hmod : newsize % 8 = 0) (hrest : newsize + rest = b.size + 4096) (hle : rest = 0 ∨ rest = 8) :
    ∃ g : Heap, (h.reallocExtend b.bp newsize b.size).2 = (g.coalesce (b.bp + newsize)).2 ∧
      (rest = 8 → g.get (b.bp - 4) = (b.grown newsize).word ∧
        g.get (b.bp + newsize - 8) = (b.grown newsize).word) := by
  have hleft : wsub chunksize (newsize - b.size) = rest := by
    rw [wsub_of_le (show newsize - b.size ≤ 4096 by omega)]
    show 4096 - (newsize - b.size) = rest
    omega
  obtain ⟨g, -, hwf, hbrk, -, g₁, g₂, g₃, g₄, hret, h₁, h₂, h₃, h₄⟩ :=
    H.reallocExtend_eq hb hext (by omega) hleft
  have hl := hwf.layout
  have hB := hl.bounds (b := b) (by simp)
  have := hB.brk
  have hlast : b.bp + b.size = h.memBrk := H.layout.tiles.split.2
  have hfit : (b.grown newsize).Fits :=
    ⟨hmod, show 16 ≤ newsize by omega, hB.fits.lo, show b.bp + newsize < 2 ^ 32 by omega⟩
  have hg₂ : g₂ = (g.removeBlock h.chunk.bp).retag (b.grown newsize) := by
    rw [h₂, h₁]
    exact Heap.put_tags _ hfit rfl rfl
  have htag := (g.removeBlock h.chunk.bp).retag_tagged hfit
  rw [← hg₂] at htag
  rw [hret]
  dsimp only
  exact htag.free_leftover hfit rfl (by omega) (by omega)
    (show b.bp + newsize + rest < 2 ^ 32 by omega) h₃ h₄

/-- **The failing side.** No block is left of the chunk. -/
theorem Heap.WellFormed.not_grown (H : h.WellFormed (pre ++ [b]) fl) (hb : b.alloc = true)
    (hext : (h.extendHeap (chunksize / wsize)).1 ≠ 0) (hmod : newsize % 8 = 0)
    (hgt : b.size + 4080 < newsize)
    (hleast : ∀ s, s % 8 = 0 → 16 ≤ s → size + 8 ≤ s → newsize ≤ s) :
    ¬ Heap.Grown b.bp size (some (.ret (h.reallocExtend b.bp newsize b.size).1
      (h.reallocExtend b.bp newsize b.size).2)) := by
  rintro ⟨h', bs', fl', a, heq, hwf', -, ham, habp, haa, hasz, hend⟩
  obtain ⟨-, rfl⟩ := Outcome.ret.inj (Option.some.inj heq)
  obtain ⟨g, hg, hwf, hbrk, -⟩ := H.extendHeap_last hb hext
  have hframe : g.SameFrame (h.reallocExtend b.bp newsize b.size).2 :=
    (Heap.reallocExtend_frame hg (by rw [hg] at hext; exact hext)).2
  have hlast : b.bp + b.size = h.memBrk := H.layout.tiles.split.2
  have hbmod := (H.layout.bounds (b := b) (by simp)).mod
  have hmem := hframe.memBrk
  have hA := hwf'.layout.bounds ham
  have := hA.lo; have := hA.listp; have := hA.brk
  have hle := hleast a.size hA.mod hA.size hasz
  obtain ⟨rest, hrest⟩ : ∃ rest, newsize + rest = b.size + 4096 :=
    ⟨b.size + 4096 - newsize, by omega⟩
  obtain ⟨g₀, hcode, htags⟩ := H.reallocExtend_coalesce hb hext hmod hrest (by omega)
  have hqlt : b.bp + newsize < 2 ^ 32 := by omega
  obtain ⟨g₁, p, hins, -, hp⟩ := g₀.coalesce_insert (b.bp + newsize)
  rw [hcode, hins] at hwf' hmem hend
  have hfp := g₁.insertBlock_freeListp p
  have hfree : p ≠ 0 → ∃ d ∈ bs', d.alloc = false ∧ d.bp = p := fun h0 => by
    have := (hwf'.head_free (by rw [hfp]; exact h0)).2
    rwa [hfp] at this
  rcases hp with rfl | ⟨hpa, rfl⟩
  · -- a free block after the grown one would end above the break
    obtain ⟨d, hd, -, hdbp⟩ := hfree (by omega)
    have := (hwf'.layout.bounds hd).hi
    have := (hwf'.layout.bounds hd).size
    omega
  · by_cases h8 : rest = 8
    · -- the footer before the leftover is that of the grown block
      obtain ⟨hhead, hfoot⟩ := htags h8
      have hprev : g₀.prevBlkp (b.bp + newsize) = b.bp := by
        rw [Heap.prevBlkp_of_footer hfoot hmod (by omega) (show newsize ≤ b.bp + newsize by omega)]
        show b.bp + newsize - newsize = b.bp
        omega
      rw [hprev, Heap.ftrp_of_header hhead hmod (by omega) hqlt
        (show 8 ≤ b.bp + newsize by omega), Heap.getAlloc] at hpa
      have hodd : (b.grown newsize).word % 2 = 1 := Block.word_alloc hmod
      rw [show b.bp + (b.grown newsize).size - 8 = b.bp + newsize - 8 from rfl, hfoot, hodd] at hpa
      cases hpa
    · -- the block the footer leads back to is the grown one, which is not free
      have hasize : a.size = newsize := by omega
      obtain ⟨l₁, l₂, rfl⟩ := List.append_of_mem ham
      obtain rfl : l₂ = [] := by
        cases l₂ with
        | nil => rfl
        | cons d l₂ =>
          have hd := hwf'.layout.bounds (b := d) (by simp)
          have := hd.hi; have := hd.size
          have hda : d.bp = a.bp + a.size := hwf'.layout.tiles.split.2.1
          omega
      have hfoot := Heap.insertBlock_last_footer hwf' haa
      rw [habp, hasize] at hfoot
      have hprev : g₁.prevBlkp (b.bp + newsize) = b.bp := by
        rw [Heap.prevBlkp_of_footer hfoot hA.mod (by omega) (by omega)]
        omega
      rw [hprev] at hfree
      obtain ⟨d, hd, hda, hdbp⟩ := hfree (by omega)
      have := hwf'.layout.bp_inj hd ham (by omega)
      rw [this, haa] at hda
      cases hda

/-- The adjusted size is the least block size with room for the request. -/
theorem adjust_least (hlt : size + 15 < 2 ^ 32) {s : Nat} (hmod : s % 8 = 0) (hmin : 16 ≤ s)
    (hs : size + 8 ≤ s) : adjust size ≤ s := by
  unfold adjust
  split
  · exact hmin
  · have h1 : wadd size overhead = size + 8 := wadd_of_lt (show size + 8 < 2 ^ 32 by omega)
    have h2 : wadd (size + 8) (dsize - 1) = size + 8 + 7 :=
      wadd_of_lt (show size + 8 + 7 < 2 ^ 32 by omega)
    rw [h1, h2]
    show 8 * ((size + 8 + 7) / 8) ≤ s
    omega

/-- The heap is extended for the last block when the block before it is in use. -/
theorem Heap.Layout.reallocBranch_last (hl : h.Layout (pre ++ [b]))
    (hpre : (h.before pre).alloc = true) {n : Nat} (hgrow : b.size < n) (hlt : n + 16 < 2 ^ 32) :
    h.reallocBranch b.bp n b.size = .extend := by
  have hnext : h.getAlloc (hdrp (h.nextBlkp b.bp)) = 1 := hl.next_alloc
  have hprev : h.getAlloc (hdrp (h.prevBlkp b.bp)) = 1 := by
    rw [hl.prev_header_alloc, hpre]
    rfl
  have hsize : h.getSize (hdrp (h.nextBlkp b.bp)) = 0 := hl.next_size
  have hadd : wadd n minimum = n + 16 := wadd_of_lt hlt
  have hshrink : ¬ wadd n minimum ≤ b.size := by omega
  simp [Heap.reallocBranch, hnext, hprev, hsize, hshrink, hgrow, Nat.ne_of_gt hgrow]

/-- **Growing the last block.** Where `mm_realloc` extends the heap, the block grows in a heap that
is well formed again exactly when it grows by at most `CHUNKSIZE` less a minimum block. -/
theorem mmRealloc_extend_iff (H : h.WellFormed (pre ++ [b]) fl) (hb : b.alloc = true)
    (h1 : 1 ≤ size) (hlt : size < 2 ^ 31)
    (hbr : h.reallocBranch b.bp (adjust size) (h.getSize (hdrp b.bp)) = .extend)
    (hext : (h.extendHeap (chunksize / wsize)).1 ≠ 0) :
    Heap.Grown b.bp size (h.mmRealloc b.bp size) ↔
      size + overhead ≤ b.size + (chunksize - minimum) := by
  have hbm : b ∈ pre ++ [b] := by simp
  have hB := H.layout.bounds hbm
  have := hB.lo; have := hB.mod; have := hB.size
  obtain ⟨hmod, hmin, hsz, hmax⟩ := adjust_spec (show size + 15 < 2 ^ 32 by omega)
  have hguard := h.reallocBranch_guard b.bp (adjust size) (h.getSize (hdrp b.bp))
  rw [hbr] at hguard
  rw [Heap.mmRealloc_eq (by omega) h1 rfl, hbr]
  rw [H.layout.getSize hbm] at hguard ⊢
  have hgrow : b.size < adjust size := hguard.1
  show _ ↔ size + 8 ≤ b.size + 4080
  constructor
  · intro hgrown
    by_contra hgt
    exact H.not_grown hb hext hmod (by omega) (fun s => adjust_least (by omega)) hgrown
  · intro hle
    have := adjust_least (show size + 15 < 2 ^ 32 by omega)
      (show (b.size + 4080) % 8 = 0 by omega) (by omega) hle
    exact H.grown_of_le hb hext hmod hgrow this hsz

end

/-- What does not fit into the only block takes the extending branch. -/
theorem oneBlock_branch {n : Nat} (hgrow : 4096 < n) (hlt : n + 16 < 2 ^ 32) :
    oneBlock.reallocBranch 24 n 4096 = .extend :=
  Heap.Layout.reallocBranch_last (b := ⟨24, 4096, true⟩)
    (show oneBlock.Layout ([] ++ [⟨24, 4096, true⟩]) from oneBlock_wellFormed.layout) rfl hgrow hlt

/-- The heap of one block has room for a chunk. -/
theorem oneBlock_extendHeap : (oneBlock.extendHeap (chunksize / wsize)).1 ≠ 0 :=
  oneBlock_wellFormed.extendHeap_ne (show 1024 % 2 = 0 by decide) (show 4 ≤ 1024 by decide)
    (show 1024 * 4 < 2 ^ 31 ∧ 4120 + 1024 * 4 ≤ 8 + maxHeap by decide)

/-- A block of 4096 bytes grows to 5008: 3184 bytes of the chunk are left. -/
theorem mmRealloc_extend_iff_5000 : Heap.Grown 24 5000 (oneBlock.mmRealloc 24 5000) := by
  have hbr : oneBlock.reallocBranch 24 (adjust 5000) (oneBlock.getSize (hdrp 24)) = .extend := by
    rw [oneBlock_wellFormed.layout.getSize (List.mem_singleton_self _)]
    exact oneBlock_branch (by decide) (by decide)
  exact (mmRealloc_extend_iff (b := ⟨24, 4096, true⟩)
    (show oneBlock.WellFormed ([] ++ [⟨24, 4096, true⟩]) [] from oneBlock_wellFormed) rfl
    (by decide) (by decide) hbr oneBlock_extendHeap).2 (by decide)

/-- A block of 4096 bytes grows to 8184, and 8 bytes of the chunk are left: the forward link of the
new free block is written over the epilogue header, and the heap is not well formed. -/
theorem mmRealloc_extend_epilogue :
    oneBlock.WellFormed [⟨24, 4096, true⟩] [] ∧
      oneBlock.reallocBranch 24 (adjust 8176) 4096 = .extend ∧
      (oneBlock.extendHeap (chunksize / wsize)).1 ≠ 0 ∧
      ∃ h, oneBlock.mmRealloc 24 8176 = some (.ret 24 h) ∧
        h.get (hdrp h.memBrk) ≠ pack 0 1 ∧ ∀ bs fl, ¬ h.WellFormed bs fl := by
  have hrun : (match oneBlock.mmRealloc 24 8176 with
    | some (.ret p h) => decide (p = 24 ∧ h.memBrk = 8216 ∧ h.get 8212 = 0)
    | _ => false) = true := by decide +kernel
  refine ⟨oneBlock_wellFormed, oneBlock_branch (by decide) (by decide), oneBlock_extendHeap, ?_⟩
  generalize oneBlock.mmRealloc 24 8176 = o at hrun
  rcases o with _ | ⟨p, h⟩ | ⟨s, h⟩
  · cases hrun
  · obtain ⟨rfl, hbrk, hget⟩ := of_decide_eq_true hrun
    have hepi : h.get (hdrp h.memBrk) = 0 := by rw [hbrk]; exact hget
    have h1 : pack 0 1 = 1 := rfl
    refine ⟨h, rfl, by rw [hepi, h1]; decide, fun bs fl H => ?_⟩
    have := H.sound.epilogue
    rw [hepi, h1] at this
    cases this
  · cases hrun

end Malloc
