import Styrikerfi.Malloc.Extend

/-!
# Requests near the end of the address space

`size_t` has 32 bits, so the adjusted size of the largest requests is 0 or 8 (`adjust_wraps`), and
for the two sizes before them the guard `newsize + MINIMUM <= copySize` of `mm_realloc` wraps. A
well-formed heap has no block for such a request (`Heap.not_sized`), so whatever pointer is returned
for one is wrong; `NULL` is the only right answer, and the allocator gives it only where the wrapped
request finds no memory either (`sizes_iff`).

Where `mm_realloc` extends the heap the result may not be a well-formed heap, and what is asked for
is the size at the header of the result. The header holds the adjusted size of the request
(`reallocExtend_header`), however little or much the block grows: the tags written after it lie
elsewhere, also when the block ends far above the break. The one exception is a leftover of no
bytes, where `coalesce` takes the two words above the new break for the links of a free block.
-/

namespace Malloc

open Machine32 Tiling LinkedList

/-- In a well-formed heap, the block at `p` has room for `size` bytes. -/
def Heap.Sized (h : Heap) (p size : Nat) : Prop :=
  ∃ bs fl, h.WellFormed bs fl ∧ ∃ a ∈ bs, a.bp = p ∧ size + overhead ≤ a.size

/-- `mm_malloc(size)` returns `NULL` or a block with room for the request. -/
def Heap.MallocSized (h : Heap) (size : Nat) : Prop :=
  ∀ p h', h.mmMalloc size = some (p, h') → p ≠ 0 → h'.Sized p size

/-- `mm_realloc(ptr, size)` returns `NULL` or a block with room for the request, and leaves a
well-formed heap unless it extends it. -/
def Heap.ReallocSized (h : Heap) (ptr size : Nat) : Prop :=
  ∀ p h', h.mmRealloc ptr size = some (.ret p h') → p ≠ 0 →
    if h.reallocBranch ptr (adjust size) (h.getSize (hdrp ptr)) = .extend then
      size + overhead ≤ h'.getSize (hdrp p)
    else h'.Sized p size

/-- No block is free, and the heap cannot be extended by `CHUNKSIZE`. -/
def Heap.Full (h : Heap) : Prop := h.freeListp = 0 ∧ h.memMaxAddr < h.memBrk + chunksize

/-- `mm_realloc(ptr, size)` uses up the chunk it extends the heap by, and the two words above the
new break, which `coalesce` takes for links, are not both zero. -/
def Heap.StaleLinks (h : Heap) (ptr size : Nat) : Prop :=
  h.reallocBranch ptr (adjust size) (h.getSize (hdrp ptr)) = .extend ∧
    h.memBrk + chunksize ≤ h.memMaxAddr ∧ adjust size = h.getSize (hdrp ptr) + chunksize ∧
    ¬ (h.get (h.memBrk + chunksize) = 0 ∧ h.get (h.memBrk + chunksize + 4) = 0)

section
variable {h h' g : Heap} {bs pre post : List Block} {a b c : Block} {fl : List Nat}
  {size newsize words p q e v n s w k : Nat}

/-! ## Words at aligned addresses -/

/-- Aligned words at different addresses do not overlap. -/
theorem Heap.get_put_of_ne (hp : p % 4 = 0) (hq : q % 4 = 0) (hne : q ≠ p) :
    (h.put p v).get q = h.get q := Heap.get_put_of_sep (by omega)

/-- The size is read back from a packed word. -/
theorem Heap.getSize_of_pack (hw : h.get p = pack s k) (hs : s % 8 = 0) (hk : k < 8) :
    h.getSize p = s := by
  rw [Heap.getSize, hw, pack_eq hs hk]
  omega

/-- The allocated bit is read back from a packed word. -/
theorem Heap.getAlloc_of_pack (hw : h.get p = pack s k) (hs : s % 8 = 0) (hk : k < 2) :
    h.getAlloc p = k := by
  rw [Heap.getAlloc, hw, pack_eq hs (by omega)]
  omega

/-- A packed word is a word of 32 bits. -/
theorem pack_lt (hs : s % 8 = 0) (hlt : s < 2 ^ 32) (hk : k < 2) : pack s k < 2 ^ 32 := by
  rw [pack_eq hs (by omega)]
  omega

/-- The header and the footer before an address of a block are aligned words. -/
theorem tags_mod (hq : q % 8 = 0) : wsub q 4 % 8 = 4 ∧ wsub q 8 % 8 = 0 := by
  unfold wsub
  split <;> split <;> omega

/-- A header is never at the address of a footer. -/
theorem header_ne_footer (hp : p % 8 = 0) (hq : q % 8 = 0) : wsub p 4 ≠ wsub q 8 := by
  have hP := tags_mod hp
  have hQ := tags_mod hq
  omega

/-- Nor are the link words of a block its tags. -/
theorem links_ne_tags (he : e % 8 = 0) (he32 : e < 2 ^ 32) :
    wadd e 4 % 4 = 0 ∧ (e ≠ wsub e 8 ∧ e ≠ wsub e 4) ∧ wadd e 4 ≠ wsub e 8 ∧
      wadd e 4 ≠ wsub e 4 := by
  unfold wsub wadd
  split <;> split <;> omega

/-! ## The tags of a grown block and of what is left -/

/-- The words of a block of `n` bytes at `p`, which ends at `q`, and of a leftover of `s` bytes,
which ends at `e`. -/
structure Leftover (p n s q e : Nat) : Prop where
  p_mod : p % 8 = 0
  p_lt : p < 2 ^ 32
  n_mod : n % 8 = 0
  n_min : 16 ≤ n
  n_lt : n + 16 < 2 ^ 32
  s_mod : s % 8 = 0
  s_lt : s < 2 ^ 32
  q_eq : wadd p n = q
  e_eq : wadd q s = e

/-- The tags of both, the leftover's first allocated and then free. -/
def Heap.leftoverTags (g : Heap) (p n s q e : Nat) : Heap :=
  let g := (g.put (wsub p 4) (pack n 1)).put (wsub q 8) (pack n 1)
  let g := (g.put (wsub q 4) (pack s 1)).put (wsub e 8) (pack s 1)
  (g.put (wsub q 4) (pack s 0)).put (wsub e 8) (pack s 0)

/-- Both ends are aligned addresses. -/
theorem Leftover.ends (L : Leftover p n s q e) :
    (q % 8 = 0 ∧ q < 2 ^ 32) ∧ e % 8 = 0 ∧ e < 2 ^ 32 := by
  have := L.p_mod; have := L.n_mod; have := L.s_mod
  have hq : q % 8 = 0 ∧ q < 2 ^ 32 := by
    rw [← L.q_eq, wadd]
    omega
  refine ⟨hq, ?_⟩
  rw [← L.e_eq, wadd]
  omega

/-- The tag of the block is a word of 32 bits. -/
theorem Leftover.n_word (L : Leftover p n s q e) : pack n 1 < 2 ^ 32 :=
  pack_lt L.n_mod (by have := L.n_lt; omega) (by decide)
/-- The tag of the leftover is a word of 32 bits. -/
theorem Leftover.s_word (L : Leftover p n s q e) (hk : k < 2) : pack s k < 2 ^ 32 :=
  pack_lt L.s_mod L.s_lt hk

/-- All four tags are at aligned words. -/
theorem Leftover.aligned (L : Leftover p n s q e) :
    wsub p 4 % 4 = 0 ∧ wsub q 8 % 4 = 0 ∧ wsub q 4 % 4 = 0 ∧ wsub e 8 % 4 = 0 := by
  have hP := tags_mod L.p_mod
  have hQ := tags_mod L.ends.1.1
  have hE := tags_mod L.ends.2.1
  omega

/-- The block and the leftover begin at two addresses. -/
theorem Leftover.p_ne (L : Leftover p n s q e) : p ≠ q := fun he => by
  have hq : (p + n) % 2 ^ 32 = q := L.q_eq
  have := L.n_min; have := L.n_lt; have := L.p_lt
  omega

/-- The headers of the block and of the leftover are two words. -/
theorem Leftover.header_ne (L : Leftover p n s q e) : wsub p 4 ≠ wsub q 4 :=
  wsub_ne L.p_lt L.ends.1.2 (by decide) L.p_ne

/-- What the extension branch writes once the chunk is off the free list: the tags, whatever the
sizes are, and then the leftover is coalesced. -/
theorem Leftover.mmFree (L : Leftover p n s q e) {g₂ g₃ g₄ g₅ : Heap}
    (h₂ : g₂ = g.put (hdrp p) (pack n 1)) (h₃ : g₃ = g₂.put (g₂.ftrp p) (pack n 1))
    (h₄ : g₄ = g₃.put (hdrp (g₃.nextBlkp p)) (pack s 1))
    (h₅ : g₅ = g₄.put (g₄.ftrp (g₄.nextBlkp p)) (pack s 1)) :
    g₅.mmFree (g₅.nextBlkp p) = ((g.leftoverTags p n s q e).coalesce q).2 := by
  obtain ⟨hp4, hq8, hq4, he8⟩ := L.aligned
  have hnext : ∀ g' : Heap, g'.get (wsub p 4) = pack n 1 → g'.nextBlkp p = q := fun g' hg' => by
    rw [Heap.nextBlkp, Heap.getSize_of_pack hg' L.n_mod (by decide), L.q_eq]
  have hftr : ∀ {g' : Heap} {k}, g'.get (wsub q 4) = pack s k → k < 2 → g'.ftrp q = wsub e 8 :=
    fun hg' hk => by
      rw [Heap.ftrp, hdrp, Heap.getSize_of_pack hg' L.s_mod (by omega), L.e_eq]
  have hw₂ : g₂.get (wsub p 4) = pack n 1 := by
    rw [h₂]
    exact g.get_put _ L.n_word
  have hftr₂ : g₂.ftrp p = wsub q 8 := by
    rw [Heap.ftrp, hdrp, Heap.getSize_of_pack hw₂ L.n_mod (by decide), L.q_eq]
  rw [hftr₂] at h₃
  have hw₃ : g₃.get (wsub p 4) = pack n 1 := by
    rw [h₃]
    exact (Heap.get_put_of_ne hq8 hp4 (header_ne_footer L.p_mod L.ends.1.1)).trans hw₂
  rw [hnext g₃ hw₃] at h₄
  have hw₄ : g₄.get (wsub p 4) = pack n 1 := by
    rw [h₄]
    exact (Heap.get_put_of_ne hq4 hp4 L.header_ne).trans hw₃
  have hd₄ : g₄.get (wsub q 4) = pack s 1 := by
    rw [h₄]
    exact g₃.get_put _ (L.s_word (by decide))
  rw [hnext g₄ hw₄, hftr hd₄ (by decide)] at h₅
  have hw₅ : g₅.get (wsub p 4) = pack n 1 := by
    rw [h₅]
    exact (Heap.get_put_of_ne he8 hp4 (header_ne_footer L.p_mod L.ends.2.1)).trans hw₄
  have hd₅ : g₅.get (wsub q 4) = pack s 1 := by
    rw [h₅]
    exact (Heap.get_put_of_ne he8 hq4 (header_ne_footer L.ends.1.1 L.ends.2.1)).trans hd₄
  have hsize : g₅.getSize (wsub q 4) = s := Heap.getSize_of_pack hd₅ L.s_mod (by decide)
  have hftr₆ := hftr (g₅.get_put (wsub q 4) (L.s_word (show 0 < 2 by decide))) (by decide)
  rw [hnext g₅ hw₅]
  simp only [Heap.mmFree, hdrp, hsize, hftr₆]
  rw [Heap.leftoverTags, h₅, h₄, h₃, h₂]
  rfl

/-- Other words are as before. -/
theorem Leftover.get (L : Leftover p n s q e) (hw : w % 4 = 0) (hwp : w ≠ wsub p 4)
    (hwf : w ≠ wsub q 8) (hwq : w ≠ wsub q 4) (hwe : w ≠ wsub e 8) :
    (g.leftoverTags p n s q e).get w = g.get w := by
  obtain ⟨hp4, hq8, hq4, he8⟩ := L.aligned
  simp only [Heap.leftoverTags]
  rw [Heap.get_put_of_ne he8 hw hwe, Heap.get_put_of_ne hq4 hw hwq, Heap.get_put_of_ne he8 hw hwe,
    Heap.get_put_of_ne hq4 hw hwq, Heap.get_put_of_ne hq8 hw hwf, Heap.get_put_of_ne hp4 hw hwp]

/-- The header of the grown block stays. -/
theorem Leftover.header (L : Leftover p n s q e) :
    (g.leftoverTags p n s q e).get (wsub p 4) = pack n 1 := by
  obtain ⟨hp4, hq8, hq4, he8⟩ := L.aligned
  have hpe := header_ne_footer L.p_mod L.ends.2.1
  simp only [Heap.leftoverTags]
  rw [Heap.get_put_of_ne he8 hp4 hpe, Heap.get_put_of_ne hq4 hp4 L.header_ne,
    Heap.get_put_of_ne he8 hp4 hpe, Heap.get_put_of_ne hq4 hp4 L.header_ne,
    Heap.get_put_of_ne hq8 hp4 (header_ne_footer L.p_mod L.ends.1.1)]
  exact g.get_put _ L.n_word

/-- So does its footer, unless the leftover is empty. -/
theorem Leftover.footer (L : Leftover p n s q e) (hne : wsub q 8 ≠ wsub e 8) :
    (g.leftoverTags p n s q e).get (wsub q 8) = pack n 1 := by
  obtain ⟨-, hq8, hq4, he8⟩ := L.aligned
  have hqq := (header_ne_footer L.ends.1.1 L.ends.1.1).symm
  simp only [Heap.leftoverTags]
  rw [Heap.get_put_of_ne he8 hq8 hne, Heap.get_put_of_ne hq4 hq8 hqq,
    Heap.get_put_of_ne he8 hq8 hne, Heap.get_put_of_ne hq4 hq8 hqq]
  exact Heap.get_put _ _ L.n_word

/-- The leftover is tagged as free. -/
theorem Leftover.tagged (L : Leftover p n s q e) :
    (g.leftoverTags p n s q e).get (wsub q 4) = pack s 0 ∧
      (g.leftoverTags p n s q e).get (wsub e 8) = pack s 0 := by
  obtain ⟨-, -, hq4, he8⟩ := L.aligned
  simp only [Heap.leftoverTags]
  constructor
  · rw [Heap.get_put_of_ne he8 hq4 (header_ne_footer L.ends.1.1 L.ends.2.1)]
    exact Heap.get_put _ _ (L.s_word (by decide))
  · exact Heap.get_put _ _ (L.s_word (by decide))

/-- The links of a block at an aligned address are not at its header. -/
theorem Leftover.links_ne (L : Leftover p n s q e) : wsub p 4 ≠ q ∧ wsub p 4 ≠ wadd q 4 := by
  have hP := tags_mod L.p_mod
  have hq : (p + n) % 2 ^ 32 = q := L.q_eq
  have hlink : wadd q 4 = (q + 4) % 2 ^ 32 := rfl
  have := L.ends.1; have := L.n_lt; have := L.n_min; have := L.p_lt; have := L.p_mod
  refine ⟨by omega, ?_⟩
  rw [hlink]
  unfold wsub
  split <;> omega

/-- Inserting a block changes none of the tags before it. -/
theorem Leftover.insertBlock (L : Leftover p n s q e) (hfree : g.freeListp % 8 = 0) :
    (g.insertBlock q).get (wsub p 4) = g.get (wsub p 4) := by
  have hP := tags_mod L.p_mod
  have hne := L.links_ne
  have hq := L.ends.1.1
  have hlink : wadd q 4 % 4 = 0 := by
    rw [wadd]
    omega
  refine Heap.get_congr fun x h1 h2 => Heap.insertBlock_mem ?_ ?_ fun _ => ?_
  · omega
  · show x < wadd q 4 ∨ wadd q 4 + 4 ≤ x
    omega
  · omega

/-- A leftover that is not empty lies between the grown block and the epilogue, and is only put on
the free list. -/
theorem Leftover.coalesce (L : Leftover p n s q e) (hne : q ≠ e) (hpe : p ≠ e)
    (hepi : g.getAlloc (wsub e 4) = 1) (hfree : g.freeListp % 8 = 0) :
    ((g.leftoverTags p n s q e).coalesce q).2.get (wsub p 4) = pack n 1 := by
  obtain ⟨⟨hq, hq32⟩, he, he32⟩ := L.ends
  have hhead := L.header (g := g)
  have hfoot := L.footer (g := g) (wsub_ne hq32 he32 (by decide) hne)
  have htag := (L.tagged (g := g)).1
  have hlast : (g.leftoverTags p n s q e).getAlloc (wsub e 4) = 1 := by
    have he4 := (tags_mod he).1
    rw [Heap.getAlloc, L.get (by omega) (wsub_ne he32 L.p_lt (by decide) hpe.symm)
      (header_ne_footer he hq) (wsub_ne he32 hq32 (by decide) hne.symm) (header_ne_footer he he)]
    exact hepi
  have hlist : (g.leftoverTags p n s q e).freeListp % 8 = 0 := hfree
  generalize g.leftoverTags p n s q e = g' at *
  have hprev : g'.prevBlkp q = p := by
    have hpq : (p + n) % 2 ^ 32 = q := L.q_eq
    have := L.n_lt; have := L.p_lt
    rw [Heap.prevBlkp, Heap.getSize_of_pack hfoot L.n_mod (by decide)]
    unfold wsub
    split <;> omega
  have hftr : g'.ftrp p = wsub q 8 := by
    rw [Heap.ftrp, hdrp, Heap.getSize_of_pack hhead L.n_mod (by decide), L.q_eq]
  have hnext : g'.nextBlkp q = e := by
    rw [Heap.nextBlkp, Heap.getSize_of_pack htag L.s_mod (by decide), L.e_eq]
  have hpa : g'.getAlloc (g'.ftrp (g'.prevBlkp q)) = 1 := by
    rw [hprev, hftr]
    exact Heap.getAlloc_of_pack hfoot L.n_mod (by decide)
  have hna : g'.getAlloc (hdrp (g'.nextBlkp q)) = 1 := by
    rw [hnext]
    exact hlast
  have hcode : (g'.coalesce q).2 = g'.insertBlock q := by simp [Heap.coalesce, hpa, hna]
  rw [hcode, L.insertBlock hlist, hhead]

/-- Only the last head of the list counts. -/
theorem Heap.setFreeListp_setFreeListp : (g.setFreeListp v).setFreeListp w = g.setFreeListp w := rfl

/-- A block with no links is taken for the only one on the list. -/
theorem Heap.removeBlock_null (hn : g.next p = 0) (hp : g.prev p = 0) :
    g.removeBlock p = g.setFreeListp 0 := by
  have hn' : (g.setFreeListp 0).next p = 0 := hn
  simp only [Heap.removeBlock, hn, hp, ne_eq, not_true, if_false, hn']

/-- An empty leftover makes `coalesce` remove a block at the break twice. With zeros for its links
nothing but the free list is lost. -/
theorem Leftover.coalesce_empty (L : Leftover p n 0 e e) (hprev : g.get e = 0)
    (hnext : g.get (wadd e 4) = 0) :
    ((g.leftoverTags p n 0 e e).coalesce e).2.get (wsub p 4) = pack n 1 := by
  obtain ⟨hp4, he8, he4, -⟩ := L.aligned
  obtain ⟨-, he, he32⟩ := L.ends
  obtain ⟨hmod, ⟨hf, hh⟩, hf4, hh4⟩ := links_ne_tags he he32
  have hhead := L.header (g := g)
  have htag := L.tagged (g := g)
  have hprev' : (g.leftoverTags p n 0 e e).get e = 0 :=
    (L.get (by omega) L.links_ne.1.symm hf hh hf).trans hprev
  have hnext' : (g.leftoverTags p n 0 e e).get (wadd e 4) = 0 :=
    (L.get hmod L.links_ne.2.symm hf4 hh4 hf4).trans hnext
  generalize g.leftoverTags p n 0 e e = g' at *
  have h0 : wadd e 0 = e := by
    rw [wadd]
    omega
  -- the tags of the empty leftover lead back to it, whoever reads them
  have hreads : ∀ x : Heap, x.get (wsub e 4) = pack 0 0 → x.nextBlkp e = e ∧ x.ftrp e = wsub e 8 :=
    fun x hx => by
      have hsize : x.getSize (wsub e 4) = 0 := Heap.getSize_of_pack hx rfl (by decide)
      simp only [Heap.nextBlkp, Heap.ftrp, hdrp, hsize, h0, and_self]
  have hback : ∀ x : Heap, x.get (wsub e 8) = pack 0 0 → x.prevBlkp e = e := fun x hx => by
    rw [Heap.prevBlkp, Heap.getSize_of_pack hx rfl (by decide)]
    exact (wsub_of_le (Nat.zero_le e)).trans (Nat.sub_zero e)
  -- the first removal forgets the free list, and no word changes
  have hkeep : ∀ w, (g'.setFreeListp 0).get w = g'.get w := fun w => g'.setFreeListp_get
  obtain ⟨hn, hf⟩ := hreads g' htag.1
  obtain ⟨hn₁, hf₁⟩ := hreads (g'.setFreeListp 0) ((hkeep _).trans htag.1)
  have hp := hback g' htag.2
  have hp₁ := hback (g'.setFreeListp 0) ((hkeep _).trans htag.2)
  have hpa : g'.getAlloc (wsub e 8) = 0 := Heap.getAlloc_of_pack htag.2 rfl (by decide)
  have hna : g'.getAlloc (wsub e 4) = 0 := Heap.getAlloc_of_pack htag.1 rfl (by decide)
  have hns : g'.getSize (wsub e 4) = 0 := Heap.getSize_of_pack htag.1 rfl (by decide)
  have hns₁ : (g'.setFreeListp 0).getSize (wsub e 4) = 0 :=
    Heap.getSize_of_pack ((hkeep _).trans htag.1) rfl (by decide)
  have hps₁ : (g'.setFreeListp 0).getSize (wsub e 8) = 0 :=
    Heap.getSize_of_pack ((hkeep _).trans htag.2) rfl (by decide)
  have hn0 : g'.next e = 0 := hnext'
  have hp0 : g'.prev e = 0 := hprev'
  have hrem := Heap.removeBlock_null hn0 hp0
  have hn0₁ : (g'.setFreeListp 0).next e = 0 := (hkeep _).trans hnext'
  have hp0₁ : (g'.setFreeListp 0).prev e = 0 := (hkeep _).trans hprev'
  have hrem₁ := Heap.removeBlock_null hn0₁ hp0₁
  rw [Heap.setFreeListp_setFreeListp] at hrem₁
  have hw : pack 0 0 < 2 ^ 32 := L.s_word (by decide)
  obtain ⟨hn₂, hf₂⟩ := hreads ((g'.setFreeListp 0).put (wsub e 4) (pack 0 0)) (Heap.get_put _ _ hw)
  have hp₃ := hback (((g'.setFreeListp 0).put (wsub e 4) (pack 0 0)).put (wsub e 8) (pack 0 0))
    (Heap.get_put _ _ hw)
  have hwadd : wadd 0 0 = 0 := rfl
  have hhdr : hdrp e = wsub e 4 := rfl
  have hcode : (g'.coalesce e).2 = (((g'.setFreeListp 0).put (wsub e 4) (pack 0 0)).put (wsub e 8)
      (pack 0 0)).insertBlock e := by
    simp only [Heap.coalesce, hp, hf, hn, hhdr, hpa, hna, hns, hrem, hn₁, hp₁, hf₁, hrem₁, hps₁,
      hns₁, hwadd, hn₂, hf₂, hp₃, ne_eq, not_true, false_and, and_false, if_false]
  have hpe := header_ne_footer L.p_mod he
  have hlist : (((g'.setFreeListp 0).put (wsub e 4) (pack 0 0)).put (wsub e 8)
      (pack 0 0)).freeListp % 8 = 0 := by
    rw [Heap.put_freeListp, Heap.put_freeListp, Heap.setFreeListp_freeListp]
  rw [hcode, L.insertBlock hlist,
    Heap.get_put_of_ne he8 hp4 hpe, Heap.get_put_of_ne he4 hp4 L.header_ne, hkeep, hhead]

/-- What is left of the chunk after the last block, whose new end may lie above the new break: it is
empty exactly where the block takes the whole chunk. -/
theorem Leftover.of_chunk {m brk : Nat} (hp : p % 8 = 0) (hend : p + m = brk)
    (hbrk : brk + 4096 < 2 ^ 32) (hn : n % 8 = 0) (hm : m % 8 = 0) (hmin : 16 ≤ m) (hlt : m < n)
    (hn16 : n + 16 < 2 ^ 32) (hs : wsub chunksize (n - m) = s) (hq : wadd p n = q) :
    Leftover p n s q (brk + 4096) ∧ (n = m + 4096 → s = 0 ∧ q = brk + 4096) ∧
      (n ≠ m + 4096 → q ≠ brk + 4096) := by
  obtain ⟨d, rfl⟩ : ∃ d, n = m + d := ⟨n - m, by omega⟩
  rw [Nat.add_sub_cancel_left] at hs
  have hq' : (p + (m + d)) % 2 ^ 32 = q := hq
  have hs' : (if d ≤ 4096 then 4096 - d else 4096 + 2 ^ 32 - d) = s := hs
  by_cases hd : d ≤ 4096
  · -- both ends lie at or below the break
    rw [if_pos hd] at hs'
    rw [Nat.mod_eq_of_lt (by omega)] at hq'
    have he : wadd q s = brk + 4096 := by
      rw [wadd_of_lt (by omega)]
      omega
    exact ⟨⟨hp, by omega, hn, by omega, hn16, by omega, by omega, hq, he⟩, by omega, by omega⟩
  · rw [if_neg hd] at hs'
    have he : wadd q s = brk + 4096 := by
      rw [wadd, ← hq', Nat.mod_add_mod]
      omega
    have hne : q ≠ brk + 4096 := fun hqe => by
      rw [hqe, wadd] at he
      omega
    exact ⟨⟨hp, by omega, hn, by omega, hn16, by omega, by omega, hq, he⟩, by omega, fun _ => hne⟩

/-- **The extension branch.** The header of the block holds its new size, whatever that is, unless
the leftover is empty and links are found above the new break. -/
theorem Heap.WellFormed.reallocExtend_header (H : h.WellFormed (pre ++ [b]) fl) (hb : b.alloc = true)
    (hext : (h.extendHeap (chunksize / wsize)).1 ≠ 0) (hmod : newsize % 8 = 0)
    (hgrow : b.size < newsize) (hlt : newsize + 16 < 2 ^ 32)
    (hlinks : newsize = b.size + chunksize →
      h.get (h.memBrk + chunksize) = 0 ∧ h.get (h.memBrk + chunksize + 4) = 0) :
    (h.reallocExtend b.bp newsize b.size).2.getSize (hdrp b.bp) = newsize := by
  obtain ⟨s, hs⟩ : ∃ s, wsub chunksize (newsize - b.size) = s := ⟨_, rfl⟩
  obtain ⟨g, -, hwf, hbrk, habove, g₁, g₂, g₃, g₄, hret, h₁, h₂, h₃, h₄⟩ :=
    H.reallocExtend_eq hb hext (Nat.le_of_lt hgrow) hs
  have hl := hwf.layout
  have hbm : b ∈ pre ++ [b, h.chunk] := by simp
  have hnb : h.chunk.bp = b.bp + b.size := hl.tiles.split.2.1
  have hnbp : h.chunk.bp = h.memBrk := rfl
  have hB := hl.bounds hbm
  have hbrk32 : h.memBrk + 4096 < 2 ^ 32 := hbrk ▸ hB.brk
  obtain ⟨hl₁, hk₁, hf₁⟩ := hl.removeBlock hwf.links hwf.listedIn List.mem_cons_self
  rw [List.erase_cons_head] at hk₁
  have hbrk₁ : (g.removeBlock h.chunk.bp).memBrk = h.memBrk + 4096 := hf₁.memBrk.trans hbrk
  obtain ⟨q, hq⟩ : ∃ q, wadd b.bp newsize = q := ⟨_, rfl⟩
  obtain ⟨L, hempty, hrest⟩ := Leftover.of_chunk (hl.bp_mod.1 b hbm) (hnb.symm.trans hnbp) hbrk32
    hmod hB.mod hB.size hgrow hlt hs hq
  have hheader : hdrp b.bp = wsub b.bp 4 := rfl
  rw [hret, hheader]
  dsimp only
  rw [L.mmFree h₁ h₂ h₃ h₄]
  refine Heap.getSize_of_pack ?_ hmod (show 1 < 8 by decide)
  by_cases hsame : newsize = b.size + 4096
  · -- the leftover is empty
    obtain ⟨rfl, rfl⟩ := hempty hsame
    obtain ⟨hprev, hnext⟩ := hlinks hsame
    have hwords : ∀ w, h.memBrk + 4096 ≤ w → (g.removeBlock h.chunk.bp).get w = h.get w :=
      fun w hw => Heap.get_congr fun x hx _ => by
        refine (hf₁.mem x (.inr (Nat.zero_le x)) fun y hy => .inr ?_).trans (habove x (by omega))
        obtain ⟨d, hd, -, rfl⟩ := hwf.mem_free y hy
        have := (hl.bounds hd).hi; have := (hl.bounds hd).size
        omega
    have hend := L.ends.2
    refine L.coalesce_empty ((hwords _ (Nat.le_refl _)).trans hprev) ?_
    rw [wadd_of_lt (show h.memBrk + 4096 + 4 < 2 ^ 32 by omega)]
    exact (hwords _ (by omega)).trans hnext
  · have := hB.size
    refine L.coalesce (hrest hsame) (by omega) ?_ ?_
    · have hepi := hl₁.epilogue
      rw [hbrk₁] at hepi
      rw [wsub_of_le (show 4 ≤ h.memBrk + 4096 by omega)]
      exact Heap.getAlloc_of_pack hepi rfl (by decide)
    · have hhead := hk₁
      cases fl with
      | nil =>
        have h0 : (g.removeBlock h.chunk.bp).freeListp = 0 := hhead
        rw [h0]
      | cons x fl =>
        rw [hhead.1]
        obtain ⟨d, hd, -, rfl⟩ := hwf.mem_free x (by simp)
        exact hl.bp_mod.1 d hd

/-! ## Sizes that wrap -/

/-- No block of a well-formed heap is as large as the last requests. -/
theorem Heap.not_sized (hs : 2 ^ 32 ≤ size + 31) : ¬ h.Sized p size := by
  rintro ⟨bs, fl, H, a, ha, -, hle⟩
  have hB := H.layout.bounds ha
  have := hB.lo; have := hB.hi; have := hB.mod; have := hB.brk; have := hB.listp
  have : size + 8 ≤ a.size := hle
  omega

/-- From `2 ^ 32 - 15` on the adjusted size of a request is less than a minimum block. -/
theorem adjust_wraps (hlt : size < 2 ^ 32) (hw : 2 ^ 32 ≤ size + 15) :
    adjust size = if size + 7 < 2 ^ 32 then 0 else 8 := by
  have hsize : ¬ size ≤ dsize := fun hle => by
    have : size ≤ 8 := hle
    omega
  rw [adjust, if_neg hsize]
  show 8 * (((size + 8) % 2 ^ 32 + 7) % 2 ^ 32 / 8) = _
  split <;> omega

/-- Where no block fits, the heap is extended by a chunk for it. -/
theorem adjust_wrapped (hlt : size < 2 ^ 32) (hw : 2 ^ 32 ≤ size + 15) :
    adjust size ≤ 8 ∧ max (adjust size) chunksize / wsize = 1024 := by
  have hsmall : adjust size ≤ 8 := by
    rw [adjust_wraps hlt hw]
    split <;> omega
  refine ⟨hsmall, ?_⟩
  rw [Nat.max_eq_right (show adjust size ≤ 4096 by omega)]
  rfl

/-- A wrapped request is served as any other: with the first free block, or from a chunk. -/
theorem Heap.WellFormed.mmMalloc_wraps (H : h.WellFormed bs fl) (hlt : size < 2 ^ 32)
    (hw : 2 ^ 32 ≤ size + 15) (hfull : ¬ h.Full) :
    ∃ p h', h.mmMalloc size = some (p, h') ∧ p ≠ 0 := by
  obtain ⟨hsmall, hwords⟩ := adjust_wrapped hlt hw
  have h0 : size ≠ 0 := by omega
  obtain ⟨r, hr, hfit⟩ := H.findFit (adjust size)
  rcases hfit with ⟨rfl, hnone⟩ | ⟨hr0, -⟩
  · -- every free block would fit
    have hfree : h.freeListp = 0 := by
      by_contra h0
      obtain ⟨-, d, hd, hda, -⟩ := H.head_free h0
      have := hnone d hd hda
      have := (H.layout.bounds hd).size
      omega
    have hroom : ¬ h.memMaxAddr < h.memBrk + 4096 := fun hno => hfull ⟨hfree, hno⟩
    have hext := H.extendHeap_ne (show 1024 % 2 = 0 by decide) (by decide)
      (show 1024 * 4 < 2 ^ 31 ∧ h.memBrk + 1024 * 4 ≤ h.memMaxAddr by omega)
    rw [Heap.mmMalloc_extends h0 hr hwords, if_neg hext]
    exact ⟨_, _, rfl, hext⟩
  · exact ⟨r, _, Heap.mmMalloc_fits h0 hr hr0, hr0⟩

/-- Where there is no memory at all it is refused. -/
theorem Heap.WellFormed.mmMalloc_full (H : h.WellFormed bs fl) (hlt : size < 2 ^ 32)
    (hw : 2 ^ 32 ≤ size + 15) (hfull : h.Full) : h.mmMalloc size = some (0, h) := by
  obtain ⟨hsmall, hwords⟩ := adjust_wrapped hlt hw
  have h0 : size ≠ 0 := by omega
  obtain ⟨r, hr, hfit⟩ := H.findFit (adjust size)
  obtain rfl : r = 0 := by
    rcases hfit with ⟨h0, -⟩ | ⟨hr0, d, hd, -, hda, -⟩
    · exact h0
    · have := H.mem_list hd hda
      rw [(Linked.head_eq_null H.links).1 hfull.1] at this
      cases this
  have hno : h.memMaxAddr < h.memBrk + 4096 := hfull.2
  have hfail := h.extendHeap_fail (show 1024 % 2 = 0 by decide) (by decide)
    (show ¬ (1024 * 4 < 2 ^ 31 ∧ h.memBrk + 1024 * 4 ≤ h.memMaxAddr) by omega)
  rw [Heap.mmMalloc_extends h0 hr hwords, hfail, if_pos rfl]

/-- `mm_malloc` on every size. -/
theorem Heap.WellFormed.mallocSized_iff (H : h.WellFormed bs fl) (hlt : size < 2 ^ 32) :
    h.MallocSized size ↔ size + 15 < 2 ^ 32 ∨ h.Full := by
  constructor
  · intro hs
    by_contra hno
    rw [not_or] at hno
    obtain ⟨p, h', hm, hp⟩ := H.mmMalloc_wraps hlt (by omega) hno.2
    exact Heap.not_sized (by omega) (hs p h' hm hp)
  · intro hc p h' hm hp
    by_cases hw : size + 15 < 2 ^ 32
    · rcases H.mmMalloc hw with hnull | ⟨a, g, bs', fl', hret, -, A⟩
      · rw [hm] at hnull
        cases hnull
        exact absurd rfl hp
      · rw [hm] at hret
        cases hret
        have ha : a ∈ bs' := (mem_allocs.1 (A.added.mem_iff.2 List.mem_cons_self)).1
        exact ⟨bs', fl', A.wellFormed, a, ha, rfl, A.size⟩
    · rw [H.mmMalloc_full hlt (by omega) (hc.resolve_left hw)] at hm
      cases hm
      exact absurd rfl hp

/-- A wrapped size, or a size whose sum with the minimum wraps, passes for a smaller one. -/
theorem Heap.Layout.reallocBranch_wraps (hl : h.Layout bs) (hbm : b ∈ bs) (hlt : size < 2 ^ 32)
    (hw : 2 ^ 32 ≤ size + 31) (hno : ¬ (2 ^ 32 ≤ size + 7 ∧ b.size = 16)) :
    h.reallocBranch b.bp (adjust size) b.size = .shrink := by
  have hB := hl.bounds hbm
  have := hB.size; have := hB.mod; have := hB.lo; have := hB.hi; have := hB.brk; have := hB.listp
  have hguard : adjust size ≠ b.size ∧ (adjust size + 16) % 2 ^ 32 ≤ b.size := by
    by_cases hs : size + 15 < 2 ^ 32
    · obtain ⟨hmod, hmin, hle, hmax⟩ := adjust_spec hs
      omega
    · rw [adjust_wraps hlt (by omega)]
      split <;> omega
  rw [Heap.reallocBranch, if_neg hguard.1]
  exact if_pos hguard.2

/-- So the block is split, and returned. -/
theorem Heap.Layout.mmRealloc_wraps (hl : h.Layout bs) (hbm : b ∈ bs) (h1 : 1 ≤ size)
    (hlt : size < 2 ^ 32) (hw : 2 ^ 32 ≤ size + 31) (hno : ¬ (2 ^ 32 ≤ size + 7 ∧ b.size = 16)) :
    h.mmRealloc b.bp size = some (.ret b.bp (h.reallocShrink b.bp (adjust size) b.size)) := by
  have := (hl.bounds hbm).lo; have := (hl.bounds hbm).listp
  rw [Heap.mmRealloc_eq (by omega) h1 (hl.getSize hbm), hl.reallocBranch_wraps hbm hlt hw hno]

/-- `mm_realloc` on every size. -/
theorem Heap.WellFormed.reallocSized_iff (H : h.WellFormed (pre ++ b :: post) fl)
    (hb : b.alloc = true) (h1 : 1 ≤ size) (hlt : size < 2 ^ 32) (hstale : ¬ h.StaleLinks b.bp size) :
    h.ReallocSized b.bp size ↔ size + 31 < 2 ^ 32 ∨ 2 ^ 32 ≤ size + 7 ∧ b.size = 16 ∧ h.Full := by
  have hbm : b ∈ pre ++ b :: post := by simp
  have hl := H.layout
  have hB := hl.bounds hbm
  have := hB.lo; have := hB.listp
  have hret := Heap.mmRealloc_eq (show b.bp ≠ 0 by omega) h1 (hl.getSize hbm)
  rw [Heap.ReallocSized, hl.getSize hbm]
  rw [Heap.StaleLinks, hl.getSize hbm] at hstale
  by_cases hsmall : size + 31 < 2 ^ 32
  · refine iff_of_true (fun p h' hr hp => ?_) (.inl hsmall)
    obtain ⟨hmod, -, hsz, hmax⟩ := adjust_spec (show size + 15 < 2 ^ 32 by omega)
    split
    · next hbr =>
      have hcase := hl.reallocBranch_case (show adjust size + 16 < 2 ^ 32 by omega)
      rw [hbr] at hcase hret
      obtain ⟨hgrow, rfl⟩ := hcase
      cases hr.symm.trans hret
      have hext : (h.extendHeap (chunksize / wsize)).1 ≠ 0 := fun h0 => hp (by
        simp only [Heap.reallocExtend, h0, if_true])
      have hroom : h.memBrk + 4096 ≤ h.memMaxAddr := by
        by_contra hno
        refine hext (congrArg Prod.fst (h.extendHeap_fail (show 1024 % 2 = 0 by decide) (by decide)
          (show ¬ (1024 * 4 < 2 ^ 31 ∧ h.memBrk + 1024 * 4 ≤ h.memMaxAddr) by omega)))
      have hsame : (h.reallocExtend b.bp (adjust size) b.size).1 = b.bp :=
        (Heap.reallocExtend_frame (Prod.ext rfl rfl) hext).1
      rw [hsame, H.reallocExtend_header hb hext hmod hgrow (by omega) fun heq =>
        not_not.1 fun hlinks => hstale ⟨hbr, hroom, heq, hlinks⟩]
      exact hsz
    · next hbr =>
      rcases H.mmRealloc hb h1 hsmall hbr with
        hexit | ⟨q, g, hq, ⟨bs', fl', a, hwf, hbp, ha, hsize, hall, -⟩, -⟩
      · cases hr.symm.trans hexit
      · cases hr.symm.trans hq
        exact ⟨bs', fl', hwf, a, (mem_allocs.1 (hall.mem_iff.2 List.mem_cons_self)).1, hbp, hsize⟩
  · have hbig : 2 ^ 32 ≤ size + 31 := by omega
    by_cases hlast : 2 ^ 32 ≤ size + 7 ∧ b.size = 16
    · -- the wrapped size is less than the block, by too little to split it
      have hadj : adjust size = 8 := by
        rw [adjust_wraps hlt (by omega), if_neg (show ¬ size + 7 < 2 ^ 32 by omega)]
      have hbr : h.reallocBranch b.bp (adjust size) b.size = .mallocCopyFree := by
        rw [hadj, hlast.2]
        rfl
      rw [hbr] at hret ⊢
      by_cases hfull : h.Full
      · refine iff_of_true (fun p h' hr _ => ?_) (.inr ⟨hlast.1, hlast.2, hfull⟩)
        have hexit := hret.trans (Heap.reallocMove_null (H.mmMalloc_full hlt (by omega) hfull))
        cases hr.symm.trans hexit
      · refine iff_of_false (fun hs => ?_) (by tauto)
        obtain ⟨p, h', hm, hp⟩ := H.mmMalloc_wraps hlt (by omega) hfull
        obtain ⟨g, hg⟩ : ∃ g, h.reallocMove b.bp size b.size = some (.ret p g) :=
          Heap.reallocMove_ret hm hp
        exact Heap.not_sized hbig (hs _ _ (hret.trans hg) hp)
    · rw [hl.reallocBranch_wraps hbm hlt hbig hlast]
      refine iff_of_false (fun hs => ?_) (by tauto)
      exact Heap.not_sized hbig (hs _ _ (hl.mmRealloc_wraps hbm h1 hlt hbig hlast) (by omega))

/-- **Sizes.** A pointer that `mm_malloc` or `mm_realloc` returns for a size of at least 1 is that
of a block with room for it, exactly when the size is not among the last ones, or is refused for
want of memory. -/
theorem sizes_iff (H : h.WellFormed bs fl) (h1 : 1 ≤ size) (hlt : size < 2 ^ 32) :
    (h.MallocSized size ↔ size + 15 < 2 ^ 32 ∨ h.Full) ∧
      ∀ b ∈ bs, b.alloc = true → ¬ h.StaleLinks b.bp size →
        (h.ReallocSized b.bp size ↔
          size + 31 < 2 ^ 32 ∨ 2 ^ 32 ≤ size + 7 ∧ h.getSize (hdrp b.bp) = minimum ∧ h.Full) := by
  refine ⟨H.mallocSized_iff hlt, fun b hbm hb hstale => ?_⟩
  rw [H.layout.getSize hbm]
  obtain ⟨pre, post, rfl⟩ := List.append_of_mem hbm
  exact H.reallocSized_iff hb h1 hlt hstale

end

/-- A request for 100 bytes. -/
theorem sizes_iff_hundred : oneBlock.MallocSized 100 ∧ oneBlock.ReallocSized 24 100 := by
  obtain ⟨hm, hr⟩ := sizes_iff oneBlock_wellFormed (show 1 ≤ 100 by decide) (by decide)
  exact ⟨hm.2 (.inl (by decide)), (hr ⟨24, 4096, true⟩ (List.mem_singleton_self _) rfl
    fun hs => oneBlock_shrink.1 hs.1).2 (.inl (by decide))⟩

/-- In the heap of one block a request for all but one byte of the address space is served with a
block for 8 bytes, and the block is split for a request of 16 bytes less: both calls return a
pointer, and neither finds room there. -/
theorem sizes_wrap : oneBlock.WellFormed [⟨24, 4096, true⟩] [] ∧
    (∃ p h, oneBlock.mmMalloc (2 ^ 32 - 1) = some (p, h) ∧ p ≠ 0 ∧ ¬ h.Sized p (2 ^ 32 - 1)) ∧
    oneBlock.reallocBranch 24 (adjust (2 ^ 32 - 17)) (oneBlock.getSize (hdrp 24)) ≠ .extend ∧
    ∃ h, oneBlock.mmRealloc 24 (2 ^ 32 - 17) = some (.ret 24 h) ∧ ¬ h.Sized 24 (2 ^ 32 - 17) := by
  have H := oneBlock_wellFormed
  have hbm : ⟨24, 4096, true⟩ ∈ [(⟨24, 4096, true⟩ : Block)] := List.mem_singleton_self _
  have hroom : ¬ oneBlock.Full := fun hf => absurd hf.2 (by decide)
  obtain ⟨p, h, hm, hp⟩ := H.mmMalloc_wraps (show 2 ^ 32 - 1 < 2 ^ 32 by decide) (by decide) hroom
  have hno : ¬ (2 ^ 32 ≤ 2 ^ 32 - 17 + 7 ∧ 4096 = 16) := by decide
  have hbr := H.layout.reallocBranch_wraps hbm (show 2 ^ 32 - 17 < 2 ^ 32 by decide) (by decide) hno
  have hret := H.layout.mmRealloc_wraps hbm (show 1 ≤ 2 ^ 32 - 17 by decide) (by decide) (by decide)
    hno
  have hsize := H.layout.getSize hbm
  dsimp only at hbr hret hsize
  refine ⟨H, ⟨p, h, hm, hp, Heap.not_sized (by decide)⟩, ?_, _, hret, Heap.not_sized (by decide)⟩
  rw [hsize, hbr]
  exact nofun

end Malloc
