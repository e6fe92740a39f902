import Styrikerfi.Malloc.Realloc
import Styrikerfi.Malloc.Ledger

/-!
# The calls of `memcpy`

`memcpy` may not be called on ranges that overlap. `mm_realloc` calls it in three branches, always
on ranges inside the heap. The copy to a new block is to another block; the copy into the free block
before the argument moves the whole block down by the size of that block, so its ranges are apart
exactly when the free block is not the smaller of the two (`memcpy_legal_iff`).
-/

namespace Malloc

open Machine32 Tiling LinkedList

/-- The byte belongs to a block of the layout, its header and footer included, or to the
epilogue. -/
def Heap.InBlocks (h : Heap) (bs : List Block) (q : Nat) : Prop :=
  (∃ b ∈ bs, b.bp ≤ q + 4 ∧ q + 4 < b.bp + b.size) ∨ h.memBrk ≤ q + 4 ∧ q < h.memBrk

/-- The ranges of the call do not overlap, and lie inside blocks and block tags of its heap. -/
structure Memcpy.Legal (c : Memcpy) : Prop where
  apart : c.dst + c.n ≤ c.src ∨ c.src + c.n ≤ c.dst
  inside : ∃ bs, c.heap.Layout bs ∧ ∀ q,
    c.dst ≤ q ∧ q < c.dst + c.n ∨ c.src ≤ q ∧ q < c.src + c.n → c.heap.InBlocks bs q

section
variable {h g : Heap} {bs pre post : List Block} {a b n p u : Block} {fl : List Nat} {c : Memcpy}
  {size newsize q : Nat}

/-- Between the prologue's footer and the break there are only blocks and their tags. -/
theorem Heap.Layout.inBlocks (hl : h.Layout bs) (hlo : h.heapListp + 4 ≤ q) (hhi : q < h.memBrk) :
    h.InBlocks bs q := by
  by_cases hend : q + 4 < h.memBrk
  · obtain ⟨b, hb, h1, h2⟩ := hl.tiles.exists_mem (show h.heapListp + 8 ≤ q + 4 by omega) hend
    exact .inl ⟨b, hb, h1, h2⟩
  · exact .inr ⟨by omega, hhi⟩

/-- A block moved down inside a larger one does not reach its old place exactly when it moves down
by at least its own size. -/
theorem Memcpy.legal_iff (hl : g.Layout bs) (hu : u ∈ bs) (hlo : u.bp + p.size = b.bp)
    (hhi : b.bp + b.size ≤ u.bp + u.size) :
    Memcpy.Legal ⟨g, u.bp, b.bp, b.size⟩ ↔ b.size ≤ p.size := by
  have hB := hl.bounds hu
  have := hB.lo; have := hB.hi; have := hB.size
  constructor
  · intro hc
    have : u.bp + b.size ≤ b.bp ∨ b.bp + b.size ≤ u.bp := hc.apart
    omega
  · intro hle
    refine ⟨.inl (show u.bp + b.size ≤ b.bp by omega), bs, hl, fun q hq => hl.inBlocks ?_ ?_⟩
    · have : u.bp ≤ q ∧ q < u.bp + b.size ∨ b.bp ≤ q ∧ q < b.bp + b.size := hq
      show g.heapListp + 4 ≤ q
      omega
    · have : u.bp ≤ q ∧ q < u.bp + b.size ∨ b.bp ≤ q ∧ q < b.bp + b.size := hq
      show q < g.memBrk
      omega

/-- A copy into the free block before. -/
theorem Heap.WellFormed.absorbPrevMemcpy_iff (H : h.WellFormed ((pre ++ [p]) ++ b :: post) fl)
    (hb : b.alloc = true) (hp : p.alloc = false) (hlt : b.size < newsize)
    (hle : newsize ≤ b.size + p.size) :
    (h.absorbPrevMemcpy b.bp newsize b.size).Legal ↔ b.size ≤ p.size := by
  have hpb : p.bp + p.size = b.bp := by simpa using H.layout.before.2.1
  obtain ⟨g, u, fl', hc, hwf, hubp, husize, -⟩ := H.absorbPrevMemcpy hb hp hlt hle
  rw [hc]
  exact Memcpy.legal_iff hwf.layout (by simp) (by omega) (by omega)

/-- The same, when the free block after is taken over too. -/
theorem Heap.WellFormed.absorbBothMemcpy_iff
    (H : h.WellFormed ((pre ++ [p]) ++ b :: n :: post) fl) (hb : b.alloc = true)
    (hp : p.alloc = false) (hn : n.alloc = false) (hlt : b.size < newsize)
    (hle : newsize ≤ b.size + (p.size + n.size)) :
    (h.absorbBothMemcpy b.bp newsize b.size).Legal ↔ b.size ≤ p.size := by
  have hpb : p.bp + p.size = b.bp := by simpa using H.layout.before.2.1
  obtain ⟨g, u, fl', hc, hwf, hubp, husize, -⟩ := H.absorbBothMemcpy hb hp hn hlt hle
  rw [hc]
  exact Memcpy.legal_iff hwf.layout (by simp) (by omega) (by omega)

/-- A copy to a new block is legal: the old block is still allocated, so the new one is another. -/
theorem Heap.WellFormed.moveMemcpy_legal (H : h.WellFormed bs fl) (hbm : b ∈ bs)
    (hb : b.alloc = true) (hlt : size + 15 < 2 ^ 32)
    (hc : h.moveMemcpy b.bp size b.size = some c) : c.Legal := by
  obtain ⟨⟨newp, g⟩, hm, hc⟩ := Option.bind_eq_some_iff.1 hc
  dsimp only at hc
  split at hc
  · cases hc
  next hnew =>
  cases hc
  rcases H.mmMalloc hlt with hnull | ⟨a, g', bs', fl', hp, -, A⟩
  · rw [hm] at hnull
    cases hnull
    exact absurd rfl hnew
  rw [hm] at hp
  cases hp
  have hl := A.wellFormed.layout
  have hold : b ∈ allocs bs := mem_allocs.2 ⟨hbm, hb⟩
  have ham : a ∈ bs' := (mem_allocs.1 (A.added.mem_iff.2 List.mem_cons_self)).1
  have hbm' : b ∈ bs' :=
    (mem_allocs.1 (A.added.mem_iff.2 (List.mem_cons_of_mem _ hold))).1
  have hne : a ≠ b := by
    rintro rfl
    exact (List.nodup_cons.1 (A.added.nodup_iff.1 A.wellFormed.allocs_nodup)).1 hold
  have hA := hl.bounds ham; have hB := hl.bounds hbm'
  have := hA.lo; have := hA.hi; have := hB.lo; have := hB.hi; have := A.size
  have hapart := hl.apart ham hbm' hne
  obtain ⟨k, hk⟩ : ∃ k, k = if size < b.size then size else b.size := ⟨_, rfl⟩
  have hkle : k ≤ size ∧ k ≤ b.size := by rw [hk]; split <;> omega
  rw [← hk]
  refine ⟨?_, bs', hl, fun q hq => ?_⟩
  · show a.bp + k ≤ b.bp ∨ b.bp + k ≤ a.bp
    omega
  · have : a.bp ≤ q ∧ q < a.bp + k ∨ b.bp ≤ q ∧ q < b.bp + k := hq
    exact hl.inBlocks (by omega) (by omega)

/-- **Copies.** The call of `memcpy` that `mm_realloc` makes is legal exactly when the block, if it
is copied into the free block before it, is not larger than that block. -/
theorem memcpy_legal_iff (H : h.WellFormed bs fl) (hbm : b ∈ bs) (hb : b.alloc = true)
    (h1 : 1 ≤ size) (hlt : size < 2 ^ 31) :
    (∀ c, h.reallocMemcpy b.bp size = some c → c.Legal) ↔
      (h.reallocBranch b.bp (adjust size) (h.getSize (hdrp b.bp)) = .absorbPrev ∨
          h.reallocBranch b.bp (adjust size) (h.getSize (hdrp b.bp)) = .absorbBoth →
        h.getSize (hdrp b.bp) ≤ h.getSize (hdrp (h.prevBlkp b.bp))) := by
  have hl := H.layout
  have hbp : ¬ (b.bp = 0 ∨ size = 0) := by
    have := (hl.bounds hbm).lo
    omega
  obtain ⟨hmod, hmin, hsz, hmax⟩ := adjust_spec (show size + 15 < 2 ^ 32 by omega)
  simp only [Heap.reallocMemcpy, if_neg hbp, hl.getSize hbm]
  obtain ⟨pre, post, rfl⟩ := List.append_of_mem hbm
  have hcase := hl.reallocBranch_case (show adjust size + 16 < 2 ^ 32 by omega)
  have hprev : ∀ {pre' p}, pre = pre' ++ [p] → h.getSize (hdrp (h.prevBlkp b.bp)) = p.size := by
    rintro pre' p rfl
    rw [hl.prev_size, Heap.before_concat]
  cases hbranch : h.reallocBranch b.bp (adjust size) b.size with rw [hbranch] at hcase
  | absorbPrev =>
    obtain ⟨hgrow, pre', p, rfl, hp, hle⟩ := hcase
    simpa [hprev rfl] using H.absorbPrevMemcpy_iff hb hp hgrow hle
  | absorbBoth =>
    obtain ⟨hgrow, pre', p, n, post', rfl, hp, rfl, hn, hle⟩ := hcase
    simpa [hprev rfl] using H.absorbBothMemcpy_iff hb hp hn hgrow hle
  | mallocCopyFree =>
    exact iff_of_true (fun c => H.moveMemcpy_legal (by simp) hb (by omega)) (by simp)
  | _ => exact iff_of_true (by simp) (by simp)

/-- The last block moves into a free block before it that makes up for the growth. -/
theorem Heap.Layout.reallocBranch_prev (hl : h.Layout ((pre ++ [p]) ++ [b]))
    (hp : p.alloc = false) (hgrow : b.size < newsize) (hle : newsize ≤ b.size + p.size) :
    h.reallocBranch b.bp newsize b.size = .absorbPrev := by
  have hnext : h.getAlloc (hdrp (h.nextBlkp b.bp)) = 1 := hl.next_alloc
  have hprev : h.getAlloc (hdrp (h.prevBlkp b.bp)) = 0 := by
    rw [hl.prev_header_alloc, Heap.before_concat, hp]
    rfl
  have hsize : h.getSize (hdrp (h.prevBlkp b.bp)) = p.size := by
    rw [hl.prev_size, Heap.before_concat]
  have hpb : p.bp + p.size = b.bp := by simpa using hl.before.2.1
  have hB := hl.bounds (b := b) (by simp)
  have := hB.hi; have := hB.brk; have := hB.lo
  have := (hl.bounds (b := p) (by simp)).lo; have := hl.listp
  have hadd : wadd newsize minimum = newsize + 16 :=
    wadd_of_lt (show newsize + 16 < 2 ^ 32 by omega)
  have hsub : wsub newsize b.size = newsize - b.size := wsub_of_le (by omega)
  have hshrink : ¬ wadd newsize minimum ≤ b.size := by omega
  have hfit : newsize - b.size ≤ p.size := by omega
  simp [Heap.reallocBranch, hnext, hprev, hsize, hsub, hshrink, hgrow, Nat.ne_of_gt hgrow, hfit]

end

/-- A block of 2048 bytes behind a free block of 2048 bytes grows: its copy is legal. -/
theorem memcpy_legal_iff_equal : ∃ h s c, (memInit (fun _ => 0) 8).memResetBrk.mmInit = (0, h) ∧
    exec Session.step ⟨h, []⟩ [.malloc 2040, .malloc 2040, .free 24] = some s ∧
    s.heap.reallocMemcpy 2072 2048 = some c ∧ c.Legal := by
  obtain ⟨l, hl⟩ : ∃ l, exec Ledger.step (.init 8 (8 + maxHeap))
      [.malloc 2040, .malloc 2040, .free 24] = some l := ⟨_, rfl⟩
  obtain ⟨h, s, hi, hs, F⟩ := memInit_zero_exec hl
  obtain ⟨p, hp⟩ : ∃ p : Block, p = ⟨24, 2048, false⟩ := ⟨_, rfl⟩
  obtain ⟨b, hb⟩ : ∃ b : Block, b = ⟨2072, 2048, true⟩ := ⟨_, rfl⟩
  have hblocks : l.shape.blocks = ([] ++ [p]) ++ [b] := by
    cases hl
    rw [hp, hb]
    rfl
  have H := F.inv.wellFormed
  rw [hblocks] at H
  have hbr : s.heap.reallocBranch b.bp (adjust 2048) b.size = .absorbPrev :=
    H.layout.reallocBranch_prev (by rw [hp]) (by rw [hb]; decide) (by rw [hp, hb]; decide)
  have hsize : s.heap.getSize (hdrp b.bp) = b.size := H.layout.getSize (by simp)
  have hprev : s.heap.getSize (hdrp (s.heap.prevBlkp b.bp)) = p.size := by
    rw [H.layout.prev_size, Heap.before_concat]
  have hc : s.heap.reallocMemcpy b.bp 2048 =
      some (s.heap.absorbPrevMemcpy b.bp (adjust 2048) b.size) := by
    have h0 : ¬ (b.bp = 0 ∨ 2048 = 0) := by simp [hb]
    simp only [Heap.reallocMemcpy, if_neg h0, hsize, hbr]
  refine ⟨h, s, _, hi, hs, hb ▸ hc, (memcpy_legal_iff H (b := b) (by simp) (by rw [hb])
    (by decide) (by decide)).2 (fun _ => ?_) _ hc⟩
  rw [hsize, hprev, hp, hb]

/-- A block of 4080 bytes behind a free block of 16 bytes grows by 8: all of it is copied down by 16
bytes, onto itself. -/
theorem memcpy_overlap : ∃ h s c, (memInit (fun _ => 0) 8).memResetBrk.mmInit = (0, h) ∧
    exec Session.step ⟨h, []⟩ [.malloc 8, .malloc 4072, .free 24] = some s ∧
    s.heap.WellFormed [⟨24, 16, false⟩, ⟨40, 4080, true⟩] [24] ∧
    s.heap.reallocMemcpy 40 4080 = some c ∧ c.dst = 24 ∧ c.src = 40 ∧ c.n = 4080 ∧ ¬ c.Legal := by
  obtain ⟨l, hl⟩ : ∃ l, exec Ledger.step (.init 8 (8 + maxHeap))
      [.malloc 8, .malloc 4072, .free 24] = some l := ⟨_, rfl⟩
  obtain ⟨h, s, hi, hs, F⟩ := memInit_zero_exec hl
  obtain ⟨p, hp⟩ : ∃ p : Block, p = ⟨24, 16, false⟩ := ⟨_, rfl⟩
  obtain ⟨b, hb⟩ : ∃ b : Block, b = ⟨40, 4080, true⟩ := ⟨_, rfl⟩
  have hblocks : l.shape.blocks = ([] ++ [p]) ++ [b] ∧ l.shape.list = [24] := by
    cases hl
    rw [hp, hb]
    exact ⟨rfl, rfl⟩
  have H := F.inv.wellFormed
  rw [hblocks.1, hblocks.2] at H
  have hpa : p.alloc = false := by rw [hp]
  have hba : b.alloc = true := by rw [hb]
  have hgrow : b.size < adjust 4080 := by rw [hb]; decide
  have hle : adjust 4080 ≤ b.size + p.size := by rw [hp, hb]; decide
  have hbr := H.layout.reallocBranch_prev hpa hgrow hle
  have hsize : s.heap.getSize (hdrp b.bp) = b.size := H.layout.getSize (by simp)
  have hc : s.heap.reallocMemcpy b.bp 4080 =
      some (s.heap.absorbPrevMemcpy b.bp (adjust 4080) b.size) := by
    have h0 : ¬ (b.bp = 0 ∨ 4080 = 0) := by simp [hb]
    simp only [Heap.reallocMemcpy, if_neg h0, hsize, hbr]
  obtain ⟨g, u, fl', hg, -, hubp, -⟩ := H.absorbPrevMemcpy hba hpa hgrow hle
  have hlegal := H.absorbPrevMemcpy_iff hba hpa hgrow hle
  rw [hg] at hc hlegal
  rw [hp, hb] at H
  refine ⟨h, s, _, hi, hs, H, hb ▸ hc, hubp.trans (by rw [hp]), by rw [hb], by rw [hb],
    fun hc => absurd (hlegal.1 hc) (by rw [hp, hb]; decide)⟩

end Malloc
