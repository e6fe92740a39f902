import Styrikerfi.Malloc.Allocate

/-!
# Reallocation without extending the heap

`mm_realloc` on an allocated block of a well-formed heap, in every branch but the one that extends
the heap. The three absorbing branches take free neighbours off the list and tag the union as one
allocated block (`WellFormed.absorb`); the copy that follows stays inside the payload of the union,
also where it moves the block's own tags along. Each branch leaves the allocated blocks other than
its argument as they were (`Heap.Reallocated`), and the old contents at the new address, as far as
the request goes (`Heap.Moved`).
-/

namespace Malloc

open Machine32 Tiling LinkedList

/-- The heap `h'` is well formed, `p` is an allocated block of it with room for `size` bytes, and
its other allocated blocks are `others`, with their payloads as in `h`. -/
def Heap.Reallocated (h : Heap) (others : List Block) (size p : Nat) (h' : Heap) : Prop :=
  ∃ bs fl a, h'.WellFormed bs fl ∧ a.bp = p ∧ a.alloc = true ∧ size + 8 ≤ a.size ∧
    (allocs bs).Perm (a :: others) ∧ h.Keeps h' others

/-- The `n` bytes from `dst` on are those that were at `src`. -/
def Heap.Moved (h h' : Heap) (src dst n : Nat) : Prop := ∀ i < n, h'.mem (dst + i) = h.mem (src + i)

/-- The allocated block that a run of neighbours makes together. -/
def Block.absorb (mid : List Block) : Block := { Block.union mid with alloc := true }

section
variable {h h' g : Heap} {bs pre post l r others : List Block} {b c n p u : Block}
  {fl fl₁ : List Nat} {size newsize copySize ptr : Nat}

/-! ## Branches -/

/-- The guard of a branch. -/
def Heap.BranchGuard (h : Heap) (ptr newsize copySize : Nat) : Branch → Prop
  | .unchanged => newsize = copySize
  | .shrink => wadd newsize minimum ≤ copySize
  | .absorbNext => copySize < newsize ∧ h.getAlloc (hdrp (h.nextBlkp ptr)) = 0 ∧
      wsub newsize copySize ≤ h.getSize (hdrp (h.nextBlkp ptr))
  | .absorbPrev => copySize < newsize ∧ h.getAlloc (hdrp (h.prevBlkp ptr)) = 0 ∧
      wsub newsize copySize ≤ h.getSize (hdrp (h.prevBlkp ptr))
  | .absorbBoth => copySize < newsize ∧ h.getAlloc (hdrp (h.prevBlkp ptr)) = 0 ∧
      h.getAlloc (hdrp (h.nextBlkp ptr)) = 0 ∧ wsub newsize copySize ≤
        wadd (h.getSize (hdrp (h.prevBlkp ptr))) (h.getSize (hdrp (h.nextBlkp ptr)))
  | .extend => copySize < newsize ∧ h.getSize (hdrp (h.nextBlkp ptr)) = 0
  | .mallocCopyFree => True

/-- A branch is taken under its guard. -/
theorem Heap.reallocBranch_guard (h : Heap) (ptr newsize copySize : Nat) :
    h.BranchGuard ptr newsize copySize (h.reallocBranch ptr newsize copySize) := by
  unfold Heap.reallocBranch
  dsimp only
  split_ifs with h1 h2 h3 h4 h5 h6
  · exact h1
  · exact h2
  · exact h3
  · exact h4
  · exact h5
  · exact h6
  · trivial

/-- What a branch says about the blocks around its argument. -/
def BranchCase (pre : List Block) (b : Block) (post : List Block) (newsize : Nat) : Branch → Prop
  | .unchanged => newsize = b.size
  | .shrink => newsize + 16 ≤ b.size
  | .absorbNext => b.size < newsize ∧ ∃ n post', post = n :: post' ∧ n.alloc = false ∧
      newsize ≤ b.size + n.size
  | .absorbPrev => b.size < newsize ∧ ∃ pre' p, pre = pre' ++ [p] ∧ p.alloc = false ∧
      newsize ≤ b.size + p.size
  | .absorbBoth => b.size < newsize ∧ ∃ pre' p n post', pre = pre' ++ [p] ∧ p.alloc = false ∧
      post = n :: post' ∧ n.alloc = false ∧ newsize ≤ b.size + (p.size + n.size)
  | .extend => b.size < newsize ∧ post = []
  | .mallocCopyFree => True

/-- The guard of the branch taken, read off the layout. -/
theorem Heap.Layout.reallocBranch_case (hl : h.Layout (pre ++ b :: post))
    (hlt : newsize + 16 < 2 ^ 32) :
    BranchCase pre b post newsize (h.reallocBranch b.bp newsize b.size) := by
  have hB := hl.bounds (b := b) (by simp)
  have := hB.fits.lo; have := hB.brk; have := hB.hi
  have hwsub : b.size < newsize → wsub newsize b.size = newsize - b.size :=
    fun hgrow => wsub_of_le (by omega)
  have hnext : h.getAlloc (hdrp (h.nextBlkp b.bp)) = 0 → ∃ n post', post = n :: post' ∧
      n.alloc = false ∧ h.getSize (hdrp (h.nextBlkp b.bp)) = n.size := fun ha => by
    rw [hl.next_alloc] at ha
    obtain ⟨n, post', rfl, hn⟩ := after_free (Bool.toNat_eq_zero.1 ha)
    exact ⟨n, post', rfl, hn, by rw [hl.next_size]; rfl⟩
  have hprev : h.getAlloc (hdrp (h.prevBlkp b.bp)) = 0 → ∃ pre' p, pre = pre' ++ [p] ∧
      p.alloc = false ∧ h.getSize (hdrp (h.prevBlkp b.bp)) = p.size := fun ha => by
    rw [hl.prev_header_alloc] at ha
    obtain ⟨pre', p, rfl, hp⟩ := before_free (Bool.toNat_eq_zero.1 ha)
    exact ⟨pre', p, rfl, hp, by rw [hl.prev_size, Heap.before_concat]⟩
  have hguard := h.reallocBranch_guard b.bp newsize b.size
  cases hbranch : h.reallocBranch b.bp newsize b.size with rw [hbranch] at hguard
  | unchanged => exact hguard
  | shrink =>
    have hg : wadd newsize 16 ≤ b.size := hguard
    rwa [wadd_of_lt hlt] at hg
  | absorbNext =>
    obtain ⟨hgrow, ha, hle⟩ := hguard
    obtain ⟨n, post', rfl, hn, hns⟩ := hnext ha
    rw [hns, hwsub hgrow] at hle
    exact ⟨hgrow, n, post', rfl, hn, by omega⟩
  | absorbPrev =>
    obtain ⟨hgrow, ha, hle⟩ := hguard
    obtain ⟨pre', p, rfl, hp, hps⟩ := hprev ha
    rw [hps, hwsub hgrow] at hle
    exact ⟨hgrow, pre', p, rfl, hp, by omega⟩
  | absorbBoth =>
    obtain ⟨hgrow, hap, han, hle⟩ := hguard
    obtain ⟨pre', p, rfl, hp, hps⟩ := hprev hap
    obtain ⟨n, post', rfl, hn, hns⟩ := hnext han
    have hnb := (hl.bounds (b := n) (by simp)).hi
    have hn0 : n.bp = b.bp + b.size := hl.after.2.1
    have hpb : p.bp + p.size = b.bp := by simpa using hl.before.2.1
    rw [hps, hns, hwsub hgrow, wadd_of_lt (by omega)] at hle
    exact ⟨hgrow, pre', p, n, post', rfl, hp, rfl, hn, by omega⟩
  | extend =>
    obtain ⟨hgrow, hz⟩ := hguard
    rw [hl.next_size] at hz
    refine ⟨hgrow, ?_⟩
    cases post with
    | nil => rfl
    | cons n post =>
      have := (hl.bounds (b := n) (by simp)).size
      rw [Heap.after_cons] at hz
      omega
  | mallocCopyFree => trivial

/-! ## Absorbing free neighbours -/

/-- Tags are written around a payload. -/
theorem Heap.retag_keeps (h : Heap) (hu : u.Fits) (hlo : u.bp ≤ b.bp)
    (hhi : b.bp + b.size ≤ u.bp + u.size) : h.Keeps (h.retag u) [b] := by
  intro c hc q h1 h2
  obtain rfl := List.mem_singleton.1 hc
  have := hu.lo; have := hu.size
  exact (Heap.mem_put_of_sep (by omega)).trans (Heap.mem_put_of_sep (by omega))

/-- The free neighbours `l` and `r` of an allocated block have left the list, and the union is
tagged as one allocated block. -/
theorem Heap.WellFormed.absorb (H : h.WellFormed ((pre ++ l) ++ b :: (r ++ post)) fl)
    (hb : b.alloc = true) (hfree : ∀ c ∈ l ++ r, c.alloc = false) (hf : h.Frame g 0 0 fl)
    (hk : g.Links (fl.diff ((l ++ r).map Block.bp))) (hu : u = Block.absorb (l ++ b :: r)) :
    (g.retag u).WellFormed (pre ++ u :: post) (fl.diff ((l ++ r).map Block.bp)) ∧
      h.Keeps (g.retag u) (allocs pre ++ allocs post) ∧ h.Keeps (g.retag u) [b] := by
  have H' : h.WellFormed (pre ++ (l ++ b :: r) ++ post) fl := by simpa using H
  have hl := H'.layout
  obtain ⟨hi, ht, hpost⟩ := Tiles.append.1 hl.tiles
  obtain ⟨lo, hpre, hmid⟩ := Tiles.append.1 ht
  have hext : ∀ {lo hi}, Tiles Block.bp Block.size lo (l ++ b :: r) hi →
      lo = u.bp ∧ hi = u.bp + u.size := by
    intro lo hi ht
    rw [hu]
    exact Block.union_extent ht
  have hsz : u.size % 8 = 0 ∧ 16 ≤ u.size := by
    rw [hu]
    exact Block.union_sizes fun c hc =>
      hl.sizes c (List.mem_append_left _ (List.mem_append_right _ hc))
  have hua : u.alloc = true := by rw [hu]; rfl
  obtain ⟨rfl, rfl⟩ := hext hmid
  have hfit : u.Fits := hl.fits hpre hpost hsz
  have hlist : (fl.diff ((l ++ r).map Block.bp)).Perm (freeBps (pre ++ post)) :=
    perm_diff_free (by simpa [freeBps_cons_alloc hb] using H'.listed) hfree (.refl _)
  have hsub : ∀ x ∈ fl.diff ((l ++ r).map Block.bp), x ∈ fl := fun x hx => List.diff_subset _ _ hx
  have hout := hl.outside hpre hpost hlist
  have hframe : h.Frame (g.retag u) (u.bp - 4) (u.bp + u.size - 4) fl :=
    (hf.mono (by omega) fun _ hx => hx).trans (g.retag_frame fl hfit)
  have hk' := hk.retag ((hl.spaced H'.listedIn).mono hsub) hfit fun x hx => by
    have := hout x hx; omega
  have hwf := H'.join hext hsz hua hframe (g.retag_tagged hfit) hk' hlist
  refine ⟨hwf, hl.keeps hframe H'.mem_free fun c hc => ?_, ?_⟩
  · rw [← allocs_append, mem_allocs] at hc
    have hcm : c ∈ pre ++ (l ++ b :: r) ++ post := by
      have := hc.1
      simp only [List.mem_append] at this ⊢
      tauto
    have := hwf.layout.tiles.apart c hc.1
    have := (hl.bounds hcm).size
    exact ⟨hcm, hc.2, by omega⟩
  · have hin := hmid.bounds b (by simp)
    have hown : h.Keeps g [b] := hl.keeps hf H'.mem_free fun c hc =>
      ⟨by simp [List.mem_singleton.1 hc], List.mem_singleton.1 hc ▸ hb, .inr (.inr (Nat.le_refl 0))⟩
    exact hown.trans (g.retag_keeps hfit hin.1 hin.2)

/-- A copy into the payload of an allocated block. -/
theorem Heap.WellFormed.memcpy (src : Nat) {k : Nat} (H : h.WellFormed (pre ++ u :: post) fl)
    (hu : u.alloc = true) (hk : k + 8 ≤ u.size) :
    (h.memcpy u.bp src k).WellFormed (pre ++ u :: post) fl ∧
      h.Keeps (h.memcpy u.bp src k) (allocs pre ++ allocs post) := by
  have hm : ∀ q, q < u.bp ∨ u.bp + k ≤ q → (h.memcpy u.bp src k).mem q = h.mem q :=
    fun q hq => copy_of_sep hq
  refine ⟨H.of_payload (by simp) hu ⟨rfl, rfl, rfl, rfl, rfl⟩ rfl fun q hq => hm q (by omega), ?_⟩
  intro c hc q h1 h2
  rw [← allocs_append, mem_allocs] at hc
  have := H.layout.tiles.apart c hc.1
  exact hm q (by omega)

/-- Where the block stays its contents do. -/
theorem Heap.Keeps.moved {m : Nat} (hk : h.Keeps h' [b]) (hm : m ≤ b.size - 8) :
    h.Moved h' b.bp b.bp m := fun i hi => hk b List.mem_cons_self _ (by omega) (by omega)

/-- Contents kept are copied. -/
theorem Heap.Keeps.memcpy {k m : Nat} (hk : h.Keeps h' [b]) (hm : m ≤ b.size - 8) (hmk : m ≤ k)
    (dst : Nat) : h.Moved (h'.memcpy dst b.bp k) b.bp dst m := by
  intro i hi
  have hcopy : (h'.memcpy dst b.bp k).mem (dst + i) = h'.mem (b.bp + i) := copy_byte (by omega)
  rw [hcopy]
  exact hk b List.mem_cons_self _ (by omega) (by omega)

/-- The absorbing branches, up to the copy. -/
theorem Heap.Reallocated.of_split (hwf : h'.WellFormed (pre ++ u :: post) fl₁) (hu : u.alloc = true)
    (hs : size + 8 ≤ u.size) (hk : h.Keeps h' (allocs pre ++ allocs post)) :
    h.Reallocated (allocs pre ++ allocs post) size u.bp h' := by
  refine ⟨_, _, u, hwf, rfl, hu, hs, ?_, hk⟩
  rw [allocs_append, allocs_cons_alloc hu]
  exact List.perm_middle

/-! ## The branches -/

/-- The block is split in place, and the rest coalesced. -/
theorem Heap.WellFormed.shrunk (H : h.WellFormed (pre ++ b :: post) fl)
    (hb : b.alloc = true) (hmod : newsize % 8 = 0) (hmin : 16 ≤ newsize)
    (hle : newsize + 16 ≤ b.size) :
    (h.reallocShrink b.bp newsize b.size).WellFormed
        (Shape.coalesce (pre ++ [b.head newsize]) (b.rest newsize) post fl).blocks
        (Shape.coalesce (pre ++ [b.head newsize]) (b.rest newsize) post fl).list ∧
      allocs (Shape.coalesce (pre ++ [b.head newsize]) (b.rest newsize) post fl).blocks =
        allocs pre ++ b.head newsize :: allocs post ∧
      h.Keeps (h.reallocShrink b.bp newsize b.size) (allocs pre ++ allocs post) ∧
      (h.retag (b.head newsize)).Keeps (h.reallocShrink b.bp newsize b.size) [b.head newsize] := by
  have hl := H.layout
  have hbm : b ∈ pre ++ b :: post := by simp
  have hB := hl.bounds hbm
  have := hB.fits.lo; have := hB.fits.hi
  have hafit := hB.head_fits hmod hmin (show newsize ≤ b.size by omega)
  have hffit := hB.rest_fits hmod hle
  have hlist : fl.Perm (freeBps (pre ++ post)) := by
    have := H.listed
    rwa [freeBps_append, freeBps_cons_alloc hb, ← freeBps_append] at this
  have hk := H.retag_links hbm hafit rfl (show newsize ≤ b.size by omega)
  have hframe : h.Frame (h.retag (b.head newsize)) (b.bp - 4) (b.bp + b.size - 4) fl :=
    (h.retag_frame fl hafit).mono (fun _ => ⟨Nat.le_refl _, show b.bp + newsize - 4 ≤ _ by omega⟩)
      fun _ hx => hx
  have htag := h.retag_tagged hafit
  have hcode : h.reallocShrink b.bp newsize b.size = (((h.retag (b.head newsize)).retag
      (b.rest newsize)).coalesce (b.rest newsize).bp).2 := by
    have hw : wsub b.size newsize = b.size - newsize := wsub_of_le (by omega)
    have ht₁ : (h.put (hdrp b.bp) (pack newsize 1)).put
        ((h.put (hdrp b.bp) (pack newsize 1)).ftrp b.bp) (pack newsize 1) =
        h.retag (b.head newsize) := h.put_tags hafit rfl rfl
    generalize h.retag (b.head newsize) = g at *
    -- the new header is read again after each write to the remainder
    have hnext : ∀ g' : Heap, g'.get (b.bp - 4) = (b.head newsize).word →
        g'.nextBlkp b.bp = (b.rest newsize).bp := fun g' hg' =>
      Heap.nextBlkp_of_header hg' hmod (show 4 ≤ b.bp by omega)
        (show b.bp + newsize < 2 ^ 32 by omega)
    have hrbp : (b.rest newsize).bp = b.bp + newsize := rfl
    have hrsize : (b.rest newsize).size = b.size - newsize := rfl
    have hhdr : hdrp (b.rest newsize).bp = (b.rest newsize).bp - 4 := hdrp_eq (by omega)
    obtain ⟨w, hw'⟩ : ∃ w, w = pack (b.size - newsize) 0 := ⟨_, rfl⟩
    have hnext₀ := hnext g htag.header
    have hnext₁ := hnext (g.put (hdrp (b.rest newsize).bp) w)
      ((Heap.get_put_of_sep (by rw [hhdr]; omega)).trans htag.header)
    have hnext₂ := hnext (g.retag (b.rest newsize))
      ((Heap.get_retag_of_sep hffit (.inl (by omega)) (.inl (by omega))).trans htag.header)
    have ht₂ : (g.put (hdrp (b.rest newsize).bp) (pack (b.size - newsize) 0)).put
        ((g.put (hdrp (b.rest newsize).bp) (pack (b.size - newsize) 0)).ftrp (b.rest newsize).bp)
        (pack (b.size - newsize) 0) = g.retag (b.rest newsize) := g.put_tags hffit rfl rfl
    rw [← hw'] at ht₂
    simp only [Heap.reallocShrink, ht₁, hw, ← hw', hnext₀, hnext₁, ht₂, hnext₂]
  rw [hcode]
  exact H.split hmod hmin hle hframe htag hk hlist fun _ hx => hx

/-- The block is split in place. -/
theorem Heap.WellFormed.reallocShrink (H : h.WellFormed (pre ++ b :: post) fl)
    (hb : b.alloc = true) (hmod : newsize % 8 = 0) (hmin : 16 ≤ newsize)
    (hle : newsize + 16 ≤ b.size) (hsz : size + 8 ≤ newsize) :
    h.Reallocated (allocs pre ++ allocs post) size b.bp (h.reallocShrink b.bp newsize b.size) ∧
      h.Moved (h.reallocShrink b.bp newsize b.size) b.bp b.bp (min (b.size - 8) size) := by
  have hafit := (H.layout.bounds (b := b) (by simp)).head_fits hmod hmin
    (show newsize ≤ b.size by omega)
  obtain ⟨hwf, hall, hkeeps, hown⟩ := H.shrunk hb hmod hmin hle
  have hstay := ((h.retag_keeps hafit (Nat.le_refl _) (Nat.le_refl _)).trans hown).moved
    (show min (b.size - 8) size ≤ newsize - 8 by omega)
  exact ⟨⟨_, _, b.head newsize, hwf, rfl, rfl, hsz, by rw [hall]; exact List.perm_middle, hkeeps⟩,
    hstay⟩

/-- A block that takes over `s` bytes beside it has room for what it is to hold. -/
theorem absorbed_size {copySize s : Nat} (hlt : copySize < newsize) (hle : newsize ≤ copySize + s)
    (hmax : copySize + s < 2 ^ 32) :
    wadd newsize (wsub s (wsub newsize copySize)) = copySize + s := by
  have hw₁ : wsub newsize copySize = newsize - copySize := wsub_of_le (by omega)
  have hw₂ : wsub s (newsize - copySize) = s - (newsize - copySize) := wsub_of_le (by omega)
  rw [hw₁, hw₂, wadd_of_lt (by omega)]
  omega

/-- The tags of the union, as the source writes them. -/
theorem Heap.WellFormed.put_absorbed {q : Nat} (H : (g.retag u).WellFormed (pre ++ u :: post) fl)
    (hua : u.alloc = true) (hubp : u.bp = q) :
    (g.put (hdrp q) (pack u.size 1)).put ((g.put (hdrp q) (pack u.size 1)).ftrp q)
      (pack u.size 1) = g.retag u :=
  g.put_tags (H.layout.bounds (by simp)).fits hubp (by rw [Block.word, hua]; rfl)

/-- The block and the free block after it are one allocated block. -/
theorem Heap.WellFormed.absorbedNext (H : h.WellFormed (pre ++ b :: n :: post) fl)
    (hb : b.alloc = true) (hn : n.alloc = false) (hlt : b.size < newsize)
    (hle : newsize ≤ b.size + n.size) :
    (h.reallocAbsorbNext b.bp newsize b.size).WellFormed (pre ++ Block.absorb [b, n] :: post)
        (fl.diff [n.bp]) ∧
      h.Keeps (h.reallocAbsorbNext b.bp newsize b.size) (allocs pre ++ allocs post) ∧
      h.Keeps (h.reallocAbsorbNext b.bp newsize b.size) [b] := by
  have hl := H.layout
  have hbm : b ∈ pre ++ b :: n :: post := by simp
  have hnm : n ∈ pre ++ b :: n :: post := by simp
  have hnb : n.bp = b.bp + b.size := hl.after.2.1
  have := (hl.bounds hbm).lo; have := (hl.bounds hnm).hi; have := (hl.bounds hnm).brk
  obtain ⟨hl₁, hk₁, hf₁⟩ := hl.removeBlock H.links H.listedIn (H.mem_list hnm hn)
  generalize hg : h.removeBlock n.bp = g at *
  obtain ⟨u, hu⟩ : ∃ u, u = Block.absorb [b, n] := ⟨_, rfl⟩
  have hubp : u.bp = b.bp := by rw [hu]; rfl
  have husize : u.size = b.size + n.size := by rw [hu]; simp [Block.absorb, Block.union]
  have hua : u.alloc = true := by rw [hu]; rfl
  have H₀ : h.WellFormed ((pre ++ []) ++ b :: ([n] ++ post)) fl := by simpa using H
  obtain ⟨hwf, hk, hown⟩ := H₀.absorb hb (by simpa using hn) hf₁ (by simpa using hk₁) hu
  have hcode : h.reallocAbsorbNext b.bp newsize b.size = g.retag u := by
    have hnew := (absorbed_size hlt hle (by omega)).trans husize.symm
    simp only [Heap.reallocAbsorbNext, hl.nextBlkp hbm, ← hnb, hl.getSize hnm, hnew, hg,
      hwf.put_absorbed hua hubp]
  rw [hcode, ← hu]
  exact ⟨hwf, hk, hown⟩

/-- The block takes over the free block after it. -/
theorem Heap.WellFormed.reallocAbsorbNext (H : h.WellFormed (pre ++ b :: n :: post) fl)
    (hb : b.alloc = true) (hn : n.alloc = false) (hlt : b.size < newsize)
    (hle : newsize ≤ b.size + n.size) (hsz : size + 8 ≤ newsize) :
    h.Reallocated (allocs pre ++ allocs (n :: post)) size b.bp
        (h.reallocAbsorbNext b.bp newsize b.size) ∧
      h.Moved (h.reallocAbsorbNext b.bp newsize b.size) b.bp b.bp (min (b.size - 8) size) := by
  obtain ⟨hwf, hk, hown⟩ := H.absorbedNext hb hn hlt hle
  have husize : (Block.absorb [b, n]).size = b.size + n.size := by simp [Block.absorb, Block.union]
  have hr : h.Reallocated (allocs pre ++ allocs post) size b.bp
      (h.reallocAbsorbNext b.bp newsize b.size) :=
    .of_split (u := Block.absorb [b, n]) hwf rfl (by omega) hk
  rw [allocs_cons_free hn]
  exact ⟨hr, hown.moved (Nat.min_le_left (b.size - 8) size)⟩

/-- The block and the free block before it are one allocated block when the copy is made. -/
theorem Heap.WellFormed.absorbedPrev (H : h.WellFormed ((pre ++ [p]) ++ b :: post) fl)
    (hb : b.alloc = true) (hp : p.alloc = false) (hlt : b.size < newsize)
    (hle : newsize ≤ b.size + p.size) :
    ∃ g, h.absorbPrevMemcpy b.bp newsize b.size = ⟨g, p.bp, b.bp, b.size⟩ ∧
      g.WellFormed (pre ++ Block.absorb [p, b] :: post) (fl.diff [p.bp]) ∧
      h.Keeps g (allocs pre ++ allocs post) ∧ h.Keeps g [b] := by
  have hl := H.layout
  have hbm : b ∈ (pre ++ [p]) ++ b :: post := by simp
  have hpm : p ∈ (pre ++ [p]) ++ b :: post := by simp
  have hpb : p.bp + p.size = b.bp := by simpa using hl.before.2.1
  have hprev : h.prevBlkp b.bp = p.bp := by simpa using hl.prevBlkp
  have := (hl.bounds hpm).lo; have := (hl.bounds hpm).size
  have := (hl.bounds hbm).hi; have := (hl.bounds hbm).brk
  obtain ⟨hl₁, hk₁, hf₁⟩ := hl.removeBlock H.links H.listedIn (H.mem_list hpm hp)
  have hprev₁ : (h.removeBlock p.bp).prevBlkp b.bp = p.bp := by simpa using hl₁.prevBlkp
  generalize hg : h.removeBlock p.bp = g at *
  obtain ⟨u, hu⟩ : ∃ u, u = Block.absorb [p, b] := ⟨_, rfl⟩
  have hubp : u.bp = p.bp := by rw [hu]; rfl
  have husize : u.size = p.size + b.size := by rw [hu]; simp [Block.absorb, Block.union]
  have hua : u.alloc = true := by rw [hu]; rfl
  have H₀ : h.WellFormed ((pre ++ [p]) ++ b :: ([] ++ post)) fl := by simpa using H
  obtain ⟨hwf, hk, hown⟩ := H₀.absorb hb (by simpa using hp) hf₁ (by simpa using hk₁) hu
  have hnew : wadd newsize (wsub p.size (wsub newsize b.size)) = u.size := by
    rw [absorbed_size hlt hle (by omega), husize, Nat.add_comm]
  rw [← hu]
  refine ⟨g.retag u, ?_, hwf, hk, hown⟩
  simp only [Heap.absorbPrevMemcpy, hprev, hl.getSize hpm, hnew, hg, hprev₁,
    hwf.put_absorbed hua hubp]

/-- The copy into the free block before is made when the two are one allocated block. -/
theorem Heap.WellFormed.absorbPrevMemcpy (H : h.WellFormed ((pre ++ [p]) ++ b :: post) fl)
    (hb : b.alloc = true) (hp : p.alloc = false) (hlt : b.size < newsize)
    (hle : newsize ≤ b.size + p.size) :
    ∃ g u fl', h.absorbPrevMemcpy b.bp newsize b.size = ⟨g, u.bp, b.bp, b.size⟩ ∧
      g.WellFormed (pre ++ u :: post) fl' ∧ u.bp = p.bp ∧ u.size = p.size + b.size ∧
      u.alloc = true ∧ h.Keeps g (allocs pre ++ allocs post) ∧ h.Keeps g [b] := by
  obtain ⟨g, hc, hwf, hk, hown⟩ := H.absorbedPrev hb hp hlt hle
  exact ⟨g, Block.absorb [p, b], _, hc, hwf, rfl, by simp [Block.absorb, Block.union], rfl, hk,
    hown⟩

/-- The block moves into the free block before it: the copy takes the block's footer and the header
after it along, and still ends inside the new payload. -/
theorem Heap.WellFormed.reallocAbsorbPrev (H : h.WellFormed ((pre ++ [p]) ++ b :: post) fl)
    (hb : b.alloc = true) (hp : p.alloc = false) (hlt : b.size < newsize)
    (hle : newsize ≤ b.size + p.size) (hsz : size + 8 ≤ newsize) :
    (h.reallocAbsorbPrev b.bp newsize b.size).1 = p.bp ∧
      h.Reallocated (allocs (pre ++ [p]) ++ allocs post) size p.bp
        (h.reallocAbsorbPrev b.bp newsize b.size).2 ∧
      h.Moved (h.reallocAbsorbPrev b.bp newsize b.size).2 b.bp p.bp (min (b.size - 8) size) := by
  have := (H.layout.bounds (b := p) (by simp)).size
  have := (H.layout.bounds (b := p) (by simp)).mod
  obtain ⟨g, u, fl', hc, hwf, hubp, husize, hua, hk, hown⟩ := H.absorbPrevMemcpy hb hp hlt hle
  obtain ⟨hwf', hk'⟩ := hwf.memcpy b.bp (k := b.size) hua (by omega)
  have hall : allocs (pre ++ [p]) = allocs pre := by
    rw [allocs_append, allocs_cons_free hp, allocs_nil, List.append_nil]
  have hmoved := hown.memcpy (k := b.size) (Nat.min_le_left (b.size - 8) size) (by omega) u.bp
  rw [h.reallocAbsorbPrev_eq, hc, hall, ← hubp]
  exact ⟨rfl, .of_split hwf' hua (by omega) (hk.trans hk'), hmoved⟩

/-- The block and the free blocks on both sides are one allocated block when the copy is made. -/
theorem Heap.WellFormed.absorbedBoth
    (H : h.WellFormed ((pre ++ [p]) ++ b :: n :: post) fl) (hb : b.alloc = true)
    (hp : p.alloc = false) (hn : n.alloc = false) (hlt : b.size < newsize)
    (hle : newsize ≤ b.size + (p.size + n.size)) :
    ∃ g, h.absorbBothMemcpy b.bp newsize b.size = ⟨g, p.bp, b.bp, b.size⟩ ∧
      g.WellFormed (pre ++ Block.absorb [p, b, n] :: post) (fl.diff [p.bp, n.bp]) ∧
      h.Keeps g (allocs pre ++ allocs post) ∧ h.Keeps g [b] := by
  have hl := H.layout
  have hbm : b ∈ (pre ++ [p]) ++ b :: n :: post := by simp
  have hpm : p ∈ (pre ++ [p]) ++ b :: n :: post := by simp
  have hnm : n ∈ (pre ++ [p]) ++ b :: n :: post := by simp
  have hpb : p.bp + p.size = b.bp := by simpa using hl.before.2.1
  have hnb : n.bp = b.bp + b.size := hl.after.2.1
  have hprev : h.prevBlkp b.bp = p.bp := by simpa using hl.prevBlkp
  have := (hl.bounds hpm).lo; have := (hl.bounds hpm).size; have := (hl.bounds hbm).size
  have := (hl.bounds hnm).hi; have := (hl.bounds hnm).brk
  obtain ⟨hl₁, hk₁, hf₁⟩ := hl.removeBlock H.links H.listedIn (H.mem_list hpm hp)
  have hnmem : n.bp ∈ fl.erase p.bp :=
    (List.mem_erase_of_ne (by omega)).2 (H.mem_list hnm hn)
  obtain ⟨hl₂, hk₂, hf₂⟩ := hl₁.removeBlock hk₁
    (H.listedIn.mono (fun _ hx => List.mem_of_mem_erase hx) fun _ hc => hc) hnmem
  have hnext₁ : (h.removeBlock p.bp).nextBlkp b.bp = n.bp := by rw [hl₁.nextBlkp hbm, hnb]
  generalize hg : (h.removeBlock p.bp).removeBlock n.bp = g at *
  have hprev₂ : g.prevBlkp b.bp = p.bp := by simpa using hl₂.prevBlkp
  obtain ⟨u, hu⟩ : ∃ u, u = Block.absorb [p, b, n] := ⟨_, rfl⟩
  have hubp : u.bp = p.bp := by rw [hu]; rfl
  have husize : u.size = p.size + (b.size + n.size) := by
    rw [hu]; simp [Block.absorb, Block.union]
  have hua : u.alloc = true := by rw [hu]; rfl
  have H₀ : h.WellFormed ((pre ++ [p]) ++ b :: ([n] ++ post)) fl := by simpa using H
  obtain ⟨hwf, hk, hown⟩ := H₀.absorb hb (by simpa using ⟨hp, hn⟩)
    (hf₁.trans (hf₂.mono (by omega) fun _ hx => List.mem_of_mem_erase hx)) (by simpa using hk₂) hu
  have hsum : wadd n.size p.size = n.size + p.size := wadd_of_lt (by omega)
  have hnew : wadd newsize (wsub (n.size + p.size) (wsub newsize b.size)) = u.size := by
    rw [absorbed_size hlt (by omega) (by omega), husize]
    omega
  rw [← hu]
  refine ⟨g.retag u, ?_, hwf, hk, hown⟩
  simp only [Heap.absorbBothMemcpy, hprev, hl.nextBlkp hbm, ← hnb, hl.getSize hpm,
    hl.getSize hnm, hsum, hnew, hnext₁, hg, hprev₂, hwf.put_absorbed hua hubp]

/-- The copy into the free block before is made when the three are one allocated block. -/
theorem Heap.WellFormed.absorbBothMemcpy
    (H : h.WellFormed ((pre ++ [p]) ++ b :: n :: post) fl) (hb : b.alloc = true)
    (hp : p.alloc = false) (hn : n.alloc = false) (hlt : b.size < newsize)
    (hle : newsize ≤ b.size + (p.size + n.size)) :
    ∃ g u fl', h.absorbBothMemcpy b.bp newsize b.size = ⟨g, u.bp, b.bp, b.size⟩ ∧
      g.WellFormed (pre ++ u :: post) fl' ∧ u.bp = p.bp ∧
      u.size = p.size + (b.size + n.size) ∧ u.alloc = true ∧
      h.Keeps g (allocs pre ++ allocs post) ∧ h.Keeps g [b] := by
  obtain ⟨g, hc, hwf, hk, hown⟩ := H.absorbedBoth hb hp hn hlt hle
  exact ⟨g, Block.absorb [p, b, n], _, hc, hwf, rfl, by simp [Block.absorb, Block.union], rfl, hk,
    hown⟩

/-- The block takes over the free blocks on both sides. -/
theorem Heap.WellFormed.reallocAbsorbBoth (H : h.WellFormed ((pre ++ [p]) ++ b :: n :: post) fl)
    (hb : b.alloc = true) (hp : p.alloc = false) (hn : n.alloc = false) (hlt : b.size < newsize)
    (hle : newsize ≤ b.size + (p.size + n.size)) (hsz : size + 8 ≤ newsize) :
    (h.reallocAbsorbBoth b.bp newsize b.size).1 = p.bp ∧
      h.Reallocated (allocs (pre ++ [p]) ++ allocs (n :: post)) size p.bp
        (h.reallocAbsorbBoth b.bp newsize b.size).2 ∧
      h.Moved (h.reallocAbsorbBoth b.bp newsize b.size).2 b.bp p.bp (min (b.size - 8) size) := by
  have := (H.layout.bounds (b := p) (by simp)).size
  obtain ⟨g, u, fl', hc, hwf, hubp, husize, hua, hk, hown⟩ := H.absorbBothMemcpy hb hp hn hlt hle
  obtain ⟨hwf', hk'⟩ := hwf.memcpy b.bp (k := b.size) hua (by omega)
  have hall : allocs (pre ++ [p]) ++ allocs (n :: post) = allocs pre ++ allocs post := by
    rw [allocs_append, allocs_cons_free hp, allocs_nil, List.append_nil, allocs_cons_free hn]
  have hmoved := hown.memcpy (k := b.size) (Nat.min_le_left (b.size - 8) size) (by omega) u.bp
  rw [h.reallocAbsorbBoth_eq, hc, hall, ← hubp]
  exact ⟨rfl, .of_split hwf' hua (by omega) (hk.trans hk'), hmoved⟩

/-- The allocated blocks are distinct. -/
theorem Heap.WellFormed.allocs_nodup (H : h.WellFormed bs fl) : (allocs bs).Nodup := by
  have hnd := H.layout.tiles.nodup fun b hb => by have := (H.layout.bounds hb).size; omega
  exact (List.Nodup.of_map _ hnd).filter _

/-- The block moves to a newly allocated one; when there is none, the program exits. -/
theorem Heap.WellFormed.reallocMove (H : h.WellFormed (pre ++ b :: post) fl) (hb : b.alloc = true)
    (hlt : size + 15 < 2 ^ 32) :
    h.reallocMove b.bp size b.size = some (.exit 1 h) ∨ ∃ p h',
      h.reallocMove b.bp size b.size = some (.ret p h') ∧
      h.Reallocated (allocs pre ++ allocs post) size p h' ∧
      h.Moved h' b.bp p (min (b.size - 8) size) := by
  rcases H.mmMalloc hlt with hnull | ⟨a, g, bs', fl', hp, hp0, A⟩
  · left
    simp only [Heap.reallocMove, hnull, Option.map_some, if_true]
  · right
    obtain ⟨k, hk⟩ : ∃ k, k = if size < b.size then size else b.size := ⟨_, rfl⟩
    have hksize : k ≤ size ∧ min (b.size - 8) size ≤ k := by rw [hk]; split <;> omega
    have hcode : h.reallocMove b.bp size b.size =
        some (.ret a.bp ((g.memcpy a.bp b.bp k).mmFree b.bp)) := by
      simp only [Heap.reallocMove, hp, Option.map_some, if_neg hp0, ← hk]
    have hall : (allocs bs').Perm (b :: a :: (allocs pre ++ allocs post)) := by
      have := A.added
      rw [allocs_append, allocs_cons_alloc hb] at this
      exact this.trans ((List.perm_middle.cons a).trans (.swap ..))
    -- the copy goes to the new block
    have ham : a ∈ bs' := (mem_allocs.1 (hall.mem_iff.2 (by simp))).1
    obtain ⟨apre, apost, rfl⟩ := List.append_of_mem ham
    have hasize := A.size
    obtain ⟨hwf₂, hk₂⟩ := A.wellFormed.memcpy b.bp (k := k) A.alloc (by omega)
    -- and the old block is freed
    have hbm : b ∈ apre ++ a :: apost := (mem_allocs.1 (hall.mem_iff.2 (by simp))).1
    obtain ⟨bpre, bpost, he⟩ := List.append_of_mem hbm
    rw [he] at hwf₂
    obtain ⟨hwf₃, hall₃, hk₃⟩ := hwf₂.mmFree hb
    have hperm : (allocs bpre ++ allocs bpost).Perm (a :: (allocs pre ++ allocs post)) := by
      rw [he, allocs_append, allocs_cons_alloc hb] at hall
      exact List.Perm.cons_inv (List.perm_middle.symm.trans hall)
    have hnd := hall.nodup_iff.1 A.wellFormed.allocs_nodup
    have hown : h.Keeps g [b] := fun c hc => A.keeps c (by
      rw [List.mem_singleton.1 hc, allocs_append, allocs_cons_alloc hb]; simp)
    have hmoved := hown.memcpy (Nat.min_le_left (b.size - 8) size) hksize.2 a.bp
    have hstay : ∀ i < min (b.size - 8) size, ((g.memcpy a.bp b.bp k).mmFree b.bp).mem (a.bp + i) =
        h.mem (b.bp + i) := fun i hi =>
      (hk₃ a (hperm.mem_iff.2 List.mem_cons_self) _ (by omega) (by omega)).trans (hmoved i hi)
    refine ⟨a.bp, _, hcode, ⟨_, _, a, hwf₃, rfl, A.alloc, hasize, hall₃ ▸ hperm, ?_⟩, hstay⟩
    intro c hc q h1 h2
    have hcb : c ∈ allocs (pre ++ b :: post) := by
      rw [allocs_append, allocs_cons_alloc hb]
      exact mem_insert_middle hc
    have hca : c ∈ allocs apre ++ allocs apost := by
      have hm := hall.mem_iff.2 (List.mem_cons_of_mem b (List.mem_cons_of_mem a hc))
      rw [allocs_append, allocs_cons_alloc A.alloc] at hm
      have hne : c ≠ a := fun e => (List.nodup_cons.1 (List.nodup_cons.1 hnd).2).1 (e ▸ hc)
      exact mem_of_mem_middle hm hne
    exact ((hk₃ c (hperm.mem_iff.2 (List.mem_cons_of_mem a hc)) q h1 h2).trans
      (hk₂ c hca q h1 h2)).trans (A.keeps c hcb q h1 h2)

/-! ## mm_realloc -/

/-- Without a new block the program exits. -/
theorem Heap.reallocMove_null (hm : h.mmMalloc size = some (0, g)) :
    h.reallocMove ptr size copySize = some (.exit 1 g) := by
  simp only [Heap.reallocMove, hm, Option.map_some, if_true]

/-- With a new block that block is returned. -/
theorem Heap.reallocMove_ret {q : Nat} (hm : h.mmMalloc size = some (q, g)) (hq : q ≠ 0) :
    ∃ h', h.reallocMove ptr size copySize = some (.ret q h') := by
  simp only [Heap.reallocMove, hm, Option.map_some, if_neg hq]
  exact ⟨_, rfl⟩

/-- `mm_realloc` on a block and a positive size is its branch. -/
theorem Heap.mmRealloc_eq (hp : ptr ≠ 0) (h1 : 1 ≤ size) (hcs : h.getSize (hdrp ptr) = copySize) :
    h.mmRealloc ptr size = match h.reallocBranch ptr (adjust size) copySize with
      | .unchanged => some (.ret ptr h)
      | .shrink => some (.ret ptr (h.reallocShrink ptr (adjust size) copySize))
      | .absorbNext => some (.ret ptr (h.reallocAbsorbNext ptr (adjust size) copySize))
      | .absorbPrev => some (.ret (h.reallocAbsorbPrev ptr (adjust size) copySize).1
          (h.reallocAbsorbPrev ptr (adjust size) copySize).2)
      | .absorbBoth => some (.ret (h.reallocAbsorbBoth ptr (adjust size) copySize).1
          (h.reallocAbsorbBoth ptr (adjust size) copySize).2)
      | .extend => some (.ret (h.reallocExtend ptr (adjust size) copySize).1
          (h.reallocExtend ptr (adjust size) copySize).2)
      | .mallocCopyFree => h.reallocMove ptr size copySize := by
  have hsize : size ≠ 0 := by omega
  cases hbr : h.reallocBranch ptr (adjust size) copySize <;>
    simp only [Heap.mmRealloc, hp, hsize, hcs, hbr, if_false]

/-- **`mm_realloc` outside the heap extension.** It returns, and leaves a well-formed heap in which
the result is allocated with room for `size` bytes, the contents have moved there and the other
allocated blocks are as before; or no block is found for a copy, and the program exits. -/
theorem Heap.WellFormed.mmRealloc (H : h.WellFormed (pre ++ b :: post) fl) (hb : b.alloc = true)
    (h1 : 1 ≤ size) (hlt : size + 31 < 2 ^ 32)
    (hbr : h.reallocBranch b.bp (adjust size) b.size ≠ .extend) :
    h.mmRealloc b.bp size = some (.exit 1 h) ∨ ∃ p h', h.mmRealloc b.bp size = some (.ret p h') ∧
      h.Reallocated (allocs pre ++ allocs post) size p h' ∧
      h.Moved h' b.bp p (min (b.size - 8) size) := by
  have hbm : b ∈ pre ++ b :: post := by simp
  have := (H.layout.bounds hbm).fits.lo
  obtain ⟨hmod, hmin, hsz, hmax⟩ := adjust_spec (show size + 15 < 2 ^ 32 by omega)
  have hcase := H.layout.reallocBranch_case (show adjust size + 16 < 2 ^ 32 by omega)
  rw [Heap.mmRealloc_eq (by omega) h1 (H.layout.getSize hbm)]
  cases hbranch : h.reallocBranch b.bp (adjust size) b.size with rw [hbranch] at hcase
  | unchanged =>
    have hsame : adjust size = b.size := hcase
    exact .inr ⟨_, _, rfl, .of_split H hb (by omega) fun _ _ _ _ _ => rfl, fun _ _ => rfl⟩
  | shrink => exact .inr ⟨_, _, rfl, H.reallocShrink hb hmod hmin hcase hsz⟩
  | absorbNext =>
    obtain ⟨hgrow, n, post', rfl, hn, hle⟩ := hcase
    exact .inr ⟨_, _, rfl, H.reallocAbsorbNext hb hn hgrow hle hsz⟩
  | absorbPrev =>
    obtain ⟨hgrow, pre', p, rfl, hp, hle⟩ := hcase
    obtain ⟨hr, hre⟩ := H.reallocAbsorbPrev hb hp hgrow hle hsz
    exact .inr ⟨_, _, rfl, by rw [hr]; exact hre⟩
  | absorbBoth =>
    obtain ⟨hgrow, pre', p, n, post', rfl, hp, rfl, hn, hle⟩ := hcase
    obtain ⟨hr, hre⟩ := H.reallocAbsorbBoth hb hp hn hgrow hle hsz
    exact .inr ⟨_, _, rfl, by rw [hr]; exact hre⟩
  | extend => exact absurd hbranch hbr
  | mallocCopyFree => exact H.reallocMove hb (by omega)

/-- **Soundness of `mm_realloc`.** On an allocated block of a well-formed heap and a size from 1 to
`2 ^ 31 - 1`, outside the heap extension: when it returns `p`, the heap is well formed, `p` is an
allocated block of at least `size + 8` bytes, and the other allocated blocks are those that were
allocated before. -/
theorem mmRealloc_sound (H : h.WellFormed bs fl) (hbm : b ∈ bs) (hb : b.alloc = true)
    (h1 : 1 ≤ size) (hlt : size < 2 ^ 31)
    (hbr : h.reallocBranch b.bp (adjust size) (h.getSize (hdrp b.bp)) ≠ .extend) :
    h.mmRealloc b.bp size = some (.exit 1 h) ∨
      ∃ p h' bs' fl' a, h.mmRealloc b.bp size = some (.ret p h') ∧ h'.WellFormed bs' fl' ∧
        a ∈ allocs bs' ∧ a.bp = p ∧ size + 8 ≤ a.size ∧
        ∀ c, c ∈ allocs bs' ↔ c = a ∨ c ∈ allocs bs ∧ c ≠ b := by
  rw [H.layout.getSize hbm] at hbr
  obtain ⟨pre, post, rfl⟩ := List.append_of_mem hbm
  rcases H.mmRealloc hb h1 (by omega) hbr with
    hexit | ⟨p, h', hret, ⟨bs', fl', a, hwf, hbp, -, hs, hall, -⟩, -⟩
  · exact .inl hexit
  · have ham := hall.mem_iff.2 List.mem_cons_self
    refine .inr ⟨p, h', bs', fl', a, hret, hwf, ham, hbp, hs, fun c => ?_⟩
    have hnd := H.allocs_nodup
    rw [allocs_append, allocs_cons_alloc hb] at hnd ⊢
    have hnb : b ∉ allocs pre ++ allocs post := (List.nodup_middle.1 hnd |> List.nodup_cons.1).1
    have hperm : (allocs pre ++ b :: allocs post).Perm (b :: (allocs pre ++ allocs post)) :=
      List.perm_middle
    rw [hall.mem_iff, List.mem_cons, hperm.mem_iff, List.mem_cons]
    constructor
    · rintro (he | hc)
      · exact .inl he
      · exact .inr ⟨.inr hc, fun e => hnb (e ▸ hc)⟩
    · rintro (he | ⟨hc | hc, hne⟩)
      · exact .inl he
      · exact absurd hc hne
      · exact .inr hc

/-- **Contents.** When `mm_realloc` returns `p` for a block last requested with `old` bytes, outside
the heap extension, the first `min old size` bytes at `p` are those that were at the block, and the
payloads of the other allocated blocks are unchanged. -/
theorem mmRealloc_preserves (H : h.WellFormed bs fl) (hbm : b ∈ bs) (hb : b.alloc = true) {old : Nat}
    (hold : old + 8 ≤ b.size) (h1 : 1 ≤ size) (hlt : size < 2 ^ 31)
    (hbr : h.reallocBranch b.bp (adjust size) (h.getSize (hdrp b.bp)) ≠ .extend) {q : Nat}
    (hret : h.mmRealloc b.bp size = some (.ret q h')) :
    (∀ i < min old size, h'.mem (q + i) = h.mem (b.bp + i)) ∧
      ∀ c ∈ bs, c.alloc = true → c ≠ b →
        ∀ x, c.bp ≤ x → x + 8 < c.bp + c.size → h'.mem x = h.mem x := by
  rw [H.layout.getSize hbm] at hbr
  obtain ⟨pre, post, rfl⟩ := List.append_of_mem hbm
  rcases H.mmRealloc hb h1 (by omega) hbr with hexit | ⟨p, g, hp, ⟨-, -, -, -, -, -, -, -, hk⟩, hm⟩
  · rw [hret] at hexit
    cases hexit
  · rw [hret] at hp
    cases hp
    refine ⟨fun i hi => hm i (by omega), fun c hc ha hne x h1 h2 => hk c ?_ x h1 h2⟩
    rw [← allocs_append]
    exact mem_allocs.2 ⟨mem_of_mem_middle hc hne, ha⟩

end

/-! ## A heap of one block -/

/-- The heap of one allocated block of 4096 bytes, as `mm_init` and `mm_malloc(4088)` leave it on
zeroed storage at address 8. -/
def oneBlock : Heap :=
  let h := { memInit (fun _ => 0) 8 with memBrk := 4120, heapListp := 16 }
  let h := h.put 12 (pack overhead 1)
  let h := h.put 16 (pack overhead 1)
  let h := h.put 20 (pack chunksize 1)
  let h := h.put 4112 (pack chunksize 1)
  h.put 4116 (pack 0 1)

/-- The heap of one allocated block is well formed. -/
theorem oneBlock_wellFormed : oneBlock.WellFormed [⟨24, 4096, true⟩] [] := by
  refine ⟨?_, .singleton _, rfl, .refl _⟩
  exact
    { aligned := rfl
      inBounds := by decide
      addressable := by decide
      listp := rfl
      prologue := ⟨by decide +kernel, by decide +kernel⟩
      tiles := ⟨rfl, rfl⟩
      sizes := by simp
      tags := by
        simp only [List.mem_singleton, forall_eq]
        exact ⟨by decide +kernel, by decide +kernel⟩
      epilogue := by decide +kernel }

/-- The block of 4096 bytes is shrunk in place for 100. -/
theorem oneBlock_shrink :
    oneBlock.reallocBranch 24 (adjust 100) (oneBlock.getSize (hdrp 24)) ≠ .extend ∧
      oneBlock.mmRealloc 24 100 = some (.ret 24 (oneBlock.reallocShrink 24 (adjust 100)
        (oneBlock.getSize (hdrp 24)))) := by
  have hbr : oneBlock.reallocBranch 24 (adjust 100) (oneBlock.getSize (hdrp 24)) = .shrink := by
    decide +kernel
  rw [Heap.mmRealloc_eq (by decide) (by decide) rfl, hbr]
  exact ⟨nofun, rfl⟩

/-- A block of 4096 bytes is shrunk for a request of 100. -/
theorem mmRealloc_sound_shrink : ∃ p h bs fl a, oneBlock.mmRealloc 24 100 = some (.ret p h) ∧
    h.WellFormed bs fl ∧ a ∈ allocs bs ∧ a.bp = p ∧ 108 ≤ a.size := by
  obtain ⟨hbr, hret⟩ := oneBlock_shrink
  rcases mmRealloc_sound (b := ⟨24, 4096, true⟩) oneBlock_wellFormed (List.mem_singleton_self _) rfl
    (show 1 ≤ 100 by decide) (by decide) hbr with
    hexit | ⟨p, h, bs, fl, a, hr, hwf, ha, hp, hs, -⟩
  · rw [hret] at hexit
    cases hexit
  · exact ⟨p, h, bs, fl, a, hr, hwf, ha, hp, hs⟩

/-- Its first 100 bytes stay. -/
theorem mmRealloc_preserves_shrink : ∃ p h, oneBlock.mmRealloc 24 100 = some (.ret p h) ∧
    ∀ i < 100, h.mem (p + i) = oneBlock.mem (24 + i) := by
  obtain ⟨hbr, hret⟩ := oneBlock_shrink
  exact ⟨_, _, hret, (mmRealloc_preserves (b := ⟨24, 4096, true⟩) oneBlock_wellFormed
    (List.mem_singleton_self _) rfl (show 4088 + 8 ≤ 4096 by decide) (by decide) (by decide) hbr
    hret).1⟩

end Malloc
