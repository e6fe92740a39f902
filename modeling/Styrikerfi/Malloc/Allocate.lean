import Styrikerfi.Malloc.Coalesce
import Mathlib.Data.List.Perm.Subperm

/-!
# Allocation and freeing

One specification for each function of the allocator, on well-formed heaps: what becomes of the
allocated blocks (`allocs`), and that the payloads of the others keep their bytes (`Heap.Keeps`).
`place`, `mm_free` and the growth of the heap each leave one loose free block, and `coalesce` is
called on it. The search of the free list ends, since the list has no repeated block.
-/

namespace Malloc

open Machine32 Tiling LinkedList

/-- The payloads of the blocks `cs` have the same bytes in both heaps. -/
def Heap.Keeps (h h' : Heap) (cs : List Block) : Prop :=
  ∀ c ∈ cs, ∀ q, c.bp ≤ q → q + 8 < c.bp + c.size → h'.mem q = h.mem q

section
variable {h h' h'' : Heap} {bs pre mid pre' post post' l r as cs : List Block} {a b c f u : Block}
  {fl fl₁ : List Nat} {asize lo hi words : Nat}

/-! ## Allocated blocks and their payloads -/

/-- Payloads are kept through several changes. -/
theorem Heap.Keeps.trans (a : h.Keeps h' cs) (b : h'.Keeps h'' cs) : h.Keeps h'' cs :=
  fun c hc q h1 h2 => (b c hc q h1 h2).trans (a c hc q h1 h2)

/-- A frame keeps the payload of every allocated block outside its range. -/
theorem Heap.Layout.keeps (hl : h.Layout bs) (hf : h.Frame h' lo hi fl)
    (hfl : ∀ x ∈ fl, ∃ d ∈ bs, d.alloc = false ∧ d.bp = x)
    (hcs : ∀ c ∈ cs, c ∈ bs ∧ c.alloc = true ∧
      (c.bp + c.size ≤ lo + 4 ∨ hi + 4 ≤ c.bp ∨ hi ≤ lo)) : h.Keeps h' cs := by
  intro c hc q h1 h2
  obtain ⟨hm, ha, hr⟩ := hcs c hc
  refine hf.mem q (by omega) fun x hx => ?_
  obtain ⟨d, hd, hda, rfl⟩ := hfl x hx
  have := hl.apart hd hm fun e => by rw [e, ha] at hda; cases hda
  have := (hl.bounds hd).size
  omega

/-- What is listed is a free block of the layout. -/
theorem Heap.WellFormed.mem_free (H : h.WellFormed bs fl) :
    ∀ x ∈ fl, ∃ d ∈ bs, d.alloc = false ∧ d.bp = x :=
  fun _ hx => mem_freeBps.1 (H.listed.mem_iff.1 hx)

/-- What is listed is a block of the layout. -/
theorem Heap.WellFormed.listedIn (H : h.WellFormed bs fl) : ListedIn fl bs :=
  listedIn_of_perm H.listed

/-- Coalescing changes no allocated block. -/
theorem Heap.Coalesced.allocs_eq (C : h.Coalesced pre b post fl h' pre' u post' l r) :
    allocs (pre' ++ u :: post') = allocs pre ++ allocs post := by
  have hu : u.alloc = false := by rw [C.union]; rfl
  have hl := allocs_of_free fun c hc => C.free c (List.mem_append_left r hc)
  have hr := allocs_of_free fun c hc => C.free c (List.mem_append_right l hc)
  rw [C.left, C.right, allocs_append, allocs_cons_free hu, allocs_append, allocs_append, hl, hr]
  simp

/-- Coalescing keeps the payloads of the allocated blocks around. -/
theorem Heap.Coalesced.keeps (H : h.Loose pre b post fl)
    (C : h.Coalesced pre b post fl h' pre' u post' l r) :
    h.Keeps h' (allocs pre ++ allocs post) := by
  refine H.layout.keeps C.frame (fun x hx => ?_) fun c hc => ?_
  · obtain ⟨d, hd, hda, he⟩ := mem_freeBps.1 (H.listed.mem_iff.1 hx)
    exact ⟨d, mem_insert_middle hd, hda, he⟩
  · have hmem : c ∈ pre ++ b :: post := by
      rw [← allocs_append, mem_allocs] at hc
      exact mem_insert_middle hc.1
    rw [← C.allocs_eq, mem_allocs] at hc
    have hu : u.alloc = false := by rw [C.union]; rfl
    have hne : c ≠ u := by
      rintro rfl
      rw [hc.2] at hu
      cases hu
    have := C.wellFormed.layout.tiles.apart c (mem_of_mem_middle hc.1 hne)
    have := (H.layout.bounds hmem).size
    exact ⟨hmem, hc.2, by omega⟩

/-! ## Rewriting neighbours of a well-formed heap -/

/-- Neighbours are rewritten as allocated blocks `as` and a free block `f` that is not yet on the
list. -/
theorem Heap.WellFormed.loose (H : h.WellFormed (pre ++ mid ++ post) fl)
    (hmid : ∀ {lo hi}, Tiles Block.bp Block.size lo mid hi →
      lo = u.bp ∧ hi = u.bp + u.size ∧ Tiles Block.bp Block.size lo (as ++ [f]) hi)
    (hsz : ∀ b ∈ as ++ [f], b.size % 8 = 0 ∧ 16 ≤ b.size) (hf : f.alloc = false)
    (hm : Merged (pre ++ as)) (hfr : h.Frame h' (u.bp - 4) (u.bp + u.size - 4) fl)
    (htag : ∀ b ∈ as ++ [f], h'.Tagged b) (hk : h'.Links fl₁)
    (hlist : fl₁.Perm (freeBps (pre ++ as ++ post))) : h'.Loose (pre ++ as) f post fl₁ := by
  obtain ⟨hi, ht, hpost⟩ := Tiles.append.1 H.layout.tiles
  obtain ⟨lo, hpre, ht⟩ := Tiles.append.1 ht
  obtain ⟨rfl, rfl, ht⟩ := hmid ht
  refine
    { layout := ?_
      free := hf
      mergedPre := hm
      mergedPost := (List.isChain_append.1 H.merged).2.1
      links := hk
      listed := hlist }
  simpa using H.layout.replace hpre ht hpost hfr H.listedIn hsz htag

/-- Neighbours are rewritten as one allocated block, the free ones among them having left the
list. -/
theorem Heap.WellFormed.join (H : h.WellFormed (pre ++ mid ++ post) fl)
    (hmid : ∀ {lo hi}, Tiles Block.bp Block.size lo mid hi → lo = u.bp ∧ hi = u.bp + u.size)
    (hsz : u.size % 8 = 0 ∧ 16 ≤ u.size) (hu : u.alloc = true)
    (hfr : h.Frame h' (u.bp - 4) (u.bp + u.size - 4) fl) (htag : h'.Tagged u)
    (hk : h'.Links fl₁) (hlist : fl₁.Perm (freeBps (pre ++ post))) :
    h'.WellFormed (pre ++ u :: post) fl₁ := by
  obtain ⟨hi, ht, hpost⟩ := Tiles.append.1 H.layout.tiles
  obtain ⟨lo, hpre, ht⟩ := Tiles.append.1 ht
  obtain ⟨rfl, rfl⟩ := hmid ht
  have hone : Tiles Block.bp Block.size u.bp [u] (u.bp + u.size) := ⟨rfl, rfl⟩
  refine ⟨?_, ?_, hk, ?_⟩
  · simpa using H.layout.replace hpre hone hpost hfr H.listedIn (by simpa using hsz)
      (by simpa using htag)
  · obtain ⟨hm, hmpost, -⟩ := List.isChain_append.1 H.merged
    exact merged_insert (List.isChain_append.1 hm).1 hmpost (fun _ _ => .inr hu) fun _ _ => .inl hu
  · rw [freeBps_append, freeBps_cons_alloc hu, ← freeBps_append]
    exact hlist

/-- A change inside the payload of an allocated block keeps the heap well formed. -/
theorem Heap.WellFormed.of_payload (H : h.WellFormed bs fl) (hb : b ∈ bs) (ha : b.alloc = true)
    (hs : h.SameFrame h') (hfree : h'.freeListp = h.freeListp)
    (hm : ∀ q, q < b.bp ∨ b.bp + b.size ≤ q + 8 → h'.mem q = h.mem q) : h'.WellFormed bs fl := by
  have hl := H.layout
  have hB := hl.bounds hb
  have := hB.lo; have := hB.size
  obtain ⟨pre, post, rfl⟩ := List.append_of_mem hb
  have H' : h.WellFormed (pre ++ [b] ++ post) fl := by simpa using H
  have hone : ∀ {lo hi}, Tiles Block.bp Block.size lo [b] hi → lo = b.bp ∧ hi = b.bp + b.size := by
    intro lo hi ht
    obtain ⟨rfl, rfl⟩ : b.bp = lo ∧ lo + b.size = hi := ht
    exact ⟨rfl, rfl⟩
  refine H'.join hone ⟨hB.mod, hB.size⟩ ha ⟨hs, fun q hq _ => hm q (by omega)⟩ ?_ ?_ ?_
  · have ht := hl.tags b hb
    exact ⟨(Heap.get_congr fun q _ h2 => hm q (by omega)).trans ht.header,
      (Heap.get_congr fun q h1 _ => hm q (by omega)).trans ht.footer⟩
  · refine H.links.of_mem (hl.spaced H.listedIn) hfree fun x hx q h1 h2 => hm q ?_
    obtain ⟨d, hd, hda, rfl⟩ := H.mem_free x hx
    have := hl.apart hb hd fun e => by rw [e, hda] at ha; cases ha
    have := (hl.bounds hd).size
    omega
  · have := H.listed
    rwa [freeBps_append, freeBps_cons_alloc ha, ← freeBps_append] at this

/-- `mm_free` writes free tags and coalesces; the freed block is the only one off the list. -/
theorem Heap.WellFormed.mmFree_loose (H : h.WellFormed (pre ++ b :: post) fl)
    (hb : b.alloc = true) : h.mmFree b.bp = ((h.retag b.freed).coalesce b.freed.bp).2 ∧
      (h.retag b.freed).Loose pre b.freed post fl ∧
      h.Keeps (h.retag b.freed) (allocs pre ++ allocs post) := by
  have hl := H.layout
  have hbm : b ∈ pre ++ b :: post := by simp
  have hB := hl.bounds hbm
  obtain ⟨f, hf⟩ : ∃ f, f = b.freed := ⟨_, rfl⟩
  have hbp : f.bp = b.bp := by rw [hf]; rfl
  have hsize : f.size = b.size := by rw [hf]; rfl
  have hfree : f.alloc = false := by rw [hf]; rfl
  rw [← hf]
  have hfit : f.Fits :=
    ⟨hsize ▸ hB.mod, hsize ▸ hB.size, hbp ▸ hB.fits.lo, by rw [hbp, hsize]; exact hB.fits.hi⟩
  have hout : ∀ x ∈ fl, x + 16 ≤ f.bp ∨ f.bp + f.size ≤ x ∨ x = f.bp := by
    intro x hx
    obtain ⟨d, hd, hda, rfl⟩ := H.mem_free x hx
    have := hl.apart hbm hd fun e => by rw [e, hda] at hb; cases hb
    have := (hl.bounds hd).size
    omega
  refine ⟨?_, ?_, ?_⟩
  · have hword : pack b.size 0 = f.word := by rw [Block.word, hsize, hfree]; rfl
    rw [← h.put_tags hfit hbp hword, hbp]
    simp only [Heap.mmFree, hl.getSize hbm]
  · have H' : h.WellFormed (pre ++ [b] ++ post) fl := by simpa using H
    have hone : ∀ {lo hi}, Tiles Block.bp Block.size lo [b] hi →
        lo = f.bp ∧ hi = f.bp + f.size ∧ Tiles Block.bp Block.size lo ([] ++ [f]) hi := by
      intro lo hi ht
      obtain ⟨rfl, rfl⟩ : b.bp = lo ∧ lo + b.size = hi := ht
      exact ⟨hbp.symm, by omega, hbp, by rw [hsize]; rfl⟩
    have hloose : (h.retag f).Loose (pre ++ []) f post fl := by
      refine H'.loose hone (by simpa using ⟨hfit.mod, hfit.size⟩) hfree ?_ (h.retag_frame fl hfit)
        (by simpa using h.retag_tagged hfit) (H.links.retag (hl.spaced H.listedIn) hfit hout) ?_
      · rw [List.append_nil]
        exact (List.isChain_append.1 H.merged).1
      · have := H.listed
        rw [freeBps_append, freeBps_cons_alloc hb] at this
        simpa using this
    rwa [List.append_nil] at hloose
  · refine hl.keeps (h.retag_frame fl hfit) H.mem_free fun c hc => ?_
    rw [← allocs_append, mem_allocs] at hc
    have hcm : c ∈ pre ++ b :: post := mem_insert_middle hc.1
    have := hl.tiles.apart c hc.1
    have := (hl.bounds hcm).size
    exact ⟨hcm, hc.2, by omega⟩

/-- **`mm_free`**: the block and its free neighbours become one free block. -/
theorem Heap.WellFormed.mmFree (H : h.WellFormed (pre ++ b :: post) fl) (hb : b.alloc = true) :
    (h.mmFree b.bp).WellFormed (Shape.coalesce pre b.freed post fl).blocks
        (Shape.coalesce pre b.freed post fl).list ∧
      allocs (Shape.coalesce pre b.freed post fl).blocks = allocs pre ++ allocs post ∧
      h.Keeps (h.mmFree b.bp) (allocs pre ++ allocs post) := by
  obtain ⟨hcode, hloose, hk⟩ := H.mmFree_loose hb
  have C := hloose.coalesce.2
  rw [hcode]
  exact ⟨C.wellFormed, C.allocs_eq, hk.trans (C.keeps hloose)⟩

/-! ## Placing a block -/

/-- The allocated blocks around a block keep their payloads when the change stays inside it. -/
theorem Heap.WellFormed.keeps_around (H : h.WellFormed (pre ++ b :: post) fl)
    (hf : h.Frame h' (b.bp - 4) (b.bp + b.size - 4) fl) :
    h.Keeps h' (allocs pre ++ allocs post) := by
  refine H.layout.keeps hf H.mem_free fun c hc => ?_
  rw [← allocs_append, mem_allocs] at hc
  have hcm : c ∈ pre ++ b :: post := mem_insert_middle hc.1
  have := H.layout.tiles.apart c hc.1
  have := (H.layout.bounds hcm).size
  exact ⟨hcm, hc.2, by omega⟩

/-- A free block leaves the list. -/
theorem Heap.WellFormed.erase_perm (H : h.WellFormed (pre ++ b :: post) fl)
    (hb : b.alloc = false) : (fl.erase b.bp).Perm (freeBps (pre ++ post)) := by
  have := H.listed
  rw [freeBps_append, freeBps_cons_free hb] at this
  have := (this.trans List.perm_middle).erase b.bp
  rwa [List.erase_cons_head, ← freeBps_append] at this

/-- A free block of the layout is listed. -/
theorem Heap.WellFormed.mem_list (H : h.WellFormed bs fl) (hb : b ∈ bs) (ha : b.alloc = false) :
    b.bp ∈ fl :=
  H.listed.mem_iff.2 (mem_freeBps.2 ⟨b, hb, ha, rfl⟩)

/-- Tags written at the start of a listed block keep the list. -/
theorem Heap.WellFormed.retag_links (H : h.WellFormed bs fl) (hb : b ∈ bs) (hu : u.Fits)
    (hbp : u.bp = b.bp) (hle : u.size ≤ b.size) : (h.retag u).Links fl := by
  refine H.links.retag (H.layout.spaced H.listedIn) hu fun x hx => ?_
  obtain ⟨d, hd, -, rfl⟩ := H.mem_free x hx
  by_cases he : d = b
  · exact .inr (.inr (by rw [he, hbp]))
  · have := H.layout.apart hb hd fun e => he e.symm
    have := (H.layout.bounds hd).size
    omega

/-- The whole of a free block is allocated. -/
theorem Heap.WellFormed.place_all (H : h.WellFormed (pre ++ b :: post) fl) (hb : b.alloc = false)
    (hs : ¬ dsize + overhead ≤ wsub b.size asize) (ha : a = ⟨b.bp, b.size, true⟩) :
    (h.place b.bp asize).WellFormed (pre ++ a :: post) (fl.erase b.bp) ∧
      h.Keeps (h.place b.bp asize) (allocs pre ++ allocs post) := by
  have hl := H.layout
  have hbm : b ∈ pre ++ b :: post := by simp
  have hB := hl.bounds hbm
  have hbp : a.bp = b.bp := by rw [ha]
  have hsize : a.size = b.size := by rw [ha]
  have hfit : a.Fits :=
    ⟨hsize ▸ hB.mod, hsize ▸ hB.size, hbp ▸ hB.fits.lo, by rw [hbp, hsize]; exact hB.fits.hi⟩
  have hsp := hl.spaced H.listedIn
  have hk₁ := H.retag_links hbm hfit hbp (Nat.le_of_eq hsize)
  obtain ⟨hk, hf⟩ := hk₁.removeBlock (H.mem_list hbm hb) hsp
  have hframe : h.Frame ((h.retag a).removeBlock b.bp) (a.bp - 4) (a.bp + a.size - 4) fl :=
    (h.retag_frame fl hfit).trans (hf.mono (by omega) fun _ hx => hx)
  have hcode : h.place b.bp asize = (h.retag a).removeBlock b.bp := by
    have hword : pack b.size 1 = a.word := by rw [ha]; rfl
    rw [← h.put_tags hfit hbp hword]
    simp only [Heap.place, hl.getSize hbm]
    rw [if_neg hs]
  generalize (h.retag a).removeBlock b.bp = g at *
  -- the links of the listed blocks do not overlap the tags
  have htag : g.Tagged a := by
    have hkeep : ∀ w, h.TagAddr (pre ++ b :: post) w → g.get w = (h.retag a).get w := by
      intro w hw
      refine hf.get (by omega) fun x hx => ?_
      obtain ⟨d, hd, -, rfl⟩ := H.mem_free x hx
      exact hl.tag_apart hw hd
    have := hB.lo; have := hB.size
    exact ⟨(hkeep _ (.inr (.inr (.inr ⟨b, hbm, by omega⟩)))).trans (h.retag_tagged hfit).header,
      (hkeep _ (.inr (.inr (.inr ⟨b, hbm, by omega⟩)))).trans (h.retag_tagged hfit).footer⟩
  rw [hcode]
  refine ⟨?_, H.keeps_around (by rw [← hbp, ← hsize]; exact hframe)⟩
  have H' : h.WellFormed (pre ++ [b] ++ post) fl := by simpa using H
  have hone : ∀ {lo hi}, Tiles Block.bp Block.size lo [b] hi → lo = a.bp ∧ hi = a.bp + a.size := by
    intro lo hi ht
    obtain ⟨rfl, rfl⟩ : b.bp = lo ∧ lo + b.size = hi := ht
    exact ⟨hbp.symm, by rw [hbp, hsize]⟩
  exact H'.join hone ⟨hfit.mod, hfit.size⟩ (by rw [ha]) hframe htag hk (H.erase_perm hb)

/-- The part of a block that `place` takes has a size for a tag. -/
theorem Heap.Bounds.head_fits {n : Nat} (hB : h.Bounds b) (hmod : n % 8 = 0) (hmin : 16 ≤ n)
    (hle : n ≤ b.size) : (b.head n).Fits := by
  have := hB.fits.lo; have := hB.fits.hi
  exact ⟨hmod, hmin, hB.fits.lo, show b.bp + n < 2 ^ 32 by omega⟩

/-- The rest that `place` leaves has a size for a tag. -/
theorem Heap.Bounds.rest_fits {n : Nat} (hB : h.Bounds b) (hmod : n % 8 = 0)
    (hs : n + 16 ≤ b.size) : (b.rest n).Fits := by
  have := hB.fits.lo; have := hB.fits.hi; have := hB.mod
  exact ⟨show (b.size - n) % 8 = 0 by omega, show 16 ≤ b.size - n by omega,
    show 4 ≤ b.bp + n by omega, show b.bp + n + (b.size - n) < 2 ^ 32 by omega⟩

/-- Behind the tags of the first `n` bytes of a block the remainder starts, and its own tags leave
them alone. -/
theorem Heap.Bounds.split_tags {g : Heap} {n : Nat} (hB : h.Bounds b) (hmod : n % 8 = 0)
    (hmin : 16 ≤ n) (hs : n + 16 ≤ b.size) (htag : g.Tagged (b.head n)) :
    g.nextBlkp b.bp = (b.rest n).bp ∧ (g.retag (b.rest n)).Tagged (b.head n) := by
  have hlo := hB.fits.lo
  have hhi := hB.fits.hi
  have hfit := hB.rest_fits hmod hs
  have hkeep : ∀ w, w + 4 = b.bp ∨ w + 8 = b.bp + n → (g.retag (b.rest n)).get w = g.get w := by
    intro w hw
    exact Heap.get_retag_of_sep hfit (.inl (show w + 8 ≤ b.bp + n by omega))
      (.inl (show w + 12 ≤ b.bp + n + (b.size - n) by omega))
  refine ⟨Heap.nextBlkp_of_header htag.header hmod hlo (show b.bp + n < 2 ^ 32 by omega), ?_, ?_⟩
  · exact (hkeep _ (.inl (show b.bp - 4 + 4 = b.bp by omega))).trans htag.header
  · exact (hkeep _ (.inr (show b.bp + n - 8 + 8 = b.bp + n by omega))).trans htag.footer

/-- **Splitting.** In `g` the block `b` has left the list, if it was on it, and its first `n` bytes
have the tags of an allocated block. The remainder is tagged and coalesced. -/
theorem Heap.WellFormed.split {g : Heap} {n : Nat} (H : h.WellFormed (pre ++ b :: post) fl)
    (hmod : n % 8 = 0) (hmin : 16 ≤ n) (hs : n + 16 ≤ b.size)
    (hf : h.Frame g (b.bp - 4) (b.bp + b.size - 4) fl) (htag : g.Tagged (b.head n))
    (hk : g.Links fl₁) (hlist : fl₁.Perm (freeBps (pre ++ post))) (hsub : ∀ x ∈ fl₁, x ∈ fl) :
    ((g.retag (b.rest n)).coalesce (b.rest n).bp).2.WellFormed
        (Shape.coalesce (pre ++ [b.head n]) (b.rest n) post fl₁).blocks
        (Shape.coalesce (pre ++ [b.head n]) (b.rest n) post fl₁).list ∧
      allocs (Shape.coalesce (pre ++ [b.head n]) (b.rest n) post fl₁).blocks =
        allocs pre ++ b.head n :: allocs post ∧
      h.Keeps ((g.retag (b.rest n)).coalesce (b.rest n).bp).2 (allocs pre ++ allocs post) ∧
      g.Keeps ((g.retag (b.rest n)).coalesce (b.rest n).bp).2 [b.head n] := by
  have hl := H.layout
  have hbm : b ∈ pre ++ b :: post := by simp
  have hB := hl.bounds hbm
  have hffit := hB.rest_fits hmod hs
  obtain ⟨-, htag'⟩ := hB.split_tags hmod hmin hs htag
  obtain ⟨a, ha⟩ : ∃ a, a = b.head n := ⟨_, rfl⟩
  obtain ⟨f, hfe⟩ : ∃ f, f = b.rest n := ⟨_, rfl⟩
  have habp : a.bp = b.bp := by rw [ha]; rfl
  have hasize : a.size = n := by rw [ha]; rfl
  have haa : a.alloc = true := by rw [ha]; rfl
  have hfbp : f.bp = b.bp + n := by rw [hfe]; rfl
  have hfsize : f.size = b.size - n := by rw [hfe]; rfl
  rw [← hfe] at hffit htag' ⊢
  rw [← ha] at htag' ⊢
  have := hB.fits.lo
  have hout : ∀ x ∈ fl₁, x + 16 ≤ b.bp ∨ b.bp + b.size ≤ x := by
    intro x hx
    obtain ⟨d, hd, -, rfl⟩ := mem_freeBps.1 (hlist.mem_iff.1 hx)
    have := hl.tiles.apart d hd
    have := (hl.bounds (mem_insert_middle hd)).size
    omega
  have hk' : (g.retag f).Links fl₁ :=
    hk.retag ((hl.spaced H.listedIn).mono hsub) hffit fun x hx => by
      have := hout x hx
      omega
  have hframe : h.Frame (g.retag f) (b.bp - 4) (b.bp + b.size - 4) fl :=
    hf.trans ((g.retag_frame fl hffit).mono (by omega) fun _ hx => hx)
  have hloose : (g.retag f).Loose (pre ++ [a]) f post fl₁ := by
    have H' : h.WellFormed (pre ++ [b] ++ post) fl := by simpa using H
    refine H'.loose (u := b) (fun {lo hi} ht => ?_) (by
      simpa using ⟨⟨by omega, by omega⟩, hffit.mod, hffit.size⟩) (by rw [hfe]; rfl) ?_ hframe
      (by simpa using ⟨htag', g.retag_tagged hffit⟩) hk' ?_
    · obtain ⟨rfl, rfl⟩ : b.bp = lo ∧ lo + b.size = hi := ht
      refine ⟨rfl, rfl, habp, by omega, ?_⟩
      show b.bp + a.size + f.size = b.bp + b.size
      omega
    · exact merged_insert (List.isChain_append.1 H.merged).1 .nil (fun _ _ => .inr haa)
        fun _ _ => .inl haa
    · rw [freeBps_append] at hlist
      rw [freeBps_append, freeBps_append, freeBps_cons_alloc haa]
      simpa [freeBps] using hlist
  have C := hloose.coalesce.2
  have hall := C.allocs_eq
  have hkeeps := C.keeps hloose
  have hpa : allocs (pre ++ [a]) = allocs pre ++ [a] := by
    rw [allocs_append, allocs_cons_alloc haa, allocs_nil]
  rw [hpa] at hall hkeeps
  have hgf : g.Keeps (g.retag f) [a] := by
    intro c hc q h1 h2
    obtain rfl := List.mem_singleton.1 hc
    exact (g.retag_frame [] hffit).mem q (by omega) fun _ hx => absurd hx List.not_mem_nil
  refine ⟨C.wellFormed, hall.trans (by simp),
    (H.keeps_around hframe).trans fun c hc => hkeeps c ?_, hgf.trans fun c hc => hkeeps c ?_⟩
  · simp only [List.mem_append] at hc ⊢
    tauto
  · simp only [List.mem_append]
    exact .inl (.inr hc)

/-- A free block is split, and the remainder coalesced. -/
theorem Heap.WellFormed.place_split (H : h.WellFormed (pre ++ b :: post) fl)
    (hb : b.alloc = false) (hmod : asize % 8 = 0) (hmin : 16 ≤ asize) (hs : asize + 16 ≤ b.size) :
    (h.place b.bp asize).WellFormed
        (Shape.coalesce (pre ++ [b.head asize]) (b.rest asize) post (fl.erase b.bp)).blocks
        (Shape.coalesce (pre ++ [b.head asize]) (b.rest asize) post (fl.erase b.bp)).list ∧
      allocs (Shape.coalesce (pre ++ [b.head asize]) (b.rest asize) post (fl.erase b.bp)).blocks =
        allocs pre ++ b.head asize :: allocs post ∧
      h.Keeps (h.place b.bp asize) (allocs pre ++ allocs post) := by
  have hl := H.layout
  have hbm : b ∈ pre ++ b :: post := by simp
  have hB := hl.bounds hbm
  have := hB.fits.lo; have := hB.fits.hi
  have hafit := hB.head_fits hmod hmin (show asize ≤ b.size by omega)
  have hffit := hB.rest_fits hmod hs
  have hk₁ := H.retag_links hbm hafit rfl (show asize ≤ b.size by omega)
  obtain ⟨hk₂, hf₂⟩ := hk₁.removeBlock (H.mem_list hbm hb) (hl.spaced H.listedIn)
  generalize hg : (h.retag (b.head asize)).removeBlock b.bp = g at *
  have hframe : h.Frame g (b.bp - 4) (b.bp + b.size - 4) fl :=
    ((h.retag_frame fl hafit).mono (fun _ => ⟨Nat.le_refl _, show b.bp + asize - 4 ≤ _ by omega⟩)
      fun _ hx => hx).trans (hf₂.mono (by omega) fun _ hx => hx)
  have htag : g.Tagged (b.head asize) := by
    have hkeep : ∀ w, w + 4 = b.bp ∨ w + 8 = b.bp + asize →
        g.get w = (h.retag (b.head asize)).get w := by
      intro w hw
      refine hf₂.get (by omega) fun x hx => ?_
      obtain ⟨d, hd, -, rfl⟩ := H.mem_free x hx
      by_cases hdb : d = b
      · subst hdb; omega
      · have := hl.apart hbm hd fun e => hdb e.symm
        have := (hl.bounds hd).size
        omega
    exact ⟨(hkeep _ (show b.bp - 4 + 4 = b.bp ∨ _ by omega)).trans (h.retag_tagged hafit).header,
      (hkeep _ (.inr (show b.bp + asize - 8 + 8 = _ by omega))).trans (h.retag_tagged hafit).footer⟩
  have hcode : h.place b.bp asize =
      ((g.retag (b.rest asize)).coalesce (b.rest asize).bp).2 := by
    obtain ⟨hnext, -⟩ := hB.split_tags hmod hmin hs htag
    have hw : wsub b.size asize = b.size - asize := wsub_of_le (by omega)
    have hle : dsize + overhead ≤ b.size - asize := show 16 ≤ b.size - asize by omega
    have ht₁ : (h.put (hdrp b.bp) (pack asize 1)).put
        ((h.put (hdrp b.bp) (pack asize 1)).ftrp b.bp) (pack asize 1) = h.retag (b.head asize) :=
      h.put_tags hafit rfl rfl
    have ht₂ : (g.put (hdrp (b.rest asize).bp) (pack (b.size - asize) 0)).put
        ((g.put (hdrp (b.rest asize).bp) (pack (b.size - asize) 0)).ftrp (b.rest asize).bp)
        (pack (b.size - asize) 0) = g.retag (b.rest asize) := g.put_tags hffit rfl rfl
    simp only [Heap.place, hl.getSize hbm, hw, if_pos hle, ht₁, hg, hnext, ht₂]
  obtain ⟨hwf, hall, hk, -⟩ := H.split hmod hmin hs hframe htag hk₂ (H.erase_perm hb)
    fun _ hx => List.mem_of_mem_erase hx
  rw [hcode]
  exact ⟨hwf, hall, hk⟩

/-- **`place`**: an allocated block of at least the size asked for stands where the free block
began. -/
theorem Heap.WellFormed.place (H : h.WellFormed (pre ++ b :: post) fl) (hb : b.alloc = false)
    (hmod : asize % 8 = 0) (hmin : 16 ≤ asize) (hle : asize ≤ b.size) :
    ∃ bs' fl' a, (h.place b.bp asize).WellFormed bs' fl' ∧
      allocs bs' = allocs pre ++ a :: allocs post ∧ a.bp = b.bp ∧ a.alloc = true ∧
      asize ≤ a.size ∧ h.Keeps (h.place b.bp asize) (allocs pre ++ allocs post) := by
  by_cases hs : asize + 16 ≤ b.size
  · obtain ⟨hw, hall, hk⟩ := H.place_split hb hmod hmin hs
    exact ⟨_, _, _, hw, hall, rfl, rfl, Nat.le_refl _, hk⟩
  · have hw : wsub b.size asize = b.size - asize := wsub_of_le hle
    obtain ⟨hw, hk⟩ := H.place_all hb (show ¬ 8 + 8 ≤ wsub b.size asize by omega) rfl
    exact ⟨_, _, ⟨b.bp, b.size, true⟩, hw, by rw [allocs_append, allocs_cons_alloc rfl], rfl, rfl,
      hle, hk⟩

/-! ## Searching the free list -/

/-- From a suffix of the list, the search finds its first block that is large enough. -/
theorem Heap.findFitFrom_eq {P : Nat → Bool} {l : List Nat} {back p fuel : Nat}
    (hs : Seg 0 h.next h.prev back p l) (ha : ∀ x ∈ l, h.getAlloc (hdrp x) = 0)
    (hP : ∀ x ∈ l, P x = decide (asize ≤ h.getSize (hdrp x))) (hf : l.length < fuel) :
    h.findFitFrom asize fuel p = some ((l.find? P).getD 0) := by
  induction l generalizing back p fuel with
  | nil =>
    obtain ⟨fuel, rfl⟩ := Nat.exists_eq_succ_of_ne_zero (Nat.ne_of_gt hf)
    exact if_pos hs
  | cons x l ih =>
    obtain ⟨rfl, hx, -, hl⟩ := hs
    obtain ⟨fuel, rfl⟩ := Nat.exists_eq_succ_of_ne_zero (Nat.ne_of_gt (Nat.zero_lt_of_lt hf))
    have hap := ha p List.mem_cons_self
    rw [Heap.findFitFrom, if_neg hx, List.find?_cons, hP p List.mem_cons_self]
    by_cases hfit : asize ≤ h.getSize (hdrp p)
    · rw [if_pos ⟨hap, hfit⟩, decide_eq_true hfit]
      rfl
    · rw [if_neg fun hc => hfit hc.2, decide_eq_false hfit]
      exact ih hl (fun y hy => ha y (List.mem_cons_of_mem _ hy))
        (fun y hy => hP y (List.mem_cons_of_mem _ hy)) (Nat.lt_of_succ_lt_succ hf)

/-- The list is shorter than the address space. -/
theorem Heap.WellFormed.length_lt (H : h.WellFormed bs fl) : fl.length < 2 ^ 32 := by
  refine (Seg.path H.links).length_lt (List.forall_mem_cons.2 ⟨Nat.two_pow_pos 32, fun x hx => ?_⟩)
  have := (H.layout.spaced H.listedIn).lt x hx
  omega

/-- **`find_fit`** ends, with the first block of the list that is large enough or, when there is
none, `NULL`. -/
theorem Heap.WellFormed.findFit_eq (H : h.WellFormed bs fl) {P : Nat → Bool}
    (hP : ∀ b ∈ bs, P b.bp = decide (asize ≤ b.size)) :
    h.findFit asize = some ((fl.find? P).getD 0) := by
  refine Heap.findFitFrom_eq (h := h) H.links (fun x hx => ?_) (fun x hx => ?_) H.length_lt
  · obtain ⟨d, hd, hda, rfl⟩ := H.mem_free x hx
    rw [H.layout.getAlloc hd, hda]; rfl
  · obtain ⟨d, hd, -, rfl⟩ := H.mem_free x hx
    rw [H.layout.getSize hd, hP d hd]

/-- The block found is free and large enough, and `NULL` means that there is none. -/
theorem Heap.WellFormed.findFit (H : h.WellFormed bs fl) (asize : Nat) :
    ∃ r, h.findFit asize = some r ∧
      (r = 0 ∧ (∀ b ∈ bs, b.alloc = false → b.size < asize) ∨
        r ≠ 0 ∧ ∃ b ∈ bs, b.bp = r ∧ b.alloc = false ∧ asize ≤ b.size) := by
  obtain ⟨P, hP⟩ : ∃ P : Nat → Bool, ∀ b ∈ bs, P b.bp = decide (asize ≤ b.size) :=
    ⟨fun x => decide (asize ≤ h.getSize (hdrp x)), fun b hb =>
      congrArg (fun n => decide (asize ≤ n)) (H.layout.getSize hb)⟩
  refine ⟨_, H.findFit_eq hP, ?_⟩
  cases hfind : fl.find? P with
  | none =>
    refine .inl ⟨rfl, fun b hb hba => ?_⟩
    have := List.find?_eq_none.1 hfind b.bp (H.mem_list hb hba)
    rw [hP b hb, decide_eq_true_iff] at this
    omega
  | some x =>
    obtain ⟨d, hd, hda, rfl⟩ := H.mem_free x (List.mem_of_find?_eq_some hfind)
    have hfit := List.find?_some hfind
    rw [hP d hd, decide_eq_true_iff] at hfit
    exact .inr ⟨Linked.ne_null H.links _ (H.mem_list hd hda), d, hd, rfl, hda, hfit⟩

/-! ## Growing the heap -/

/-- The heap with the break moved up and a free block in the new area, in front of a new
epilogue. -/
def Heap.grow (h : Heap) (n : Block) : Heap :=
  ({ h with memBrk := h.memBrk + n.size }.retag n).put (h.memBrk + n.size - 4) (pack 0 1)

/-- `mem_sbrk` on a size read as a signed number. -/
theorem Heap.memSbrk_toInt (h : Heap) {size : Nat} (hlt : size < 2 ^ 32) :
    h.memSbrk (toInt size) =
      if size < 2 ^ 31 ∧ h.memBrk + size ≤ h.memMaxAddr then
        (h.memBrk, { h with memBrk := h.memBrk + size })
      else (sbrkFailed, h) := by
  by_cases hs : size < 2 ^ 31
  · rw [Heap.memSbrk, toInt_of_lt hs]
    by_cases hm : h.memBrk + size ≤ h.memMaxAddr
    · rw [Int.toNat_natCast, if_neg (by omega), if_pos ⟨hs, hm⟩]
    · rw [Int.toNat_natCast, if_pos (by omega), if_neg fun hc => hm hc.2]
  · have := toInt_neg hlt (by omega)
    rw [Heap.memSbrk, if_pos (.inl this), if_neg fun hc => hs hc.1]

/-- The size `extend_heap` makes of an even number of words. -/
theorem words_size (heven : words % 2 = 0) (hlt : words * 4 < 2 ^ 32) :
    (if words % 2 ≠ 0 then (words + 1) * wsize % 2 ^ 32 else words * wsize % 2 ^ 32) =
      words * 4 := by
  rw [if_neg (not_not.2 heven)]
  exact Nat.mod_eq_of_lt hlt

/-- Nothing below the old epilogue changes. -/
theorem Heap.grow_mem {n : Block} {q : Nat} (hbp : n.bp = h.memBrk) (hmin : 16 ≤ n.size)
    (hq : q < h.memBrk - 4) : (h.grow n).mem q = h.mem q :=
  (Heap.mem_put_of_sep (by omega)).trans ((Heap.mem_put_of_sep (by omega)).trans
    (Heap.mem_put_of_sep (by omega)))

/-- The appended block is the last one of the layout. -/
theorem Heap.Layout.grow (hl : h.Layout bs) {n : Block} (hbp : n.bp = h.memBrk)
    (hmod : n.size % 8 = 0) (hmin : 16 ≤ n.size) (hmax : h.memBrk + n.size ≤ h.memMaxAddr) :
    (h.grow n).Layout (bs ++ [n]) := by
  have := hl.addressable; have := hl.le_brk; have := hl.listp
  have hfit : n.Fits := ⟨hmod, hmin, by omega, by omega⟩
  have hget : ∀ w, w + 8 ≤ h.memBrk → (h.grow n).get w = h.get w := fun w hw =>
    Heap.get_congr fun q _ h2 => Heap.grow_mem hbp hmin (by omega)
  refine
    { aligned := hl.aligned
      inBounds := hmax
      addressable := hl.addressable
      listp := hl.listp
      prologue := ⟨(hget _ (show h.heapListp - 4 + 8 ≤ _ by omega)).trans hl.prologue.header,
        (hget _ (show h.heapListp + 8 - 8 + 8 ≤ _ by omega)).trans hl.prologue.footer⟩
      tiles := Tiles.append.2 ⟨h.memBrk, hl.tiles, hbp, rfl⟩
      sizes := fun b hb => ?_
      tags := fun b hb => ?_
      epilogue := Heap.get_put _ _ (by decide) }
  · rcases List.mem_append.1 hb with hb | hb
    · exact hl.sizes b hb
    · rw [List.mem_singleton.1 hb]; exact ⟨hmod, hmin⟩
  · rcases List.mem_append.1 hb with hb | hb
    · have := (hl.bounds hb).hi; have := (hl.bounds hb).size; have := (hl.bounds hb).lo
      exact ⟨(hget _ (by omega)).trans (hl.tags b hb).header,
        (hget _ (by omega)).trans (hl.tags b hb).footer⟩
    · rw [List.mem_singleton.1 hb]
      have ht := Heap.retag_tagged { h with memBrk := h.memBrk + n.size } hfit
      exact ⟨(Heap.get_put_of_sep (by omega)).trans ht.header,
        (Heap.get_put_of_sep (by omega)).trans ht.footer⟩

/-- The appended block is loose, and no payload below the old break changes. -/
theorem Heap.WellFormed.grow_loose (H : h.WellFormed bs fl) {n : Block} (hbp : n.bp = h.memBrk)
    (hmod : n.size % 8 = 0) (hmin : 16 ≤ n.size) (hfree : n.alloc = false)
    (hmax : h.memBrk + n.size ≤ h.memMaxAddr) :
    (h.grow n).Loose bs n [] fl ∧ h.Keeps (h.grow n) (allocs bs) := by
  have hl := H.layout
  refine ⟨⟨hl.grow hbp hmod hmin hmax, hfree, H.merged, .nil, ?_, by simpa using H.listed⟩, ?_⟩
  · refine H.links.of_mem (hl.spaced H.listedIn) rfl fun x hx q _ h2 => Heap.grow_mem hbp hmin ?_
    obtain ⟨d, hd, -, rfl⟩ := H.mem_free x hx
    have := (hl.bounds hd).hi; have := (hl.bounds hd).size
    omega
  · intro c hc q _ h2
    have := (hl.bounds (mem_allocs.1 hc).1).hi; have := (hl.bounds (mem_allocs.1 hc).1).size
    exact Heap.grow_mem hbp hmin (by omega)

/-- `extend_heap` fails, whatever is in the memory, when the break cannot move up. -/
theorem Heap.extendHeap_fail (h : Heap) (heven : words % 2 = 0) (hlt : words * 4 < 2 ^ 32)
    (hs : ¬ (words * 4 < 2 ^ 31 ∧ h.memBrk + words * 4 ≤ h.memMaxAddr)) :
    h.extendHeap words = (0, h) := by
  have hsbrk := h.memSbrk_toInt hlt
  rw [if_neg hs] at hsbrk
  simp only [Heap.extendHeap, words_size heven hlt, hsbrk, if_true]

/-- What `extend_heap` writes before it coalesces, where the break can move up. -/
theorem Heap.Layout.extend_writes (hl : h.Layout bs) (hmod : words % 2 = 0) (hmin : 4 ≤ words)
    (hs : words * 4 < 2 ^ 31 ∧ h.memBrk + words * 4 ≤ h.memMaxAddr) {n : Block}
    (hbp : n.bp = h.memBrk) (hn : n.size = words * 4) (hfree : n.alloc = false) :
    ∃ g, h.memSbrk (toInt (words * 4)) = (n.bp, g) ∧ n.bp ≠ sbrkFailed ∧
      (g.put (hdrp n.bp) (pack (words * 4) 0)).put
        ((g.put (hdrp n.bp) (pack (words * 4) 0)).ftrp n.bp) (pack (words * 4) 0) = g.retag n ∧
      (g.retag n).put (hdrp ((g.retag n).nextBlkp n.bp)) (pack 0 1) = h.grow n := by
  have := hl.addressable; have := hl.le_brk; have := hl.listp
  have hfit : n.Fits := ⟨by omega, by omega, by omega, by omega⟩
  have hword : pack (words * 4) 0 = n.word := by rw [Block.word, hn, hfree]; rfl
  have hsbrk := h.memSbrk_toInt (show words * 4 < 2 ^ 32 by omega)
  rw [if_pos hs, ← hbp] at hsbrk
  refine ⟨_, hsbrk, ?_, Heap.put_tags _ hfit rfl hword, ?_⟩
  · show n.bp ≠ 2 ^ 32 - 1
    omega
  · rw [Heap.grow, ← hbp, hn]
    generalize ({ h with memBrk := n.bp + words * 4 } : Heap) = g
    have hnext : (g.retag n).nextBlkp n.bp = n.bp + n.size :=
      Heap.nextBlkp_of_header (g.retag_tagged hfit).header hfit.mod hfit.lo hfit.hi
    rw [hnext, hn, hdrp_eq (by omega)]

/-- `extend_heap` succeeds: a free block in the new area is coalesced. -/
theorem Heap.WellFormed.extendHeap_eq (H : h.WellFormed bs fl) (heven : words % 2 = 0)
    (hmin : 4 ≤ words) (hs : words * 4 < 2 ^ 31 ∧ h.memBrk + words * 4 ≤ h.memMaxAddr) {n : Block}
    (hbp : n.bp = h.memBrk) (hn : n.size = words * 4) (hfree : n.alloc = false) :
    h.extendHeap words = (h.grow n).coalesce n.bp := by
  obtain ⟨g, hsbrk, hne, htags, hgrow⟩ := H.layout.extend_writes heven hmin hs hbp hn hfree
  simp only [Heap.extendHeap, words_size heven (show words * 4 < 2 ^ 32 by omega), hsbrk,
    if_neg hne, htags, hgrow]

/-- **`extend_heap`** with an even number of words: it fails and changes nothing, or the last block
is a free block of at least the size asked for. -/
theorem Heap.WellFormed.extendHeap (H : h.WellFormed bs fl) (heven : words % 2 = 0)
    (hmin : 4 ≤ words) (hlt : words * 4 < 2 ^ 32) :
    h.extendHeap words = (0, h) ∧
        ¬ (words * 4 < 2 ^ 31 ∧ h.memBrk + words * 4 ≤ h.memMaxAddr) ∨
      (words * 4 < 2 ^ 31 ∧ h.memBrk + words * 4 ≤ h.memMaxAddr) ∧
        ∃ (pre : List Block) (u : Block) (fl' : List Nat), (h.extendHeap words).1 = u.bp ∧
          u.bp ≠ 0 ∧ u.alloc = false ∧ words * 4 ≤ u.size ∧
          (h.extendHeap words).2.WellFormed (pre ++ [u]) fl' ∧
          allocs pre = allocs bs ∧ h.Keeps (h.extendHeap words).2 (allocs bs) := by
  by_cases hs : words * 4 < 2 ^ 31 ∧ h.memBrk + words * 4 ≤ h.memMaxAddr
  · refine .inr ⟨hs, ?_⟩
    obtain ⟨n, hbp, hn, hfree⟩ : ∃ n : Block, n.bp = h.memBrk ∧ n.size = words * 4 ∧
        n.alloc = false := ⟨⟨h.memBrk, words * 4, false⟩, rfl, rfl, rfl⟩
    obtain ⟨hloose, hk⟩ := H.grow_loose hbp (by omega) (by omega) hfree (by omega)
    have hcode := H.extendHeap_eq heven hmin hs hbp hn hfree
    have ⟨hu, C⟩ := hloose.coalesce
    have hua : (Block.joined bs n []).alloc = false := by rw [C.union]; rfl
    refine ⟨_, _, _, hcode ▸ hu, ?_, hua, ?_, hcode ▸ C.wellFormed, ?_, ?_⟩
    · exact Linked.ne_null C.wellFormed.links _ List.mem_cons_self
    · rw [C.union, ← hn]
      simp only [Block.union, List.map_append, List.map_cons, List.sum_append, List.sum_cons]
      omega
    · have := C.allocs_eq
      rw [allocs_append, allocs_cons_free hua] at this
      simpa using this
    · rw [hcode]
      exact hk.trans (by simpa using C.keeps hloose)
  · exact .inl ⟨h.extendHeap_fail heven hlt hs, hs⟩

/-- With room above the break, `extend_heap` returns a block. -/
theorem Heap.WellFormed.extendHeap_ne (H : h.WellFormed bs fl) (heven : words % 2 = 0)
    (hmin : 4 ≤ words) (hs : words * 4 < 2 ^ 31 ∧ h.memBrk + words * 4 ≤ h.memMaxAddr) :
    (h.extendHeap words).1 ≠ 0 := by
  rcases H.extendHeap heven hmin (by omega) with ⟨-, hno⟩ | ⟨-, _, u, _, hu, hne, -⟩
  · exact absurd hs hno
  · rwa [hu]

/-! ## mm_malloc and mm_init -/

/-- The adjusted size of a request whose rounding does not wrap. -/
theorem adjust_eq {size : Nat} (hlt : size + 15 < 2 ^ 32) :
    adjust size = max minimum ((size + overhead + (dsize - 1)) / dsize * dsize) := by
  unfold adjust
  split
  · next hs =>
    have : size ≤ 8 := hs
    show 16 = max 16 ((size + 8 + 7) / 8 * 8)
    omega
  · next hs =>
    have : ¬ size ≤ 8 := hs
    have h1 : wadd size overhead = size + 8 := wadd_of_lt (show size + 8 < 2 ^ 32 by omega)
    have h2 : wadd (size + 8) (dsize - 1) = size + 8 + 7 :=
      wadd_of_lt (show size + 8 + 7 < 2 ^ 32 by omega)
    rw [h1, h2]
    show 8 * ((size + 8 + 7) / 8) = max 16 ((size + 8 + 7) / 8 * 8)
    omega

/-- The adjusted size is aligned and holds the request, with at most 15 bytes more. -/
theorem adjust_spec {size : Nat} (hlt : size + 15 < 2 ^ 32) :
    adjust size % 8 = 0 ∧ 16 ≤ adjust size ∧ size + 8 ≤ adjust size ∧
      adjust size ≤ max 16 (size + 15) := by
  have hadj : adjust size = max 16 ((size + 8 + 7) / 8 * 8) := adjust_eq hlt
  omega

/-- The words the heap is extended by. -/
theorem extend_words {asize : Nat} (hmod : asize % 8 = 0) :
    ∃ words, max asize chunksize / wsize = words ∧ words * 4 = max asize chunksize ∧
      words % 2 = 0 ∧ 1024 ≤ words := by
  have hlarge : 4096 ≤ max asize 4096 := Nat.le_max_right ..
  have hwhole : max asize 4096 % 8 = 0 := by omega
  exact ⟨max asize 4096 / 4, rfl, show _ = max asize 4096 by omega, by omega, by omega⟩

/-- A block that fits is taken. -/
theorem Heap.mmMalloc_fits {size r : Nat} (h0 : size ≠ 0)
    (hr : h.findFit (adjust size) = some r) (hr0 : r ≠ 0) :
    h.mmMalloc size = some (r, h.place r (adjust size)) := by
  simp only [Heap.mmMalloc, if_neg h0, hr, Option.map_some, if_pos hr0]

/-- Where none does the heap is extended. -/
theorem Heap.mmMalloc_extends {size words : Nat} (h0 : size ≠ 0)
    (hr : h.findFit (adjust size) = some 0)
    (hwords : max (adjust size) chunksize / wsize = words) :
    h.mmMalloc size = some (if (h.extendHeap words).1 = 0 then (0, (h.extendHeap words).2) else
      ((h.extendHeap words).1,
        (h.extendHeap words).2.place (h.extendHeap words).1 (adjust size))) := by
  simp only [Heap.mmMalloc, if_neg h0, hr, Option.map_some, ne_eq, not_true, if_false, hwords]

/-- What a successful allocation leaves: the block `a` is new, the other allocated blocks and their
payloads are as before. -/
structure Heap.Allocated (h : Heap) (bs : List Block) (h' : Heap) (bs' : List Block)
    (fl' : List Nat) (a : Block) (size : Nat) : Prop where
  wellFormed : h'.WellFormed bs' fl'
  alloc : a.alloc = true
  size : size + 8 ≤ a.size
  added : (allocs bs').Perm (a :: allocs bs)
  keeps : h.Keeps h' (allocs bs)

/-- **`mm_malloc`** always returns: `NULL` with an unchanged heap, or a new block. -/
theorem Heap.WellFormed.mmMalloc (H : h.WellFormed bs fl) {size : Nat}
    (hlt : size + 15 < 2 ^ 32) :
    h.mmMalloc size = some (0, h) ∨ ∃ a h' bs' fl', h.mmMalloc size = some (a.bp, h') ∧
      a.bp ≠ 0 ∧ h.Allocated bs h' bs' fl' a size := by
  by_cases h0 : size = 0
  · exact .inl (if_pos h0)
  obtain ⟨hmod, hmin, hsz, hmax⟩ := adjust_spec hlt
  obtain ⟨r, hr, hfit⟩ := H.findFit (adjust size)
  rcases hfit with ⟨rfl, -⟩ | ⟨hr0, b, hb, hbr, hfree, hle⟩
  · -- no block fits: the heap is extended
    obtain ⟨words, hwords, hw4, heven, hlarge⟩ := extend_words hmod
    have hchunk : chunksize = 4096 := rfl
    rw [Heap.mmMalloc_extends h0 hr hwords]
    rcases H.extendHeap heven (by omega) (by omega) with
      ⟨hfail, -⟩ | ⟨-, pre, u, fl₁, hu, hu0, hufree, husize, hwf, hall, hk⟩
    · left; rw [hfail, if_pos rfl]
    · right
      obtain ⟨bs', fl', a, hwf', hall', hbp, halloc, hasize, hk'⟩ :=
        hwf.place hufree hmod hmin (by omega)
      rw [hu, if_neg hu0, ← hbp]
      refine ⟨a, _, bs', fl', rfl, hbp ▸ hu0, ?_⟩
      rw [hall, allocs_nil, List.append_nil] at hk'
      refine ⟨hbp ▸ hwf', halloc, by omega, ?_, hk.trans (hbp ▸ hk')⟩
      rw [hall', hall, allocs_nil]
      exact List.perm_append_comm
  · right
    obtain ⟨pre, post, rfl⟩ := List.append_of_mem hb
    obtain ⟨bs', fl', a, hwf, hall, hbp, halloc, hasize, hk⟩ := H.place hfree hmod hmin hle
    rw [Heap.mmMalloc_fits h0 hr hr0, ← hbr, ← hbp]
    refine ⟨a, _, bs', fl', rfl, by rw [hbp, hbr]; exact hr0, ?_⟩
    rw [hbp]
    refine ⟨hwf, halloc, by omega, ?_, ?_⟩
    · rw [hall, allocs_append, allocs_cons_free hfree]
      exact List.perm_middle
    · rw [allocs_append, allocs_cons_free hfree]
      exact hk

/-- The heap `mm_init` makes of the first four words, before it is extended: no block at all. -/
theorem Heap.empty_wellFormed {g : Heap} (hstart : g.memStartBrk % 8 = 0)
    (hbrk : g.memBrk = g.memStartBrk + 16) (hmax : g.memBrk ≤ g.memMaxAddr)
    (haddr : g.memMaxAddr < 2 ^ 32) (hlist : g.heapListp = g.memStartBrk + 8)
    (hfree : g.freeListp = 0) (hhead : g.get (g.memStartBrk + 4) = pack 8 1)
    (hfoot : g.get (g.memStartBrk + 8) = pack 8 1) (hepi : g.get (g.memStartBrk + 12) = pack 0 1) :
    g.WellFormed [] [] := by
  refine ⟨?_, .nil, hfree, .refl _⟩
  refine
    { aligned := hstart
      inBounds := hmax
      addressable := haddr
      listp := hlist
      prologue := ⟨?_, ?_⟩
      tiles := show g.heapListp + 8 = g.memBrk by omega
      sizes := by simp
      tags := by simp
      epilogue := ?_ }
  · rw [← show g.memStartBrk + 4 = g.prologue.bp - 4 by
      show _ = g.heapListp - 4; omega]
    exact hhead
  · rw [← show g.memStartBrk + 8 = g.prologue.bp + g.prologue.size - 8 by
      show _ = g.heapListp + 8 - 8; omega]
    exact hfoot
  · rw [← show g.memStartBrk + 12 = g.memBrk - 4 by omega]
    exact hepi

/-- The heap `mm_init` extends: the four words at `p` and the two globals are written. -/
def Heap.initWords (g : Heap) (p : Nat) : Heap :=
  let g := g.put p 0
  let g := g.put (wadd p wsize) (pack overhead 1)
  let g := g.put (wadd p dsize) (pack overhead 1)
  let g := g.put (wadd (wadd p wsize) dsize) (pack 0 1)
  let g := { g with heapListp := wadd p dsize }
  g.setFreeListp 0

/-- The first words of `mm_init` set the list heads and leave the break. -/
theorem Heap.initWords_vars (g : Heap) (p : Nat) :
    (g.initWords p).memStartBrk = g.memStartBrk ∧ (g.initWords p).memBrk = g.memBrk ∧
      (g.initWords p).memMaxAddr = g.memMaxAddr ∧ (g.initWords p).heapListp = wadd p dsize ∧
      (g.initWords p).freeListp = 0 := by
  simp [Heap.initWords, Heap.setFreeListp, Heap.put]

/-- `mm_init` after its request for memory: the first words, and one extension. -/
theorem Heap.mmInit_eq {p r : Nat} {g g' : Heap} (hs : h.memSbrk (4 * wsize) = (p, g)) (hp : p ≠ 0)
    (hw : chunksize / wsize = words) (he : (g.initWords p).extendHeap words = (r, g')) :
    h.mmInit = if r = 0 then (-1, g') else (0, g') := by
  simp only [Heap.initWords] at he
  simp only [Heap.mmInit, hs, if_neg hp, hw, he]

/-- The first words are a heap without blocks. -/
theorem Heap.initWords_wellFormed {g : Heap} {p : Nat} (hp : p = g.memStartBrk) (hmod : p % 8 = 0)
    (hbrk : g.memBrk = p + 16) (hmax : g.memBrk ≤ g.memMaxAddr) (haddr : g.memMaxAddr < 2 ^ 32) :
    (g.initWords p).WellFormed [] [] := by
  have h4 : wadd p wsize = p + 4 := wadd_of_lt (show p + 4 < 2 ^ 32 by omega)
  have h8 : wadd p dsize = p + 8 := wadd_of_lt (show p + 8 < 2 ^ 32 by omega)
  have h12 : wadd (p + 4) dsize = p + 12 := wadd_of_lt (show p + 4 + 8 < 2 ^ 32 by omega)
  have hw : pack 8 1 < 2 ^ 32 := by decide
  have hget : ∀ q, (g.initWords p).get q = ((((g.put p 0).put (p + 4) (pack 8 1)).put (p + 8)
      (pack 8 1)).put (p + 12) (pack 0 1)).get q := fun q => by
    simp only [Heap.initWords, h4, h8, h12]
    rfl
  obtain ⟨hstart, hbrk', hmax', hlistp, hfree⟩ := g.initWords_vars p
  rw [← hp] at hstart
  rw [h8] at hlistp
  generalize g.initWords p = g' at *
  refine Heap.empty_wellFormed (by rwa [hstart]) (by rw [hbrk', hbrk, hstart])
    (by rwa [hbrk', hmax']) (by rwa [hmax']) (by rw [hlistp, hstart]) hfree ?_ ?_ ?_
  · rw [hstart, hget]
    exact (Heap.get_put_of_sep (by omega)).trans ((Heap.get_put_of_sep (by omega)).trans
      (Heap.get_put _ _ hw))
  · rw [hstart, hget]
    exact (Heap.get_put_of_sep (by omega)).trans (Heap.get_put _ _ hw)
  · rw [hstart, hget]
    exact Heap.get_put _ _ (by decide)

/-- `mm_init` on an empty heap succeeds where there is room for the four words and a chunk, and then
extends a well-formed heap without blocks. -/
theorem Heap.mmInit_cases (hstart : h.memStartBrk % 8 = 0) (hbrk : h.memBrk = h.memStartBrk)
    (haddr : h.memMaxAddr < 2 ^ 32) :
    ¬ (h.memBrk ≠ 0 ∧ h.memBrk + 4112 ≤ h.memMaxAddr) ∧ h.mmInit.1 = -1 ∨
      (h.memBrk ≠ 0 ∧ h.memBrk + 4112 ≤ h.memMaxAddr) ∧ ∃ (g : Heap) (words : Nat), words = 1024 ∧
        h.mmInit = (0, (g.extendHeap words).2) ∧ g.WellFormed [] [] ∧
        g.memStartBrk = h.memStartBrk ∧ g.memMaxAddr = h.memMaxAddr ∧
        g.memBrk = h.memBrk + 16 := by
  have hsbrk : h.memSbrk (4 * wsize) = if 16 < 2 ^ 31 ∧ h.memBrk + 16 ≤ h.memMaxAddr then
      (h.memBrk, { h with memBrk := h.memBrk + 16 }) else (sbrkFailed, h) :=
    h.memSbrk_toInt (show 16 < 2 ^ 32 by decide)
  obtain ⟨words, hwords⟩ : ∃ words, chunksize / wsize = words := ⟨_, rfl⟩
  have h1024 : words = 1024 := hwords.symm
  by_cases hroom : 16 < 2 ^ 31 ∧ h.memBrk + 16 ≤ h.memMaxAddr
  · rw [if_pos hroom] at hsbrk
    obtain ⟨g, hg⟩ : ∃ g : Heap, g = { h with memBrk := h.memBrk + 16 } := ⟨_, rfl⟩
    rw [← hg] at hsbrk
    by_cases hp0 : h.memBrk = 0
    · refine .inl ⟨fun hc => hc.1 hp0, ?_⟩
      simp only [Heap.mmInit, hsbrk, if_pos hp0]
    · have hempty : (g.initWords h.memBrk).WellFormed [] [] := by
        subst hg
        exact Heap.initWords_wellFormed hbrk (hbrk ▸ hstart) rfl hroom.2 haddr
      have hmem : (g.initWords h.memBrk).memStartBrk = h.memStartBrk ∧
          (g.initWords h.memBrk).memMaxAddr = h.memMaxAddr ∧
          (g.initWords h.memBrk).memBrk = h.memBrk + 16 := by
        obtain ⟨e₁, e₂, e₃, -, -⟩ := g.initWords_vars h.memBrk
        rw [e₁, e₂, e₃, hg]
        exact ⟨rfl, rfl, rfl⟩
      generalize hgi : g.initWords h.memBrk = gi at *
      have hext : (g.initWords h.memBrk).extendHeap words =
          ((gi.extendHeap words).1, (gi.extendHeap words).2) := by rw [hgi]
      have hcode := Heap.mmInit_eq hsbrk hp0 hwords hext
      rcases hempty.extendHeap (show words % 2 = 0 by omega) (by omega) (by omega) with
        ⟨hfail, hno⟩ | ⟨hr, -, u, -, hu, hu0, -⟩
      · refine .inl ⟨fun hc => hno ⟨by omega, by omega⟩, ?_⟩
        rw [hcode, hfail]
        rfl
      · refine .inr ⟨⟨hp0, by omega⟩, gi, words, h1024, ?_, hempty, hmem⟩
        rw [hcode, hu, if_neg hu0]
  · -- no room for the four words, so none for a chunk either
    rw [if_neg hroom] at hsbrk
    have hfail := (h.initWords sbrkFailed).extendHeap_fail (show words % 2 = 0 by omega) (by omega)
      fun hc => hroom ⟨by decide, by have : h.memBrk + words * 4 ≤ h.memMaxAddr := hc.2; omega⟩
    refine .inl ⟨fun hc => hroom ⟨by decide, by omega⟩, ?_⟩
    rw [Heap.mmInit_eq hsbrk (by decide) hwords hfail, if_pos rfl]

/-- **`mm_init`** on an empty heap: where it succeeds, the heap is well formed and no block is
allocated. -/
theorem Heap.mmInit_wellFormed (hstart : h.memStartBrk % 8 = 0) (hbrk : h.memBrk = h.memStartBrk)
    (haddr : h.memMaxAddr < 2 ^ 32) (hi : h.mmInit = (0, h')) :
    ∃ bs fl, h'.WellFormed bs fl ∧ allocs bs = [] := by
  rcases Heap.mmInit_cases hstart hbrk haddr with
    ⟨-, hfail⟩ | ⟨hroom, g, words, hw, hok, hg, -, hm, hb⟩
  · rw [hi] at hfail
    cases hfail
  · cases hi.symm.trans hok
    rcases hg.extendHeap (show words % 2 = 0 by omega) (by omega) (by omega) with
      ⟨-, hno⟩ | ⟨-, pre, u, fl', -, -, hufree, -, hwf, hall, -⟩
    · exact absurd ⟨by omega, by omega⟩ hno
    · exact ⟨_, _, hwf, by rw [allocs_append, hall, allocs_cons_free hufree]; rfl⟩

/-- `mm_init` succeeds where there is room for the four words and a chunk. -/
theorem Heap.mmInit_succeeds (hstart : h.memStartBrk % 8 = 0) (hbrk : h.memBrk = h.memStartBrk)
    (haddr : h.memMaxAddr < 2 ^ 32) (h0 : h.memBrk ≠ 0) (hroom : h.memBrk + 4112 ≤ h.memMaxAddr) :
    ∃ h', h.mmInit = (0, h') := by
  rcases Heap.mmInit_cases hstart hbrk haddr with ⟨hno, -⟩ | ⟨-, g, words, -, hok, -⟩
  · exact absurd ⟨h0, hroom⟩ hno
  · exact ⟨_, hok⟩

end

end Malloc
