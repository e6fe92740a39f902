import Styrikerfi.Malloc.Shape
import Styrikerfi.Malloc.Tags

/-!
# Coalescing

`Heap.Loose` is a heap that is well formed but for one block with free tags that is not on the free
list: newly freed, split off or appended. `coalesce` on that block makes the heap well formed again
(`Loose.coalesce`): the block and its free neighbours become one free block, the neighbours leave
the free list and the union comes to its front. The three joining cases of the source share one
proof (`Loose.join`), and all four share their last step (`Layout.insertBlock`). What the union is
and what else may change is put together in `coalesce_maximal`.
-/

namespace Malloc

open Machine32 Tiling LinkedList

section
variable {h h' : Heap} {bs pre mid mid' post : List Block} {b c u : Block} {fl : List Nat}
  {lo hi w x : Nat}

/-! ## A block off the list -/

/-- Well formed but for the block `b`, which has free tags and is not on the free list. -/
structure Heap.Loose (h : Heap) (pre : List Block) (b : Block) (post : List Block)
    (fl : List Nat) : Prop where
  layout : h.Layout (pre ++ b :: post)
  free : b.alloc = false
  mergedPre : Merged pre
  mergedPost : Merged post
  links : h.Links fl
  listed : fl.Perm (freeBps (pre ++ post))

/-- A list of exactly the free blocks is a list of free blocks. -/
theorem listedIn_of_perm (hp : fl.Perm (freeBps bs)) : ListedIn fl bs := by
  intro x hx
  obtain ⟨c, hc, -, he⟩ := mem_freeBps.1 (hp.mem_iff.1 hx)
  exact ⟨c, hc, he⟩

/-- What a loose heap lists are free blocks. -/
theorem Heap.Loose.listedIn (H : h.Loose pre b post fl) : ListedIn fl (pre ++ b :: post) :=
  (listedIn_of_perm H.listed).mono (fun _ hx => hx) fun _ hc => mem_insert_middle hc

/-- Link words of a block inside the range need not be listed. -/
theorem Heap.Frame.absorb (a : h.Frame h' lo hi (x :: fl)) (hlo : lo ≤ x) (hhi : x + 8 ≤ hi) :
    h.Frame h' lo hi fl :=
  ⟨a.toSameFrame, fun q hq hx => a.mem q hq fun y hy => by
    rcases List.mem_cons.1 hy with rfl | hy
    · omega
    · exact hx y hy⟩

/-- Free blocks before and after `u` lie outside it. -/
theorem Heap.Layout.outside {fl₁ : List Nat} (hl : h.Layout (pre ++ mid ++ post))
    (hpre : Tiles Block.bp Block.size (h.heapListp + 8) pre u.bp)
    (hpost : Tiles Block.bp Block.size (u.bp + u.size) post h.memBrk)
    (hlist : fl₁.Perm (freeBps (pre ++ post))) :
    ∀ x ∈ fl₁, x + 16 ≤ u.bp ∨ u.bp + u.size ≤ x := by
  intro x hx
  obtain ⟨c, hc, -, rfl⟩ := mem_freeBps.1 (hlist.mem_iff.1 hx)
  have hc' : c ∈ pre ++ mid ++ post := by simp only [List.mem_append] at hc ⊢; tauto
  have := (hl.bounds hc').size
  rcases List.mem_append.1 hc with hc | hc
  · have := (hpre.bounds c hc).2; omega
  · have := (hpost.bounds c hc).1; omega

/-- **The last step of every coalescing.** The blocks of `mid` have become one block `u` by their
outer tags, its free members have left the free list, and `u` comes to the front. -/
theorem Heap.Layout.insertBlock {fl₁ : List Nat}
    (hl : h.Layout (pre ++ mid ++ post))
    (hpre : Tiles Block.bp Block.size (h.heapListp + 8) pre u.bp)
    (hpost : Tiles Block.bp Block.size (u.bp + u.size) post h.memBrk)
    (hsz : u.size % 8 = 0 ∧ 16 ≤ u.size) (hu : u.alloc = false)
    (hf : h.Frame h' (u.bp - 4) (u.bp + u.size - 4) fl) (hfl : ListedIn fl (pre ++ mid ++ post))
    (hk : h'.Links fl₁) (hsub : ∀ x ∈ fl₁, x ∈ fl)
    (hlist : fl₁.Perm (freeBps (pre ++ post))) (htag : h'.Tagged u)
    (hmpre : Merged pre) (hmpost : Merged post)
    (hml : ∀ p ∈ pre.getLast?, p.alloc = true) (hmr : ∀ n ∈ post.head?, n.alloc = true) :
    (h'.insertBlock u.bp).WellFormed (pre ++ u :: post) (u.bp :: fl₁) ∧
      h.Frame (h'.insertBlock u.bp) (u.bp - 4) (u.bp + u.size - 4) fl := by
  have h8 : 8 ≤ h.heapListp := by rw [hl.listp]; omega
  have hlo := hpre.le
  have hhi := hpost.le
  have hbrk := hl.brk_lt
  have hout := hl.outside hpre hpost hlist
  have hsp : Spaced (u.bp :: fl₁) := by
    have hs₁ : Spaced fl₁ := (hl.spaced hfl).mono hsub
    constructor
    · intro x hx
      rcases List.mem_cons.1 hx with rfl | hx
      · omega
      · exact hs₁.lt x hx
    · intro x hx y hy hne
      rcases List.mem_cons.1 hx with rfl | hx <;> rcases List.mem_cons.1 hy with rfl | hy
      · exact absurd rfl hne
      · have := hout y hy; omega
      · have := hout x hx; omega
      · exact hs₁.apart x hx y hy hne
  have hnew : u.bp ∉ fl₁ := fun hm => by have := hout _ hm; omega
  obtain ⟨hk', hf'⟩ := hk.insertBlock (by omega) hnew hsp
  have hframe : h.Frame (h'.insertBlock u.bp) (u.bp - 4) (u.bp + u.size - 4) fl := by
    refine hf.trans (Heap.Frame.absorb (x := u.bp) (hf'.mono (by omega) fun x hx => ?_) (by omega)
      (by omega))
    rcases List.mem_cons.1 hx with rfl | hx
    · exact List.mem_cons_self
    · exact List.mem_cons_of_mem _ (hsub x hx)
  have htag' : (h'.insertBlock u.bp).Tagged u := by
    have hkeep : ∀ w, w + 4 = u.bp ∨ w + 8 = u.bp + u.size →
        (h'.insertBlock u.bp).get w = h'.get w := by
      intro w hw
      refine hf'.get (by omega) fun x hx => ?_
      rcases List.mem_cons.1 hx with rfl | hx
      · omega
      · have := hout x hx; omega
    exact ⟨(hkeep _ (by omega)).trans htag.header, (hkeep _ (by omega)).trans htag.footer⟩
  refine ⟨⟨?_, ?_, hk', ?_⟩, hframe⟩
  · have hone : Tiles Block.bp Block.size u.bp [u] (u.bp + u.size) := ⟨rfl, rfl⟩
    have := hl.replace hpre hone hpost hframe hfl (by simpa using hsz) (by simpa using htag')
    simpa using this
  · exact merged_insert hmpre hmpost (fun p hp => .inl (hml p hp)) fun n hn => .inr (hmr n hn)
  · rw [freeBps_append, freeBps_cons_free hu]
    rw [freeBps_append] at hlist
    exact (hlist.cons u.bp).trans List.perm_middle.symm

/-- What `coalesce` does: neighbours `l` and `r` of `b`, free ones, are joined to it. -/
structure Heap.Coalesced (h : Heap) (pre : List Block) (b : Block) (post : List Block)
    (fl : List Nat) (h' : Heap) (pre' : List Block) (u : Block) (post' : List Block)
    (l r : List Block) : Prop where
  left : pre = pre' ++ l
  right : post = r ++ post'
  free : ∀ c ∈ l ++ r, c.alloc = false
  union : u = Block.union (l ++ b :: r)
  wellFormed : h'.WellFormed (pre' ++ u :: post') (u.bp :: fl.diff ((r ++ l).map Block.bp))
  frame : h.Frame h' (u.bp - 4) (u.bp + u.size - 4) fl

/-- Where the block before is allocated, so is the last one on the left. -/
theorem before_alloc (hb : (h.before pre).alloc = true) : ∀ p ∈ pre.getLast?, p.alloc = true := by
  intro p hp
  rw [Heap.before, Option.mem_def.1 hp] at hb
  exact hb

/-- Where the block after is allocated, so is the first one on the right. -/
theorem after_alloc (ha : (h.after post).alloc = true) : ∀ n ∈ post.head?, n.alloc = true := by
  intro n hn
  rw [Heap.after, Option.mem_def.1 hn] at ha
  exact ha

/-- A free block before a place is a block of the list, not the prologue. -/
theorem before_free (hb : (h.before pre).alloc = false) : ∃ pre' p, pre = pre' ++ [p] ∧
    p.alloc = false := by
  rcases List.eq_nil_or_concat pre with rfl | ⟨pre', p, rfl⟩
  · cases hb
  · rw [List.concat_eq_append, Heap.before_concat] at hb
    exact ⟨pre', p, List.concat_eq_append, hb⟩

/-- Where the block after is free, there is one. -/
theorem after_free (ha : (h.after post).alloc = false) : ∃ n post', post = n :: post' ∧
    n.alloc = false := by
  cases post with
  | nil => cases ha
  | cons n post' => exact ⟨n, post', rfl, ha⟩

/-- The neighbours `l` and `r` of `b`, free ones that have left the list, are joined to it by the
outer tags, and the union is inserted. -/
theorem Heap.Loose.join {l r : List Block} (H : h.Loose (pre ++ l) b (r ++ post) fl)
    (hfree : ∀ c ∈ l ++ r, c.alloc = false)
    (hml : ∀ p ∈ pre.getLast?, p.alloc = true) (hmr : ∀ n ∈ post.head?, n.alloc = true)
    (hk : h'.Links (fl.diff ((r ++ l).map Block.bp))) (hf : h.Frame h' 0 0 fl)
    (hu : u = Block.union (l ++ b :: r)) :
    h.Coalesced (pre ++ l) b (r ++ post) fl ((h'.retag u).insertBlock u.bp) pre u post l r := by
  have hl : h.Layout (pre ++ (l ++ b :: r) ++ post) := by simpa using H.layout
  obtain ⟨hi, ht, hpost⟩ := Tiles.append.1 hl.tiles
  obtain ⟨lo, hpre, hmid⟩ := Tiles.append.1 ht
  obtain ⟨hlo, hhi⟩ := Block.union_extent hmid
  have hsz := Block.union_sizes (l := l) (b := b) (r := r) fun c hc =>
    hl.sizes c (List.mem_append_left _ (List.mem_append_right _ hc))
  rw [← hu] at hlo hhi hsz
  subst hlo hhi
  have hfit : u.Fits := hl.fits hpre hpost hsz
  have hlist : (fl.diff ((r ++ l).map Block.bp)).Perm (freeBps (pre ++ post)) :=
    perm_diff_free (by simpa using H.listed) hfree (List.perm_append_comm.map _)
  have hsub : ∀ x ∈ fl.diff ((r ++ l).map Block.bp), x ∈ fl := fun x hx => List.diff_subset _ _ hx
  have hout := hl.outside hpre hpost hlist
  have hfl : ListedIn fl (pre ++ (l ++ b :: r) ++ post) := by simpa using H.listedIn
  have hk' := hk.retag ((hl.spaced hfl).mono hsub) hfit fun x hx => by have := hout x hx; omega
  obtain ⟨hwf, hframe⟩ := hl.insertBlock hpre hpost hsz (by rw [hu]; rfl)
    ((hf.mono (by omega) fun _ hx => hx).trans (h'.retag_frame fl hfit)) hfl hk' hsub hlist
    (h'.retag_tagged hfit) (List.isChain_append.1 H.mergedPre).1
    (List.isChain_append.1 H.mergedPost).2.1 hml hmr
  exact ⟨rfl, rfl, hfree, hu, hwf, hframe⟩

/-- Case 1: no neighbour is free. -/
theorem Heap.Loose.coalesce_none (H : h.Loose pre b post fl)
    (hb : (h.before pre).alloc = true) (ha : (h.after post).alloc = true) :
    (h.coalesce b.bp).1 = b.bp ∧
      h.Coalesced pre b post fl (h.coalesce b.bp).2 pre b post [] [] := by
  have hl := H.layout
  have hbm : b ∈ pre ++ b :: post := by simp
  have hsz := hl.sizes b hbm
  obtain ⟨hpre, hpost⟩ := hl.tiles.split
  have hl' : h.Layout (pre ++ [b] ++ post) := by simpa using hl
  have hcode : h.coalesce b.bp = (b.bp, h.insertBlock b.bp) := by
    simp [Heap.coalesce, hl.prev_alloc, hl.next_alloc, hb, ha]
  have hfl : ListedIn fl (pre ++ [b] ++ post) := by simpa using H.listedIn
  obtain ⟨hwf, hf⟩ := hl'.insertBlock hpre hpost hsz H.free (.refl ..) hfl H.links (fun _ hx => hx)
    H.listed (hl.tags b hbm) H.mergedPre H.mergedPost (before_alloc hb) (after_alloc ha)
  rw [hcode]
  refine ⟨rfl, ⟨by simp, by simp, by simp, ?_, by simpa using hwf, hf⟩⟩
  have := H.free
  cases b
  simp_all [Block.union]

/-! ## The outer tags

The joining cases write two words, the header of the first block and the footer of the last, and
find the second address from tags that the first write may have passed. -/

/-- Where the block before starts, from its footer alone. -/
theorem Heap.prevBlkp_of_word {p : Block} (hw : h.get (b.bp - 8) = p.word) (hm : p.size % 8 = 0)
    (h8 : 8 ≤ b.bp) (hpb : p.bp + p.size = b.bp) : h.prevBlkp b.bp = p.bp := by
  rw [Heap.prevBlkp_of_footer hw hm h8 (by omega)]
  omega

/-- The tags of two neighbours made one, header first. -/
theorem Heap.Layout.outer_next {n : Block} (hl : h.Layout (pre ++ b :: n :: post))
    (hu : u = ⟨b.bp, b.size + n.size, false⟩) : wadd b.size n.size = u.size ∧
      (h.put (hdrp b.bp) u.word).put ((h.put (hdrp b.bp) u.word).ftrp b.bp) u.word = h.retag u := by
  have hBb := hl.bounds (b := b) (by simp)
  have hBn := hl.bounds (b := n) (by simp)
  have hnb : n.bp = b.bp + b.size := hl.after.2.1
  have := hBb.lo; have := hBb.mod; have := hBb.size
  have := hBn.hi; have := hBn.mod; have := hBn.brk
  have hfit : u.Fits := by
    rw [hu]
    exact ⟨by simp only; omega, by simp only; omega, by simp only; omega, by simp only; omega⟩
  have hbp : u.bp = b.bp := by rw [hu]
  have hsize : u.size = b.size + n.size := by rw [hu]
  have hword : pack u.size 0 = u.word := by rw [hu]; rfl
  have := h.put_tags hfit hbp hword
  rw [hword] at this
  exact ⟨(wadd_of_lt (by omega)).trans hsize.symm, this⟩

/-- The tags of two neighbours made one, footer first. -/
theorem Heap.Layout.outer_prev {p : Block} (hl : h.Layout ((pre ++ [p]) ++ b :: post))
    (hu : u = ⟨p.bp, p.size + b.size, false⟩) : wadd b.size p.size = u.size ∧
      (h.put (b.bp + b.size - 8) u.word).prevBlkp b.bp = p.bp ∧
      (h.put (b.bp + b.size - 8) u.word).put (hdrp p.bp) u.word = h.retag u ∧
      (h.retag u).prevBlkp b.bp = p.bp := by
  have hpm : p ∈ (pre ++ [p]) ++ b :: post := by simp
  have hBb := hl.bounds (b := b) (by simp)
  have hBp := hl.bounds hpm
  have hpb : p.bp + p.size = b.bp := by simpa using hl.before.2.1
  have := hBp.lo; have := hBp.size; have := hBb.hi; have := hBb.brk; have := hBb.size
  have hbp : u.bp = p.bp := by rw [hu]
  have hsize : u.size = p.size + b.size := by rw [hu]
  have hdr : hdrp p.bp = p.bp - 4 := hdrp_eq (by omega)
  have hfoot : h.get (b.bp - 8) = p.word := by rw [← hpb]; exact (hl.tags p hpm).footer
  refine ⟨?_, ?_, ?_, ?_⟩
  · rw [wadd_of_lt (by omega), hsize, Nat.add_comm]
  · exact Heap.prevBlkp_of_word ((Heap.get_put_of_sep (by omega)).trans hfoot) hBp.mod (by omega)
      hpb
  · have he : p.bp + (p.size + b.size) - 8 = b.bp + b.size - 8 := by omega
    rw [hdr, Heap.put_comm (show b.bp + b.size - 8 + 4 ≤ p.bp - 4 ∨ _ by omega), Heap.retag, hbp,
      hsize, he]
  · refine Heap.prevBlkp_of_word (((Heap.get_put_of_sep ?_).trans (Heap.get_put_of_sep ?_)).trans
      hfoot) hBp.mod (by omega) hpb <;> omega

/-- The tags of three neighbours made one: the tags between the outer two are still there. -/
theorem Heap.Layout.outer_both {p n : Block} (hl : h.Layout ((pre ++ [p]) ++ b :: n :: post))
    (hu : u = ⟨p.bp, p.size + (b.size + n.size), false⟩) :
    wadd b.size (wadd p.size n.size) = u.size ∧
      (h.put (hdrp p.bp) u.word).nextBlkp b.bp = n.bp ∧
      (h.put (hdrp p.bp) u.word).ftrp n.bp = n.bp + n.size - 8 ∧
      (h.put (hdrp p.bp) u.word).put (n.bp + n.size - 8) u.word = h.retag u ∧
      (h.retag u).prevBlkp b.bp = p.bp := by
  have hbm : b ∈ (pre ++ [p]) ++ b :: n :: post := by simp
  have hpm : p ∈ (pre ++ [p]) ++ b :: n :: post := by simp
  have hnm : n ∈ (pre ++ [p]) ++ b :: n :: post := by simp
  have hBb := hl.bounds hbm
  have hBp := hl.bounds hpm
  have hBn := hl.bounds hnm
  have hpb : p.bp + p.size = b.bp := by simpa using hl.before.2.1
  have hnb : n.bp = b.bp + b.size := hl.after.2.1
  have := hBp.lo; have := hBp.size; have := hBb.size
  have := hBn.hi; have := hBn.brk; have := hBn.size
  have hbp : u.bp = p.bp := by rw [hu]
  have hsize : u.size = p.size + (b.size + n.size) := by rw [hu]
  have hdr : hdrp p.bp = p.bp - 4 := hdrp_eq (by omega)
  have hfoot : h.get (b.bp - 8) = p.word := by rw [← hpb]; exact (hl.tags p hpm).footer
  refine ⟨?_, ?_, ?_, ?_, ?_⟩
  · rw [wadd_of_lt (show p.size + n.size < 2 ^ 32 by omega), wadd_of_lt (by omega), hsize]
    omega
  · rw [hnb, hdr]
    exact Heap.nextBlkp_of_header ((Heap.get_put_of_sep (by omega)).trans (hl.tags b hbm).header)
      hBb.mod (by omega) (by omega)
  · rw [hdr]
    exact Heap.ftrp_of_header ((Heap.get_put_of_sep (by omega)).trans (hl.tags n hnm).header)
      hBn.mod (by omega) (by omega) (by omega)
  · have he : n.bp + n.size - 8 = p.bp + (p.size + (b.size + n.size)) - 8 := by omega
    rw [hdr, Heap.retag, hbp, hsize, he]
  · refine Heap.prevBlkp_of_word (((Heap.get_put_of_sep ?_).trans (Heap.get_put_of_sep ?_)).trans
      hfoot) hBp.mod (by omega) hpb <;> omega

/-! ## The three joining cases -/

/-- `removeBlock` takes one block off the list, and touches no other word. -/
theorem Heap.Layout.removeBlock (hl : h.Layout bs) (hk : h.Links fl) (hfl : ListedIn fl bs)
    (hx : x ∈ fl) : (h.removeBlock x).Layout bs ∧ (h.removeBlock x).Links (fl.erase x) ∧
      h.Frame (h.removeBlock x) 0 0 fl := by
  obtain ⟨hk', hf⟩ := hk.removeBlock hx (hl.spaced hfl)
  exact ⟨hl.of_frame hf hfl, hk', hf⟩

/-- A free neighbour is on the list. -/
theorem Heap.Loose.mem (H : h.Loose pre b post fl) (hc : c ∈ pre ++ post) (ha : c.alloc = false) :
    c.bp ∈ fl :=
  H.listed.mem_iff.2 (mem_freeBps.2 ⟨c, hc, ha, rfl⟩)

/-- Case 2: the block after is free. -/
theorem Heap.Loose.coalesce_next {n : Block} (H : h.Loose pre b (n :: post) fl)
    (hb : (h.before pre).alloc = true) (hn : n.alloc = false) (hu : u = Block.union [b, n]) :
    (h.coalesce b.bp).1 = u.bp ∧
      h.Coalesced pre b (n :: post) fl (h.coalesce b.bp).2 pre u post [] [n] := by
  have hl := H.layout
  have hbm : b ∈ pre ++ b :: n :: post := by simp
  have hnm : n ∈ pre ++ b :: n :: post := by simp
  have hnb : n.bp = b.bp + b.size := hl.after.2.1
  have hu' : u = ⟨b.bp, b.size + n.size, false⟩ := by simpa [Block.union] using hu
  have hbp : u.bp = b.bp := by rw [hu']
  have hword : pack u.size 0 = u.word := by rw [hu']; rfl
  obtain ⟨hl₁, hk₁, hf₁⟩ := hl.removeBlock H.links H.listedIn (H.mem (by simp) hn)
  obtain ⟨hsize, htags⟩ := hl₁.outer_next hu'
  have hcode : h.coalesce b.bp = (u.bp, ((h.removeBlock n.bp).retag u).insertBlock u.bp) := by
    simp [Heap.coalesce, hl.prev_alloc, hb, hn, hl.nextBlkp hbm, ← hnb, hl₁.nextBlkp hbm,
      hl.getSize hbm, hl₁.getSize hnm, hl.getAlloc hnm, hsize, hword, htags, hbp]
  rw [hcode]
  refine ⟨rfl, ?_⟩
  have H₀ : h.Loose (pre ++ []) b ([n] ++ post) fl := by simpa using H
  have := H₀.join (by simpa using hn)
    (before_alloc hb) (Merged.after H.mergedPost hn) (by simpa using hk₁) hf₁ hu
  simpa using this

/-- Case 3: the block before is free. The source writes the footer first. -/
theorem Heap.Loose.coalesce_prev {p : Block} (H : h.Loose (pre ++ [p]) b post fl)
    (hp : p.alloc = false) (ha : (h.after post).alloc = true) (hu : u = Block.union [p, b]) :
    (h.coalesce b.bp).1 = u.bp ∧
      h.Coalesced (pre ++ [p]) b post fl (h.coalesce b.bp).2 pre u post [p] [] := by
  have hl := H.layout
  have hbm : b ∈ (pre ++ [p]) ++ b :: post := by simp
  have hpm : p ∈ (pre ++ [p]) ++ b :: post := by simp
  have hprev : h.prevBlkp b.bp = p.bp := by simpa using hl.prevBlkp
  have hu' : u = ⟨p.bp, p.size + b.size, false⟩ := by simpa [Block.union] using hu
  have hbp : u.bp = p.bp := by rw [hu']
  have hword : pack u.size 0 = u.word := by rw [hu']; rfl
  obtain ⟨hl₁, hk₁, hf₁⟩ := hl.removeBlock H.links H.listedIn (H.mem (by simp) hp)
  have hprev₁ : (h.removeBlock p.bp).prevBlkp b.bp = p.bp := by simpa using hl₁.prevBlkp
  obtain ⟨hsize, hfoot₁, htags, hfoot₂⟩ := hl₁.outer_prev hu'
  have hcode : h.coalesce b.bp = (u.bp, ((h.removeBlock p.bp).retag u).insertBlock u.bp) := by
    have hpa : h.getAlloc (h.ftrp p.bp) = 0 := by
      simpa [hprev, hp] using hl.prev_alloc
    simp [Heap.coalesce, hl.next_alloc, ha, hpa, hprev, hprev₁, hl.getSize hbm,
      hl₁.getSize hpm, hl₁.ftrp hbm, hsize, hword, hfoot₁, hfoot₂, htags, hbp]
  rw [hcode]
  refine ⟨rfl, ?_⟩
  have H₀ : h.Loose (pre ++ [p]) b ([] ++ post) fl := by simpa using H
  have := H₀.join
    (by simpa using hp) (Merged.before H.mergedPre hp) (after_alloc ha) (by simpa using hk₁) hf₁ hu
  simpa using this

/-- Case 4: both neighbours are free. -/
theorem Heap.Loose.coalesce_both {p n : Block} (H : h.Loose (pre ++ [p]) b (n :: post) fl)
    (hp : p.alloc = false) (hn : n.alloc = false) (hu : u = Block.union [p, b, n]) :
    (h.coalesce b.bp).1 = u.bp ∧
      h.Coalesced (pre ++ [p]) b (n :: post) fl (h.coalesce b.bp).2 pre u post [p] [n] := by
  have hl := H.layout
  have hbm : b ∈ (pre ++ [p]) ++ b :: n :: post := by simp
  have hpm : p ∈ (pre ++ [p]) ++ b :: n :: post := by simp
  have hnm : n ∈ (pre ++ [p]) ++ b :: n :: post := by simp
  have hpb : p.bp + p.size = b.bp := by simpa using hl.before.2.1
  have hnb : n.bp = b.bp + b.size := hl.after.2.1
  have hprev : h.prevBlkp b.bp = p.bp := by simpa using hl.prevBlkp
  have hu' : u = ⟨p.bp, p.size + (b.size + n.size), false⟩ := by simpa [Block.union] using hu
  have hbp : u.bp = p.bp := by rw [hu']
  have hword : pack u.size 0 = u.word := by rw [hu']; rfl
  have hne : p.bp ≠ n.bp := by have := (hl.bounds hbm).size; omega
  obtain ⟨hl₁, hk₁, hf₁⟩ := hl.removeBlock H.links H.listedIn (H.mem (by simp) hn)
  have hpmem : p.bp ∈ fl.erase n.bp := (List.mem_erase_of_ne hne).2 (H.mem (by simp) hp)
  obtain ⟨hl₂, hk₂, hf₂⟩ := hl₁.removeBlock hk₁
    (H.listedIn.mono (fun _ hx => List.mem_of_mem_erase hx) fun _ hc => hc) hpmem
  have hprev₁ : (h.removeBlock n.bp).prevBlkp b.bp = p.bp := by simpa using hl₁.prevBlkp
  generalize hh₂ : (h.removeBlock n.bp).removeBlock p.bp = h₂ at *
  have hprev₂ : h₂.prevBlkp b.bp = p.bp := by simpa using hl₂.prevBlkp
  obtain ⟨hsize, hnext, hftr, htags, hprev₃⟩ := hl₂.outer_both hu'
  have hnfoot : h₂.getSize (n.bp + n.size - 8) = n.size := by
    rw [Heap.getSize, (hl₂.tags n hnm).footer, n.word_size (hl.bounds hnm).mod]
  have hcode : h.coalesce b.bp = (u.bp, (h₂.retag u).insertBlock u.bp) := by
    have hpa : h.getAlloc (h.ftrp p.bp) = 0 := by
      simpa [hprev, hp] using hl.prev_alloc
    have hna : h.getAlloc (hdrp n.bp) = 0 := by simpa [hn] using hl.getAlloc hnm
    simp [Heap.coalesce, hna, hpa, hprev, hprev₁, hprev₂, hl.nextBlkp hbm, ← hnb, hh₂,
      hl.getSize hbm, hl₂.getSize hpm, hl₂.nextBlkp hbm, hl₂.ftrp hnm, hnfoot, hsize, hword, hnext,
      hftr, htags, hprev₃, hbp]
  rw [hcode]
  refine ⟨rfl, ?_⟩
  have H₀ : h.Loose (pre ++ [p]) b ([n] ++ post) fl := by simpa using H
  have := H₀.join
    (by simpa using ⟨hp, hn⟩) (Merged.before H.mergedPre hp) (Merged.after H.mergedPost hn)
    (by simpa using hk₂)
    (hf₁.trans (hf₂.mono (by omega) fun _ hx => List.mem_of_mem_erase hx)) hu
  simpa using this

/-- Nothing is joined on the left of an allocated block. -/
theorem freeLast_eq_nil (hb : (h.before pre).alloc = true) : freeLast pre = [] := by
  refine List.filter_eq_nil_iff.2 fun p hp => ?_
  simp [before_alloc hb p (Option.mem_toList.1 hp)]

/-- Nothing is joined on the right of an allocated block. -/
theorem freeHead_eq_nil (ha : (h.after post).alloc = true) : freeHead post = [] := by
  refine List.filter_eq_nil_iff.2 fun n hn => ?_
  simp [after_alloc ha n (Option.mem_toList.1 hn)]

/-- **`coalesce`** makes a loose heap well formed: the block and its free neighbours become one free
block at the front of the list. -/
theorem Heap.Loose.coalesce (H : h.Loose pre b post fl) :
    (h.coalesce b.bp).1 = (Block.joined pre b post).bp ∧
      h.Coalesced pre b post fl (h.coalesce b.bp).2
        (pre.take (pre.length - (freeLast pre).length)) (Block.joined pre b post)
        (post.drop (freeHead post).length) (freeLast pre) (freeHead post) := by
  unfold Block.joined
  cases hb : (h.before pre).alloc with
  | true =>
    rw [freeLast_eq_nil hb]
    cases ha : (h.after post).alloc with
    | true =>
      have hub : Block.union [b] = b := by
        have := H.free
        cases b
        simp_all [Block.union]
      rw [freeHead_eq_nil ha, List.nil_append, hub]
      simpa using H.coalesce_none hb ha
    | false =>
      obtain ⟨n, post', rfl, hn⟩ := after_free ha
      have hr : freeHead (n :: post') = [n] := by simp [freeHead, hn]
      rw [hr]
      simpa using H.coalesce_next hb hn rfl
  | false =>
    obtain ⟨pre', p, rfl, hp⟩ := before_free hb
    have hl : freeLast (pre' ++ [p]) = [p] := by simp [freeLast, hp]
    rw [hl]
    cases ha : (h.after post).alloc with
    | true =>
      rw [freeHead_eq_nil ha]
      simpa using H.coalesce_prev hp ha rfl
    | false =>
      obtain ⟨n, post', rfl, hn⟩ := after_free ha
      have hr : freeHead (n :: post') = [n] := by simp [freeHead, hn]
      rw [hr]
      simpa using H.coalesce_both hp hn rfl

/-- The heap after `coalesce` has the shape that the abstract operation gives. -/
theorem Heap.Loose.coalesce_shape (H : h.Loose pre b post fl) :
    (h.coalesce b.bp).2.WellFormed (Shape.coalesce pre b post fl).blocks
      (Shape.coalesce pre b post fl).list :=
  H.coalesce.2.wellFormed

/-! ## The maximal free block -/

/-- The blocks that are not joined were there before. -/
theorem Heap.Coalesced.mem {pre' post' l r : List Block}
    (C : h.Coalesced pre b post fl h' pre' u post' l r) (hc : c ∈ l ++ r) : c ∈ pre ++ post := by
  rw [C.left, C.right, List.append_assoc, ← List.append_assoc l]
  exact List.mem_append_right _ (List.mem_append_left _ hc)

/-- The joined neighbours lie inside the union. -/
theorem Heap.Coalesced.inside {pre' post' l r : List Block} (H : h.Loose pre b post fl)
    (C : h.Coalesced pre b post fl h' pre' u post' l r) :
    ∀ c ∈ l ++ r, u.bp ≤ c.bp ∧ c.bp + c.size ≤ u.bp + u.size := by
  have hl : h.Layout (pre' ++ (l ++ b :: r) ++ post') := by simpa [C.left, C.right] using H.layout
  obtain ⟨hi, ht, -⟩ := Tiles.append.1 hl.tiles
  obtain ⟨lo, -, hmid⟩ := Tiles.append.1 ht
  obtain ⟨rfl, rfl⟩ := Block.union_extent hmid
  rw [← C.union] at hmid
  exact fun c hc => hmid.bounds c (mem_insert_middle hc)

/-- The link words of the joined neighbours are words of the union, so that the frame need not
list them. -/
theorem Heap.Coalesced.frame_rest {pre' post' l r : List Block} (H : h.Loose pre b post fl)
    (C : h.Coalesced pre b post fl h' pre' u post' l r) :
    h.Frame h' (u.bp - 4) (u.bp + u.size - 4) (fl.filter (· ∉ (l ++ r).map Block.bp)) := by
  refine ⟨C.frame.toSameFrame, fun q hq hx => C.frame.mem q hq fun x hm => ?_⟩
  by_cases hlr : x ∈ (l ++ r).map Block.bp
  · obtain ⟨c, hc, rfl⟩ := List.mem_map.1 hlr
    have := C.inside H c hc
    have := (H.layout.bounds (mem_insert_middle (C.mem hc))).size
    omega
  · exact hx x (List.mem_filter.2 ⟨hm, by simpa using hlr⟩)

/-- The list without the joined neighbours, in order. -/
theorem Heap.Loose.diff_eq_filter (H : h.Loose pre b post fl) (l r : List Block) :
    fl.diff ((r ++ l).map Block.bp) = fl.filter (· ∉ (l ++ r).map Block.bp) := by
  have hnd : fl.Nodup := Linked.nodup H.links
  rw [hnd.sdiff_eq_filter]
  refine List.filter_congr fun x _ => ?_
  simp only [List.map_append, List.mem_append, or_comm]

/-- **`coalesce` computes the maximal free block.** In a heap that is well formed but for the free
block `b` off the list, `b` and its free neighbours become one block `u`, with no free neighbour,
under tags of its size; the neighbours leave the list, the others keep their order, and `u` comes to
its front. Outside `u` nothing changes but `free_listp` and link words of blocks left on the
list. -/
theorem coalesce_maximal (H : h.Loose pre b post fl) :
    ∃ pre' post' u fl' h', h.coalesce b.bp = (u.bp, h') ∧
      pre = pre' ++ freeLast pre ∧ post = freeHead post ++ post' ∧
      u = Block.union (freeLast pre ++ b :: freeHead post) ∧
      (∀ c ∈ pre'.getLast?, c.alloc = true) ∧ (∀ c ∈ post'.head?, c.alloc = true) ∧
      (∀ c ∈ freeLast pre ++ freeHead post, c.bp ∈ fl) ∧
      fl' = fl.filter (· ∉ (freeLast pre ++ freeHead post).map Block.bp) ∧
      h'.WellFormed (pre' ++ u :: post') (u.bp :: fl') ∧
      h'.get (hdrp u.bp) = pack u.size 0 ∧ h'.get (h'.ftrp u.bp) = pack u.size 0 ∧
      h.Frame h' (u.bp - 4) (u.bp + u.size - 4) fl' := by
  obtain ⟨hret, C⟩ := H.coalesce
  have hwf := C.wellFormed
  rw [H.diff_eq_filter] at hwf
  have hum : Block.joined pre b post ∈ pre.take (pre.length - (freeLast pre).length) ++
      Block.joined pre b post :: post.drop (freeHead post).length := by simp
  have htag := hwf.layout.tags _ hum
  have hB := hwf.layout.bounds hum
  have := hB.lo
  refine ⟨_, _, Block.joined pre b post, _, (h.coalesce b.bp).2, Prod.ext hret rfl,
    (take_freeLast pre).symm, (drop_freeHead post).symm, rfl, take_freeLast_alloc H.mergedPre,
    drop_freeHead_alloc H.mergedPost, fun c hc => H.mem (C.mem hc) (C.free c hc), rfl,
    hwf, ?_, ?_, C.frame_rest H⟩
  · rw [hdrp_eq (by omega)]
    exact htag.header
  · rw [hwf.layout.ftrp hum]
    exact htag.footer

/-- The heap of five blocks, of which all but the fourth have free tags; the second is not on the
list. -/
def fiveBlocks : Heap :=
  let h := { memInit (fun _ => 0) 8 with memBrk := 104, heapListp := 16 }
  let h := (h.put 12 (pack overhead 1)).put 16 (pack overhead 1)
  let h := (h.put 20 (pack 16 0)).put 32 (pack 16 0)
  let h := (h.put 36 (pack 16 0)).put 48 (pack 16 0)
  let h := (h.put 52 (pack 16 0)).put 64 (pack 16 0)
  let h := (h.put 68 (pack 16 1)).put 80 (pack 16 1)
  let h := (h.put 84 (pack 16 0)).put 96 (pack 16 0)
  let h := (h.put 100 (pack 0 1)).setFreeListp 56
  let h := ((h.setPrev 56 0).setNext 56 24).setPrev 24 56
  ((h.setNext 24 88).setPrev 88 24).setNext 88 0

/-- Five blocks with a free one on either side of the third. -/
theorem fiveBlocks_loose : fiveBlocks.Loose [⟨24, 16, false⟩] ⟨40, 16, false⟩
    [⟨56, 16, false⟩, ⟨72, 16, true⟩, ⟨88, 16, false⟩] [56, 24, 88] where
  layout :=
    { aligned := rfl
      inBounds := by decide
      addressable := by decide
      listp := rfl
      prologue := ⟨by decide +kernel, by decide +kernel⟩
      tiles := ⟨rfl, rfl, rfl, rfl, rfl, rfl⟩
      sizes := by simp
      tags := by
        simp only [List.singleton_append, List.forall_mem_cons]
        refine ⟨⟨?_, ?_⟩, ⟨?_, ?_⟩, ⟨?_, ?_⟩, ⟨?_, ?_⟩, ⟨?_, ?_⟩, by simp⟩ <;> decide +kernel
      epilogue := by decide +kernel }
  free := rfl
  mergedPre := .singleton _
  mergedPost := by simp [Merged]
  links := ⟨rfl, by decide, rfl, rfl, by decide, rfl, rfl, by decide, rfl, rfl⟩
  listed := by decide

/-- Both neighbours of a block are free, and adjacent on the list. -/
theorem coalesce_maximal_both : ∃ h', fiveBlocks.coalesce 40 = (24, h') ∧
    h'.WellFormed [⟨24, 48, false⟩, ⟨72, 16, true⟩, ⟨88, 16, false⟩] [24, 88] := by
  obtain ⟨pre', post', u, fl', h', hret, hpre, hpost, rfl, -, -, -, rfl, hwf, -⟩ :=
    coalesce_maximal fiveBlocks_loose
  obtain rfl : pre' = [] := List.append_left_eq_self.1 hpre.symm
  obtain rfl : post' = [⟨72, 16, true⟩, ⟨88, 16, false⟩] := (List.cons.inj hpost).2.symm
  exact ⟨h', hret, hwf⟩

/-! ## The operations on any heap -/

/-- Whatever is in the memory, the last thing `coalesce` does is to insert its result, which is its
argument or, when the footer before it is free, computed from that footer. -/
theorem Heap.coalesce_insert (h : Heap) (bp : Nat) : ∃ g p, (h.coalesce bp).2 = g.insertBlock p ∧
    h.SameFrame g ∧ (p = bp ∨ h.getAlloc (h.ftrp (h.prevBlkp bp)) = 0 ∧ p = g.prevBlkp bp) := by
  unfold Heap.coalesce
  dsimp only
  split_ifs with h1 h2 h3 <;> dsimp only
  · exact ⟨h, bp, rfl, .refl h, .inl rfl⟩
  · exact ⟨_, bp, rfl, (SameFrame.removeBlock ..).trans ((SameFrame.put ..).trans (.put ..)),
      .inl rfl⟩
  · exact ⟨_, _, rfl, (SameFrame.removeBlock ..).trans ((SameFrame.put ..).trans (.put ..)),
      .inr ⟨h3.1, rfl⟩⟩
  · refine ⟨_, _, rfl, (SameFrame.removeBlock ..).trans ((SameFrame.removeBlock ..).trans
      ((SameFrame.put ..).trans (.put ..))), .inr ⟨?_, rfl⟩⟩
    by_contra h0
    by_cases hn : h.getAlloc (hdrp (h.nextBlkp bp)) = 0
    · exact h2 ⟨h0, hn⟩
    · exact h1 ⟨h0, hn⟩

/-- `coalesce` moves neither the storage nor the break. -/
theorem Heap.SameFrame.coalesce (h : Heap) (p : Nat) : h.SameFrame (h.coalesce p).2 := by
  obtain ⟨g, q, hg, hf, -⟩ := h.coalesce_insert p
  rw [hg]
  exact hf.trans (.insertBlock g q)

/-- `mm_free` moves neither the storage nor the break. -/
theorem Heap.SameFrame.mmFree (h : Heap) (p : Nat) : h.SameFrame (h.mmFree p) := by
  unfold Heap.mmFree
  exact (SameFrame.put ..).trans ((SameFrame.put ..).trans (.coalesce ..))

/-- `place` moves neither the storage nor the break. -/
theorem Heap.SameFrame.place (h : Heap) (p asize : Nat) : h.SameFrame (h.place p asize) := by
  unfold Heap.place
  dsimp only
  split
  · exact (SameFrame.put ..).trans ((SameFrame.put ..).trans ((SameFrame.removeBlock ..).trans
      ((SameFrame.put ..).trans ((SameFrame.put ..).trans (.coalesce ..)))))
  · exact (SameFrame.put ..).trans ((SameFrame.put ..).trans (.removeBlock ..))

end

end Malloc
