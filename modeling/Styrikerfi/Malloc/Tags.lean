import Styrikerfi.Malloc.FreeList
import Mathlib.Data.List.Chain

/-!
# Boundary tags

`Layout.replace` is the frame of every operation of the allocator: neighbouring blocks may be
retagged as other blocks of the same extent when nothing outside it changes but link words.
`Heap.retag` writes the word of a block in its header and its footer, which is what the source does
in two steps (`Heap.put_tags`).
-/

namespace Malloc

open Machine32 Tiling LinkedList

section
variable {h h' : Heap} {bs pre mid mid' post : List Block} {b c : Block} {fl : List Nat}
  {lo hi w x : Nat}

/-! ## Tag words -/

/-- The address of a tag: the prologue's two, the epilogue's header, a header or a footer. -/
def Heap.TagAddr (h : Heap) (bs : List Block) (w : Nat) : Prop :=
  w + 4 = h.heapListp ∨ w = h.heapListp ∨ w + 4 = h.memBrk ∨
    ∃ b ∈ bs, w + 4 = b.bp ∨ w + 8 = b.bp + b.size

/-- Every listed block is a block of the layout. -/
def ListedIn (fl : List Nat) (bs : List Block) : Prop := ∀ x ∈ fl, ∃ c ∈ bs, c.bp = x

/-- Fewer listed blocks, more blocks of the layout. -/
theorem ListedIn.mono {bs' : List Block} {fl' : List Nat} (hl : ListedIn fl bs)
    (hfl : ∀ x ∈ fl', x ∈ fl) (hbs : ∀ c ∈ bs, c ∈ bs') : ListedIn fl' bs' := by
  intro x hx
  obtain ⟨c, hc, he⟩ := hl x (hfl x hx)
  exact ⟨c, hbs c hc, he⟩

/-- No tag word overlaps the link words of a block. -/
theorem Heap.Layout.tag_apart (hl : h.Layout bs) (hw : h.TagAddr bs w) (hc : c ∈ bs) :
    w + 4 ≤ c.bp ∨ c.bp + 8 ≤ w := by
  have hB := hl.bounds hc
  have := hB.lo; have := hB.hi; have := hB.size; have := hB.listp
  rcases hw with hw | hw | hw | ⟨b, hb, hw⟩
  · omega
  · omega
  · omega
  · by_cases hbc : b = c
    · subst hbc; omega
    · have := hl.apart hb hc hbc
      have := (hl.bounds hb).size
      omega

/-- The listed blocks of a layout are spaced. -/
theorem Heap.Layout.spaced (hl : h.Layout bs) (hfl : ListedIn fl bs) : Spaced fl := by
  constructor
  · intro x hx
    obtain ⟨c, hc, rfl⟩ := hfl x hx
    have hB := hl.bounds hc
    have := hB.hi; have := hB.size; have := hB.brk
    omega
  · intro x hx y hy hne
    obtain ⟨c, hc, rfl⟩ := hfl x hx
    obtain ⟨d, hd, rfl⟩ := hfl y hy
    have := hl.apart hc hd fun e => hne (e ▸ rfl)
    have := (hl.bounds hc).size; have := (hl.bounds hd).size
    omega

/-- A tag outside the range of a frame over listed blocks is unchanged. -/
theorem Heap.Layout.get_tag (hl : h.Layout bs) (hf : h.Frame h' lo hi fl) (hfl : ListedIn fl bs)
    (hw : h.TagAddr bs w) (hr : w + 4 ≤ lo ∨ hi ≤ w ∨ hi ≤ lo) : h'.get w = h.get w := by
  refine hf.get hr fun x hx => ?_
  obtain ⟨c, hc, rfl⟩ := hfl x hx
  exact hl.tag_apart hw hc

/-- A change away from a header keeps it. -/
theorem Heap.Layout.get_header (hl : h.Layout bs) (hf : h.Frame h' lo hi fl)
    (hfl : ListedIn fl bs) (hb : b ∈ bs) (hr : b.bp ≤ lo ∨ hi + 4 ≤ b.bp ∨ hi ≤ lo) :
    h'.get (b.bp - 4) = h.get (b.bp - 4) := by
  have := (hl.bounds hb).lo
  exact hl.get_tag hf hfl (.inr (.inr (.inr ⟨b, hb, .inl (by omega)⟩))) (by omega)

/-- A change away from a footer keeps it. -/
theorem Heap.Layout.get_footer (hl : h.Layout bs) (hf : h.Frame h' lo hi fl)
    (hfl : ListedIn fl bs) (hb : b ∈ bs)
    (hr : b.bp + b.size ≤ lo + 4 ∨ hi + 8 ≤ b.bp + b.size ∨ hi ≤ lo) :
    h'.get (b.bp + b.size - 8) = h.get (b.bp + b.size - 8) := by
  have := (hl.bounds hb).size
  exact hl.get_tag hf hfl (.inr (.inr (.inr ⟨b, hb, .inr (by omega)⟩))) (by omega)

/-- Neighbouring blocks are retagged as other blocks of the same extent, and nothing outside it
changes but link words of blocks of the layout. -/
theorem Heap.Layout.replace (hl : h.Layout (pre ++ mid ++ post))
    (hpre : Tiles Block.bp Block.size (h.heapListp + 8) pre lo)
    (hmid : Tiles Block.bp Block.size lo mid' hi)
    (hpost : Tiles Block.bp Block.size hi post h.memBrk)
    (hf : h.Frame h' (lo - 4) (hi - 4) fl) (hfl : ListedIn fl (pre ++ mid ++ post))
    (hsz : ∀ b ∈ mid', b.size % 8 = 0 ∧ 16 ≤ b.size) (htag : ∀ b ∈ mid', h'.Tagged b) :
    h'.Layout (pre ++ mid' ++ post) := by
  have hl8 : 8 ≤ h.heapListp := by rw [hl.listp]; omega
  have hlo := hpre.le
  have hhi := hpost.le
  have hle := hmid.le
  have hmem : ∀ b ∈ pre ++ mid' ++ post, b ∈ mid' ∨
      b ∈ pre ++ mid ++ post ∧ (b.bp + b.size ≤ lo ∨ hi ≤ b.bp) := by
    intro b hb
    simp only [List.mem_append] at hb ⊢
    rcases hb with (hb | hb) | hb
    · exact .inr ⟨.inl (.inl hb), .inl (hpre.bounds b hb).2⟩
    · exact .inl hb
    · exact .inr ⟨.inr hb, .inr (hpost.bounds b hb).1⟩
  refine
    { aligned := by rw [hf.memStartBrk]; exact hl.aligned
      inBounds := by rw [hf.memBrk, hf.memMaxAddr]; exact hl.inBounds
      addressable := by rw [hf.memMaxAddr]; exact hl.addressable
      listp := by rw [hf.heapListp, hf.memStartBrk]; exact hl.listp
      prologue := ?_
      tiles := ?_
      sizes := fun b hb => ?_
      tags := fun b hb => ?_
      epilogue := ?_ }
  · have hword : h'.prologue = h.prologue := by simp only [Heap.prologue, hf.heapListp]
    have hpro := hl.prologue
    rw [hword]
    constructor
    · rw [← hpro.header]
      exact hl.get_tag hf hfl (.inl (show h.heapListp - 4 + 4 = _ by omega))
        (.inl (show h.heapListp - 4 + 4 ≤ _ by omega))
    · rw [← hpro.footer]
      exact hl.get_tag hf hfl (.inr (.inl (show h.heapListp + 8 - 8 = _ by omega)))
        (.inl (show h.heapListp + 8 - 8 + 4 ≤ _ by omega))
  · rw [hf.heapListp, hf.memBrk]
    exact Tiles.append.2 ⟨hi, Tiles.append.2 ⟨lo, hpre, hmid⟩, hpost⟩
  · rcases hmem b hb with hb | ⟨hb, -⟩
    · exact hsz b hb
    · exact hl.sizes b hb
  · rcases hmem b hb with hb | ⟨hb, hr⟩
    · exact htag b hb
    · have hB := hl.bounds hb
      have := hB.lo; have := hB.size
      exact ⟨(hl.get_header hf hfl hb (by omega)).trans (hl.tags b hb).header,
        (hl.get_footer hf hfl hb (by omega)).trans (hl.tags b hb).footer⟩
  · have hword : h'.epilogue.word = h.epilogue.word := rfl
    rw [hf.memBrk, hword, ← hl.epilogue]
    exact hl.get_tag hf hfl (.inr (.inr (.inl (by omega)))) (by omega)

/-- A change to link words keeps the layout. -/
theorem Heap.Layout.of_frame (hl : h.Layout bs) (hf : h.Frame h' 0 0 fl) (hfl : ListedIn fl bs) :
    h'.Layout bs := by
  have hf' : h.Frame h' (h.memBrk - 4) (h.memBrk - 4) fl := hf.mono (by omega) fun _ hx => hx
  have hl' : h.Layout (bs ++ [] ++ []) := by simpa using hl
  have hnil : Tiles Block.bp Block.size h.memBrk [] h.memBrk := rfl
  have := hl'.replace hl.tiles hnil rfl hf' (by simpa using hfl) (by simp) (by simp)
  simpa using this

/-! ## Writing both tags -/

/-- The heap with the word of `u` in its header and its footer. -/
def Heap.retag (h : Heap) (u : Block) : Heap :=
  (h.put (u.bp - 4) u.word).put (u.bp + u.size - 8) u.word

/-- A block whose tags can be written: an aligned size, and addresses that do not wrap. -/
structure Block.Fits (u : Block) : Prop where
  mod : u.size % 8 = 0
  size : 16 ≤ u.size
  lo : 4 ≤ u.bp
  hi : u.bp + u.size < 2 ^ 32

variable {u : Block}

/-- The word of a tag is a word of 32 bits. -/
theorem Block.Fits.word_lt (hu : u.Fits) : u.word < 2 ^ 32 := by
  have := u.toNat_alloc_lt; have := hu.hi; have := hu.lo
  rw [u.word_eq hu.mod]; omega

/-- A block of a layout has a size for a tag. -/
theorem Heap.Bounds.fits (hB : h.Bounds b) : b.Fits := by
  have := hB.lo; have := hB.hi; have := hB.brk
  exact ⟨hB.mod, hB.size, by omega, by omega⟩

/-- A block that fills the room between two parts of the heap. -/
theorem Heap.Layout.fits (hl : h.Layout bs)
    (hpre : Tiles Block.bp Block.size (h.heapListp + 8) pre u.bp)
    (hpost : Tiles Block.bp Block.size (u.bp + u.size) post h.memBrk)
    (hsz : u.size % 8 = 0 ∧ 16 ≤ u.size) : u.Fits := by
  have := hpre.le; have := hpost.le; have := hl.brk_lt; have := hl.listp
  exact ⟨hsz.1, hsz.2, by omega, by omega⟩

/-- The source writes a header and then a footer found through that header. -/
theorem Heap.put_tags (h : Heap) {bp size a : Nat} (hu : u.Fits) (hbp : u.bp = bp)
    (hw : pack size a = u.word) :
    (h.put (hdrp bp) (pack size a)).put ((h.put (hdrp bp) (pack size a)).ftrp bp) (pack size a) =
      h.retag u := by
  have := hu.size; have := hu.hi
  subst hbp
  rw [hw, hdrp_eq hu.lo]
  have hf : (h.put (u.bp - 4) u.word).ftrp u.bp = u.bp + u.size - 8 :=
    Heap.ftrp_of_header (Heap.get_put h _ hu.word_lt) hu.mod hu.lo hu.hi (by omega)
  rw [hf, Heap.retag]

/-- A block that is tagged has its tags. -/
theorem Heap.retag_tagged (h : Heap) (hu : u.Fits) : (h.retag u).Tagged u := by
  have := hu.size; have := hu.lo
  exact ⟨(Heap.get_put_of_sep (by omega)).trans (Heap.get_put _ _ hu.word_lt),
    Heap.get_put _ _ hu.word_lt⟩

/-- A word apart from both tags is unchanged. -/
theorem Heap.get_retag_of_sep (hu : u.Fits) (hh : w + 8 ≤ u.bp ∨ u.bp ≤ w)
    (hf : w + 12 ≤ u.bp + u.size ∨ u.bp + u.size ≤ w + 4) : (h.retag u).get w = h.get w := by
  have := hu.size; have := hu.lo
  exact (Heap.get_put_of_sep (by omega)).trans (Heap.get_put_of_sep (by omega))

/-- Tags change the bytes of their block alone. -/
theorem Heap.retag_frame (h : Heap) (fl : List Nat) (hu : u.Fits) :
    h.Frame (h.retag u) (u.bp - 4) (u.bp + u.size - 4) fl := by
  have := hu.size; have := hu.lo
  exact (Heap.Frame.put h fl (by omega) (by omega)).trans
    (Heap.Frame.put _ fl (by omega) (by omega))

/-- Tags written away from the link words keep the list. A listed block may start where `u` does. -/
theorem Heap.Links.retag (hk : h.Links fl) (hs : Spaced fl) (hu : u.Fits)
    (hp : ∀ x ∈ fl, x + 16 ≤ u.bp ∨ u.bp + u.size ≤ x ∨ x = u.bp) :
    (h.retag u).Links fl := by
  have := hu.size; have := hu.lo
  refine (hk.put hs fun x hx => ?_).put hs fun x hx => ?_ <;>
  · have := hp x hx
    omega

/-- Two words written at separate addresses, in either order. -/
theorem Heap.put_comm {p q v w : Nat} (hs : p + 4 ≤ q ∨ q + 4 ≤ p) :
    (h.put p v).put q w = (h.put q w).put p v := by
  have hm : Machine32.store (Machine32.store h.mem p v) q w =
      Machine32.store (Machine32.store h.mem q w) p v := by
    funext x
    by_cases hp : x < p ∨ p + 4 ≤ x
    · rw [Machine32.store_of_sep hp]
      by_cases hq : x < q ∨ q + 4 ≤ x
      · rw [Machine32.store_of_sep hq, Machine32.store_of_sep hq, Machine32.store_of_sep hp]
      · simp only [Machine32.store, if_neg (show ¬ x < q by omega),
          if_pos (show x < q + 4 by omega)]
    · rw [Machine32.store_of_sep (show x < q ∨ q + 4 ≤ x by omega)]
      simp only [Machine32.store, if_neg (show ¬ x < p by omega), if_pos (show x < p + 4 by omega)]
  simp only [Heap.put, hm]

end

end Malloc
