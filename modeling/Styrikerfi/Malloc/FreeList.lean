import Styrikerfi.Malloc.Layout

/-!
# The free list

`insertBlock` and `removeBlock` on a memory whose link words represent a list `fl` of blocks: the
first puts its block in front of `fl`, the second takes its block out of `fl` at whatever position
(`freeList_faithful`). Both write link words of listed blocks and `free_listp` and nothing else,
which `Heap.Frame` states: two heaps agree outside an address range and outside the link words of a
list of blocks.
-/

namespace Malloc

open Machine32 Tiling LinkedList

/-- The heaps agree but for `free_listp`, the bytes in `[lo, hi)` and the link words of the blocks
`fl`. -/
structure Heap.Frame (h h' : Heap) (lo hi : Nat) (fl : List Nat) : Prop extends
    h.SameFrame h' where
  mem : ∀ q, q < lo ∨ hi ≤ q → (∀ x ∈ fl, q < x ∨ x + 8 ≤ q) → h'.mem q = h.mem q

/-- The link words of the blocks `l` are addresses and do not overlap. -/
structure Spaced (l : List Nat) : Prop where
  lt : ∀ x ∈ l, x + 8 ≤ 2 ^ 32
  apart : ∀ x ∈ l, ∀ y ∈ l, x ≠ y → x + 8 ≤ y ∨ y + 8 ≤ x

section
variable {h h' h'' : Heap} {lo hi lo' hi' : Nat} {fl fl' : List Nat} {p q v x y : Nat}

/-! ## Frames -/

/-- Nothing changed is in every frame. -/
theorem Heap.Frame.refl (h : Heap) (lo hi : Nat) (fl : List Nat) : h.Frame h lo hi fl :=
  ⟨.refl h, fun _ _ _ => rfl⟩

/-- Frames go through several changes. -/
theorem Heap.Frame.trans (a : h.Frame h' lo hi fl) (b : h'.Frame h'' lo hi fl) :
    h.Frame h'' lo hi fl :=
  ⟨a.toSameFrame.trans b.toSameFrame, fun q hq hx => (b.mem q hq hx).trans (a.mem q hq hx)⟩

/-- A frame may be widened. -/
theorem Heap.Frame.mono (a : h.Frame h' lo hi fl) (hr : lo < hi → lo' ≤ lo ∧ hi ≤ hi')
    (hfl : ∀ x ∈ fl, x ∈ fl') : h.Frame h' lo' hi' fl' := by
  refine ⟨a.toSameFrame, fun q hq hx => a.mem q ?_ fun x h => hx x (hfl x h)⟩
  by_cases hlt : lo < hi
  · have := hr hlt; omega
  · omega

/-- A word written inside the range. -/
theorem Heap.Frame.put (h : Heap) (fl : List Nat) (hlo : lo ≤ p) (hhi : p + 4 ≤ hi) :
    h.Frame (h.put p v) lo hi fl :=
  ⟨.put h p v, fun q hq _ => Heap.mem_put_of_sep (by omega)⟩

/-- A word written to a link of a listed block. -/
theorem Heap.Frame.put_link (h : Heap) (hx : x ∈ fl) (hp : p = x ∨ p = x + 4) :
    h.Frame (h.put p v) lo hi fl := by
  refine ⟨.put h p v, fun q _ hq => Heap.mem_put_of_sep ?_⟩
  have := hq x hx
  omega

/-- A new head of the list is in every frame. -/
theorem Heap.Frame.setFreeListp (h : Heap) (v : Nat) : h.Frame (h.setFreeListp v) lo hi fl :=
  ⟨.setFreeListp h v, fun _ _ _ => rfl⟩

/-- A word outside the range and off the link words is unchanged. -/
theorem Heap.Frame.get (a : h.Frame h' lo hi fl) (hr : q + 4 ≤ lo ∨ hi ≤ q ∨ hi ≤ lo)
    (hx : ∀ x ∈ fl, q + 4 ≤ x ∨ x + 8 ≤ q) : h'.get q = h.get q := by
  refine Heap.get_congr fun z h1 h2 => a.mem z (by omega) fun x hm => ?_
  have := hx x hm
  omega

/-! ## Link words -/

/-- The forward link is the second word of the payload. -/
theorem Heap.next_eq (h : Heap) (hp : p + 8 ≤ 2 ^ 32) : h.next p = h.get (p + 4) := by
  rw [Heap.next, wadd_of_lt (show p + 4 < 2 ^ 32 by omega)]

/-- The forward link is written to the second word of the payload. -/
theorem Heap.setNext_eq (h : Heap) (v : Nat) (hp : p + 8 ≤ 2 ^ 32) :
    h.setNext p v = h.put (p + 4) v := by
  rw [Heap.setNext, wadd_of_lt (show p + 4 < 2 ^ 32 by omega)]

/-- Fewer blocks are spaced too. -/
theorem Spaced.mono {l l' : List Nat} (hs : Spaced l) (hl : ∀ x ∈ l', x ∈ l) : Spaced l' :=
  ⟨fun x hx => hs.lt x (hl x hx), fun x hx y hy => hs.apart x (hl x hx) y (hl y hy)⟩

/-- The list in memory is unchanged when the link words of its members are. -/
theorem Heap.Links.of_get (hk : h.Links fl) (hf : h'.freeListp = h.freeListp)
    (hp : ∀ x ∈ fl, h'.prev x = h.prev x) (hn : ∀ x ∈ fl, h'.next x = h.next x) :
    h'.Links fl := by
  unfold Heap.Links
  rw [hf]
  exact Linked.congr hk hn hp

/-- A change away from the link words keeps the list. -/
theorem Heap.Links.of_mem (hk : h.Links fl) (hs : Spaced fl) (hf : h'.freeListp = h.freeListp)
    (hm : ∀ x ∈ fl, ∀ q, x ≤ q → q < x + 8 → h'.mem q = h.mem q) : h'.Links fl := by
  refine hk.of_get hf (fun x hx => ?_) fun x hx => ?_
  · exact Heap.get_congr fun q h1 h2 => hm x hx q h1 (by omega)
  · rw [h'.next_eq (hs.lt x hx), h.next_eq (hs.lt x hx)]
    exact Heap.get_congr fun q h1 h2 => hm x hx q (by omega) (by omega)

/-- A word written away from the link words keeps the list. -/
theorem Heap.Links.put (hk : h.Links fl) (hs : Spaced fl)
    (hp : ∀ x ∈ fl, p + 4 ≤ x ∨ x + 8 ≤ p) : (h.put p v).Links fl :=
  hk.of_mem hs rfl fun x hx q h1 h2 => Heap.mem_put_of_sep (by have := hp x hx; omega)

/-! ## Insertion -/

/-- Into an empty list. -/
theorem Heap.Links.insertBlock_nil (hk : h.Links []) (hbp : p ≠ 0) (hs : p + 8 ≤ 2 ^ 32) :
    (h.insertBlock p).Links [p] := by
  have h0 : h.freeListp = 0 := hk
  have hins : h.insertBlock p = ((h.setFreeListp p).put p 0).put (p + 4) 0 := by
    rw [Heap.insertBlock, if_pos h0]
    simp only [Heap.setPrev, Heap.setNext_eq _ _ hs]
  rw [hins]
  refine ⟨rfl, hbp, ?_, ?_⟩
  · show Heap.get _ p = 0
    rw [Heap.get_put_of_sep (by omega), Heap.get_put _ _ (by decide)]
  · show Heap.next _ p = 0
    rw [Heap.next_eq _ hs, Heap.get_put _ _ (by decide)]

/-- **`insertBlock`**: the block comes in front of the list. -/
theorem Heap.Links.insertBlock (hk : h.Links fl) (hbp : p ≠ 0) (hp : p ∉ fl)
    (hs : Spaced (p :: fl)) :
    (h.insertBlock p).Links (p :: fl) ∧ h.Frame (h.insertBlock p) 0 0 (p :: fl) := by
  have hps : p + 8 ≤ 2 ^ 32 := hs.lt p List.mem_cons_self
  have hpm : p ∈ p :: fl := List.mem_cons_self
  by_cases h0 : h.freeListp = 0
  · obtain rfl : fl = [] := (Linked.head_eq_null hk).1 h0
    refine ⟨hk.insertBlock_nil hbp hps, ?_⟩
    rw [Heap.insertBlock, if_pos h0]
    simp only [Heap.setPrev, Heap.setNext_eq _ _ hps]
    exact (Heap.Frame.setFreeListp h p).trans
      ((Heap.Frame.put_link _ hpm (.inl rfl)).trans (Heap.Frame.put_link _ hpm (.inr rfl)))
  · -- the old head `f` is a member: its back link, then both links of `p`
    obtain ⟨f, l, rfl⟩ := List.exists_cons_of_ne_nil fun e => h0 ((Linked.head_eq_null hk).2 e)
    have hf : h.freeListp = f := hk.1
    have hfm : f ∈ p :: f :: l := by simp
    have hins : h.insertBlock p =
        (((h.put f p).put p 0).put (p + 4) f).setFreeListp p := by
      rw [Heap.insertBlock, if_neg h0, hf]
      simp only [Heap.setPrev, Heap.setNext_eq _ _ hps]
    rw [hins]
    constructor
    · have hflt : f + 8 ≤ 2 ^ 32 := hs.lt f hfm
      show Linked 0 _ _ p (p :: f :: l)
      refine Linked.push hk hbp ?_ ?_ (fun x hx => ?_) (fun x hx hxf => ?_) fun _ => ?_
      · rw [Heap.next_eq _ hps, hf]
        exact Heap.get_put _ _ (by omega)
      · exact (Heap.get_put_of_sep (by omega)).trans (Heap.get_put _ _ (by decide))
      · have hxm : x ∈ p :: f :: l := List.mem_cons_of_mem _ hx
        have hxp : x ≠ p := fun e => hp (e ▸ hx)
        have hxs := hs.apart x hxm p hpm hxp
        rw [Heap.next_eq _ (hs.lt x hxm), Heap.next_eq _ (hs.lt x hxm)]
        refine (Heap.get_put_of_sep (by omega)).trans ((Heap.get_put_of_sep (by omega)).trans
          (Heap.get_put_of_sep ?_))
        by_cases hxf : x = f
        · omega
        · have := hs.apart x hxm f hfm hxf; omega
      · have hxm : x ∈ p :: f :: l := List.mem_cons_of_mem _ hx
        have hxs := hs.apart x hxm p hpm fun e => hp (e ▸ hx)
        have hxfs := hs.apart x hxm f hfm fun e => hxf (e.trans hf.symm)
        exact (Heap.get_put_of_sep (by omega)).trans ((Heap.get_put_of_sep (by omega)).trans
          (Heap.get_put_of_sep (by omega)))
      · have hfp := hs.apart f hfm p hpm fun e => hp (e ▸ List.mem_cons_self)
        rw [hf]
        exact (Heap.get_put_of_sep (by omega)).trans ((Heap.get_put_of_sep (by omega)).trans
          (Heap.get_put _ _ (by omega)))
    · exact (((Heap.Frame.put_link h hfm (.inl rfl)).trans
        (Heap.Frame.put_link _ hpm (.inl rfl))).trans
        (Heap.Frame.put_link _ hpm (.inr rfl))).trans (Heap.Frame.setFreeListp _ p)

/-! ## Removal -/

/-- `removeBlock` writes the back link of the successor `n`, then either the forward link of the
predecessor `p` or, at the front of the list, `free_listp`. -/
theorem Heap.removeBlock_eq {n p : Nat} (hs : x + 8 ≤ 2 ^ 32) (hn : h.next x = n)
    (hp : h.prev x = p) (hps : p + 8 ≤ 2 ^ 32) (hxn : n ≠ 0 → x + 8 ≤ n ∨ n + 8 ≤ x) :
    h.removeBlock x =
      let h₁ := if n ≠ 0 then h.put n p else h
      if p ≠ 0 then h₁.put (p + 4) n else h₁.setFreeListp n := by
  have hlinks : ∀ h₁ : Heap, h₁ = (if n ≠ 0 then h.put n p else h) →
      h₁.next x = n ∧ h₁.prev x = p := by
    rintro h₁ rfl
    split
    · next h0 =>
      have := hxn h0
      refine ⟨?_, (Heap.get_put_of_sep (by omega)).trans hp⟩
      rw [Heap.next_eq _ hs, Heap.get_put_of_sep (by omega), ← Heap.next_eq _ hs, hn]
    · exact ⟨hn, hp⟩
  simp only [Heap.removeBlock, hn, hp, Heap.setPrev]
  generalize hh₁ : (if n ≠ 0 then h.put n p else h) = h₁
  obtain ⟨hn₁, hp₁⟩ := hlinks h₁ hh₁.symm
  have hn₂ : (h₁.setFreeListp n).next x = n := hn₁
  simp only [hn₁, hp₁, hn₂, Heap.setNext_eq _ _ hps]
  by_cases hp0 : p ≠ 0
  · rw [if_pos hp0, if_pos hp0]
  · rw [if_neg hp0, if_neg hp0]
    split
    · next hn0 =>
      -- the second write of the successor's back link repeats the first
      obtain rfl : p = 0 := not_not.1 hp0
      rw [if_pos hn0] at hh₁
      subst hh₁
      simp only [Heap.put, Heap.setFreeListp, store_store]
    · rfl

/-- **`removeBlock`**: the block leaves the list, at whatever position. -/
theorem Heap.Links.removeBlock (hk : h.Links fl) (hx : x ∈ fl) (hs : Spaced fl) :
    (h.removeBlock x).Links (fl.erase x) ∧ h.Frame (h.removeBlock x) 0 0 fl := by
  have hnm : h.next x = 0 ∨ h.next x ∈ fl := Linked.next_mem hk hx
  have hpm : h.prev x = 0 ∨ h.prev x ∈ fl := Linked.prev_mem hk hx
  have hnx : h.next x ≠ x := Linked.next_ne hk hx
  have hfirst : h.prev x = 0 ↔ h.freeListp = x := Linked.prev_eq_null_iff hk hx
  have hfwd : ∀ y ∈ fl, h.next y = x ↔ h.prev x = y := fun y hy => Linked.next_eq_iff hk hy hx
  have hbwd : ∀ y ∈ fl, h.prev y = x ↔ h.next x = y := fun y hy =>
    (Linked.next_eq_iff hk hx hy).symm
  have hnl : h.next x + 8 ≤ 2 ^ 32 := hnm.elim (fun e => by omega) (hs.lt _)
  have hpl : h.prev x + 8 ≤ 2 ^ 32 := hpm.elim (fun e => by omega) (hs.lt _)
  have heq := Heap.removeBlock_eq (h := h) (hs.lt x hx) rfl rfl hpl fun h0 =>
    hs.apart x hx _ (hnm.resolve_left h0) hnx.symm
  generalize hn : h.next x = n at *
  generalize hp : h.prev x = p at *
  have hsep : ∀ y ∈ fl, ∀ z ∈ fl, y ≠ z → y + 8 ≤ z ∨ z + 8 ≤ y := hs.apart
  have hne : ∀ y ∈ fl, y ≠ 0 := Linked.ne_null hk
  -- the two links of a member, after the change
  have hprev : ∀ y ∈ fl, (h.removeBlock x).prev y = if n = y then p else h.prev y := by
    intro y hy
    have hlast : (h.removeBlock x).get y = (if n ≠ 0 then h.put n p else h).get y := by
      rw [heq]
      dsimp only
      split
      · next hp0 =>
        refine Heap.get_put_of_sep ?_
        by_cases hyp : y = p
        · omega
        · have := hsep y hy p (hpm.resolve_left hp0) hyp; omega
      · rfl
    refine hlast.trans ?_
    by_cases hn0 : n ≠ 0
    · rw [if_pos hn0]
      by_cases hny : n = y
      · rw [if_pos hny, hny, Heap.get_put _ _ (by omega)]
      · rw [if_neg hny]
        have := hsep y hy n (hnm.resolve_left hn0) (Ne.symm hny)
        exact Heap.get_put_of_sep (by omega)
    · rw [if_neg hn0, if_neg fun e => hne y hy (e.symm.trans (not_not.1 hn0))]
      rfl
  have hnext : ∀ y ∈ fl, (h.removeBlock x).next y = if p = y then n else h.next y := by
    intro y hy
    have hfst : (if n ≠ 0 then h.put n p else h).get (y + 4) = h.get (y + 4) := by
      split
      · next hn0 =>
        refine Heap.get_put_of_sep ?_
        by_cases hyn : y = n
        · omega
        · have := hsep y hy n (hnm.resolve_left hn0) hyn; omega
      · rfl
    rw [Heap.next_eq _ (hs.lt y hy), Heap.next_eq _ (hs.lt y hy), heq]
    dsimp only
    by_cases hp0 : p ≠ 0
    · rw [if_pos hp0]
      by_cases hpy : p = y
      · rw [if_pos hpy, hpy, Heap.get_put _ _ (by omega)]
      · rw [if_neg hpy, ← hfst]
        have := hsep y hy p (hpm.resolve_left hp0) (Ne.symm hpy)
        exact Heap.get_put_of_sep (by omega)
    · have hpy : ¬ p = y := fun e => hne y hy (e.symm.trans (not_not.1 hp0))
      rw [if_neg hp0, if_neg hpy]
      exact hfst
  have hhead : (h.removeBlock x).freeListp = if h.freeListp = x then n else h.freeListp := by
    rw [heq]
    dsimp only
    by_cases hp0 : p ≠ 0
    · rw [if_pos hp0, if_neg fun e => hp0 (hfirst.2 e)]
      split <;> rfl
    · rw [if_neg hp0, if_pos (hfirst.1 (not_not.1 hp0))]
      rfl
  constructor
  · have hk' : Linked 0 (h.removeBlock x).next (h.removeBlock x).prev
        (if h.freeListp = x then n else h.freeListp) (fl.erase x) := by
      rw [← hn]
      refine Linked.unlink hk hx (fun y hy _ => ?_) fun y hy _ => ?_
      · rw [hnext y hy, hn]
        exact if_congr (hfwd y hy).symm rfl rfl
      · rw [hprev y hy, hp]
        exact if_congr (hbwd y hy).symm rfl rfl
    unfold Heap.Links
    rwa [hhead]
  · rw [heq]
    dsimp only
    have hfst : h.Frame (if n ≠ 0 then h.put n p else h) 0 0 fl := by
      split
      · next hn0 => exact Heap.Frame.put_link h (hnm.resolve_left hn0) (.inl rfl)
      · exact .refl ..
    split
    · next hp0 => exact hfst.trans (Heap.Frame.put_link _ (hpm.resolve_left hp0) (.inr rfl))
    · exact hfst.trans (.setFreeListp _ n)

/-- **The free list is a faithful list.** Where the links from `free_listp` represent the blocks
`fl`, whatever else the memory holds: `insertBlock` puts a block that is not listed in front of
them, and `removeBlock` takes a listed one out, wherever it stands, and leaves the others in order.
Nothing is written but `free_listp` and link words of these blocks. -/
theorem freeList_faithful (hk : h.Links fl) :
    (∀ bp, bp ≠ 0 → bp ∉ fl → Spaced (bp :: fl) →
      (h.insertBlock bp).Links (bp :: fl) ∧ h.Frame (h.insertBlock bp) 0 0 (bp :: fl)) ∧
    (Spaced fl → ∀ l₁ bp l₂, fl = l₁ ++ bp :: l₂ →
      (h.removeBlock bp).Links (l₁ ++ l₂) ∧ h.Frame (h.removeBlock bp) 0 0 fl) := by
  refine ⟨fun bp hbp hnew hs => hk.insertBlock hbp hnew hs, ?_⟩
  rintro hs l₁ bp l₂ rfl
  have hmem : bp ∈ l₁ ++ bp :: l₂ := by simp
  have hbp : bp ∉ l₁ := fun hm => (List.nodup_middle.1 (Linked.nodup hk)).notMem (by simp [hm])
  have herase : (l₁ ++ bp :: l₂).erase bp = l₁ ++ l₂ := by
    rw [List.erase_append_right _ hbp, List.erase_cons_head]
  rw [← herase]
  exact hk.removeBlock hmem hs

/-- Three listed blocks in a memory full of stale words. -/
def threeListed : Heap :=
  let h := (memInit (fun _ => 255) 8).setFreeListp 24
  let h := (h.setPrev 24 0).setNext 24 64
  let h := (h.setPrev 64 24).setNext 64 104
  (h.setPrev 104 64).setNext 104 0

/-- A block is put in front of three, and the second of three taken out. -/
theorem freeList_faithful_three : (threeListed.insertBlock 144).Links [144, 24, 64, 104] ∧
    (threeListed.removeBlock 64).Links [24, 104] := by
  have hk : threeListed.Links [24, 64, 104] :=
    ⟨rfl, by decide, rfl, rfl, by decide, rfl, rfl, by decide, rfl, rfl⟩
  obtain ⟨hins, hrem⟩ := freeList_faithful hk
  exact ⟨(hins 144 (by decide) (by decide) ⟨by decide, by decide⟩).1,
    (hrem ⟨by decide, by decide⟩ [24] 64 [104] rfl).1⟩

/-! ## The break and the block list -/

/-- `insert_block` leaves the break. -/
theorem Heap.SameFrame.insertBlock (h : Heap) (p : Nat) : h.SameFrame (h.insertBlock p) := by
  unfold Heap.insertBlock
  split
  · exact ⟨rfl, rfl, rfl, rfl, rfl⟩
  · exact ⟨rfl, rfl, rfl, rfl, rfl⟩

/-- `remove_block` leaves the break. -/
theorem Heap.SameFrame.removeBlock (h : Heap) (p : Nat) : h.SameFrame (h.removeBlock p) := by
  have hfst : h.SameFrame (if h.next p ≠ 0 then h.setPrev (h.next p) (h.prev p) else h) := by
    split
    · exact .put ..
    · exact .refl h
  unfold Heap.removeBlock
  refine hfst.trans ?_
  generalize (if h.next p ≠ 0 then h.setPrev (h.next p) (h.prev p) else h) = g
  dsimp only
  split
  · exact .put ..
  · split
    · exact (SameFrame.setFreeListp ..).trans (.put ..)
    · exact .setFreeListp ..

end

end Malloc
