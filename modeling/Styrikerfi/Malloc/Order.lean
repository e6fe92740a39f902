import Styrikerfi.Malloc.Ledger

/-!
# The order of frees

Freeing a set of blocks gives the canonical form of the heap with these blocks free
(`Heap.Has.mmFree_all`), in whatever order they are freed and however each free coalesced with what
was free before it. So two orders end in the same blocks and the same set of listed blocks
(`session_frees`), and when nothing is left the heap is one free block (`session_frees_all`).
-/

namespace Malloc

open Machine32 Tiling LinkedList

section
variable {h : Heap} {s : Shape} {bs pre post : List Block} {b : Block} {fl l : List Nat}
  {size : Nat}

/-! ## One free -/

/-- Freeing one block of a tiling. -/
theorem Heap.Layout.mark_one (hl : h.Layout (pre ++ b :: post)) :
    mark [b.bp] (pre ++ b :: post) = pre ++ b.freed :: post := by
  have hne : ∀ c ∈ pre ++ post, (if c.bp ∈ [b.bp] then c.freed else c) = c := by
    intro c hc
    refine if_neg fun he => ?_
    have := List.mem_singleton.1 he
    have := hl.tiles.apart c hc
    have := (hl.bounds (mem_insert_middle (b := b) hc)).size
    have := (hl.bounds (b := b) (by simp)).size
    omega
  rw [mark, List.map_append, List.map_cons, if_pos (List.mem_singleton_self _),
    List.map_congr_left fun c hc => hne c (List.mem_append_left _ hc),
    List.map_congr_left fun c hc => hne c (List.mem_append_right _ hc), List.map_id', List.map_id']

/-- `mm_free` computes the canonical form with the block free. -/
theorem Heap.Has.free_blocks (H : h.Has s) (hb : b ∈ s.blocks) :
    (s.free b.bp).blocks = merge (mark [b.bp] s.blocks) := by
  obtain ⟨blocks, list⟩ := s
  obtain ⟨pre, post, rfl⟩ := List.append_of_mem hb
  have hm := H.merged.of_append
  rw [H.free_eq, H.layout.mark_one]
  exact Shape.coalesce_blocks rfl hm.1 (List.isChain_cons.1 hm.2).2 list

/-- The blocks that stay allocated when one is freed. -/
theorem Heap.Has.free_allocs (H : h.Has s) (hb : b ∈ allocs s.blocks) :
    ∀ c ∈ allocs s.blocks, c.bp ≠ b.bp → c ∈ allocs (s.free b.bp).blocks := by
  intro c hc hne
  obtain ⟨hbm, ha⟩ := mem_allocs.1 hb
  obtain ⟨blocks, list⟩ := s
  obtain ⟨pre, post, rfl⟩ := List.append_of_mem hbm
  have hall := (Heap.WellFormed.mmFree H ha).2.1
  rw [H.free_eq, hall]
  exact mem_allocs_of_ne ha hc hne

/-! ## Any number of frees -/

/-- **Confluence.** Freeing blocks one after the other gives the canonical form of the heap with all
of them free. -/
theorem Heap.Has.mmFree_all (H : h.Has s) (hnd : l.Nodup)
    (hl : ∀ p ∈ l, ∃ b ∈ allocs s.blocks, b.bp = p) :
    ∃ t, (l.foldl Heap.mmFree h).Has t ∧ t.blocks = merge (mark l s.blocks) := by
  induction l generalizing h s with
  | nil =>
    refine ⟨s, H, ?_⟩
    have hid : mark [] s.blocks = s.blocks := by simp [mark]
    rw [hid, merge_of_merged H.merged]
  | cons p l ih =>
    obtain ⟨hp, hnd'⟩ := List.nodup_cons.1 hnd
    obtain ⟨b, hb, rfl⟩ := hl p List.mem_cons_self
    obtain ⟨hbm, ha⟩ := mem_allocs.1 hb
    obtain ⟨t, ht, hblocks⟩ := ih (H.mmFree hbm ha) hnd' fun q hq => by
      obtain ⟨c, hc, rfl⟩ := hl q (List.mem_cons_of_mem _ hq)
      exact ⟨c, H.free_allocs hb c hc fun he => hp (he ▸ hq), rfl⟩
    refine ⟨t, ht, ?_⟩
    have hmark := mark_append [b.bp] l s.blocks
    rw [List.singleton_append] at hmark
    rw [hblocks, H.free_blocks hbm, hmark]
    -- what is free after the first free is not freed again
    refine merge_mark_merge fun c hc hca hcl => ?_
    obtain ⟨d, hd, rfl⟩ := List.mem_map.1 hc
    split at hca
    · next hdb =>
      rw [if_pos hdb] at hcl
      exact hp (List.mem_singleton.1 hdb ▸ hcl)
    · next hdb =>
      rw [if_neg hdb] at hcl
      obtain ⟨e, he, hed⟩ := hl d.bp (List.mem_cons_of_mem _ hcl)
      obtain ⟨he, hea⟩ := mem_allocs.1 he
      rw [H.layout.bp_inj he hd hed, hca] at hea
      cases hea

/-- Frees leave the break. -/
theorem Heap.SameFrame.mmFree_all (h : Heap) (l : List Nat) :
    h.SameFrame (l.foldl Heap.mmFree h) := by
  induction l generalizing h with
  | nil => exact .refl h
  | cons p l ih => exact (SameFrame.mmFree h p).trans (ih _)

/-- The canonical form of free blocks is one block. -/
theorem merge_all_free (hne : bs ≠ []) (hf : ∀ c ∈ bs, c.alloc = false) :
    merge bs = [Block.union bs] := by
  have hone : merge ([] ++ bs ++ []) = merge ([] ++ Block.union bs :: []) := merge_union hne hf
  simpa [joinCons] using hone

/-- A heap with one block, a free one, spans from the prologue to the epilogue. -/
theorem Heap.WellFormed.single {u : Block} (H : h.WellFormed [u] fl) (hu : u.alloc = false) :
    u = ⟨h.heapListp + 8, h.memBrk - (h.heapListp + 8), false⟩ ∧ fl = [h.heapListp + 8] := by
  obtain ⟨hbp, hend⟩ := H.layout.tiles
  have hend : h.heapListp + 8 + u.size = h.memBrk := hend
  have hlist := H.listed
  rw [freeBps_cons_free hu] at hlist
  refine ⟨?_, hbp ▸ List.perm_singleton.1 hlist⟩
  obtain ⟨p, n, a⟩ := u
  obtain rfl : p = h.heapListp + 8 := hbp
  obtain rfl : a = false := hu
  have : n = h.memBrk - (h.heapListp + 8) := by
    have : h.heapListp + 8 + n = h.memBrk := hend
    omega
  rw [this]

/-! ## There is always a block -/

/-- `place` leaves a block. -/
theorem Shape.place_ne_nil {asize bp : Nat} (hs : s.blocks ≠ []) :
    (s.place bp asize).blocks ≠ [] := by
  unfold Shape.place
  split
  · split
    · simp [Shape.coalesce]
    · simp
  · exact hs

/-- `mm_free` leaves a block. -/
theorem Shape.free_ne_nil {bp : Nat} (hs : s.blocks ≠ []) : (s.free bp).blocks ≠ [] := by
  unfold Shape.free
  split
  · simp [Shape.coalesce]
  · exact hs

/-- `mm_malloc` leaves a block. -/
theorem Shape.malloc_ne_nil {brk limit : Nat} (hs : s.blocks ≠ []) :
    (s.malloc brk limit size).2.2.blocks ≠ [] := by
  have hext : ∀ n, (s.extend brk n).2.blocks ≠ [] := fun n => by simp [Shape.extend, Shape.coalesce]
  unfold Shape.malloc
  split
  · exact hs
  · dsimp only
    split
    · exact place_ne_nil hs
    · split
      · exact place_ne_nil (hext _)
      · exact hs

/-- Every call leaves a block. -/
theorem Ledger.step_ne_nil {l l' : Ledger} {c : Call} (hl : l.shape.blocks ≠ [])
    (hst : l.step c = some l') : l'.shape.blocks ≠ [] := by
  cases c with
  | malloc size =>
    rw [Ledger.step] at hst
    split at hst
    · cases hst
      exact Shape.malloc_ne_nil hl
    · cases hst
  | free bp =>
    rw [Ledger.step] at hst
    split at hst
    · cases hst
      exact Shape.free_ne_nil hl
    · cases hst

end

/-! ## Sessions -/

section
variable {s : Session} {l l₁ l₂ : List Nat}

/-- In a state a session reaches, any frees of live blocks give the canonical form. -/
theorem Session.mmFree_all {h₀ h : Heap} (hstart : h₀.memStartBrk % 8 = 0)
    (haddr : h₀.memMaxAddr < 2 ^ 32) (hi : h₀.memResetBrk.mmInit = (0, h))
    (hr : Reachable Session.step ⟨h, []⟩ s) :
    ∃ bs fl, s.Inv bs fl ∧ bs ≠ [] ∧ ∀ l : List Nat, l.Nodup → (∀ p ∈ l, p ∈ s.live.map Prod.fst) →
      ∃ fl', (l.foldl Heap.mmFree s.heap).WellFormed (merge (mark l bs)) fl' := by
  obtain ⟨tr, hr⟩ := hr
  obtain ⟨tr', t, ht, F, -, -⟩ := (Session.follows_init hstart haddr hi).run hr
  have hne : t.shape.blocks ≠ [] :=
    ht.reachable.invariant (I := fun l => l.shape.blocks ≠ []) (by simp [Ledger.init, Shape.init])
      Ledger.step_ne_nil
  refine ⟨_, _, F.inv, hne, fun l hnd hl => ?_⟩
  obtain ⟨t', H, hblocks⟩ := Heap.Has.mmFree_all F.inv.wellFormed hnd fun p hp =>
    List.mem_map.1 (F.inv.held.mem_iff.1 (hl p hp))
  exact ⟨t'.list, hblocks ▸ H⟩

/-- **The order of frees does not matter.** In every state a session reaches, freeing any live
blocks in two orders gives the same blocks, and free lists with the same members. -/
theorem session_frees {h₀ h : Heap} (hstart : h₀.memStartBrk % 8 = 0)
    (haddr : h₀.memMaxAddr < 2 ^ 32) (hi : h₀.memResetBrk.mmInit = (0, h))
    (hr : Reachable Session.step ⟨h, []⟩ s) :
    (∀ l₁ l₂ : List Nat, l₁.Nodup → (∀ p ∈ l₁, p ∈ s.live.map Prod.fst) → l₁.Perm l₂ →
      ∃ bs fl₁ fl₂, (l₁.foldl Heap.mmFree s.heap).Sound bs fl₁ ∧
        (l₂.foldl Heap.mmFree s.heap).Sound bs fl₂ ∧ fl₁.Perm fl₂) ∧
    ∀ l : List Nat, l.Perm (s.live.map Prod.fst) →
      (l.foldl Heap.mmFree s.heap).Sound
        [⟨s.heap.heapListp + 8, s.heap.memBrk - (s.heap.heapListp + 8), false⟩]
        [s.heap.heapListp + 8] := by
  obtain ⟨bs, fl, I, hne, hfree⟩ := Session.mmFree_all hstart haddr hi hr
  constructor
  · intro l₁ l₂ hnd hl hp
    obtain ⟨fl₁, H₁⟩ := hfree l₁ hnd hl
    obtain ⟨fl₂, H₂⟩ := hfree l₂ (hp.nodup_iff.1 hnd) fun p hp' => hl p (hp.mem_iff.2 hp')
    rw [← mark_congr (fun x => hp.mem_iff) bs] at H₂
    exact ⟨_, fl₁, fl₂, H₁.sound, H₂.sound, H₁.listed.trans H₂.listed.symm⟩
  · intro l hp
    obtain ⟨fl', H⟩ := hfree l (hp.nodup_iff.2 I.nodup) fun p => hp.mem_iff.1
    have hfreed : ∀ c ∈ mark l bs, c.alloc = false := by
      intro c hc
      obtain ⟨d, hd, rfl⟩ := List.mem_map.1 hc
      split
      · rfl
      · next hdl =>
        cases ha : d.alloc with
        | false => rfl
        | true =>
          refine absurd (hp.mem_iff.2 (I.held.mem_iff.2 ?_)) hdl
          exact List.mem_map_of_mem (mem_allocs.2 ⟨hd, ha⟩)
    have hmne : mark l bs ≠ [] := by simpa [mark] using hne
    rw [merge_all_free hmne hfreed] at H
    obtain ⟨hu, hfl⟩ := H.single rfl
    have hsame := Heap.SameFrame.mmFree_all s.heap l
    rw [hu, hfl, hsame.heapListp, hsame.memBrk] at H
    exact H.sound

/-- After `mm_init` on zeroed storage at address 8, two blocks of 100 bytes are live; freeing both
leaves one free block. -/
theorem session_frees_two : ∃ h s, (memInit (fun _ => 0) 8).memResetBrk.mmInit = (0, h) ∧
    exec Session.step ⟨h, []⟩ [.malloc 100, .malloc 100] = some s ∧
    ((s.heap.mmFree 24).mmFree 136).Sound
      [⟨s.heap.heapListp + 8, s.heap.memBrk - (s.heap.heapListp + 8), false⟩]
      [s.heap.heapListp + 8] := by
  obtain ⟨h, s, hi, hs, hlive⟩ := memInit_zero_two
  have hfrees := (session_frees rfl (by decide) hi (Reachable.start.exec hs)).2
  refine ⟨h, s, hi, hs, hfrees [24, 136] ?_⟩
  rw [hlive]
  exact .swap 136 24 []

end

end Malloc
