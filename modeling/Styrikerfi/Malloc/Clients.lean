import Styrikerfi.Malloc.Ledger

/-!
# What clients rely on

A client may use the bytes it asked for and nothing else, and counts on no one else using them.
`session_usable` is the first half: the payload of a live request is aligned, lies in the heap, and
shares no byte with another live request or with what the allocator keeps in the heap, its headers,
its footers and its link words (`Heap.Bookkeeping`). `session_untouched` is the second: an
allocation and a free leave the payload area and the tags of every other live block as they are
(`Heap.SameBlock`).
-/

namespace Malloc

open Machine32 Tiling LinkedList

/-- The byte `q` is one the allocator keeps: of a header or a footer of the prologue or of a block,
of the epilogue header, or of the link words of a listed block. -/
def Heap.Bookkeeping (h : Heap) (bs : List Block) (fl : List Nat) (q : Nat) : Prop :=
  (∃ b ∈ h.prologue :: bs,
    hdrp b.bp ≤ q ∧ q < hdrp b.bp + 4 ∨ h.ftrp b.bp ≤ q ∧ q < h.ftrp b.bp + 4) ∨
    (hdrp h.memBrk ≤ q ∧ q < hdrp h.memBrk + 4) ∨ ∃ x ∈ fl, x ≤ q ∧ q < x + 8

/-- The payload area of the block `q` of the first heap, and its two tags, are the same in both. -/
def Heap.SameBlock (h h' : Heap) (q : Nat) : Prop :=
  (∀ a, q ≤ a → a < q + h.getSize (hdrp q) - 8 → h'.mem a = h.mem a) ∧
    h'.get (hdrp q) = h.get (hdrp q) ∧ h'.get (h.ftrp q) = h.get (h.ftrp q)

section
variable {h h' : Heap} {bs bs' cs : List Block} {b : Block} {fl fl' : List Nat} {p q size : Nat}

/-- The room for a request in an allocated block is no part of what the allocator keeps. -/
theorem Heap.WellFormed.payload_free (H : h.WellFormed bs fl) (hb : b ∈ allocs bs) (h1 : b.bp ≤ q)
    (h2 : q + 8 < b.bp + b.size) : ¬ h.Bookkeeping bs fl q := by
  have hl := H.layout
  obtain ⟨hb, ha⟩ := mem_allocs.1 hb
  have hB := hl.bounds hb
  have := hB.lo; have := hB.hi; have := hB.size; have := hB.listp
  rintro (⟨c, hc, hq⟩ | hq | ⟨x, hx, hq⟩)
  · rcases List.mem_cons.1 hc with rfl | hc
    · have hw : h.get (h.prologue.bp - 4) = h.prologue.word := hl.prologue.header
      have hlp : h.prologue.bp = h.heapListp := rfl
      have hf : h.ftrp h.prologue.bp = h.heapListp + 8 - 8 :=
        Heap.ftrp_of_header hw (Nat.mod_self 8) (by omega)
          (show h.heapListp + 8 < 2 ^ 32 by have := hB.brk; omega)
          (show 8 ≤ h.heapListp + 8 by omega)
      rw [hf, hdrp_eq (by omega)] at hq
      omega
    · have hC := hl.bounds hc
      have := hC.lo; have := hC.size
      rw [hl.ftrp hc, hdrp_eq (by omega)] at hq
      by_cases hbc : b = c
      · subst hbc; omega
      · have := hl.apart hb hc hbc
        omega
  · rw [hdrp_eq (by omega)] at hq
    omega
  · obtain ⟨d, hd, hda, rfl⟩ := H.mem_free x hx
    have := hl.apart hb hd fun e => by rw [e, hda] at ha; cases ha
    have := (hl.bounds hd).size
    omega

/-- A block that is allocated before and after a change that keeps its payload is the same block. -/
theorem Heap.WellFormed.sameBlock (H : h.WellFormed bs fl) (H' : h'.WellFormed bs' fl')
    (hb : b ∈ allocs bs) (hb' : b ∈ allocs bs') (hk : h.Keeps h' cs) (hc : b ∈ cs) :
    h.SameBlock h' b.bp := by
  have hbm := (mem_allocs.1 hb).1
  have hB := H.layout.bounds hbm
  have ht := H.layout.tags b hbm
  have ht' := H'.layout.tags b (mem_allocs.1 hb').1
  refine ⟨fun a h1 h2 => hk b hc a h1 ?_, ?_, ?_⟩
  · rw [H.layout.getSize hbm] at h2
    omega
  · rw [hdrp_eq (by have := hB.lo; omega), ht'.header, ht.header]
  · rw [H.layout.ftrp hbm, ht'.footer, ht.footer]

/-- An allocation leaves every allocated block alone. -/
theorem Heap.WellFormed.mmMalloc_sameBlock (H : h.WellFormed bs fl) (hlt : size < 2 ^ 31) :
    ∃ p h', h.mmMalloc size = some (p, h') ∧ ∀ b ∈ allocs bs, h.SameBlock h' b.bp := by
  rcases H.mmMalloc (show size + 15 < 2 ^ 32 by omega) with hnull | ⟨a, h', bs', fl', hp, -, A⟩
  · exact ⟨0, h, hnull, fun _ _ => ⟨fun _ _ _ => rfl, rfl, rfl⟩⟩
  · exact ⟨a.bp, h', hp, fun b hb => H.sameBlock A.wellFormed hb
      (A.added.mem_iff.2 (List.mem_cons_of_mem _ hb)) A.keeps hb⟩

/-- A free leaves every other allocated block alone. -/
theorem Heap.WellFormed.mmFree_sameBlock (H : h.WellFormed bs fl) (hb : b ∈ allocs bs) :
    ∀ c ∈ allocs bs, c.bp ≠ b.bp → h.SameBlock (h.mmFree b.bp) c.bp := by
  intro c hc hne
  obtain ⟨hbm, ha⟩ := mem_allocs.1 hb
  obtain ⟨pre, post, rfl⟩ := List.append_of_mem hbm
  obtain ⟨hwf, hall, hk⟩ := H.mmFree ha
  have hc' := mem_allocs_of_ne ha hc hne
  exact H.sameBlock hwf hc (hall ▸ hc') hk hc'

end

/-! ## Sessions -/

section
variable {s : Session} {bs : List Block} {fl : List Nat} {q : Nat}

/-- **Usable payloads.** In every state a session reaches, the payload of a live request is aligned
and lies in the heap, the payloads of two live requests have no byte in common, and no payload has a
byte in common with a header, a footer or the link words of a listed block. -/
theorem session_usable {h₀ h : Heap} (hstart : h₀.memStartBrk % 8 = 0)
    (haddr : h₀.memMaxAddr < 2 ^ 32) (hi : h₀.memResetBrk.mmInit = (0, h))
    (hr : Reachable Session.step ⟨h, []⟩ s) :
    (∀ x ∈ s.live, x.1 ≠ 0 ∧ x.1 % 8 = 0 ∧
      ∀ q, x.1 ≤ q → q < x.1 + x.2 → s.heap.memHeapLo ≤ q ∧ q ≤ s.heap.memHeapHi) ∧
    s.live.Pairwise (fun x y => x.1 + x.2 ≤ y.1 ∨ y.1 + y.2 ≤ x.1) ∧
    ∃ bs fl, s.heap.Sound bs fl ∧
      ∀ x ∈ s.live, ∀ q, x.1 ≤ q → q < x.1 + x.2 → ¬ s.heap.Bookkeeping bs fl q := by
  obtain ⟨bs, fl, I⟩ := hr.invariant (I := fun s => ∃ bs fl, s.Inv bs fl)
    (Session.inv_init hstart haddr hi) Session.Inv.step
  have hl := I.wellFormed.layout
  refine ⟨fun x hx => ?_, ?_, bs, fl, I.wellFormed.sound, fun x hx q h1 h2 => ?_⟩
  · obtain ⟨b, hb, hbp, hroom⟩ := I.room x hx
    have hbm := (mem_allocs.1 hb).1
    have hB := hl.bounds hbm
    have := hB.lo; have := hB.hi; have := hB.listp; have := hl.listp
    refine ⟨by omega, hbp ▸ hl.bp_mod.1 b hbm, fun q h1 h2 => ⟨?_, ?_⟩⟩
    · show s.heap.memStartBrk ≤ q
      omega
    · show q ≤ wsub s.heap.memBrk 1
      rw [wsub_of_le (by omega)]
      omega
  · refine (List.pairwise_map.1 I.nodup).imp_of_mem fun {x y} hx hy hne => ?_
    obtain ⟨b, hb, hbp, hbr⟩ := I.room x hx
    obtain ⟨c, hc, hcp, hcr⟩ := I.room y hy
    have := hl.apart (mem_allocs.1 hb).1 (mem_allocs.1 hc).1 fun e => hne (by rw [← hbp, e, hcp])
    omega
  · obtain ⟨b, hb, hbp, hroom⟩ := I.room x hx
    exact I.wellFormed.payload_free hb (by omega) (by omega)

/-- After `mm_init` on zeroed storage at address 8, two requests are live and the first has been
written to: their payloads are aligned, in the heap and apart. -/
theorem session_usable_two : ∃ h s, (memInit (fun _ => 0) 8).memResetBrk.mmInit = (0, h) ∧
    exec Session.step ⟨h, []⟩ [.malloc 100, .malloc 40, .write 24 7] = some s ∧
    s.live = [(136, 40), (24, 100)] ∧ s.heap.mem 24 = 7 ∧
    (∀ x ∈ s.live, x.1 ≠ 0 ∧ x.1 % 8 = 0 ∧
      ∀ q, x.1 ≤ q → q < x.1 + x.2 → s.heap.memHeapLo ≤ q ∧ q ≤ s.heap.memHeapHi) ∧
    s.live.Pairwise fun x y => x.1 + x.2 ≤ y.1 ∨ y.1 + y.2 ≤ x.1 := by
  have hstart : (memInit (fun _ => 0) 8).memStartBrk % 8 = 0 := rfl
  have haddr : (memInit (fun _ => 0) 8).memMaxAddr < 2 ^ 32 := by decide
  obtain ⟨h, hi⟩ := memInit_zero
  have he : (exec Session.step ⟨(memInit (fun _ => 0) 8).memResetBrk.mmInit.2, []⟩
      [.malloc 100, .malloc 40, .write 24 7]).map (fun s => (s.live, s.heap.mem 24)) =
        some ([(136, 40), (24, 100)], 7) := by decide +kernel
  rw [hi] at he
  obtain ⟨s, hs, hread⟩ := Option.map_eq_some_iff.1 he
  obtain ⟨hlive, hmem⟩ := Prod.mk.inj hread
  obtain ⟨hin, hapart, -⟩ := session_usable hstart haddr hi (Reachable.start.exec hs)
  exact ⟨h, s, hi, hs, hlive, hmem, hin, hapart⟩

/-- **Others' data.** In every state a session reaches, an allocation and a free return, and leave
the payload area, the header and the footer of every other live block as they are. -/
theorem session_untouched {h₀ h : Heap} (hstart : h₀.memStartBrk % 8 = 0)
    (haddr : h₀.memMaxAddr < 2 ^ 32) (hi : h₀.memResetBrk.mmInit = (0, h))
    (hr : Reachable Session.step ⟨h, []⟩ s) :
    (∀ size < 2 ^ 31, ∃ p h', s.heap.mmMalloc size = some (p, h') ∧
      ∀ q ∈ s.live.map Prod.fst, s.heap.SameBlock h' q) ∧
    ∀ bp ∈ s.live.map Prod.fst, ∀ q ∈ s.live.map Prod.fst, q ≠ bp →
      s.heap.SameBlock (s.heap.mmFree bp) q := by
  obtain ⟨bs, fl, I⟩ := hr.invariant (I := fun s => ∃ bs fl, s.Inv bs fl)
    (Session.inv_init hstart haddr hi) Session.Inv.step
  refine ⟨fun size hlt => ?_, fun bp hbp q hq hne => ?_⟩
  · obtain ⟨p, h', hm, hsame⟩ := I.wellFormed.mmMalloc_sameBlock hlt
    refine ⟨p, h', hm, fun q hq => ?_⟩
    obtain ⟨b, hb, rfl⟩ := I.mem_live hq
    exact hsame b hb
  · obtain ⟨b, hb, rfl⟩ := I.mem_live hbp
    obtain ⟨c, hc, rfl⟩ := I.mem_live hq
    exact I.wellFormed.mmFree_sameBlock hb c hc hne

/-- After `mm_init` on zeroed storage at address 8, two blocks of 100 bytes are live, and freeing
the first leaves the second alone. -/
theorem session_untouched_free : ∃ h s, (memInit (fun _ => 0) 8).memResetBrk.mmInit = (0, h) ∧
    exec Session.step ⟨h, []⟩ [.malloc 100, .malloc 100] = some s ∧
    s.live = [(136, 100), (24, 100)] ∧ s.heap.SameBlock (s.heap.mmFree 24) 136 := by
  obtain ⟨h, s, hi, hs, hlive⟩ := memInit_zero_two
  have hsame := (session_untouched rfl (by decide) hi (Reachable.start.exec hs)).2
  refine ⟨h, s, hi, hs, hlive, hsame 24 ?_ 136 ?_ (by decide)⟩
  all_goals
    rw [hlive]
    decide

end

end Malloc
