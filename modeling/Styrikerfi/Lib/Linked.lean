import Styrikerfi.Lib.Path

/-!
# Doubly linked lists threaded through a memory

A memory that holds link words is read here as two functions `next` and `prev` on nodes, with one
value `null` of the node type as the end marker. `Seg null next prev back p l`: from `p`, following
`next` visits exactly the nodes `l` in order and ends at `null`, and `prev` leads back, from the
first node to `back`. A whole list with head `p` is a segment whose `back` is `null` (`Linked`).

`Linked.push` puts a node in front of a list and `Linked.unlink` takes a member out at any
position, each stated on the link functions after the change; `Linked.congr` is the frame. The list
a memory holds is determined by its head (`Seg.unique`) and has no repeated node (`Linked.nodup`).
-/

namespace LinkedList

open Paths

section
variable {α : Type*} {null : α} {next prev next' prev' : α → α}

/-- From `p`, `next` visits `l` and ends at `null`; `prev` mirrors it and leads from `p` to
`back`. -/
def Seg (null : α) (next prev : α → α) : α → α → List α → Prop
  | _, p, [] => p = null
  | back, p, x :: l => p = x ∧ x ≠ null ∧ prev x = back ∧ Seg null next prev x (next x) l

/-- The memory holds the list `l` with head `p`. -/
def Linked (null : α) (next prev : α → α) (p : α) (l : List α) : Prop :=
  Seg null next prev null p l

/-- Forward, a segment is a walk. -/
theorem Seg.path {b p : α} {l : List α} (h : Seg null next prev b p l) :
    Path (· = null) next p l null := by
  induction l generalizing b p with
  | nil => exact ⟨h, h⟩
  | cons x l ih =>
    obtain ⟨rfl, hx, -, hl⟩ := h
    exact ⟨rfl, hx, ih hl⟩

/-- No node of a segment is null. -/
theorem Seg.ne_null {b p : α} {l : List α} (h : Seg null next prev b p l) :
    ∀ x ∈ l, x ≠ null := h.path.not_stop

/-- A segment reads the links of its own nodes only. -/
theorem Seg.congr {b p : α} {l : List α} (h : Seg null next prev b p l)
    (hn : ∀ x ∈ l, next' x = next x) (hp : ∀ x ∈ l, prev' x = prev x) :
    Seg null next' prev' b p l := by
  induction l generalizing b p with
  | nil => exact h
  | cons y l ih =>
    obtain ⟨hpy, hy, hb, hl⟩ := h
    refine ⟨hpy, hy, by rw [hp y List.mem_cons_self, hb], ?_⟩
    rw [hn y List.mem_cons_self]
    exact ih hl (fun x hx => hn x (List.mem_cons_of_mem _ hx))
      (fun x hx => hp x (List.mem_cons_of_mem _ hx))

/-- The visited nodes are determined by where the walk starts. -/
theorem Seg.unique {b b' p : α} {l l' : List α} (h : Seg null next prev b p l)
    (h' : Seg null next prev b' p l') : l = l' := (h.path.unique h'.path).1

/-- A segment from a node in the middle is what follows that node. -/
theorem Seg.drop {b p x : α} {l₁ l₂ : List α} (h : Seg null next prev b p (l₁ ++ x :: l₂)) :
    Seg null next prev x (next x) l₂ := by
  induction l₁ generalizing b p with
  | nil => exact h.2.2.2
  | cons y l₁ ih => exact ih h.2.2.2

/-- The nodes of a segment are distinct. -/
theorem Seg.nodup {b p : α} {l : List α} (h : Seg null next prev b p l) : l.Nodup := h.path.nodup

/-- The nodes of a list are distinct. -/
theorem Linked.nodup {p : α} {l : List α} (h : Linked null next prev p l) : l.Nodup := Seg.nodup h

/-- No node of a list is null. -/
theorem Linked.ne_null {p : α} {l : List α} (h : Linked null next prev p l) :
    ∀ x ∈ l, x ≠ null := Seg.ne_null h

/-- The head is `null` exactly for the empty list. -/
theorem Linked.head_eq_null {p : α} {l : List α} (h : Linked null next prev p l) :
    p = null ↔ l = [] := by
  cases l with
  | nil => exact iff_of_true h rfl
  | cons x l => exact iff_of_false (h.1 ▸ h.2.1) (by simp)

/-- A list depends on the links of its nodes alone. -/
theorem Linked.congr {p : α} {l : List α} (h : Linked null next prev p l)
    (hn : ∀ x ∈ l, next' x = next x) (hp : ∀ x ∈ l, prev' x = prev x) :
    Linked null next' prev' p l := Seg.congr h hn hp

/-- The link words of a member: its successor is `null` or a member, its predecessor is `back` or a
member. -/
theorem Seg.next_mem {b p : α} {l : List α} (h : Seg null next prev b p l) :
    ∀ x ∈ l, next x = null ∨ next x ∈ l := by
  induction l generalizing b p with
  | nil => simp
  | cons y l ih =>
    obtain ⟨-, -, -, hl⟩ := h
    intro x hx
    rcases List.mem_cons.1 hx with rfl | hx
    · cases l with
      | nil => exact .inl hl
      | cons z l => exact .inr (by rw [hl.1]; simp)
    · exact (ih hl x hx).imp_right (List.mem_cons_of_mem _)

/-- A backward link of a segment leads to its beginning or to a node. -/
theorem Seg.prev_mem {b p : α} {l : List α} (h : Seg null next prev b p l) :
    ∀ x ∈ l, prev x = b ∨ prev x ∈ l := by
  induction l generalizing b p with
  | nil => simp
  | cons y l ih =>
    obtain ⟨-, -, hb, hl⟩ := h
    intro x hx
    rcases List.mem_cons.1 hx with rfl | hx
    · exact .inl hb
    · exact .inr ((ih hl x hx).elim (fun e => e ▸ List.mem_cons_self) (List.mem_cons_of_mem _))

/-- A forward link of a list leads to a node, or is null. -/
theorem Linked.next_mem {p x : α} {l : List α} (h : Linked null next prev p l) (hx : x ∈ l) :
    next x = null ∨ next x ∈ l := Seg.next_mem h x hx

/-- A backward link of a list leads to a node, or is null. -/
theorem Linked.prev_mem {p x : α} {l : List α} (h : Linked null next prev p l) (hx : x ∈ l) :
    prev x = null ∨ prev x ∈ l := Seg.prev_mem h x hx

/-- A node of a segment is its head, or is what its predecessor, a member, points to. -/
theorem Seg.next_prev {b p : α} {l : List α} (h : Seg null next prev b p l) :
    ∀ y ∈ l, (p = y ∧ prev y = b) ∨ (prev y ∈ l ∧ next (prev y) = y) := by
  induction l generalizing b p with
  | nil => simp
  | cons x l ih =>
    obtain ⟨rfl, -, hpb, hl⟩ := h
    intro y hy
    rcases List.mem_cons.1 hy with rfl | hy
    · exact .inl ⟨rfl, hpb⟩
    · rcases ih hl y hy with ⟨hn, hpy⟩ | ⟨hm, hn⟩
      · exact .inr ⟨by rw [hpy]; exact List.mem_cons_self, by rw [hpy, hn]⟩
      · exact .inr ⟨List.mem_cons_of_mem _ hm, hn⟩

/-- The two directions of a list mirror each other: one member points forward to another exactly
when that one points back to it. -/
theorem Linked.next_eq_iff {p x y : α} {l : List α} (h : Linked null next prev p l) (hx : x ∈ l)
    (hy : y ∈ l) : next x = y ↔ prev y = x := by
  constructor
  · rintro rfl
    obtain ⟨l₁, l₂, rfl⟩ := List.append_of_mem hx
    have hs := Seg.drop h
    cases l₂ with
    | nil => exact absurd hs (h.ne_null _ hy)
    | cons z l₂ => rw [hs.1, hs.2.2.1]
  · rintro rfl
    rcases Seg.next_prev h y hy with ⟨-, hb⟩ | ⟨-, hn⟩
    · exact absurd hb (h.ne_null _ hx)
    · exact hn

/-- The first node of a list is the one without a predecessor. -/
theorem Linked.prev_eq_null_iff {p x : α} {l : List α} (h : Linked null next prev p l)
    (hx : x ∈ l) : prev x = null ↔ p = x := by
  constructor
  · intro hb
    rcases Seg.next_prev h x hx with ⟨hp, -⟩ | ⟨hm, -⟩
    · exact hp
    · exact absurd hb (h.ne_null _ hm)
  · rintro rfl
    cases l with
    | nil => cases hx
    | cons y l => rw [h.1, h.2.2.1]

/-- No member points to itself. -/
theorem Linked.next_ne {p x : α} {l : List α} (h : Linked null next prev p l) (hx : x ∈ l) :
    next x ≠ x := by
  obtain ⟨l₁, l₂, rfl⟩ := List.append_of_mem hx
  have hs := Seg.drop h
  intro e
  cases l₂ with
  | nil => exact h.ne_null x hx (e.symm.trans hs)
  | cons z l₂ =>
    have hnd := (List.nodup_append.1 h.nodup).2.1
    exact (List.nodup_cons.1 hnd).1 (by rw [← e, hs.1]; exact List.mem_cons_self)

/-- The nodes after `y` do not point forward to it, and none but the first points back to it. -/
theorem Seg.links_ne {y : α} {l : List α} (hy : y ≠ null) (hyl : y ∉ l)
    (h : Seg null next prev y (next y) l) :
    (∀ x ∈ l, next x ≠ y) ∧ ∀ x ∈ l.tail, prev x ≠ y := by
  refine ⟨fun x hx e => ?_, fun x hx e => ?_⟩
  · rcases h.next_mem x hx with hnx | hnx
    · exact hy (e ▸ hnx)
    · exact hyl (e ▸ hnx)
  · cases l with
    | nil => cases hx
    | cons z l =>
      rcases Seg.prev_mem h.2.2.2 x hx with hpx | hpx
      · exact hyl (by rw [← e, hpx]; exact List.mem_cons_self)
      · exact hyl (e ▸ List.mem_cons_of_mem _ hpx)

/-- A node in front of a list: it points to the old head, the old head points back to it, and no
other link of the list changes. -/
theorem Linked.push {p y : α} {l : List α} (h : Linked null next prev p l) (hy : y ≠ null)
    (hyn : next' y = p) (hyp : prev' y = null) (hn : ∀ x ∈ l, next' x = next x)
    (hp : ∀ x ∈ l, x ≠ p → prev' x = prev x) (hh : l ≠ [] → prev' p = y) :
    Linked null next' prev' y (y :: l) := by
  refine ⟨rfl, hy, hyp, ?_⟩
  rw [hyn]
  cases l with
  | nil => exact h
  | cons x l =>
    have hnd := h.nodup
    obtain ⟨rfl, hx, -, hl⟩ := h
    refine ⟨rfl, hx, hh (by simp), ?_⟩
    rw [hn p List.mem_cons_self]
    refine Seg.congr hl (fun z hz => hn z (List.mem_cons_of_mem _ hz)) fun z hz => ?_
    exact hp z (List.mem_cons_of_mem _ hz) fun e => (List.nodup_cons.1 hnd).1 (e ▸ hz)

end

section
variable {α : Type*} [DecidableEq α] {null : α} {next prev next' prev' : α → α}

/-- A node leaves a segment: every other node that pointed to it, forward or back, is given its
link, and so is whatever pointed to the head. -/
theorem Seg.unlink {b p y : α} {l₁ l₂ : List α} (h : Seg null next prev b p (l₁ ++ y :: l₂))
    (hb : b ≠ y) (hn : ∀ x ∈ l₁ ++ l₂, next' x = if next x = y then next y else next x)
    (hp : ∀ x ∈ l₁ ++ l₂, prev' x = if prev x = y then prev y else prev x) :
    Seg null next' prev' b (if p = y then next y else p) (l₁ ++ l₂) := by
  induction l₁ generalizing b p with
  | nil =>
    have hyl := (List.nodup_cons.1 h.nodup).1
    obtain ⟨rfl, hy, hpb, hl⟩ := h
    obtain ⟨hnl, hpl⟩ := hl.links_ne hy hyl
    rw [if_pos rfl, List.nil_append]
    rw [List.nil_append] at hn hp
    cases l₂ with
    | nil => exact hl
    | cons z l₂ =>
      -- the node after `y` takes over its back link
      obtain ⟨hz, hzn, hzp, hl⟩ := hl
      refine ⟨hz, hzn, ?_, ?_⟩
      · rw [hp z List.mem_cons_self, if_pos hzp, hpb]
      · rw [hn z List.mem_cons_self, if_neg (hnl z List.mem_cons_self)]
        refine hl.congr (fun x hx => ?_) fun x hx => ?_
        · rw [hn x (List.mem_cons_of_mem _ hx), if_neg (hnl x (List.mem_cons_of_mem _ hx))]
        · rw [hp x (List.mem_cons_of_mem _ hx), if_neg (hpl x hx)]
  | cons x l₁ ih =>
    have hnd := h.nodup
    obtain ⟨rfl, hpn, hpb, hl⟩ := h
    have hpy : p ≠ y := fun e => (List.nodup_cons.1 hnd).1 (by simp [e])
    rw [if_neg hpy]
    refine ⟨rfl, hpn, ?_, ?_⟩
    · rw [hp p (by simp), if_neg (by rwa [hpb]), hpb]
    · rw [hn p (by simp)]
      exact ih hl hpy (fun z hz => hn z (by simp [hz])) fun z hz => hp z (by simp [hz])

/-- A member leaves a list, at whatever position. -/
theorem Linked.unlink {p y : α} {l : List α} (h : Linked null next prev p l) (hy : y ∈ l)
    (hn : ∀ x ∈ l, x ≠ y → next' x = if next x = y then next y else next x)
    (hp : ∀ x ∈ l, x ≠ y → prev' x = if prev x = y then prev y else prev x) :
    Linked null next' prev' (if p = y then next y else p) (l.erase y) := by
  have hnd := h.nodup
  have hne := h.ne_null y hy
  obtain ⟨l₁, l₂, rfl⟩ := List.append_of_mem hy
  have hy₁ : y ∉ l₁ ++ l₂ := (List.nodup_middle.1 hnd).notMem
  rw [List.erase_append_right _ fun hm => hy₁ (List.mem_append_left _ hm), List.erase_cons_head]
  have hmem : ∀ x ∈ l₁ ++ l₂, x ∈ l₁ ++ y :: l₂ ∧ x ≠ y := fun x hx =>
    ⟨by simp only [List.mem_append, List.mem_cons] at hx ⊢; tauto, fun e => hy₁ (e ▸ hx)⟩
  exact Seg.unlink h hne.symm (fun x hx => hn x (hmem x hx).1 (hmem x hx).2)
    fun x hx => hp x (hmem x hx).1 (hmem x hx).2

end

end LinkedList
