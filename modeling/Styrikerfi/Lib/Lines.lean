import Mathlib.Data.List.Basic

/-!
# Lines

A text over an arbitrary alphabet is cut after every terminator; what follows the last one is a line
of its own. A reader that takes pieces of bounded length takes at least as many pieces as there are
lines, and exactly as many only if its pieces are the lines (`pieces_eq`).
-/

namespace Lines

/-- The terminator stands at the end of a piece, if anywhere. -/
structure Piece {α : Type*} (nl : α) (l : List α) : Prop where
  ne : l ≠ []
  inner : nl ∉ l.dropLast

/-- The members up to the first that meets `p`, which is included. -/
def through {α : Type*} (p : α → Bool) : List α → List α
  | [] => []
  | a :: l => if p a then [a] else a :: through p l

/-- What is taken up to a terminator is a prefix. -/
theorem isPrefix_through {α : Type*} (p : α → Bool) (l : List α) : through p l <+: l := by
  induction l with
  | nil => exact List.prefix_refl []
  | cons a l ih =>
    rw [through]
    split
    · exact ⟨l, rfl⟩
    · exact (List.prefix_cons_inj a).2 ih

section
variable {α : Type*} [DecidableEq α] (nl : α)

/-- A text, cut after every terminator. -/
def lines : List α → List (List α)
  | [] => []
  | c :: s =>
    if c = nl then [c] :: lines s
    else
      match lines s with
      | [] => [[c]]
      | l :: ls => (c :: l) :: ls

variable {nl} {s u : List α} {ls ps : List (List α)}

/-- A terminator in front is a line of its own. -/
theorem lines_cons_nl (s : List α) : lines nl (nl :: s) = [nl] :: lines nl s := if_pos rfl

/-- A line that ends. -/
theorem lines_ended (hu : nl ∉ u) (s : List α) :
    lines nl (u ++ nl :: s) = (u ++ [nl]) :: lines nl s := by
  induction u with
  | nil => exact lines_cons_nl s
  | cons c u ih =>
    obtain ⟨hc, hu⟩ := not_or.1 (List.mem_cons.not.1 hu)
    rw [List.cons_append, lines, if_neg (Ne.symm hc), ih hu]
    rfl

/-- A piece that does not end a line is taken to the line that follows. -/
theorem lines_open (hne : u ≠ []) (hu : nl ∉ u) (s : List α) :
    lines nl (u ++ s) =
      match lines nl s with
      | [] => [u]
      | l :: ls => (u ++ l) :: ls := by
  induction u with
  | nil => exact absurd rfl hne
  | cons c u ih =>
    obtain ⟨hc, hu⟩ := not_or.1 (List.mem_cons.not.1 hu)
    rw [List.cons_append, lines, if_neg (Ne.symm hc)]
    rcases List.eq_nil_or_concat u with rfl | ⟨_, _, rfl⟩
    · rfl
    · rw [ih (by simp) hu]
      cases lines nl s <;> rfl

/-- A text without a terminator is one line. -/
theorem lines_last (hne : s ≠ []) (hs : nl ∉ s) : lines nl s = [s] := by
  have := lines_open hne hs []
  rwa [List.append_nil] at this

/-- A piece ends its line or holds no terminator. -/
theorem Piece.cases (h : Piece nl s) : (∃ u, s = u ++ [nl] ∧ nl ∉ u) ∨ nl ∉ s := by
  rcases List.eq_nil_or_concat s with rfl | ⟨u, c, rfl⟩
  · exact absurd rfl h.ne
  · rw [List.concat_eq_append] at h ⊢
    have hu := h.inner
    rw [List.dropLast_concat] at hu
    by_cases hc : nl = c
    · exact .inl ⟨u, by rw [hc], hu⟩
    · refine .inr fun hmem => ?_
      rcases List.mem_append.1 hmem with hmem | hmem
      · exact hu hmem
      · exact hc (List.mem_singleton.1 hmem)

/-- A text by its first line. -/
theorem lines_cases (nl : α) (s : List α) : s = [] ∨ (∃ u r, s = u ++ nl :: r ∧ nl ∉ u) ∨
    s ≠ [] ∧ nl ∉ s := by
  by_cases hs : nl ∈ s
  · obtain ⟨u, r, rfl, hu⟩ := List.eq_append_cons_of_mem hs
    exact .inr (.inl ⟨u, r, rfl, hu⟩)
  · rcases eq_or_ne s [] with h | h
    · exact .inl h
    · exact .inr (.inr ⟨h, hs⟩)

/-- The first lines of a text are the lines of what they make up. -/
theorem lines_flatten (h : ls <+: lines nl s) : lines nl ls.flatten = ls := by
  induction ls generalizing s with
  | nil => rfl
  | cons l ls ih =>
    rcases lines_cases nl s with rfl | ⟨u, r, rfl, hu⟩ | ⟨hne, hs⟩
    · exact absurd (List.prefix_nil.1 h) (by simp)
    · rw [lines_ended hu] at h
      obtain ⟨rfl, hls⟩ := List.cons_prefix_cons.1 h
      rw [List.flatten_cons, List.append_assoc, List.singleton_append, lines_ended hu, ih hls]
    · rw [lines_last hne hs] at h
      obtain ⟨rfl, hls⟩ := List.cons_prefix_cons.1 h
      rw [List.prefix_nil.1 hls, List.flatten_singleton, lines_last hne hs]

/-- **Pieces and lines.** A text cut into pieces has no more lines than pieces, and where it has as
many the pieces are the lines. -/
theorem pieces_eq (hp : ∀ p ∈ ps, Piece nl p) :
    (lines nl ps.flatten).length ≤ ps.length ∧
      (ps.length ≤ (lines nl ps.flatten).length → lines nl ps.flatten = ps) := by
  induction ps with
  | nil => exact ⟨Nat.le_refl _, fun _ => rfl⟩
  | cons p ps ih =>
    obtain ⟨h, hps⟩ := List.forall_mem_cons.1 hp
    obtain ⟨hle, heq⟩ := ih hps
    rw [List.flatten_cons]
    rcases h.cases with ⟨u, rfl, hu⟩ | hnl
    · rw [List.append_assoc, List.singleton_append, lines_ended hu]
      exact ⟨Nat.succ_le_succ hle, fun hlen => by rw [heq (Nat.le_of_succ_le_succ hlen)]⟩
    · rw [lines_open h.ne hnl]
      generalize hl : lines nl ps.flatten = ls at hle heq ⊢
      cases ls with
      | nil =>
        -- no line is left, so no piece is
        refine ⟨Nat.succ_le_succ (Nat.zero_le _), fun hlen => ?_⟩
        rw [List.eq_nil_of_length_eq_zero (Nat.le_zero.1 (Nat.le_of_succ_le_succ hlen))]
      | cons l ls =>
        refine ⟨Nat.le_succ_of_le hle, fun hlen => ?_⟩
        exact absurd (Nat.le_trans hlen hle) (Nat.not_succ_le_self _)

end

end Lines
