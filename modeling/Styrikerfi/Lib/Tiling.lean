import Mathlib.Data.List.Basic

/-!
# Lists of spans that tile an interval

A span has a start and a size, both natural numbers; a list of spans tiles `[a, e)` when each span
starts where the one before it ends, the first at `a`, and the last one ends at `e` (`Tiles`). The
position of a member follows from a split of the list at it (`Tiles.split`). Where spans are not
empty, two members with the same start are one (`Tiles.start_inj`), and spans that are known from
where they start tile an interval in one way only (`Tiles.unique`).
-/

namespace Tiling

section
variable {α : Type*} {start size : α → Nat}

/-- Each span of the list starts where the one before it ends, from `a` to `e`. -/
def Tiles (start size : α → Nat) : Nat → List α → Nat → Prop
  | a, [], e => a = e
  | a, x :: l, e => start x = a ∧ Tiles start size (a + size x) l e

/-- Two lists tile an interval that is cut in two. -/
theorem Tiles.append {a e : Nat} {l₁ l₂ : List α} :
    Tiles start size a (l₁ ++ l₂) e ↔
      ∃ m, Tiles start size a l₁ m ∧ Tiles start size m l₂ e := by
  induction l₁ generalizing a with
  | nil =>
    constructor
    · exact fun h => ⟨a, rfl, h⟩
    · rintro ⟨m, rfl, h⟩; exact h
  | cons x l₁ ih =>
    simp only [List.cons_append, Tiles, ih]
    constructor
    · rintro ⟨hx, m, h₁, h₂⟩; exact ⟨m, ⟨hx, h₁⟩, h₂⟩
    · rintro ⟨m, ⟨hx, h₁⟩, h₂⟩; exact ⟨hx, m, h₁, h₂⟩

/-- An interval that is tiled ends no earlier than it begins. -/
theorem Tiles.le {a e : Nat} {l : List α} (h : Tiles start size a l e) : a ≤ e := by
  induction l generalizing a with
  | nil => exact Nat.le_of_eq h
  | cons x l ih => have := ih h.2; omega

/-- Non-empty spans are not more than the interval has points. -/
theorem Tiles.length_le {a e : Nat} {l : List α} (h : Tiles start size a l e)
    (hpos : ∀ z ∈ l, 0 < size z) : a + l.length ≤ e := by
  induction l generalizing a with
  | nil => exact Nat.le_of_eq h
  | cons x l ih =>
    have := ih h.2 fun z hz => hpos z (List.mem_cons_of_mem _ hz)
    have := hpos x List.mem_cons_self
    rw [List.length_cons]
    omega

/-- A member lies in the tiled interval. -/
theorem Tiles.bounds {a e : Nat} {l : List α} (h : Tiles start size a l e) :
    ∀ x ∈ l, a ≤ start x ∧ start x + size x ≤ e := by
  induction l generalizing a with
  | nil => simp
  | cons y l ih =>
    intro x hx
    rcases List.mem_cons.1 hx with rfl | hx
    · have := h.1; have := h.2.le; omega
    · have := ih h.2 x hx; omega

/-- A point of the tiled interval lies in a member. -/
theorem Tiles.exists_mem {a e x : Nat} {l : List α} (h : Tiles start size a l e) (ha : a ≤ x)
    (he : x < e) : ∃ y ∈ l, start y ≤ x ∧ x < start y + size y := by
  induction l generalizing a with
  | nil =>
    have : a = e := h
    omega
  | cons y l ih =>
    obtain ⟨hy, hl⟩ := h
    by_cases hx : x < a + size y
    · exact ⟨y, List.mem_cons_self, by omega, by omega⟩
    · obtain ⟨z, hz, hin⟩ := ih hl (by omega)
      exact ⟨z, List.mem_cons_of_mem _ hz, hin⟩

/-- The position of a member relative to the members before and after it. -/
theorem Tiles.split {a e : Nat} {x : α} {l₁ l₂ : List α}
    (h : Tiles start size a (l₁ ++ x :: l₂) e) :
    Tiles start size a l₁ (start x) ∧ Tiles start size (start x + size x) l₂ e := by
  obtain ⟨m, h₁, rfl, h₂⟩ := Tiles.append.1 h
  exact ⟨h₁, h₂⟩

/-- The members before `x` end at or below its start, those after it start at or above its end. -/
theorem Tiles.apart {a e : Nat} {x : α} {l₁ l₂ : List α}
    (h : Tiles start size a (l₁ ++ x :: l₂) e) :
    ∀ y ∈ l₁ ++ l₂, start y + size y ≤ start x ∨ start x + size x ≤ start y := by
  intro y hy
  obtain ⟨h₁, h₂⟩ := h.split
  rcases List.mem_append.1 hy with hy | hy
  · exact .inl (h₁.bounds y hy).2
  · exact .inr (h₂.bounds y hy).1

/-- Two members at different positions do not overlap. -/
theorem Tiles.apart_of_ne {a e : Nat} {x y : α} {l : List α} (h : Tiles start size a l e)
    (hx : x ∈ l) (hy : y ∈ l) (hne : x ≠ y) :
    start y + size y ≤ start x ∨ start x + size x ≤ start y := by
  obtain ⟨l₁, l₂, rfl⟩ := List.append_of_mem hx
  refine h.apart y ?_
  simp only [List.mem_append, List.mem_cons] at hy ⊢
  rcases hy with hy | hy | hy
  · exact .inl hy
  · exact absurd hy.symm hne
  · exact .inr hy

/-- Among non-empty spans, a member is determined by its start. -/
theorem Tiles.start_inj {a e : Nat} {x y : α} {l : List α} (h : Tiles start size a l e)
    (hpos : ∀ z ∈ l, 0 < size z) (hx : x ∈ l) (hy : y ∈ l) (he : start x = start y) : x = y := by
  by_contra hne
  have := hpos x hx; have := hpos y hy
  have := h.apart_of_ne hx hy hne
  omega

/-- Non-empty spans of a tiling start at different places. -/
theorem Tiles.nodup {a e : Nat} {l : List α} (h : Tiles start size a l e)
    (hpos : ∀ z ∈ l, 0 < size z) : (l.map start).Nodup := by
  induction l generalizing a with
  | nil => exact .nil
  | cons x l ih =>
    rw [List.map_cons, List.nodup_cons]
    refine ⟨fun hm => ?_, ih h.2 fun z hz => hpos z (List.mem_cons_of_mem _ hz)⟩
    obtain ⟨y, hy, he⟩ := List.mem_map.1 hm
    have := h.1; have := (h.2.bounds y hy).1; have := hpos x List.mem_cons_self
    omega

/-- Two tilings of an interval are one where a span is determined by its start. -/
theorem Tiles.unique {a e : Nat} {l l' : List α} (h : Tiles start size a l e)
    (h' : Tiles start size a l' e) (hpos : ∀ z ∈ l, 0 < size z) (hpos' : ∀ z ∈ l', 0 < size z)
    (heq : ∀ x ∈ l, ∀ y ∈ l', start x = start y → x = y) : l = l' := by
  induction l generalizing a l' with
  | nil =>
    cases l' with
    | nil => rfl
    | cons y l' =>
      have : a = e := h
      have := hpos' y List.mem_cons_self; have := h'.2.le
      omega
  | cons x l ih =>
    cases l' with
    | nil =>
      have : a = e := h'
      have := hpos x List.mem_cons_self; have := h.2.le
      omega
    | cons y l' =>
      obtain rfl := heq x List.mem_cons_self y List.mem_cons_self (h.1.trans h'.1.symm)
      rw [ih h.2 h'.2 (fun z hz => hpos z (List.mem_cons_of_mem _ hz))
        (fun z hz => hpos' z (List.mem_cons_of_mem _ hz)) fun z hz w hw =>
          heq z (List.mem_cons_of_mem _ hz) w (List.mem_cons_of_mem _ hw)]

end

end Tiling
