import Mathlib.Data.List.Nodup
import Mathlib.Data.List.Perm.Subperm

/-!
# Walks

A loop that goes from a node to the next one until a node tells it to stop visits a list of nodes:
`Path stop next p l e` says that from `p` it visits `l` and stops at `e`. The nodes and the end are
determined by where it starts (`Path.unique`), and a loop that ends visits no node twice
(`Path.nodup`). So a loop over numbers below `n` ends after fewer than `n` steps or never
(`Path.length_lt`).
-/

namespace Paths

variable {α : Type*} {stop : α → Prop} {next : α → α} {p e e' x : α} {l l' l₁ l₂ : List α}

/-- From `p`, `next` leads through `l` to `e`, the first node that stops. -/
def Path (stop : α → Prop) (next : α → α) : α → List α → α → Prop
  | p, [], e => p = e ∧ stop p
  | p, x :: l, e => p = x ∧ ¬ stop p ∧ Path stop next (next p) l e

/-- From one node there is one path to a stop. -/
theorem Path.unique (h : Path stop next p l e) (h' : Path stop next p l' e') :
    l = l' ∧ e = e' := by
  induction l generalizing p l' with
  | nil =>
    obtain ⟨rfl, hs⟩ := h
    cases l' with
    | nil => exact ⟨rfl, h'.1⟩
    | cons y l' => exact absurd hs h'.2.1
  | cons x l ih =>
    obtain ⟨rfl, hn, hl⟩ := h
    cases l' with
    | nil => exact absurd h'.2 hn
    | cons y l' =>
      obtain ⟨rfl, -, hl'⟩ := h'
      obtain ⟨rfl, he⟩ := ih hl hl'
      exact ⟨rfl, he⟩

/-- A path ends at a stop. -/
theorem Path.stop_end (h : Path stop next p l e) : stop e := by
  induction l generalizing p with
  | nil => exact h.1 ▸ h.2
  | cons x l ih => exact ih h.2.2

/-- A path does not pass through a stop. -/
theorem Path.not_stop (h : Path stop next p l e) : ∀ x ∈ l, ¬ stop x := by
  induction l generalizing p with
  | nil => simp
  | cons y l ih =>
    intro x hx
    rcases List.mem_cons.1 hx with rfl | hx
    · exact h.1 ▸ h.2.1
    · exact ih h.2.2 x hx

/-- A walk from a node in the middle is what follows before it. -/
theorem Path.drop (h : Path stop next p (l₁ ++ x :: l₂) e) : Path stop next x (x :: l₂) e := by
  induction l₁ generalizing p with
  | nil =>
    obtain ⟨rfl, hn, hl⟩ := h
    exact ⟨rfl, hn, hl⟩
  | cons y l₁ ih => exact ih h.2.2

/-- A path passes through no node twice. -/
theorem Path.nodup (h : Path stop next p l e) : l.Nodup := by
  induction l generalizing p with
  | nil => exact .nil
  | cons x l ih =>
    refine List.nodup_cons.2 ⟨fun hx => ?_, ih h.2.2⟩
    -- a second visit to `x` would be followed by the same walk, a proper part of itself
    obtain ⟨l₁, l₂, rfl⟩ := List.append_of_mem hx
    obtain ⟨rfl, -, hl⟩ := h
    have := congrArg List.length (Path.unique hl (Path.drop hl).2.2).1
    simp only [List.length_append, List.length_cons] at this
    omega

/-- Every node met is the first or comes after a node visited. -/
theorem Path.start_or_next (h : Path stop next p l e) :
    ∀ x ∈ e :: l, x = p ∨ ∃ y ∈ l, next y = x := by
  induction l generalizing p with
  | nil => simpa using h.1.symm
  | cons z l ih =>
    obtain ⟨rfl, -, hl⟩ := h
    intro x hx
    have hx : x ∈ e :: l ∨ x = p := by
      simp only [List.mem_cons] at hx ⊢
      tauto
    rcases hx with hx | rfl
    · rcases ih hl x hx with rfl | ⟨y, hy, hyx⟩
      · exact .inr ⟨p, List.mem_cons_self, rfl⟩
      · exact .inr ⟨y, List.mem_cons_of_mem _ hy, hyx⟩
    · exact .inl rfl

/-- A walk from a number below `n`, by steps below `n`, stays below `n`. -/
theorem Path.lt {stop : Nat → Prop} {next : Nat → Nat} {p e n : Nat} {l : List Nat}
    (h : Path stop next p l e) (hp : p < n) (hnext : ∀ x, next x < n) : ∀ x ∈ e :: l, x < n := by
  intro x hx
  rcases h.start_or_next x hx with rfl | ⟨y, -, rfl⟩
  · exact hp
  · exact hnext y

/-- A walk over numbers below `n` that ends visits fewer than `n` of them. -/
theorem Path.length_lt {stop : Nat → Prop} {next : Nat → Nat} {p e n : Nat} {l : List Nat}
    (h : Path stop next p l e) (hlt : ∀ x ∈ e :: l, x < n) : l.length < n := by
  have hnd : (e :: l).Nodup := List.nodup_cons.2 ⟨fun he => h.not_stop e he h.stop_end, h.nodup⟩
  have := (hnd.subperm fun x hx => List.mem_range.2 (hlt x hx)).length_le
  rwa [List.length_cons, List.length_range] at this

end Paths
