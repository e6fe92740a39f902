import Mathlib.Data.List.TakeWhile

/-!
# Words with quotes

A tokenizer over an arbitrary alphabet with a separator and a quote. A bare word runs up to the next
separator or the end of the text; a quoted word runs from a quote to the next one and may hold
separators; a quote that is not closed swallows the rest of the text. `tokens` reads one symbol
after the other.

A scanner that searches for the end of a word at once sees a text by its first word (`split`). What
is written with separators between the words reads back (`words_render`), and a separator at the end
changes nothing (`words_concat_sep`).
-/

namespace Words

/-- A list up to the first symbol that fails. -/
theorem exists_span {α : Type*} (p : α → Bool) (l : List α) :
    ∃ u s, l = u ++ s ∧ (∀ c ∈ u, p c = true) ∧ ∀ c ∈ s.head?, p c = false := by
  refine ⟨l.takeWhile p, l.dropWhile p, List.takeWhile_append_dropWhile.symm,
    fun c hc => List.mem_takeWhile_imp hc, fun c hc => ?_⟩
  have := List.head?_dropWhile_not p l
  rw [Option.mem_def.1 hc] at this
  simpa using this

/-- Where the tokenizer is, with what it has read of a word. -/
inductive Mode (α : Type*) where
  | between
  | bare (w : List α)
  | quoted (w : List α)

section
variable {α : Type*} [DecidableEq α] (sep quote : α)

/-- The words that end in a text. -/
def tokens : Mode α → List α → List (List α)
  | .between, [] => []
  | .bare w, [] => [w]
  | .quoted _, [] => []
  | .between, c :: s =>
    if c = sep then tokens .between s
    else if c = quote then tokens (.quoted []) s
    else tokens (.bare [c]) s
  | .bare w, c :: s => if c = sep then w :: tokens .between s else tokens (.bare (w ++ [c])) s
  | .quoted w, c :: s =>
    if c = quote then w :: tokens .between s else tokens (.quoted (w ++ [c])) s

/-- The words of a text. -/
def words (s : List α) : List (List α) := tokens sep quote .between s

/-- A text by its first word. -/
inductive Split : List α → List (List α) → Prop
  | blank {gap : List α} (hgap : ∀ c ∈ gap, c = sep) : Split gap []
  | bare {gap u s : List α} (hgap : ∀ c ∈ gap, c = sep) (hne : u ≠ []) (hu : sep ∉ u)
      (hq : u.head? ≠ some quote) (hs : ∀ c ∈ s.head?, c = sep) :
      Split (gap ++ (u ++ s)) (u :: words sep quote s)
  | quoted {gap u s : List α} (hgap : ∀ c ∈ gap, c = sep) (hu : quote ∉ u) :
      Split (gap ++ quote :: (u ++ quote :: s)) (u :: words sep quote s)
  | unclosed {gap u : List α} (hgap : ∀ c ∈ gap, c = sep) (hu : quote ∉ u) :
      Split (gap ++ quote :: u) []

end

section
variable {α : Type*} [DecidableEq α] {sep quote : α} {w u s gap : List α}

/-! ## One word -/

/-- A character between words. -/
theorem tokens_between_cons (c : α) (s : List α) : tokens sep quote .between (c :: s) =
    if c = sep then tokens sep quote .between s
    else if c = quote then tokens sep quote (.quoted []) s
    else tokens sep quote (.bare [c]) s := rfl

/-- A character after those of a bare word. -/
theorem tokens_bare_cons (w : List α) (c : α) (s : List α) : tokens sep quote (.bare w) (c :: s) =
    if c = sep then w :: tokens sep quote .between s
    else tokens sep quote (.bare (w ++ [c])) s := rfl

/-- A character after those of a quoted word. -/
theorem tokens_quoted_cons (w : List α) (c : α) (s : List α) :
    tokens sep quote (.quoted w) (c :: s) =
      if c = quote then w :: tokens sep quote .between s
      else tokens sep quote (.quoted (w ++ [c])) s := rfl

@[simp] theorem words_nil : words sep quote [] = [] := rfl

@[simp] theorem words_sep_cons (s : List α) : words sep quote (sep :: s) = words sep quote s :=
  if_pos rfl

/-- Separators in front make no word. -/
theorem words_gap (hgap : ∀ c ∈ gap, c = sep) (s : List α) :
    words sep quote (gap ++ s) = words sep quote s := by
  induction gap with
  | nil => rfl
  | cons c gap ih =>
    obtain ⟨rfl, hgap⟩ := List.forall_mem_cons.1 hgap
    rw [List.cons_append, words_sep_cons, ih hgap]

/-- The characters of a bare word are collected. -/
theorem tokens_bare_append (hu : sep ∉ u) (s : List α) :
    tokens sep quote (.bare w) (u ++ s) = tokens sep quote (.bare (w ++ u)) s := by
  induction u generalizing w with
  | nil => rw [List.append_nil, List.nil_append]
  | cons c u ih =>
    obtain ⟨hc, hu⟩ := not_or.1 (List.mem_cons.not.1 hu)
    rw [List.cons_append, tokens_bare_cons, if_neg (Ne.symm hc), ih hu, List.append_assoc,
      List.singleton_append]

/-- A bare word ends at a separator, or at the end. -/
theorem tokens_bare (hu : sep ∉ u) (hs : ∀ c ∈ s.head?, c = sep) :
    tokens sep quote (.bare w) (u ++ s) = (w ++ u) :: words sep quote s := by
  rw [tokens_bare_append hu]
  cases s with
  | nil => rfl
  | cons c s =>
    obtain rfl := hs c rfl
    rw [tokens_bare_cons, if_pos rfl, words_sep_cons]
    rfl

/-- A bare word up to a separator or the end. -/
theorem words_bare (hne : u ≠ []) (hu : sep ∉ u) (hq : u.head? ≠ some quote)
    (hs : ∀ c ∈ s.head?, c = sep) : words sep quote (u ++ s) = u :: words sep quote s := by
  cases u with
  | nil => exact absurd rfl hne
  | cons c u =>
    obtain ⟨hc, hu⟩ := not_or.1 (List.mem_cons.not.1 hu)
    have hcq : c ≠ quote := fun he => hq (congrArg some he)
    show tokens sep quote .between (c :: (u ++ s)) = _
    rw [tokens_between_cons, if_neg (Ne.symm hc), if_neg hcq, tokens_bare hu hs]
    rfl

/-- The characters of a quoted word are collected. -/
theorem tokens_quoted_append (hu : quote ∉ u) (s : List α) :
    tokens sep quote (.quoted w) (u ++ s) = tokens sep quote (.quoted (w ++ u)) s := by
  induction u generalizing w with
  | nil => rw [List.append_nil, List.nil_append]
  | cons c u ih =>
    obtain ⟨hc, hu⟩ := not_or.1 (List.mem_cons.not.1 hu)
    rw [List.cons_append, tokens_quoted_cons, if_neg (Ne.symm hc), ih hu, List.append_assoc,
      List.singleton_append]

/-- A quoted word ends at the next quote. -/
theorem tokens_quoted (hu : quote ∉ u) (s : List α) :
    tokens sep quote (.quoted w) (u ++ quote :: s) = (w ++ u) :: words sep quote s := by
  rw [tokens_quoted_append hu, tokens_quoted_cons, if_pos rfl]
  rfl

/-- A quoted word without an end is no word. -/
theorem tokens_unclosed (hu : quote ∉ u) : tokens sep quote (.quoted w) u = [] := by
  rw [← List.append_nil u, tokens_quoted_append hu]
  rfl

/-- A quote begins a quoted word. -/
theorem words_quote_cons (hsep : quote ≠ sep) (s : List α) :
    words sep quote (quote :: s) = tokens sep quote (.quoted []) s := by
  show tokens sep quote .between (quote :: s) = _
  rw [tokens_between_cons, if_neg hsep, if_pos rfl]

/-- A quoted word, whatever follows it. -/
theorem words_quoted (hsep : quote ≠ sep) (hu : quote ∉ u) (s : List α) :
    words sep quote (quote :: (u ++ quote :: s)) = u :: words sep quote s := by
  rw [words_quote_cons hsep, tokens_quoted hu]
  rfl

/-! ## The first word -/

/-- Every text is seen by its first word. -/
theorem split (hsep : quote ≠ sep) (s : List α) : Split sep quote s (words sep quote s) := by
  obtain ⟨gap, s, rfl, hgap, hs⟩ := exists_span (fun c => decide (c = sep)) s
  have hgap' : ∀ c ∈ gap, c = sep := fun c hc => by simpa using hgap c hc
  rw [words_gap hgap']
  cases s with
  | nil =>
    rw [List.append_nil]
    exact .blank hgap'
  | cons c s =>
    have hc : c ≠ sep := by simpa using hs c rfl
    by_cases hq : c = quote
    · subst hq
      obtain ⟨u, s, rfl, hu, hs⟩ := exists_span (fun a => decide (a ≠ c)) s
      have hu' : c ∉ u := fun hmem => by simpa using hu c hmem
      cases s with
      | nil =>
        rw [List.append_nil, words_quote_cons hsep, tokens_unclosed hu']
        exact .unclosed hgap' hu'
      | cons a s =>
        obtain rfl : a = c := by simpa using hs a rfl
        rw [words_quoted hsep hu']
        exact .quoted hgap' hu'
    · obtain ⟨u, s', hus, hu, hs'⟩ := exists_span (fun a => decide (a ≠ sep)) (c :: s)
      have hu' : sep ∉ u := fun hmem => by simpa using hu sep hmem
      have hs'' : ∀ a ∈ s'.head?, a = sep := fun a ha => by simpa using hs' a ha
      have hhead : u.head? = some c := by
        cases u with
        | nil =>
          rw [List.nil_append] at hus
          exact absurd (hs'' c (by rw [← hus]; rfl)) hc
        | cons a u => rw [(List.cons.inj hus).1]; rfl
      have hne : u ≠ [] := by rintro rfl; cases hhead
      have hnq : u.head? ≠ some quote := by rw [hhead]; simpa using hq
      rw [hus, words_bare hne hu' hnq hs'']
      exact .bare hgap' hne hu' hnq hs''

/-! ## Trailing separators, and rendering -/

/-- A separator at the end changes nothing, in any mode. -/
theorem tokens_concat_sep (hsep : quote ≠ sep) (m : Mode α) (s : List α) :
    tokens sep quote m (s ++ [sep]) = tokens sep quote m s := by
  induction s generalizing m with
  | nil =>
    cases m with
    | between => exact words_sep_cons []
    | bare w => rw [List.nil_append, tokens_bare_cons, if_pos rfl]; rfl
    | quoted w => rw [List.nil_append, tokens_quoted_cons, if_neg (Ne.symm hsep)]; rfl
  | cons c s ih =>
    cases m with
    | between => rw [List.cons_append, tokens_between_cons, tokens_between_cons, ih, ih, ih]
    | bare w => rw [List.cons_append, tokens_bare_cons, tokens_bare_cons, ih, ih]
    | quoted w => rw [List.cons_append, tokens_quoted_cons, tokens_quoted_cons, ih, ih]

/-- A separator at the end makes no word. -/
theorem words_concat_sep (hsep : quote ≠ sep) (s : List α) :
    words sep quote (s ++ [sep]) = words sep quote s := tokens_concat_sep hsep .between s

end

/-- A word as it is written. -/
structure Written (α : Type*) where
  quoted : Bool
  text : List α

section
variable {α : Type*} (sep quote : α)

/-- A bare word is not empty, holds no separator and does not start with a quote; a quoted word
holds no quote. -/
def Written.Ok (w : Written α) : Prop :=
  if w.quoted then quote ∉ w.text else w.text ≠ [] ∧ sep ∉ w.text ∧ w.text.head? ≠ some quote

def Written.render (w : Written α) : List α :=
  if w.quoted then quote :: (w.text ++ [quote]) else w.text

/-- Each word after a number of separators. -/
def render (ws : List (Nat × Written α)) : List α :=
  ws.flatMap fun x => List.replicate x.1 sep ++ x.2.render quote

variable {sep quote : α}

/-- The first word is rendered after its separators. -/
theorem render_cons (x : Nat × Written α) (ws : List (Nat × Written α)) :
    render sep quote (x :: ws) =
      List.replicate x.1 sep ++ x.2.render quote ++ render sep quote ws := List.flatMap_cons

/-- What is rendered is separators, quotes and the words. -/
theorem mem_render {ws : List (Nat × Written α)} {c : α} (hc : c ∈ render sep quote ws) :
    c = sep ∨ c = quote ∨ ∃ x ∈ ws, c ∈ x.2.text := by
  obtain ⟨x, hx, hc⟩ := List.mem_flatMap.1 hc
  rcases List.mem_append.1 hc with hc | hc
  · exact .inl (List.eq_of_mem_replicate hc)
  · unfold Written.render at hc
    split at hc
    · simp only [List.mem_cons, List.mem_append, List.not_mem_nil, or_false] at hc
      rcases hc with hc | hc | hc
      · exact .inr (.inl hc)
      · exact .inr (.inr ⟨x, hx, hc⟩)
      · exact .inr (.inl hc)
    · exact .inr (.inr ⟨x, hx, hc⟩)

/-- Between words, and at the end, stands a separator or nothing. -/
theorem render_head {ws : List (Nat × Written α)} (hgap : ∀ x ∈ ws, 1 ≤ x.1) (n : Nat) :
    ∀ c ∈ (render sep quote ws ++ List.replicate n sep).head?, c = sep := by
  intro c hc
  cases ws with
  | nil =>
    have hmem : c ∈ List.replicate n sep := List.mem_of_head? hc
    exact List.eq_of_mem_replicate hmem
  | cons x ws =>
    obtain ⟨k, hk⟩ := Nat.exists_eq_add_of_le' (hgap x List.mem_cons_self)
    rw [render_cons, hk, List.replicate_succ] at hc
    exact (Option.some.inj hc).symm

/-- **Words read back.** -/
theorem words_render [DecidableEq α] (hsep : quote ≠ sep) {ws : List (Nat × Written α)}
    (hok : ∀ x ∈ ws, x.2.Ok sep quote) (hgap : ∀ x ∈ ws.tail, 1 ≤ x.1) (n : Nat) :
    words sep quote (render sep quote ws ++ List.replicate n sep) = ws.map fun x => x.2.text := by
  induction ws with
  | nil =>
    have hgap : ∀ c ∈ List.replicate n sep, c = sep := fun c hc => List.eq_of_mem_replicate hc
    rw [render, List.flatMap_nil, List.nil_append, ← List.append_nil (List.replicate n sep),
      words_gap hgap]
    rfl
  | cons x ws ih =>
    obtain ⟨hx, hws⟩ := List.forall_mem_cons.1 hok
    have hrest := ih hws fun y hy => hgap y (List.mem_of_mem_tail hy)
    rw [render_cons, List.append_assoc, List.append_assoc,
      words_gap fun c hc => List.eq_of_mem_replicate hc, List.map_cons, ← hrest]
    unfold Written.Ok at hx
    unfold Written.render
    split at hx
    · next hq =>
      rw [if_pos hq, List.cons_append, List.append_assoc, List.singleton_append]
      exact words_quoted hsep hx _
    · next hq =>
      rw [if_neg hq]
      exact words_bare hx.1 hx.2.1 hx.2.2 (render_head hgap n)

end

end Words
