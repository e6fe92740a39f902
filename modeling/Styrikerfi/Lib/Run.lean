import Mathlib.Data.List.Basic

/-!
# Runs of a transition system

A system is a partial step function: in state `s` the action `a` is enabled when `step s a` has a
value, and then leads to that state. Every party of a concurrent system, and every choice made
outside it, is an action, so a run is one interleaving. `Run step s₀ tr s` is a run from `s₀` to
`s`; its trace `tr` lists the state and the action of every step, in order, so that what was
observed along a run is a function of its trace and a condition on steps is a condition on its
members.

`Run.invariant` is the induction rule, over a trace and the state it leads to; `Run.invariant_of`
is the same rule for the runs whose steps all meet a condition. A measure that every step makes
smaller bounds the runs (`Run.length_add_le`). The actions of a run determine it (`Run.unique`).
`Run.simulate` takes the runs of one system to runs of another that need not see every action, with
what is observed at the actions it sees; `Run.simulate_of` does so for the runs whose steps all meet
a condition.
-/

section
variable {σ α : Type*} {step : σ → α → Option σ} {s₀ s s' : σ} {a : α} {tr : List (σ × α)}

/-- A run from `s₀`, with the state and the action of each of its steps. -/
inductive Run (step : σ → α → Option σ) (s₀ : σ) : List (σ × α) → σ → Prop
  | start : Run step s₀ [] s₀
  | next {tr : List (σ × α)} {s s' : σ} {a : α} :
      Run step s₀ tr s → step s a = some s' → Run step s₀ (tr ++ [(s, a)]) s'

/-- A state some run reaches. -/
def Reachable (step : σ → α → Option σ) (s₀ s : σ) : Prop := ∃ tr, Run step s₀ tr s

/-- What holds at the start and is kept by every step that meets `C` holds after every run whose
steps all meet `C`. -/
theorem Run.invariant_of {C : σ → α → Prop} {I : List (σ × α) → σ → Prop} (h0 : I [] s₀)
    (hs : ∀ {tr s a s'}, I tr s → C s a → step s a = some s' → I (tr ++ [(s, a)]) s')
    (h : Run step s₀ tr s) (hC : ∀ x ∈ tr, C x.1 x.2) : I tr s := by
  induction h with
  | start => exact h0
  | next hr hst ih =>
    have hC' := List.forall_mem_append.1 hC
    exact hs (ih hC'.1) (hC'.2 _ List.mem_cons_self) hst

/-- What holds at the start and is kept by every step holds after every run. -/
theorem Run.invariant {I : List (σ × α) → σ → Prop} (h0 : I [] s₀)
    (hs : ∀ {tr s a s'}, I tr s → step s a = some s' → I (tr ++ [(s, a)]) s')
    (h : Run step s₀ tr s) : I tr s :=
  h.invariant_of (C := fun _ _ => True) h0 (fun hi _ hst => hs hi hst) fun _ _ => trivial

/-- The invariant rule on states alone. -/
theorem Reachable.invariant {I : σ → Prop} (h0 : I s₀)
    (hs : ∀ {s a s'}, I s → step s a = some s' → I s') (h : Reachable step s₀ s) : I s := by
  obtain ⟨tr, hr⟩ := h
  exact hr.invariant (I := fun _ => I) h0 fun hi hst => hs hi hst

/-- The first state is reachable. -/
theorem Reachable.start : Reachable step s₀ s₀ := ⟨[], .start⟩

/-- A step leads from a reachable state to one. -/
theorem Reachable.next (h : Reachable step s₀ s) (hst : step s a = some s') :
    Reachable step s₀ s' := by
  obtain ⟨tr, hr⟩ := h
  exact ⟨_, hr.next hst⟩

/-- A run ends in a reachable state. -/
theorem Run.reachable (h : Run step s₀ tr s) : Reachable step s₀ s := ⟨tr, h⟩

/-- Where every step makes a measure smaller, a run has no more steps than the measure loses. -/
theorem Run.length_add_le {m : σ → Nat}
    (hm : ∀ {tr s a s'}, Run step s₀ tr s → step s a = some s' → m s' < m s)
    (h : Run step s₀ tr s) : tr.length + m s ≤ m s₀ := by
  induction h with
  | start => exact Nat.le_of_eq (Nat.zero_add _)
  | next hr hst ih =>
    have := hm hr hst
    rw [List.length_append, List.length_singleton]
    omega

/-- Where every step makes a measure smaller, every run goes on to a state without a step. -/
theorem Run.completed {m : σ → Nat}
    (hm : ∀ {tr s a s'}, Run step s₀ tr s → step s a = some s' → m s' < m s)
    (h : Run step s₀ tr s) :
    ∃ tr' s', Run step s₀ (tr ++ tr') s' ∧ ∀ a, step s' a = none := by
  induction hn : m s using Nat.strongRecOn generalizing tr s with
  | _ n ih =>
    by_cases hstuck : ∀ a, step s a = none
    · exact ⟨[], s, by rwa [List.append_nil], hstuck⟩
    · obtain ⟨a, ha⟩ := not_forall.1 hstuck
      obtain ⟨t, ht⟩ := Option.ne_none_iff_exists'.1 ha
      obtain ⟨tr', s', hr, hend⟩ := ih _ (hn ▸ hm h ht) (h.next ht) rfl
      exact ⟨(s, a) :: tr', s', by rwa [List.append_cons], hend⟩

/-- The state a list of actions leads to, if each is enabled in turn. -/
def exec (step : σ → α → Option σ) (s : σ) : List α → Option σ
  | [] => some s
  | a :: as => (step s a).bind fun s' => exec step s' as

/-- The trace of a list of actions. -/
def traceFrom (step : σ → α → Option σ) (s : σ) : List α → List (σ × α)
  | [] => []
  | a :: as => (s, a) :: (step s a).elim [] fun s' => traceFrom step s' as

/-- A list of enabled actions continues a run. -/
theorem Run.exec {as : List α} (h : Run step s₀ tr s) (he : exec step s as = some s') :
    Run step s₀ (tr ++ traceFrom step s as) s' := by
  induction as generalizing s tr with
  | nil =>
    cases he
    rwa [traceFrom, List.append_nil]
  | cons a as ih =>
    obtain ⟨t, ht, he⟩ := Option.bind_eq_some_iff.1 he
    have := ih (h.next ht) he
    rwa [traceFrom, ht, Option.elim_some, List.append_cons]

/-- The actions of the trace of a list of enabled actions. -/
theorem traceFrom_actions {as : List α} (he : exec step s as = some s') :
    (traceFrom step s as).map Prod.snd = as := by
  induction as generalizing s with
  | nil => rfl
  | cons a as ih =>
    obtain ⟨t, ht, he⟩ := Option.bind_eq_some_iff.1 he
    rw [traceFrom, ht, Option.elim_some, List.map_cons, ih he]

/-- Actions that come after others. -/
theorem exec_append (s : σ) (as bs : List α) :
    exec step s (as ++ bs) = (exec step s as).bind fun s' => exec step s' bs := by
  induction as generalizing s with
  | nil => rfl
  | cons a as ih =>
    rw [List.cons_append, exec, exec, Option.bind_assoc]
    exact Option.bind_congr fun t _ => ih t

/-- The actions of a run, one after the other, lead to its end. -/
theorem exec_of_run (h : Run step s₀ tr s) : exec step s₀ (tr.map Prod.snd) = some s := by
  induction h with
  | start => rfl
  | next hr hst ih =>
    rw [List.map_append, exec_append, ih, Option.bind_some]
    exact Option.bind_eq_some_iff.2 ⟨_, hst, rfl⟩

/-- The state a list of enabled actions leads to is reachable. -/
theorem Reachable.exec {as : List α} (h : Reachable step s₀ s)
    (he : exec step s as = some s') : Reachable step s₀ s' := by
  obtain ⟨tr, hr⟩ := h
  exact ⟨_, hr.exec he⟩

/-- A run is determined by its actions. -/
theorem Run.unique {tr' : List (σ × α)} (h : Run step s₀ tr s) (h' : Run step s₀ tr' s')
    (he : tr.map Prod.snd = tr'.map Prod.snd) : tr = tr' ∧ s = s' := by
  induction h generalizing tr' s' with
  | start =>
    cases h' with
    | start => exact ⟨rfl, rfl⟩
    | next => simp at he
  | next hr hst ih =>
    cases h' with
    | start => simp at he
    | next hr' hst' =>
      rw [List.map_append, List.map_append] at he
      obtain ⟨he, ha⟩ := List.append_inj' he rfl
      obtain ⟨rfl, rfl⟩ := ih hr' he
      obtain rfl := List.singleton_inj.1 ha
      exact ⟨rfl, Option.some.inj (hst.symm.trans hst')⟩

/-- **Simulation.** Where every step keeps `R` and the steps that `act` shows are steps of the other
system, with the same observation, every run is simulated by a run with the actions shown. -/
theorem Run.simulate {τ β o : Type*} {step' : τ → β → Option τ} {t₀ : τ} {R : σ → τ → Prop}
    {act : α → Option β} {obs : σ → β → o} {obs' : τ → β → o} (h0 : R s₀ t₀)
    (hidden : ∀ {s t a s'}, R s t → step s a = some s' → act a = none → R s' t)
    (shown : ∀ {s t a s' b}, R s t → step s a = some s' → act a = some b →
      obs s b = obs' t b ∧ ∃ t', step' t b = some t' ∧ R s' t')
    (h : Run step s₀ tr s) : ∃ tr' t, Run step' t₀ tr' t ∧ R s t ∧
      tr'.map Prod.snd = tr.filterMap (fun x => act x.2) ∧
      tr'.map (fun x => obs' x.1 x.2) = tr.filterMap fun x => (act x.2).map (obs x.1) := by
  induction h with
  | start => exact ⟨[], t₀, .start, h0, rfl, rfl⟩
  | @next tr s s' a hr hst ih =>
    obtain ⟨tr', t, hr', hR, hact, hobs⟩ := ih
    cases ha : act a with
    | none =>
      exact ⟨tr', t, hr', hidden hR hst ha, by simp [hact, ha], by simp [hobs, ha]⟩
    | some b =>
      obtain ⟨ho, t', ht, hR'⟩ := shown hR hst ha
      exact ⟨_, t', hr'.next ht, hR', by simp [hact, ha], by simp [hobs, ha, ho]⟩

/-- **Simulation under a condition**, where what a step shows depends on the state it is made in:
steps that meet `C` and for which `f` shows nothing keep `R`, and those that show an action are
steps of the other system, with the same observation. -/
theorem Run.simulate_of {τ β o : Type*} {step' : τ → β → Option τ} {t₀ : τ} {R : σ → τ → Prop}
    {C : σ → α → Prop} {f : σ → α → Option β} {u : σ → α → o} {v : τ → β → o} (h0 : R s₀ t₀)
    (hidden : ∀ {s t a s'}, R s t → C s a → step s a = some s' → f s a = none → R s' t)
    (shown : ∀ {s t a s' b}, R s t → C s a → step s a = some s' → f s a = some b →
      u s a = v t b ∧ ∃ t', step' t b = some t' ∧ R s' t')
    (h : Run step s₀ tr s) (hC : ∀ x ∈ tr, C x.1 x.2) : ∃ tr' t, Run step' t₀ tr' t ∧ R s t ∧
      tr'.map Prod.snd = tr.filterMap (fun x => f x.1 x.2) ∧
      tr'.map (fun x => v x.1 x.2) = tr.filterMap fun x => (f x.1 x.2).map fun _ => u x.1 x.2 := by
  refine h.invariant_of (C := C) (I := fun tr s => ∃ tr' t, Run step' t₀ tr' t ∧ R s t ∧
    tr'.map Prod.snd = tr.filterMap (fun x => f x.1 x.2) ∧
    tr'.map (fun x => v x.1 x.2) = tr.filterMap fun x => (f x.1 x.2).map fun _ => u x.1 x.2)
    ⟨[], t₀, .start, h0, rfl, rfl⟩ ?_ hC
  rintro tr s a s' ⟨tr', t, hr', hR, hact, hobs⟩ hc hst
  cases ha : f s a with
  | none => exact ⟨tr', t, hr', hidden hR hc hst ha, by simp [hact, ha], by simp [hobs, ha]⟩
  | some b =>
    obtain ⟨ho, t', ht, hR'⟩ := shown hR hc hst ha
    exact ⟨_, t', hr'.next ht, hR', by simp [hact, ha], by simp [hobs, ha, ho]⟩

/-- What each of a list of actions keeps, the list keeps. -/
theorem exec_invariant {I : σ → Prop} {as : List α}
    (hs : ∀ {s a s'}, a ∈ as → I s → step s a = some s' → I s') (h0 : I s)
    (he : exec step s as = some s') : I s' := by
  induction as generalizing s with
  | nil => exact Option.some.inj he ▸ h0
  | cons a as ih =>
    obtain ⟨t, ht, he⟩ := Option.bind_eq_some_iff.1 he
    exact ih (fun ha => hs (List.mem_cons_of_mem _ ha)) (hs List.mem_cons_self h0 ht) he

end
