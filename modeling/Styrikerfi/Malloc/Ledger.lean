import Styrikerfi.Malloc.Refine
import Styrikerfi.Malloc.Session

/-!
# Sessions without memory

A ledger is what a session knows once the bytes of the heap are left out: the shape, the break and
its limit, and what the client holds. Its steps are the calls of a client; a client's writes are no
step of it. A session follows a ledger (`Session.Follows`), answers every call as the ledger does
(`Session.Follows.call`), and starts in the same ledger whatever the storage held before
(`Session.follows_init`). So pointers and break do not depend on the memory (`session_fresh`).
-/

namespace Malloc

open Machine32 Tiling LinkedList

/-- The requests that reach the allocator. -/
inductive Call where
  | malloc (size : Nat)
  | free (bp : Nat)

/-- The call that a request is; a write is none. -/
def Request.call : Request → Option Call
  | .malloc size => some (.malloc size)
  | .free bp => some (.free bp)
  | .write .. => none

/-- The request that a call is. -/
def Call.request : Call → Request
  | .malloc size => .malloc size
  | .free bp => .free bp

/-- What a client sees of a call: the pointer it returns, 0 for `mm_free`, and the break after
it. -/
def Session.answer (s : Session) : Call → Option (Nat × Nat)
  | .malloc size => (s.heap.mmMalloc size).map fun (p, h) => (p, h.memBrk)
  | .free bp => some (0, (s.heap.mmFree bp).memBrk)

/-- A session without the bytes of its heap. -/
structure Ledger where
  shape : Shape
  brk : Nat
  limit : Nat
  live : List (Nat × Nat)

/-- One call, if the client may make it. -/
def Ledger.step (l : Ledger) : Call → Option Ledger
  | .malloc size =>
    if size < 2 ^ 31 then
      let r := l.shape.malloc l.brk l.limit size
      some ⟨r.2.2, r.2.1, l.limit, if r.1 = 0 then l.live else (r.1, size) :: l.live⟩
    else none
  | .free bp =>
    if bp ∈ l.live.map Prod.fst then
      some { l with shape := l.shape.free bp, live := l.live.filter fun x => decide (x.1 ≠ bp) }
    else none

/-- What a client sees of a call. -/
def Ledger.answer (l : Ledger) : Call → Option (Nat × Nat)
  | .malloc size =>
    let r := l.shape.malloc l.brk l.limit size
    some (r.1, r.2.1)
  | .free _ => some (0, l.brk)

/-- The ledger of a session that begins on storage at `start` with the limit `limit`. -/
def Ledger.init (start limit : Nat) : Ledger := ⟨.init start, start + 4112, limit, []⟩

/-- The heap of the session has the shape of the ledger, and the rest of the ledger is right. -/
structure Session.Follows (s : Session) (l : Ledger) : Prop where
  inv : s.Inv l.shape.blocks l.shape.list
  brk : s.heap.memBrk = l.brk
  limit : s.heap.memMaxAddr = l.limit
  live : s.live = l.live

section
variable {s s' : Session} {l l' : Ledger} {r : Request} {c : Call} {size bp : Nat}

/-- A request that is a call is the request of that call. -/
theorem Request.call_eq (h : r.call = some c) : r = c.request := by
  cases r <;> cases h <;> rfl

/-- Whatever the storage held before, a session begins in the same ledger. -/
theorem Session.follows_init {h₀ h : Heap} (hstart : h₀.memStartBrk % 8 = 0)
    (haddr : h₀.memMaxAddr < 2 ^ 32) (hi : h₀.memResetBrk.mmInit = (0, h)) :
    Session.Follows ⟨h, []⟩ (.init h₀.memStartBrk h₀.memMaxAddr) := by
  obtain ⟨hhas, hmax, hbrk, -⟩ := Heap.mmInit_has (h := h₀.memResetBrk) hstart rfl haddr hi
  exact ⟨⟨hhas, .refl _, by simp⟩, hbrk, hmax, rfl⟩

/-- A `mm_malloc` is answered as the ledger answers it. -/
theorem Session.Follows.malloc (F : s.Follows l) (hlt : size < 2 ^ 31) :
    ∃ s' l', s.step (.malloc size) = some s' ∧ l.step (.malloc size) = some l' ∧ s'.Follows l' ∧
      s.answer (.malloc size) = l.answer (.malloc size) := by
  obtain ⟨h', hm, hsame, hhas⟩ := Heap.Has.mmMalloc F.inv.wellFormed hlt
  rw [F.brk, F.limit] at hm hsame hhas
  obtain ⟨s', bs, fl, hs, I⟩ := F.inv.malloc hlt
  have hs' := hs
  rw [Session.step, if_pos hlt, hm, Option.map_some, Option.some.injEq] at hs'
  refine ⟨s', _, hs, if_pos hlt, ⟨?_, ?_, ?_, ?_⟩, ?_⟩
  · have hheap : s'.heap = h' := by
      rw [← hs']
      dsimp only
      split <;> rfl
    obtain ⟨rfl, rfl⟩ := I.wellFormed.unique (hheap ▸ hhas)
    exact I
  · rw [← hs']
    dsimp only
    split <;> exact hsame.memBrk
  · rw [← hs']
    dsimp only
    split <;> exact hsame.memMaxAddr
  · rw [← hs']
    dsimp only
    split
    · exact F.live
    · exact congrArg _ F.live
  · rw [Session.answer, hm, Ledger.answer]
    exact congrArg (fun b => some (_, b)) hsame.memBrk

/-- A `mm_free` is answered as the ledger answers it. -/
theorem Session.Follows.free (F : s.Follows l) (hbp : bp ∈ s.live.map Prod.fst) :
    ∃ s' l', s.step (.free bp) = some s' ∧ l.step (.free bp) = some l' ∧ s'.Follows l' ∧
      s.answer (.free bp) = l.answer (.free bp) := by
  obtain ⟨s', bs, fl, hs, I⟩ := F.inv.free hbp
  have hs' := hs
  rw [Session.step, if_pos hbp, Option.some.injEq] at hs'
  have hsame := Heap.SameFrame.mmFree s.heap bp
  obtain ⟨b, hb, hbb⟩ := List.mem_map.1 (F.inv.held.mem_iff.1 hbp)
  obtain ⟨hb, ha⟩ := mem_allocs.1 hb
  have hhas : (s.heap.mmFree bp).Has (l.shape.free bp) :=
    hbb ▸ Heap.Has.mmFree F.inv.wellFormed hb ha
  refine ⟨s', _, hs, if_pos (F.live ▸ hbp), ⟨?_, ?_, ?_, ?_⟩, ?_⟩
  · have hheap : s'.heap = s.heap.mmFree bp := by rw [← hs']
    obtain ⟨rfl, rfl⟩ := I.wellFormed.unique (hheap ▸ hhas)
    exact I
  · rw [← hs']
    exact hsame.memBrk.trans F.brk
  · rw [← hs']
    exact hsame.memMaxAddr.trans F.limit
  · rw [← hs', F.live]
  · exact congrArg (fun b => some (0, b)) (hsame.memBrk.trans F.brk)

/-- **Every call** is possible in the session exactly when it is in the ledger, with the same
answer. -/
theorem Session.Follows.call (F : s.Follows l) (c : Call) :
    s.step c.request = none ∧ l.step c = none ∨ ∃ s' l', s.step c.request = some s' ∧
      l.step c = some l' ∧ s'.Follows l' ∧ s.answer c = l.answer c := by
  cases c with
  | malloc size =>
    by_cases hlt : size < 2 ^ 31
    · exact .inr (F.malloc hlt)
    · exact .inl ⟨if_neg hlt, if_neg hlt⟩
  | free bp =>
    by_cases hbp : bp ∈ s.live.map Prod.fst
    · exact .inr (F.free hbp)
    · exact .inl ⟨if_neg hbp, if_neg (F.live ▸ hbp)⟩

/-- A write changes nothing that the ledger knows. -/
theorem Session.Follows.write (F : s.Follows l) (hst : s.step r = some s') (hr : r.call = none) :
    s'.Follows l := by
  cases r with
  | malloc | free => cases hr
  | write p v =>
    have I := F.inv.write hst
    rw [Session.step] at hst
    split at hst
    · cases hst
      exact ⟨I, F.brk, F.limit, F.live⟩
    · cases hst

/-! ## Runs -/

/-- The calls of a run. -/
def calls (tr : List (Session × Request)) : List Call := tr.filterMap fun x => x.2.call

/-- The answers to the calls of a run. -/
def answers (tr : List (Session × Request)) : List (Option (Nat × Nat)) :=
  tr.filterMap fun x => x.2.call.map x.1.answer

/-- The calls of a run are those of its requests. -/
theorem calls_exec {rs : List Request} (he : exec Session.step s rs = some s') :
    calls ([] ++ traceFrom Session.step s rs) = rs.filterMap Request.call := by
  rw [calls, List.nil_append]
  conv_rhs => rw [← traceFrom_actions he, List.filterMap_map]
  rfl

/-- A run of a session is one of its ledger. -/
theorem Session.Follows.run {s₀ : Session} {l₀ : Ledger} {tr : List (Session × Request)}
    (F : s₀.Follows l₀) (h : Run Session.step s₀ tr s) :
    ∃ tr' l, Run Ledger.step l₀ tr' l ∧ s.Follows l ∧ tr'.map Prod.snd = calls tr ∧
      tr'.map (fun x => x.1.answer x.2) = answers tr := by
  refine h.simulate (R := Session.Follows) F Session.Follows.write fun {s l r s' c} F hst hr => ?_
  obtain rfl := Request.call_eq hr
  rcases F.call c with ⟨hno, -⟩ | ⟨s'', l', hs, hl, F', ha⟩
  · rw [hno] at hst
    cases hst
  · cases hst.symm.trans hs
    exact ⟨ha, l', hl, F'⟩

/-- What the ledger allows, a client can do. -/
theorem Session.Follows.exec {cs : List Call} (F : s.Follows l)
    (he : exec Ledger.step l cs = some l') :
    ∃ s', exec Session.step s (cs.map Call.request) = some s' ∧ s'.Follows l' := by
  induction cs generalizing s l with
  | nil =>
    cases he
    exact ⟨s, rfl, F⟩
  | cons c cs ih =>
    obtain ⟨l₁, hl₁, he⟩ := Option.bind_eq_some_iff.1 he
    rcases F.call c with ⟨-, hno⟩ | ⟨s₁, l₂, hs₁, hl₂, F₁, -⟩
    · rw [hno] at hl₁
      cases hl₁
    · obtain rfl := Option.some.inj (hl₂.symm.trans hl₁)
      obtain ⟨s', hs', F'⟩ := ih F₁ he
      exact ⟨s', Option.bind_eq_some_iff.2 ⟨s₁, hs₁, hs'⟩, F'⟩

/-- On zeroed storage at address 8 there is a session that makes the calls the ledger allows. -/
theorem memInit_zero_exec {cs : List Call}
    (he : exec Ledger.step (.init 8 (8 + maxHeap)) cs = some l) :
    ∃ h s, (memInit (fun _ => 0) 8).memResetBrk.mmInit = (0, h) ∧
      exec Session.step ⟨h, []⟩ (cs.map Call.request) = some s ∧ s.Follows l := by
  obtain ⟨h, hi⟩ := memInit_zero
  obtain ⟨s, hs, F⟩ := (Session.follows_init rfl (by decide) hi).exec he
  exact ⟨h, s, hi, hs, F⟩

/-- A session in which two blocks of 100 bytes are live. -/
theorem memInit_zero_two : ∃ h s, (memInit (fun _ => 0) 8).memResetBrk.mmInit = (0, h) ∧
    exec Session.step ⟨h, []⟩ [.malloc 100, .malloc 100] = some s ∧
    s.live = [(136, 100), (24, 100)] := by
  obtain ⟨l, hl⟩ : ∃ l, exec Ledger.step (.init 8 (8 + maxHeap)) [.malloc 100, .malloc 100] =
    some l := ⟨_, rfl⟩
  obtain ⟨h, s, hi, hs, F⟩ := memInit_zero_exec hl
  refine ⟨h, s, hi, hs, ?_⟩
  rw [F.live]
  cases hl
  rfl

/-- A session in which two blocks take all of the 20 MB. -/
theorem memInit_zero_full : ∃ h s, (memInit (fun _ => 0) 8).memResetBrk.mmInit = (0, h) ∧
    exec Session.step ⟨h, []⟩ [.malloc 4088, .malloc 20967400] = some s ∧
    s.heap.WellFormed [⟨24, 4096, true⟩, ⟨4120, 20967408, true⟩] [] ∧
    s.heap.memBrk = 20971528 ∧ s.heap.memMaxAddr = 20971528 := by
  obtain ⟨l, hl⟩ : ∃ l, exec Ledger.step (.init 8 (8 + maxHeap)) [.malloc 4088, .malloc 20967400] =
      some l := ⟨_, rfl⟩
  obtain ⟨h, s, hi, hs, F⟩ := memInit_zero_exec hl
  have hblocks : l.shape.blocks = [⟨24, 4096, true⟩, ⟨4120, 20967408, true⟩] ∧ l.shape.list = [] ∧
      l.brk = 20971528 ∧ l.limit = 20971528 := by
    cases hl
    exact ⟨rfl, rfl, rfl, rfl⟩
  have H := F.inv.wellFormed
  rw [hblocks.1, hblocks.2.1] at H
  exact ⟨h, s, hi, hs, H, F.brk.trans hblocks.2.2.1, F.limit.trans hblocks.2.2.2⟩

/-- **Re-initialisation forgets the past.** On the same storage `mm_init` succeeds or fails whatever
the memory and the globals held, and the answers to the calls of a session, what is live and the
break are then the same in any two runs that make the same calls. -/
theorem session_fresh {g₁ g₂ : Heap} (hstart : g₁.memStartBrk % 8 = 0)
    (haddr : g₁.memMaxAddr < 2 ^ 32) (hs : g₂.memStartBrk = g₁.memStartBrk)
    (hm : g₂.memMaxAddr = g₁.memMaxAddr) :
    g₁.memResetBrk.mmInit.1 = g₂.memResetBrk.mmInit.1 ∧
    ∀ h₁ h₂ tr₁ tr₂ s₁ s₂, g₁.memResetBrk.mmInit = (0, h₁) → g₂.memResetBrk.mmInit = (0, h₂) →
      Run Session.step ⟨h₁, []⟩ tr₁ s₁ → Run Session.step ⟨h₂, []⟩ tr₂ s₂ →
      calls tr₁ = calls tr₂ →
      answers tr₁ = answers tr₂ ∧ s₁.heap.memBrk = s₂.heap.memBrk ∧ s₁.live = s₂.live ∧
        ∀ c : Call, (s₁.step c.request).isSome = (s₂.step c.request).isSome ∧
          ((s₁.step c.request).isSome → s₁.answer c = s₂.answer c) := by
  have hstart₂ : g₂.memStartBrk % 8 = 0 := hs ▸ hstart
  have haddr₂ : g₂.memMaxAddr < 2 ^ 32 := hm ▸ haddr
  constructor
  · have hroom : g₂.memResetBrk.memBrk = g₁.memResetBrk.memBrk := hs
    have hmax : g₂.memResetBrk.memMaxAddr = g₁.memResetBrk.memMaxAddr := hm
    rcases Heap.mmInit_cases (h := g₁.memResetBrk) hstart rfl haddr with
      ⟨h1, e1⟩ | ⟨h1, _, _, -, e1, -⟩ <;>
    rcases Heap.mmInit_cases (h := g₂.memResetBrk) hstart₂ rfl haddr₂ with
      ⟨h2, e2⟩ | ⟨h2, _, _, -, e2, -⟩ <;> rw [hroom, hmax] at h2
    · rw [e1, e2]
    · exact absurd h2 h1
    · exact absurd h1 h2
    · rw [e1, e2]
  · intro h₁ h₂ tr₁ tr₂ s₁ s₂ hi₁ hi₂ hr₁ hr₂ hcalls
    have F₂ := Session.follows_init hstart₂ haddr₂ hi₂
    rw [hs, hm] at F₂
    obtain ⟨t₁, l₁, hl₁, F₁, hc₁, ha₁⟩ := (Session.follows_init hstart haddr hi₁).run hr₁
    obtain ⟨t₂, l₂, hl₂, F₂, hc₂, ha₂⟩ := F₂.run hr₂
    obtain ⟨rfl, rfl⟩ := hl₁.unique hl₂ (by rw [hc₁, hc₂, hcalls])
    refine ⟨by rw [← ha₁, ← ha₂], F₁.brk.trans F₂.brk.symm, F₁.live.trans F₂.live.symm, fun c => ?_⟩
    rcases F₁.call c with ⟨e₁, hn⟩ | ⟨_, _, e₁, hn, -, a₁⟩ <;>
    rcases F₂.call c with ⟨e₂, hn'⟩ | ⟨_, _, e₂, hn', -, a₂⟩
    · rw [e₁, e₂]
      exact ⟨rfl, nofun⟩
    · exact absurd (hn.symm.trans hn') nofun
    · exact absurd (hn.symm.trans hn') nofun
    · rw [e₁, e₂]
      exact ⟨rfl, fun _ => a₁.trans a₂.symm⟩

/-- Storage at address 8 that holds ones, with globals left over from an earlier trace. -/
def leftover : Heap :=
  { memInit (fun _ => 255) 8 with memBrk := 4120, heapListp := 5, freeListp := 6 }

/-- On zeroed storage and on what an earlier trace has left, 100 bytes are allocated at the same
address, and the second client writes to them: the break is the same. -/
theorem session_fresh_leftover : ∃ h₁ h₂ s₁ s₂,
    (memInit (fun _ => 0) 8).memResetBrk.mmInit = (0, h₁) ∧ leftover.memResetBrk.mmInit = (0, h₂) ∧
    Session.step ⟨h₁, []⟩ (.malloc 100) = some s₁ ∧
    exec Session.step ⟨h₂, []⟩ [.malloc 100, .write 24 7] = some s₂ ∧
    s₁.heap.memBrk = s₂.heap.memBrk ∧ s₁.live = s₂.live := by
  have hstart : (memInit (fun _ => 0) 8).memStartBrk % 8 = 0 := rfl
  have haddr : (memInit (fun _ => 0) 8).memMaxAddr < 2 ^ 32 := by decide
  have hs : leftover.memStartBrk = (memInit (fun _ => 0) 8).memStartBrk := rfl
  have hm : leftover.memMaxAddr = (memInit (fun _ => 0) 8).memMaxAddr := rfl
  obtain ⟨h₁, hi₁⟩ := memInit_zero
  obtain ⟨h₂, hi₂⟩ := Heap.mmInit_succeeds (h := leftover.memResetBrk) hstart rfl haddr (by decide)
    (by decide)
  obtain ⟨l, hl⟩ : ∃ l, exec Ledger.step (.init 8 (8 + maxHeap)) [.malloc 100] = some l := ⟨_, rfl⟩
  have hlive : l.live = [(24, 100)] := by
    cases hl
    rfl
  obtain ⟨s₁, he₁, F₁⟩ := (Session.follows_init hstart haddr hi₁).exec hl
  obtain ⟨t₂, he₂, F₂⟩ := (Session.follows_init (hs ▸ hstart) (hm ▸ haddr) hi₂).exec hl
  obtain ⟨s₂, hw⟩ : ∃ s₂, t₂.step (.write 24 7) = some s₂ :=
    ⟨_, if_pos ⟨(24, 100), by rw [F₂.live, hlive]; exact List.mem_singleton_self _,
      by decide, by decide⟩⟩
  have he₂' : exec Session.step ⟨h₂, []⟩ [.malloc 100, .write 24 7] = some s₂ := by
    obtain ⟨t, ht, hn⟩ := Option.bind_eq_some_iff.1 he₂
    obtain rfl := Option.some.inj hn
    exact Option.bind_eq_some_iff.2 ⟨t, ht, Option.bind_eq_some_iff.2 ⟨s₂, hw, rfl⟩⟩
  have hst : Session.step ⟨h₁, []⟩ (.malloc 100) = some s₁ := by
    obtain ⟨t, ht, hn⟩ := Option.bind_eq_some_iff.1 he₁
    obtain rfl := Option.some.inj hn
    exact ht
  obtain ⟨-, hbrk, hsame, -⟩ := (session_fresh hstart haddr hs hm).2 _ _ _ _ _ _
    hi₁ hi₂ (Run.start.exec he₁) (Run.start.exec he₂')
    ((calls_exec he₁).trans (calls_exec he₂').symm)
  exact ⟨h₁, h₂, s₁, s₂, hi₁, hi₂, hst, he₂', hbrk, hsame⟩

end

end Malloc
