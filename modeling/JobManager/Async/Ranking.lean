import JobManager.Async.Pool

/-! Stretches of a run: a measure of the state that no entry raises bounds how often it is
lowered. -/

namespace Async

variable {C : Type} {R : C → Type} {ε S Q T : Type} {A : Q → Type} {allowed : Q → Prop}
  {act : T → (c : C) → S → Option (Except ε (R c) × S)}
  {guar : Q → List (Event R ε) → C → Prop} {s s₀ s' : S} {before segment : List (Entry R ε Q S)}

theorem Valid.unique (h : Valid allowed act guar s before s₀)
    (h' : Valid allowed act guar s before s') : s₀ = s' := by
  cases h with
  | nil =>
    generalize htrace : ([] : List (Entry R ε Q S)) = trace at h'
    cases h' with
    | nil => rfl
    | snoc e => simp at htrace
  | @snoc trace e =>
    generalize htrace : trace ++ [e] = trace' at h'
    cases h' with
    | nil => simp at htrace
    | @snoc trace' e' =>
      obtain rfl := List.singleton_inj.mp (List.append_inj' htrace rfl).2
      rfl

/-- Induction along a stretch of a valid trace. -/
theorem Valid.segment_induction {motive : S → List (Entry R ε Q S) → Prop}
    (h₀ : Valid allowed act guar s before s₀) (nil : motive s₀ [])
    (snoc : ∀ segment e, Occurs allowed act guar s (before ++ segment) e →
      motive e.before segment → motive e.after (segment ++ [e]))
    (h : Valid allowed act guar s (before ++ segment) s') : motive s' segment := by
  induction segment using List.reverseRecOn generalizing s' with
  | nil =>
    rw [List.append_nil] at h
    exact h₀.unique h ▸ nil
  | append_singleton segment e ih =>
    have hocc : Occurs allowed act guar s (before ++ segment) e :=
      h.occurs (List.append_assoc before segment [e]).symm
    rw [← List.append_assoc] at h
    rw [h.unique hocc.snoc]
    exact snoc segment e hocc (ih hocc.valid)

/-- The ranking rule: if no entry raises the measure and those that are counted lower it, the
measure at the start of a stretch bounds how many of them are in it. -/
theorem Valid.countP_le (measure : S → ℕ) (p : Entry R ε Q S → Bool)
    (hstep : ∀ before e, Occurs allowed act guar s before e →
      (if p e then 1 else 0) + measure e.after ≤ measure e.before)
    (h₀ : Valid allowed act guar s before s₀)
    (h : Valid allowed act guar s (before ++ segment) s') :
    segment.countP p + measure s' ≤ measure s₀ := by
  refine h₀.segment_induction (motive := fun s' segment =>
    segment.countP p + measure s' ≤ measure s₀) (by simp) ?_ h
  intro segment e hocc ih
  have := hstep _ e hocc
  rw [List.countP_append, List.countP_singleton]
  omega

namespace Pool

variable {program : (q : Q) → Async C R ε (A q)}

/-- The states around an answered call are states of the run. -/
theorem Reachable.of_mem_trace {s : S} {p : Pool R ε A S}
    (h : Reachable program allowed act (start s) p) {e : Entry R ε Q S} (he : e ∈ p.trace) :
    (∃ p₀, Reachable program allowed act (start s) p₀ ∧ p₀.state = e.before) ∧
      ∃ p₁, Reachable program allowed act (start s) p₁ ∧ p₁.state = e.after := by
  induction h with
  | refl => simp [start] at he
  | @tail p p' hrun hstep ih =>
    have hrun' : Reachable program allowed act (start s) p' := hrun.tail hstep
    cases hstep with
    | start q hq => exact ih he
    | resume i q c k t x s' hi hact =>
      rcases List.mem_append.mp he with he | he
      · exact ih he
      · obtain rfl := List.mem_singleton.mp he
        exact ⟨⟨p, hrun, rfl⟩, _, hrun', rfl⟩

theorem Reachable.trace_append {p p' : Pool R ε A S} (h : Reachable program allowed act p p') :
    ∃ segment, p'.trace = p.trace ++ segment := by
  induction h with
  | refl => exact ⟨[], (List.append_nil _).symm⟩
  | tail _ hstep ih =>
    obtain ⟨segment, hsegment⟩ := ih
    cases hstep with
    | start q hq => exact ⟨segment, hsegment⟩
    | resume i q c k t x s hi hact =>
      exact ⟨segment ++ [⟨i, q, ⟨c, x⟩, _, s⟩], by rw [hsegment, List.append_assoc]⟩

/-- What a request that starts later does comes after what has been done. -/
theorem Conforming.stretch {post : (q : Q) → Except ε (A q) → List (Event R ε) → Prop}
    {p p' : Pool R ε A S} (hp : Conforming allowed act guar post s p)
    (hrun : Reachable program allowed act p p') {e e' : Entry R ε Q S} (he : e ∈ p.trace)
    (he' : e' ∈ p'.trace) (hlater : p.fibers.length ≤ e'.fiber) :
    ∃ before segment after, p'.trace = before ++ e :: (segment ++ e' :: after) := by
  obtain ⟨new, hnew⟩ := hrun.trace_append
  have hmem : e' ∈ new := by
    rw [hnew] at he'
    refine (List.mem_append.mp he').resolve_left fun hold => ?_
    obtain ⟨f, hf, -⟩ := hp.entries e' hold
    exact absurd (List.getElem?_eq_some_iff.mp hf).1 (Nat.not_lt.mpr hlater)
  obtain ⟨before, rest, htrace⟩ := List.append_of_mem he
  obtain ⟨segment, after, rfl⟩ := List.append_of_mem hmem
  exact ⟨before, rest ++ segment, after, by rw [hnew, htrace]; simp⟩

end Pool

end Async
