import JobManager.Async.Pool

/-! Mutual exclusion by a flag: whoever enters finds it down and puts it up, and only who is inside
takes it down. -/

namespace Async

variable {C : Type} {R : C → Type} {ε S Q T : Type}

/-- Entered, and not left since; nobody enters twice. -/
def Inside (enters leaves : Event R ε → Prop) (h : List (Event R ε)) : Prop :=
  (∃ event ∈ h, enters event) ∧ ∀ event ∈ h, ¬ leaves event

variable {enters leaves : Event R ε → Prop}

theorem not_inside_nil : ¬ Inside enters leaves ([] : List (Event R ε)) := fun h => by
  obtain ⟨⟨event, hmem, -⟩, -⟩ := h
  cases hmem

/-- Nothing but an entrance leads inside, and nothing that leaves does. -/
theorem inside_snoc {h : List (Event R ε)} {event : Event R ε}
    (hin : Inside enters leaves (h ++ [event])) :
    ¬ leaves event ∧ (Inside enters leaves h ∨ enters event) := by
  obtain ⟨⟨first, hfirst, henters⟩, hleaves⟩ := hin
  refine ⟨hleaves event (List.mem_append_right _ (List.mem_singleton_self _)), ?_⟩
  rcases List.mem_append.mp hfirst with hfirst | hfirst
  · exact .inl ⟨⟨first, hfirst, henters⟩, fun e he => hleaves e (List.mem_append_left _ he)⟩
  · exact .inr (List.mem_singleton.mp hfirst ▸ henters)

theorem Inside.append {h more : List (Event R ε)} (hin : Inside enters leaves h)
    (hmore : ∀ event ∈ more, ¬ leaves event) : Inside enters leaves (h ++ more) := by
  obtain ⟨⟨first, hfirst, henters⟩, hleaves⟩ := hin
  refine ⟨⟨first, List.mem_append_left _ hfirst, henters⟩, fun e he => ?_⟩
  rcases List.mem_append.mp he with he | he
  · exact hleaves e he
  · exact hmore e he

theorem Inside.snoc {h : List (Event R ε)} {event : Event R ε} (hin : Inside enters leaves h)
    (hevent : ¬ leaves event) : Inside enters leaves (h ++ [event]) :=
  hin.append fun _ he => List.mem_singleton.mp he ▸ hevent

variable {allowed : Q → Prop} {act : T → (c : C) → S → Option (Except ε (R c) × S)}
  {guar : Q → List (Event R ε) → C → Prop} {s s' : S} {trace : List (Entry R ε Q S)}

/-- The flag stands as long as somebody is inside, and only one is. -/
theorem Valid.exclusion (flag : S → Bool)
    (henter : ∀ before e, Occurs allowed act guar s before e → enters e.event →
      flag e.before = false ∧ flag e.after = true)
    (hkeep : ∀ before e, Occurs allowed act guar s before e → ¬ enters e.event →
      ¬ leaves e.event → flag e.before = true → flag e.after = true)
    (hleave : ∀ before e, Occurs allowed act guar s before e → leaves e.event →
      Inside enters leaves (history e.fiber before))
    (h : Valid allowed act guar s trace s') :
    (∀ i, Inside enters leaves (history i trace) → flag s' = true) ∧
    ∀ i j, Inside enters leaves (history i trace) → Inside enters leaves (history j trace) →
      i = j := by
  induction h using Valid.occurs_induction with
  | nil => exact ⟨fun _ h => absurd h not_inside_nil, fun _ _ h => absurd h not_inside_nil⟩
  | snoc trace e hocc ih =>
    obtain ⟨hflag, hunique⟩ := ih
    have hother : ∀ i, e.fiber ≠ i → Inside enters leaves (history i (trace ++ [e])) →
        Inside enters leaves (history i trace) := by
      intro i hi hin
      rwa [history_append, history_singleton, if_neg hi, List.append_nil] at hin
    have hself : Inside enters leaves (history e.fiber (trace ++ [e])) → ¬ leaves e.event ∧
        (Inside enters leaves (history e.fiber trace) ∨ enters e.event) := by
      intro hin
      rw [history_append, history_singleton, if_pos rfl] at hin
      exact inside_snoc hin
    by_cases hleaves : leaves e.event
    · have hnone : ∀ i, ¬ Inside enters leaves (history i (trace ++ [e])) := by
        intro i hin
        by_cases hi : e.fiber = i
        · subst hi
          exact (hself hin).1 hleaves
        · exact hi (hunique _ _ (hleave trace e hocc hleaves) (hother i hi hin))
      exact ⟨fun i hin => absurd hin (hnone i), fun i _ hin => absurd hin (hnone i)⟩
    by_cases henters : enters e.event
    · obtain ⟨hdown, hup⟩ := henter trace e hocc henters
      have honly : ∀ i, Inside enters leaves (history i (trace ++ [e])) → e.fiber = i := by
        intro i hin
        by_contra hi
        have := hflag i (hother i hi hin)
        rw [hdown] at this
        cases this
      exact ⟨fun _ _ => hup, fun i j hi hj => (honly i hi).symm.trans (honly j hj)⟩
    · have hold : ∀ i, Inside enters leaves (history i (trace ++ [e])) →
          Inside enters leaves (history i trace) := by
        intro i hin
        by_cases hi : e.fiber = i
        · subst hi
          exact (hself hin).2.resolve_right henters
        · exact hother i hi hin
      exact ⟨fun i hin => hkeep trace e hocc henters hleaves (hflag i (hold i hin)),
        fun i j hi hj => hunique i j (hold i hi) (hold j hj)⟩

end Async
