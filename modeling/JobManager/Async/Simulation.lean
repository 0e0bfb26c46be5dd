import JobManager.Async.EventLoop
import JobManager.Async.Pool

/-! Simulation between pools, one fiber at a time: every call of a fiber below is matched by any
number of calls of its counterpart above. -/

namespace Async

variable {C C' : Type} {R : C → Type} {R' : C' → Type} {ε ε' α α' β β' S S' T T' : Type}

section Fibers

variable (act : T → (c : C) → S → Option (Except ε (R c) × S))
  (act' : T' → (c : C') → S' → Option (Except ε' (R' c) × S')) (σ : S' → S)

/-- A function goes on by itself, its calls answered one after the other. -/
inductive Moves : S → Async C R ε α → S → Async C R ε α → Prop where
  | refl (s : S) (p : Async C R ε α) : Moves s p s p
  | head {s s₁ s₂ : S} {c : C} {k : Except ε (R c) → Async C R ε α} {t : T} {x : Except ε (R c)}
      {p : Async C R ε α} (hact : act t c s = some (x, s₁)) (h : Moves s₁ (k x) s₂ p) :
      Moves s (.awaiting c k) s₂ p

/-- The second function never leaves the first one behind; `done` is what is known at its end. -/
def Refines (done : Async C R ε α → Except ε' α' → Prop) :
    Async C R ε α → Async C' R' ε' α' → Prop
  | p, .settled r => done p r
  | p, .awaiting c k => ∀ t s x s₁, act' t c s = some (x, s₁) →
      ∃ p₁, Moves act (σ s) p (σ s₁) p₁ ∧ Refines done p₁ (k x)

/-- The same, where the first function may go ahead before the second one makes a call. -/
def Simulates (done : Async C R ε α → Except ε' α' → Prop) (p : Async C R ε α)
    (p' : Async C' R' ε' α') : Prop :=
  ∀ s, ∃ p₁, Moves act (σ s) p (σ s) p₁ ∧ Refines act act' σ done p₁ p'

variable {act act' σ} {done done₁ : Async C R ε α → Except ε' α' → Prop}

theorem Moves.single {s s₁ : S} {c : C} {k : Except ε (R c) → Async C R ε α} {t : T}
    {x : Except ε (R c)} (hact : act t c s = some (x, s₁)) :
    Moves act s (.awaiting c k) s₁ (k x) := .head hact (.refl _ _)

theorem Moves.trans {s s₁ s₂ : S} {p p₁ p₂ : Async C R ε α} (h : Moves act s p s₁ p₁)
    (h' : Moves act s₁ p₁ s₂ p₂) : Moves act s p s₂ p₂ := by
  induction h with
  | refl => exact h'
  | head hact _ ih => exact .head hact (ih h')

theorem Moves.attempt_bind {s s₁ : S} {p p₁ : Async C R ε α} (h : Moves act s p s₁ p₁)
    (k : Except ε α → Async C R ε β) :
    Moves act s (p.attempt >>= k) s₁ (p₁.attempt >>= k) := by
  induction h with
  | refl => exact .refl _ _
  | head hact _ ih => exact .head hact ih

theorem Refines.simulates {p : Async C R ε α} {p' : Async C' R' ε' α'}
    (h : Refines act act' σ done p p') : Simulates act act' σ done p p' :=
  fun _ => ⟨p, .refl _ _, h⟩

theorem Refines.mono {p : Async C R ε α} {p' : Async C' R' ε' α'}
    (h : Refines act act' σ done p p') (hdone : ∀ p r, done p r → done₁ p r) :
    Refines act act' σ done₁ p p' := by
  induction p' generalizing p with
  | settled r => exact hdone p r h
  | awaiting c k ih =>
    intro t s x s₁ hact
    obtain ⟨p₁, hmoves, hp₁⟩ := h t s x s₁ hact
    exact ⟨p₁, hmoves, ih x hp₁⟩

theorem Simulates.mono {p : Async C R ε α} {p' : Async C' R' ε' α'}
    (h : Simulates act act' σ done p p') (hdone : ∀ p r, done p r → done₁ p r) :
    Simulates act act' σ done₁ p p' := fun s =>
  let ⟨p₁, hmoves, hp₁⟩ := h s
  ⟨p₁, hmoves, hp₁.mono hdone⟩

/-- A function that goes ahead keeps up. -/
theorem Simulates.of_moves {p : Async C R ε α} {p' : Async C' R' ε' α'}
    (h : ∀ s, ∃ p₁, Moves act (σ s) p (σ s) p₁ ∧ Simulates act act' σ done p₁ p') :
    Simulates act act' σ done p p' := by
  intro s
  obtain ⟨p₁, hmoves, hp₁⟩ := h s
  obtain ⟨p₂, hmoves', hp₂⟩ := hp₁ s
  exact ⟨p₂, hmoves.trans hmoves', hp₂⟩

theorem Simulates.awaiting {p : Async C R ε α} {c : C'}
    {k : Except ε' (R' c) → Async C' R' ε' α'}
    (h : ∀ t s x s₁, act' t c s = some (x, s₁) →
      ∃ p₁, Moves act (σ s) p (σ s₁) p₁ ∧ Simulates act act' σ done p₁ (k x)) :
    Simulates act act' σ done p (.awaiting c k) := by
  refine Refines.simulates fun t s x s₁ hact => ?_
  obtain ⟨p₁, hmoves, hp₁⟩ := h t s x s₁ hact
  obtain ⟨p₂, hmoves', hp₂⟩ := hp₁ s₁
  exact ⟨p₂, hmoves.trans hmoves', hp₂⟩

/-- A call below that is none above. -/
theorem Simulates.silent {p : Async C R ε α} {c : C'} {k : Except ε' (R' c) → Async C' R' ε' α'}
    (hc : ∀ t s x s₁, act' t c s = some (x, s₁) → σ s₁ = σ s)
    (h : ∀ x, Simulates act act' σ done p (k x)) :
    Simulates act act' σ done p (.awaiting c k) :=
  .awaiting fun t s x s₁ hact => ⟨p, hc t s x s₁ hact ▸ .refl _ _, h x⟩

/-- Sequencing: a part with its counterpart, then what is left of both. -/
theorem Simulates.attempt_bind {done' : Async C R ε β → Except ε' β' → Prop} {p : Async C R ε α}
    {p' : Async C' R' ε' α'} {k : Except ε α → Async C R ε β}
    {k' : Except ε' α' → Async C' R' ε' β'} (h : Simulates act act' σ done p p')
    (hk : ∀ p r, done p r → Simulates act act' σ done' (p.attempt >>= k) (k' r)) :
    Simulates act act' σ done' (p.attempt >>= k) (p'.attempt >>= k') := by
  induction p' generalizing p with
  | settled r =>
    refine .of_moves fun s => ?_
    obtain ⟨p₁, hmoves, hp₁⟩ := h s
    exact ⟨p₁.attempt >>= k, hmoves.attempt_bind k, hk p₁ r hp₁⟩
  | awaiting c k' ih =>
    refine .of_moves fun s => ?_
    obtain ⟨p₁, hmoves, hp₁⟩ := h s
    refine ⟨p₁.attempt >>= k, hmoves.attempt_bind k, .awaiting fun t s x s₁ hact => ?_⟩
    obtain ⟨p₂, hmoves', hp₂⟩ := hp₁ t s x s₁ hact
    exact ⟨p₂.attempt >>= k, hmoves'.attempt_bind k, ih x hp₂.simulates⟩

/-- Sequencing below, while the function above goes on. -/
theorem Simulates.bind {done' : Async C R ε α → Except ε' β' → Prop} {p : Async C R ε α}
    {p' : Async C' R' ε' α'} {f : α' → Async C' R' ε' β'} (h : Simulates act act' σ done p p')
    (hok : ∀ p₁ a, done p₁ (.ok a) → Simulates act act' σ done' p₁ (f a))
    (herr : ∀ p₁ e, done p₁ (.error e) → done' p₁ (.error e)) :
    Simulates act act' σ done' p (p' >>= f) := by
  refine .of_moves fun s => ?_
  obtain ⟨p₁, hmoves, hp₁⟩ := h s
  refine ⟨p₁, hmoves, ?_⟩
  clear h hmoves
  induction p' generalizing p₁ with
  | settled r =>
    cases r with
    | ok a => exact hok p₁ a hp₁
    | error e => exact Refines.simulates (herr p₁ e hp₁)
  | awaiting c k ih =>
    refine .awaiting fun t s x s₁ hact => ?_
    obtain ⟨p₂, hmoves, hp₂⟩ := hp₁ t s x s₁ hact
    exact ⟨p₂, hmoves, ih x p₂ hp₂⟩

/-- The outcome of a function below, taken as its result. -/
theorem Simulates.attempt {done' : Async C R ε α → Except ε' (Except ε' α') → Prop}
    {p : Async C R ε α} {p' : Async C' R' ε' α'} (h : Simulates act act' σ done p p')
    (hdone : ∀ p₁ r, done p₁ r → done' p₁ (.ok r)) : Simulates act act' σ done' p p'.attempt := by
  refine .of_moves fun s => ?_
  obtain ⟨p₁, hmoves, hp₁⟩ := h s
  refine ⟨p₁, hmoves, ?_⟩
  clear h hmoves
  induction p' generalizing p₁ with
  | settled r => exact Refines.simulates (hdone p₁ r hp₁)
  | awaiting c k ih =>
    refine .awaiting fun t s x s₁ hact => ?_
    obtain ⟨p₂, hmoves, hp₂⟩ := hp₁ t s x s₁ hact
    exact ⟨p₂, hmoves, ih x p₂ hp₂⟩

/-- What is known when both have come to the same result. -/
def Settles (p : Async C R ε α) (r : Except ε α) : Prop := p = .settled r

/-- Every function keeps up with itself. -/
theorem Simulates.refl (p : Async C R ε α) : Simulates act act id Settles p p := by
  induction p with
  | settled r => exact fun s => ⟨_, .refl _ _, rfl⟩
  | awaiting c k ih => exact .awaiting fun t s x s₁ hact => ⟨k x, .single hact, ih x⟩

end Fibers

/-- Functions in place of calls that do what the calls do. -/
theorem Simulates.expand {act : T → (c : C) → S → Option (Except ε (R c) × S)}
    {act' : T' → (c : C') → S' → Option (Except ε (R' c) × S')} {σ : S' → S}
    {f : (c : C) → Async C' R' ε (R c)}
    (hf : ∀ c, Simulates act act' σ Settles (perform c) (f c)) (p : Async C R ε α) :
    Simulates act act' σ Settles p (expand f p) := by
  induction p with
  | settled r => exact fun s => ⟨_, .refl _ _, rfl⟩
  | awaiting c k ih =>
    have hsplit : (Async.awaiting c k) = (perform c).attempt >>= k := rfl
    rw [hsplit]
    refine (hf c).attempt_bind fun q r hq => ?_
    obtain rfl : q = .settled r := hq
    exact ih r

namespace Pool

variable {Q Q' : Type} {A : Q → Type} {A' : Q' → Type}

section

variable (act : T → (c : C) → S → Option (Except ε (R c) × S))
  (act' : T' → (c : C') → S' → Option (Except ε' (R' c) × S')) (σ : S' → S) (ρ : Q' → Q)
  (done : (q : Q') → Async C R ε (A (ρ q)) → Except ε' (A' q) → Prop)

/-- A fiber with its counterpart, which works for the corresponding request. -/
inductive FiberRefines : Fiber R ε A → Fiber R' ε' A' → Prop where
  | mk (q : Q') (p : Async C R ε (A (ρ q))) (p' : Async C' R' ε' (A' q))
      (h : Refines act act' σ (done q) p p') : FiberRefines ⟨ρ q, p⟩ ⟨q, p'⟩

/-- A pool with its counterpart, fiber by fiber. -/
structure Simulated (p : Pool R ε A S) (p' : Pool R' ε' A' S') : Prop where
  state : p.state = σ p'.state
  length : p.fibers.length = p'.fibers.length
  fibers : ∀ (i : ℕ) f', p'.fibers[i]? = some f' → ∃ f, p.fibers[i]? = some f ∧
    FiberRefines act act' σ ρ done f f'

end

variable {act : T → (c : C) → S → Option (Except ε (R c) × S)}
  {act' : T' → (c : C') → S' → Option (Except ε' (R' c) × S')} {σ : S' → S} {ρ : Q' → Q}
  {done : (q : Q') → Async C R ε (A (ρ q)) → Except ε' (A' q) → Prop}
  {program : (q : Q) → Async C R ε (A q)} {program' : (q : Q') → Async C' R' ε' (A' q)}
  {allowed : Q → Prop} {allowed' : Q' → Prop}

/-- Both pools have been asked for the same. -/
theorem Simulated.requests {p : Pool R ε A S} {p' : Pool R' ε' A' S'}
    (h : Simulated act act' σ ρ done p p') :
    p.fibers.map Fiber.request = p'.fibers.map fun f => ρ f.request := by
  refine List.ext_getElem (by simp [h.length]) fun i hi hi' => ?_
  rw [List.length_map] at hi hi'
  obtain ⟨f, hf, hrefines⟩ := h.fibers i _ (List.getElem?_eq_getElem hi')
  rw [List.getElem?_eq_getElem hi] at hf
  rw [List.getElem_map, List.getElem_map, Option.some.inj hf]
  generalize p'.fibers[i] = f' at hrefines
  cases hrefines
  rfl

/-- Who has come to a result below has come to the same one above. -/
theorem Simulated.result {act' : T' → (c : C') → S' → Option (Except ε (R' c) × S')}
    {p : Pool R ε A S} {p' : Pool R' ε A S'}
    (h : Simulated act act' σ id (fun _ => Settles) p p') {i : ℕ} {q : Q}
    {r : Except ε (A q)} (hi : p'.fibers[i]? = some ⟨q, .settled r⟩) :
    p.fibers[i]? = some ⟨q, .settled r⟩ := by
  obtain ⟨f, hf, hrefines⟩ := h.fibers i _ hi
  cases hrefines with
  | mk _ code _ hcode => exact hcode ▸ hf

/-- The moves of one fiber are steps of its pool. -/
theorem Reachable.moves {p : Pool R ε A S} {i : ℕ} {q : Q} {code code₁ : Async C R ε (A q)}
    {s₁ : S} (hi : p.fibers[i]? = some ⟨q, code⟩) (h : Moves act p.state code s₁ code₁) :
    ∃ trace, Reachable program allowed act p ⟨s₁, p.fibers.set i ⟨q, code₁⟩, trace⟩ := by
  obtain ⟨s, fibers, trace⟩ := p
  change Moves act s code s₁ code₁ at h
  induction h generalizing fibers trace with
  | refl s code =>
    refine ⟨trace, ?_⟩
    obtain ⟨hlt, hget⟩ := List.getElem?_eq_some_iff.mp hi
    rw [← hget, List.set_getElem_self]
    exact .refl
  | @head s s₁ s₂ c k t x code hact _ ih =>
    have hlt : i < fibers.length := (List.getElem?_eq_some_iff.mp hi).1
    obtain ⟨trace₁, hreach⟩ := ih (fibers.set i ⟨q, k x⟩) (trace ++ [⟨i, q, ⟨c, x⟩, s, s₁⟩])
      (List.getElem?_set_self hlt)
    rw [List.set_set] at hreach
    exact ⟨trace₁, .head (.resume _ i q c k t x s₁ hi hact) hreach⟩

/-- A fiber starts below, and one starts and moves above. -/
theorem Simulated.start {p : Pool R ε A S} {p' : Pool R' ε' A' S'}
    (h : Simulated act act' σ ρ done p p') {q : Q'} (hallowed : allowed (ρ q))
    (hq : Simulates act act' σ (done q) (program (ρ q)) (program' q)) :
    ∃ p₁, Reachable program allowed act p p₁ ∧ Simulated act act' σ ρ done p₁
      { p' with fibers := p'.fibers ++ [⟨q, program' q⟩] } := by
  obtain ⟨code, hmoves, hcode⟩ := hq p'.state
  rw [← h.state] at hmoves
  have hlast : (p.fibers ++ [⟨ρ q, program (ρ q)⟩])[p.fibers.length]? =
      some ⟨ρ q, program (ρ q)⟩ := List.getElem?_concat_length
  let started : Pool R ε A S := { p with fibers := p.fibers ++ [⟨ρ q, program (ρ q)⟩] }
  obtain ⟨trace, hreach⟩ : ∃ trace, Reachable program allowed act started
      ⟨p.state, started.fibers.set p.fibers.length ⟨ρ q, code⟩, trace⟩ :=
    Reachable.moves hlast hmoves
  refine ⟨_, .head (.start p (ρ q) hallowed) hreach, h.state,
    by simp [started, h.length], fun j f' hj => ?_⟩
  dsimp only at hj ⊢
  rw [List.set_append_right _ _ le_rfl, Nat.sub_self, List.set_cons_zero]
  by_cases hlt : j < p'.fibers.length
  · rw [List.getElem?_append_left hlt] at hj
    rw [List.getElem?_append_left (h.length ▸ hlt)]
    exact h.fibers j f' hj
  · rw [List.getElem?_append_right (Nat.le_of_not_lt hlt), ← h.length] at hj
    rw [List.getElem?_append_right (Nat.le_of_not_lt (h.length ▸ hlt))]
    rw [List.getElem?_singleton] at hj ⊢
    split at hj
    · next h0 =>
      obtain rfl := Option.some.inj hj
      exact ⟨_, if_pos h0, q, code, _, hcode⟩
    · cases hj

/-- A fiber goes on below, and the same one moves above. -/
theorem Simulated.resume {p : Pool R ε A S} {p' : Pool R' ε' A' S'}
    (h : Simulated act act' σ ρ done p p') {i : ℕ} {q : Q'} {c : C'}
    {k : Except ε' (R' c) → Async C' R' ε' (A' q)} {t : T'} {x : Except ε' (R' c)} {s₁ : S'}
    (hi : p'.fibers[i]? = some ⟨q, .awaiting c k⟩) (hact : act' t c p'.state = some (x, s₁))
    (entries : List (Entry R' ε' Q' S')) :
    ∃ p₁, Reachable program allowed act p p₁ ∧
      Simulated act act' σ ρ done p₁ ⟨s₁, p'.fibers.set i ⟨q, k x⟩, entries⟩ := by
  obtain ⟨f, hf, hrefines⟩ := h.fibers i _ hi
  cases hrefines with
  | mk _ code _ hcode =>
    obtain ⟨code₁, hmoves, hcode₁⟩ := hcode t _ x s₁ hact
    rw [← h.state] at hmoves
    obtain ⟨trace, hreach⟩ : ∃ trace, Reachable program allowed act p
        ⟨σ s₁, p.fibers.set i ⟨ρ q, code₁⟩, trace⟩ := Reachable.moves hf hmoves
    have hlt : i < p'.fibers.length := (List.getElem?_eq_some_iff.mp hi).1
    refine ⟨_, hreach, rfl, by simp [h.length], fun j f' hj => ?_⟩
    dsimp only at hj ⊢
    by_cases hij : i = j
    · subst hij
      rw [List.getElem?_set_self hlt] at hj
      obtain rfl := Option.some.inj hj
      exact ⟨_, List.getElem?_set_self (h.length ▸ hlt), q, code₁, _, hcode₁⟩
    · rw [List.getElem?_set_ne hij] at hj ⊢
      exact h.fibers j f' hj

/-- If every program below is simulated by the program above of the corresponding request, so is
every pool, whatever the interleaving. -/
theorem Reachable.simulation {s : S'} {p' : Pool R' ε' A' S'}
    (hrun : Reachable program' allowed' act' (start s) p')
    (hprogram : ∀ q, allowed' q → allowed (ρ q) ∧
      Simulates act act' σ (done q) (program (ρ q)) (program' q)) :
    ∃ p, Reachable program allowed act (start (σ s)) p ∧ Simulated act act' σ ρ done p p' := by
  induction hrun with
  | refl => exact ⟨start (σ s), .refl, rfl, rfl, by simp [start]⟩
  | tail _ hstep ih =>
    obtain ⟨p, hp, hsim⟩ := ih
    cases hstep with
    | start q hq =>
      obtain ⟨hallowed, hq⟩ := hprogram q hq
      obtain ⟨p₁, hreach, hsim₁⟩ := hsim.start hallowed hq
      exact ⟨p₁, hp.trans hreach, hsim₁⟩
    | resume i q c k t x s₁ hi hact =>
      obtain ⟨p₁, hreach, hsim₁⟩ := hsim.resume hi hact _
      exact ⟨p₁, hp.trans hreach, hsim₁⟩

end Pool

end Async
