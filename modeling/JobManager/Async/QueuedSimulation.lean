import JobManager.Async.QueuedPool

/-! A pool whose functions share a queue refines the pool in which the calls that enqueue are
atomic: each of them takes effect when its promise settles. -/

namespace Async

variable {C₁ : Type} {R₁ : C₁ → Type} {ε S₁ Q₁ T₁ : Type} {A₁ : Q₁ → Type}
  {C : Type} {R : C → Type} {S Q T S' T' : Type} {A : Q → Type}

namespace QueuedPool

section

variable (m : QueuedProgram R ε A S T R₁ A₁ S₁ T₁)

/-- A fiber and its atomic counterpart, which is a call ahead from the moment the promise of the
call has settled. -/
inductive Matches (promises : List ((q : Q₁) × Option (Except ε (A₁ q)))) :
    QueuedFiber R ε A → Fiber R ε A → Prop where
  | own (q : Q) (code : Async C R ε (A q)) : Matches promises ⟨q, code, none⟩ ⟨q, code⟩
  | pending (q : Q) (c : C) (k : Except ε (R c) → Async C R ε (A q)) (j : ℕ) (make : T → Q₁) (t : T)
      (hc : m.enqueues c = some make) (hj : promises[j]? = some ⟨make t, none⟩) :
      Matches promises ⟨q, .awaiting c k, some j⟩ ⟨q, .awaiting c k⟩
  | answered (q : Q) (c : C) (k : Except ε (R c) → Async C R ε (A q)) (j : ℕ) (q₁ : Q₁)
      (r : Except ε (A₁ q₁)) (x : Except ε (R c)) (hj : promises[j]? = some ⟨q₁, some r⟩)
      (hx : m.answers c q₁ r = some x) : Matches promises ⟨q, .awaiting c k, some j⟩ ⟨q, k x⟩

/-- All fibers with their counterparts; somebody awaits each promise that is not settled, and nobody
else does. -/
structure Paired (promises : List ((q : Q₁) × Option (Except ε (A₁ q))))
    (fibers : List (Fiber R ε A)) (fibers' : List (QueuedFiber R ε A)) : Prop where
  length : fibers.length = fibers'.length
  matched : ∀ (i : ℕ) f', fibers'[i]? = some f' →
    ∃ f, fibers[i]? = some f ∧ Matches m promises f' f
  awaited : ∀ (j : ℕ) q₁, promises[j]? = some ⟨q₁, none⟩ →
    ∃ (i : ℕ) (f' : QueuedFiber R ε A), fibers'[i]? = some f' ∧ f'.promise = some j
  alone : ∀ (i i' j : ℕ) (f f' : QueuedFiber R ε A), fibers'[i]? = some f →
    fibers'[i']? = some f' → f.promise = some j → f'.promise = some j → i = i'

end

variable {m : QueuedProgram R ε A S T R₁ A₁ S₁ T₁}
  {promises : List ((q : Q₁) × Option (Except ε (A₁ q)))} {f : Fiber R ε A}
  {f' : QueuedFiber R ε A} {fibers : List (Fiber R ε A)} {fibers' : List (QueuedFiber R ε A)}

theorem Matches.request (h : Matches m promises f' f) : f.request = f'.request := by
  cases h <;> rfl

theorem Matches.promise_lt (h : Matches m promises f' f) {j : ℕ} (hj : f'.promise = some j) :
    j < promises.length := by
  cases h with
  | own q code => cases hj
  | pending q c k j' make t hc hj' =>
    obtain rfl := Option.some.inj hj
    exact (List.getElem?_eq_some_iff.mp hj').1
  | answered q c k j' q₁ r x hj' hx =>
    obtain rfl := Option.some.inj hj
    exact (List.getElem?_eq_some_iff.mp hj').1

/-- A fiber does not see promises that it does not await. -/
theorem Matches.of_promises {promises' : List ((q : Q₁) × Option (Except ε (A₁ q)))}
    (h : Matches m promises f' f)
    (hsame : ∀ j, f'.promise = some j → promises'[j]? = promises[j]?) :
    Matches m promises' f' f := by
  cases h with
  | own q code => exact .own q code
  | pending q c k j make t hc hj => exact .pending q c k j make t hc ((hsame j rfl).trans hj)
  | answered q c k j q₁ r x hj hx => exact .answered q c k j q₁ r x ((hsame j rfl).trans hj) hx

namespace Paired

theorem start (h : Paired m promises fibers fibers') (q : Q) (code : Async C R ε (A q)) :
    Paired m promises (fibers ++ [⟨q, code⟩]) (fibers' ++ [⟨q, code, none⟩]) := by
  refine ⟨by simp [h.length], fun i f' hi => ?_, fun j q₁ hj => ?_,
    fun i i' j f f' hi hi' hf hf' => ?_⟩
  · rcases getElem?_append_singleton_cases hi with ⟨-, hi⟩ | ⟨rfl, rfl⟩
    · obtain ⟨f, hf, hmatches⟩ := h.matched i f' hi
      rw [List.getElem?_append_left (List.getElem?_eq_some_iff.mp hf).1]
      exact ⟨f, hf, hmatches⟩
    · rw [← h.length]
      exact ⟨_, List.getElem?_concat_length, .own q code⟩
  · obtain ⟨i, f', hi, hf'⟩ := h.awaited j q₁ hj
    exact ⟨i, f', by rw [List.getElem?_append_left (List.getElem?_eq_some_iff.mp hi).1, hi], hf'⟩
  · rcases getElem?_append_singleton_cases hi with ⟨-, hi⟩ | ⟨-, rfl⟩
    · rcases getElem?_append_singleton_cases hi' with ⟨-, hi'⟩ | ⟨-, rfl⟩
      · exact h.alone i i' j f f' hi hi' hf hf'
      · cases hf'
    · cases hf

/-- A fiber that is replaced by one that awaits nothing, as its counterpart is. -/
theorem set (h : Paired m promises fibers fibers') {i : ℕ} {q : Q} {code : Async C R ε (A q)}
    (hi : fibers'[i]? = some f') (hf' : ∀ j q₁, f'.promise = some j →
      promises[j]? ≠ some ⟨q₁, none⟩) :
    Paired m promises (fibers.set i ⟨q, code⟩) (fibers'.set i ⟨q, code, none⟩) := by
  have hlt : i < fibers.length := h.length ▸ (List.getElem?_eq_some_iff.mp hi).1
  refine ⟨by simp [h.length], fun i' f₁ hi' => ?_, fun j q₁ hj => ?_,
    fun i₁ i₂ j f₁ f₂ hi₁ hi₂ hf₁ hf₂ => ?_⟩
  · rcases getElem?_set_cases hi' with ⟨rfl, rfl⟩ | ⟨hne, hi'⟩
    · exact ⟨_, List.getElem?_set_self hlt, .own q code⟩
    · rw [List.getElem?_set_ne hne]
      exact h.matched i' f₁ hi'
  · obtain ⟨i', f₁, hi', hf₁⟩ := h.awaited j q₁ hj
    have hne : i ≠ i' := by
      rintro rfl
      rw [hi] at hi'
      obtain rfl := Option.some.inj hi'
      exact hf' j q₁ hf₁ hj
    exact ⟨i', f₁, by rw [List.getElem?_set_ne hne, hi'], hf₁⟩
  · rcases getElem?_set_cases hi₁ with ⟨-, rfl⟩ | ⟨-, hi₁⟩
    · cases hf₁
    · rcases getElem?_set_cases hi₂ with ⟨-, rfl⟩ | ⟨-, hi₂⟩
      · cases hf₂
      · exact h.alone i₁ i₂ j f₁ f₂ hi₁ hi₂ hf₁ hf₂

/-- A fiber that awaits no promise is where its counterpart is. -/
theorem own (h : Paired m promises fibers fibers') {i : ℕ} {q : Q} {code : Async C R ε (A q)}
    (hi : fibers'[i]? = some ⟨q, code, none⟩) : fibers[i]? = some ⟨q, code⟩ := by
  obtain ⟨f, hf, hmatches⟩ := h.matched i _ hi
  cases hmatches
  exact hf

/-- The counterpart is left alone while a call is enqueued. -/
theorem enqueue (h : Paired m promises fibers fibers') {i : ℕ} {q : Q} {c : C}
    {k : Except ε (R c) → Async C R ε (A q)} (hi : fibers'[i]? = some ⟨q, .awaiting c k, none⟩)
    {make : T → Q₁} (hc : m.enqueues c = some make) (t : T) :
    Paired m (promises ++ [⟨make t, none⟩]) fibers
      (fibers'.set i ⟨q, .awaiting c k, some promises.length⟩) := by
  have hlt : i < fibers'.length := (List.getElem?_eq_some_iff.mp hi).1
  have hbefore : ∀ (i' j : ℕ) (f₁ : QueuedFiber R ε A), fibers'[i']? = some f₁ →
      f₁.promise = some j → j < promises.length := by
    intro i' j f₁ hi' hf₁
    obtain ⟨f, -, hmatches⟩ := h.matched i' f₁ hi'
    exact hmatches.promise_lt hf₁
  refine ⟨by simp [h.length], fun i' f₁ hi' => ?_, fun j q₁ hj => ?_,
    fun i₁ i₂ j f₁ f₂ hi₁ hi₂ hf₁ hf₂ => ?_⟩
  · rcases getElem?_set_cases hi' with ⟨rfl, rfl⟩ | ⟨-, hi'⟩
    · exact ⟨_, h.own hi, .pending q c k _ make t hc List.getElem?_concat_length⟩
    · obtain ⟨f, hf, hmatches⟩ := h.matched i' f₁ hi'
      exact ⟨f, hf, hmatches.of_promises fun j hj =>
        List.getElem?_append_left (hbefore i' j f₁ hi' hj)⟩
  · rcases getElem?_append_singleton_cases hj with ⟨-, hj⟩ | ⟨rfl, -⟩
    · obtain ⟨i', f₁, hi', hf₁⟩ := h.awaited j q₁ hj
      have hne : i ≠ i' := by
        rintro rfl
        rw [hi] at hi'
        obtain rfl := Option.some.inj hi'
        cases hf₁
      exact ⟨i', f₁, by rw [List.getElem?_set_ne hne, hi'], hf₁⟩
    · exact ⟨i, _, List.getElem?_set_self hlt, rfl⟩
  · rcases getElem?_set_cases hi₁ with ⟨rfl, rfl⟩ | ⟨-, hi₁⟩
    · rcases getElem?_set_cases hi₂ with ⟨rfl, -⟩ | ⟨-, hi₂⟩
      · rfl
      · obtain rfl := Option.some.inj hf₁
        exact absurd (hbefore i₂ _ f₂ hi₂ hf₂) (lt_irrefl _)
    · rcases getElem?_set_cases hi₂ with ⟨rfl, rfl⟩ | ⟨-, hi₂⟩
      · obtain rfl := Option.some.inj hf₂
        exact absurd (hbefore i₁ _ f₁ hi₁ hf₁) (lt_irrefl _)
      · exact h.alone i₁ i₂ j f₁ f₂ hi₁ hi₂ hf₁ hf₂

/-- A fiber that goes on after its promise catches up with its counterpart. -/
theorem settled (h : Paired m promises fibers fibers') {i : ℕ} {q : Q} {c : C}
    {k : Except ε (R c) → Async C R ε (A q)} {j : ℕ} {q₁ : Q₁} {r : Except ε (A₁ q₁)}
    {x : Except ε (R c)} (hi : fibers'[i]? = some ⟨q, .awaiting c k, some j⟩)
    (hj : promises[j]? = some ⟨q₁, some r⟩) (hx : m.answers c q₁ r = some x) :
    Paired m promises fibers (fibers'.set i ⟨q, k x, none⟩) := by
  obtain ⟨f, hf, hmatches⟩ := h.matched i _ hi
  cases hmatches with
  | pending _ _ _ _ make t hc hj' => cases hj.symm.trans hj'
  | answered _ _ _ _ q₂ r₂ x₂ hj' hx' =>
    cases hj.symm.trans hj'
    obtain rfl := Option.some.inj (hx.symm.trans hx')
    have hset : Paired m promises (fibers.set i ⟨q, k x⟩) (fibers'.set i ⟨q, k x, none⟩) :=
      h.set hi fun j' q₁ hj' hnone => by
        obtain rfl := Option.some.inj hj'
        cases hj.symm.trans hnone
    obtain ⟨hlt, hget⟩ := List.getElem?_eq_some_iff.mp hf
    rwa [← hget, List.set_getElem_self] at hset

/-- The counterpart of whoever awaits a promise makes its call at the moment the promise settles. -/
theorem settle (h : Paired m promises fibers fibers') {n : ℕ} {q₁ : Q₁}
    (hn : promises[n]? = some ⟨q₁, none⟩) :
    ∃ i q c k, ∃ (make : T → Q₁) (t : T), q₁ = make t ∧ m.enqueues c = some make ∧
      fibers[i]? = some ⟨q, .awaiting c k⟩ ∧ ∀ r x, m.answers c q₁ r = some x →
        Paired m (promises.set n ⟨q₁, some r⟩) (fibers.set i ⟨q, k x⟩) fibers' := by
  obtain ⟨i, f', hi, hf'⟩ := h.awaited n q₁ hn
  obtain ⟨f, hf, hmatches⟩ := h.matched i f' hi
  cases hmatches with
  | own q code => cases hf'
  | answered q c k j q₂ r x hj hx =>
    obtain rfl := Option.some.inj hf'
    cases hn.symm.trans hj
  | pending q c k j make t hc hj =>
    obtain rfl := Option.some.inj hf'
    cases hn.symm.trans hj
    have hlt : i < fibers.length := (List.getElem?_eq_some_iff.mp hf).1
    have hltn : j < promises.length := (List.getElem?_eq_some_iff.mp hn).1
    refine ⟨i, q, c, k, make, t, rfl, hc, hf, fun r x hx =>
      ⟨by simp [h.length], fun i' f₁ hi' => ?_, fun j' q₂ hj' => ?_, h.alone⟩⟩
    · by_cases hii : i = i'
      · subst hii
        obtain rfl := Option.some.inj (hi.symm.trans hi')
        exact ⟨_, List.getElem?_set_self hlt,
          .answered q c k j _ r x (List.getElem?_set_self hltn) hx⟩
      · rw [List.getElem?_set_ne hii]
        obtain ⟨f, hf, hmatches⟩ := h.matched i' f₁ hi'
        refine ⟨f, hf, hmatches.of_promises fun j' hj' => List.getElem?_set_ne ?_⟩
        rintro rfl
        exact hii (h.alone i i' j _ f₁ hi hi' rfl hj')
    · rcases getElem?_set_cases hj' with ⟨rfl, heq⟩ | ⟨-, hj'⟩
      · cases heq
      · exact h.awaited j' q₂ hj'

theorem requests (h : Paired m promises fibers fibers') :
    fibers.map Fiber.request = fibers'.map QueuedFiber.request := by
  refine List.ext_getElem (by simp [h.length]) fun i hi hi' => ?_
  rw [List.length_map] at hi hi'
  obtain ⟨f, hf, hmatches⟩ := h.matched i _ (List.getElem?_eq_getElem hi')
  rw [List.getElem?_eq_getElem hi] at hf
  rw [List.getElem_map, List.getElem_map, Option.some.inj hf, hmatches.request]

/-- Who has come to a result is not ahead. -/
theorem result (h : Paired m promises fibers fibers') {i : ℕ} {q : Q} {r : Except ε (A q)}
    {promise : Option ℕ} (hi : fibers'[i]? = some ⟨q, .settled r, promise⟩) :
    fibers[i]? = some ⟨q, .settled r⟩ := by
  obtain ⟨f, hf, hmatches⟩ := h.matched i _ hi
  cases hmatches
  exact hf

end Paired

section

variable (m) (act : T' → (c : C) → S' → Option (Except ε (R c) × S'))
  (rel : ℕ → S' → S₁ → S → Prop)

/-- Above, one atomic step does what a call does below. The states are related before the queue
executes its request number `n`. -/
structure Atomic : Prop where
  own : ∀ n s' s₁ s c t x s₂, rel n s' s₁ s → m.enqueues c = none → m.act t c s = some (x, s₂) →
    ∃ t' s₂', act t' c s' = some (x, s₂') ∧ rel n s₂' s₁ s₂
  enqueued : ∀ n s' s₁ s c make t, rel n s' s₁ s → m.enqueues c = some make →
    let y := eval (m.bodyAct (m.plan n)) (m.body (make t)) s₁
    ∃ x t' s₂', m.answers c (make t) y.1 = some x ∧ act t' c s' = some (x, s₂') ∧
      rel (n + 1) s₂' y.2 s

/-- A pool with a queue and its atomic counterpart. -/
structure Simulated (s₁ : S₁) (n : ℕ) (p : Pool R ε A S')
    (p' : QueuedPool R ε A S R₁ A₁ S₁) : Prop where
  le : n ≤ p'.queue.promises.length
  settled : p'.queue.SettledUpTo n
  state : rel n p.state
    (sequential m.body m.bodyAct m.plan s₁ (p'.queue.requests.take n)).state p'.state
  paired : Paired m p'.queue.promises p.fibers p'.fibers
  trace : (p.trace.filter fun e => (m.enqueues e.event.call).isNone).map
    (fun e => (e.fiber, e.event)) = p'.trace

end

variable {act : T' → (c : C) → S' → Option (Except ε (R c) × S')} {rel : ℕ → S' → S₁ → S → Prop}
  {s : S} {s' : S'} {s₁ : S₁} {p' : QueuedPool R ε A S R₁ A₁ S₁}

/-- When every promise is settled, the atomic calls have all been made. -/
theorem Simulated.final {n : ℕ} {p : Pool R ε A S'} (h : Simulated m rel s₁ n p p')
    (hall : ∀ l ∈ p'.queue.links, l.Settled) : p'.queue.requests.take n = p'.queue.requests := by
  refine List.take_of_length_le (Nat.le_of_not_lt fun hlt => ?_)
  rw [SerialQueue.length_requests] at hlt
  have hget := List.getElem?_eq_getElem hlt
  obtain ⟨q, previous, r, tail, hl⟩ := (hall _ (List.mem_of_getElem? hget)).eq
  rw [hl] at hget
  exact lt_irrefl n ((h.settled n _ (SerialQueue.promises_getElem? hget)).mp rfl)

/-- The call whose promise is the next to settle can be made above at once. -/
theorem Simulated.ahead {n : ℕ} {p : Pool R ε A S'} (h : Simulated m rel s₁ n p p')
    (hatomic : Atomic m act rel) {q₁ : Q₁} (hn : p'.queue.promises[n]? = some ⟨q₁, none⟩) :
    let y := eval (m.bodyAct (m.plan n)) (m.body q₁)
      (sequential m.body m.bodyAct m.plan s₁ (p'.queue.requests.take n)).state
    ∃ p₁, Pool.Step m.program m.allowed act p p₁ ∧
      Paired m (p'.queue.promises.set n ⟨q₁, some y.1⟩) p₁.fibers p'.fibers ∧
      rel (n + 1) p₁.state y.2 p'.state ∧
      (p₁.trace.filter fun e => (m.enqueues e.event.call).isNone).map
        (fun e => (e.fiber, e.event)) = p'.trace := by
  obtain ⟨i, q, c, k, make, t, rfl, hc, hi, hpaired⟩ := h.paired.settle hn
  obtain ⟨x, t', s₂', hx, hact, hrel⟩ := hatomic.enqueued _ _ _ _ _ _ t h.state hc
  refine ⟨_, .resume p i q c k t' x s₂' hi hact, hpaired _ x hx, hrel, ?_⟩
  simp [hc, h.trace]

theorem simulated_start (hstart : rel 0 s' s₁ s) :
    Simulated m rel s₁ 0 (Pool.start s') (start s s₁) where
  le := Nat.zero_le _
  settled := by simp [SerialQueue.SettledUpTo, SerialQueue.promises, start, SerialQueue.start]
  state := hstart
  paired := ⟨rfl, by simp [start], by simp [start, SerialQueue.promises, SerialQueue.start],
    by simp [start]⟩
  trace := rfl

/-- A call that enqueues leaves its counterpart where it is. -/
theorem Simulated.enqueue {n : ℕ} {p : Pool R ε A S'} (h : Simulated m rel s₁ n p p') {i : ℕ}
    {q : Q} {c : C} {k : Except ε (R c) → Async C R ε (A q)} {make : T → Q₁}
    (hi : p'.fibers[i]? = some ⟨q, .awaiting c k, none⟩) (hc : m.enqueues c = some make) (t : T) :
    Simulated m rel s₁ n p { p' with
      queue := p'.queue.enqueue (make t)
      fibers := p'.fibers.set i ⟨q, .awaiting c k, some p'.queue.promises.length⟩ } := by
  refine ⟨?_, h.settled.enqueue h.le _, ?_, ?_, h.trace⟩
  · rw [SerialQueue.promises_enqueue, List.length_append]
    exact h.le.trans (Nat.le_add_right _ _)
  · rw [SerialQueue.take_requests_enqueue h.le]
    exact h.state
  · rw [SerialQueue.promises_enqueue]
    exact h.paired.enqueue hi hc t

/-- What happens in the queue settles no promise, or the next one: then the atomic call is made. -/
theorem Simulated.micro {n : ℕ} {p : Pool R ε A S'} (h : Simulated m rel s₁ n p p')
    (hatomic : Atomic m act rel) (hrun : Reachable m (start s s₁) p')
    {queue : SerialQueue R₁ ε A₁ S₁}
    (hmicro : SerialQueue.Micro m.body m.bodyAct m.plan p'.queue queue) :
    ∃ p₁ n₁, Relation.ReflGen (Pool.Step m.program m.allowed act) p p₁ ∧
      Simulated m rel s₁ n₁ p₁ { p' with queue } := by
  obtain ⟨_, _, _, hm⟩ := hmicro.moves
  have hrequests : queue.requests = p'.queue.requests := hm.requests
  obtain hsame | ⟨q₁, hn, hset⟩ :=
    SerialQueue.Reachable.micro_promises (Reachable.queue hrun) hmicro h.settled
  · refine ⟨p, n, .refl, hsame ▸ h.le, fun j o hj => h.settled j o (hsame ▸ hj), ?_,
      hsame ▸ h.paired, h.trace⟩
    rw [hrequests]
    exact h.state
  · obtain ⟨p₁, hp₁, hpaired, hrel, htrace⟩ := h.ahead hatomic hn
    refine ⟨p₁, n + 1, .single hp₁, ?_, h.settled.set hset, ?_, hset ▸ hpaired, htrace⟩
    · rw [hset, List.length_set]
      exact (List.getElem?_eq_some_iff.mp hn).1
    · rw [hrequests, sequential_state_succ _ _ _ _ (SerialQueue.getElem?_requests hn)]
      exact hrel

/-- A step below is at most one above. -/
theorem Simulated.step {n : ℕ} {p : Pool R ε A S'} {p'' : QueuedPool R ε A S R₁ A₁ S₁}
    (h : Simulated m rel s₁ n p p') (hatomic : Atomic m act rel)
    (hrun : Reachable m (start s s₁) p') (hstep : Step m p' p'') :
    ∃ p₁ n₁, Relation.ReflGen (Pool.Step m.program m.allowed act) p p₁ ∧
      Simulated m rel s₁ n₁ p₁ p'' := by
  cases hstep with
  | start q hq =>
    exact ⟨_, n, .single (.start p q hq), h.le, h.settled, h.state,
      h.paired.start q (m.program q), h.trace⟩
  | resume i q c k t x s₂ hi hc hact =>
    obtain ⟨t', s₂', hact', hrel⟩ := hatomic.own _ _ _ _ _ _ _ _ h.state hc hact
    refine ⟨_, n, .single (.resume p i q c k t' x s₂' (h.paired.own hi) hact'), h.le, h.settled,
      hrel, h.paired.set hi (by simp), ?_⟩
    simp [hc, h.trace]
  | settled i q c k j q₁ r x hi hj hx =>
    exact ⟨p, n, .refl, h.le, h.settled, h.state, h.paired.settled hi hj hx, h.trace⟩
  | enqueue i q c k t make hi hc => exact ⟨p, n, .refl, h.enqueue hi hc t⟩
  | micro queue hmicro => exact h.micro hatomic hrun hmicro

/-- If every call below is an atomic step above, so is every run, whatever the interleaving. -/
theorem Reachable.simulation (hatomic : Atomic m act rel) (hstart : rel 0 s' s₁ s)
    (h : Reachable m (start s s₁) p') :
    ∃ p n, Pool.Reachable m.program m.allowed act (Pool.start s') p ∧
      Simulated m rel s₁ n p p' := by
  induction h with
  | refl => exact ⟨_, 0, .refl, simulated_start hstart⟩
  | tail hrun hstep ih =>
    obtain ⟨p, n, hp, hsim⟩ := ih
    obtain ⟨p₁, n₁, hp₁, hsim₁⟩ := hsim.step hatomic hrun hstep
    exact ⟨p₁, n₁, hp.trans hp₁.to_reflTransGen, hsim₁⟩

end QueuedPool

end Async
