import JobManager.Async.QueuedPool

/-! Functions that share a queue neither block each other nor go on for ever: a run without new
requests ends, and it ends with a result for every request. -/

namespace Async

variable {C₁ : Type} {R₁ : C₁ → Type} {ε S₁ Q₁ T₁ : Type} {A₁ : Q₁ → Type}
  {C : Type} {R : C → Type} {S Q T : Type} {A : Q → Type}

/-- The same, when nobody asks for anything any more. -/
def QueuedProgram.closed (m : QueuedProgram R ε A S T R₁ A₁ S₁ T₁) :
    QueuedProgram R ε A S T R₁ A₁ S₁ T₁ :=
  { m with allowed := fun _ => False }

namespace QueuedFiber

/-- The stages of a fiber in the order it passes through them. -/
inductive Later : QueuedFiber R ε A → QueuedFiber R ε A → Prop where
  | resume (q : Q) (c : C) (k : Except ε (R c) → Async C R ε (A q)) (x : Except ε (R c))
      (promise : Option ℕ) : Later ⟨q, k x, none⟩ ⟨q, .awaiting c k, promise⟩
  | enqueue (q : Q) (code : Async C R ε (A q)) (j : ℕ) : Later ⟨q, code, some j⟩ ⟨q, code, none⟩

/-- The induction is on the code that is left. -/
theorem acc_later (q : Q) (code : Async C R ε (A q)) (promise : Option ℕ) :
    Acc Later (⟨q, code, promise⟩ : QueuedFiber R ε A) := by
  induction code generalizing promise with
  | settled r =>
    have hlast : ∀ j, Acc Later (⟨q, .settled r, some j⟩ : QueuedFiber R ε A) :=
      fun j => ⟨_, fun f hf => nomatch hf⟩
    cases promise with
    | some j => exact hlast j
    | none =>
      refine ⟨_, fun f hf => ?_⟩
      cases hf
      exact hlast _
  | awaiting c k ih =>
    have henqueued : ∀ j, Acc Later (⟨q, .awaiting c k, some j⟩ : QueuedFiber R ε A) := by
      refine fun j => ⟨_, fun f hf => ?_⟩
      cases hf
      exact ih _ none
    cases promise with
    | some j => exact henqueued j
    | none =>
      refine ⟨_, fun f hf => ?_⟩
      cases hf with
      | resume _ _ _ x _ => exact ih x none
      | enqueue _ _ j => exact henqueued j

theorem later_wellFounded : WellFounded (Later : QueuedFiber R ε A → QueuedFiber R ε A → Prop) :=
  ⟨fun ⟨q, code, promise⟩ => acc_later q code promise⟩

end QueuedFiber

namespace QueuedPool

variable {m : QueuedProgram R ε A S T R₁ A₁ S₁ T₁} {s : S} {s₁ : S₁}
  {p : QueuedPool R ε A S R₁ A₁ S₁}

/-- Every step advances one fiber, or else the queue. -/
theorem step_wellFounded :
    WellFounded fun p' p : QueuedPool R ε A S R₁ A₁ S₁ => Step m.closed p p' := by
  have hfibers : WellFounded (Relation.CutExpand
      (QueuedFiber.Later : QueuedFiber R ε A → QueuedFiber R ε A → Prop)) :=
    QueuedFiber.later_wellFounded.cutExpand
  have hqueue : WellFounded fun c' c : SerialQueue R₁ ε A₁ S₁ =>
      SerialQueue.Micro m.body m.bodyAct m.plan c c' := SerialQueue.micro_wellFounded
  refine Subrelation.wf (fun {p' p} h => ?_)
    (InvImage.wf (fun p => ((p.fibers : Multiset (QueuedFiber R ε A)), p.queue))
      (hfibers.prod_lex hqueue))
  cases h with
  | start q hq => exact hq.elim
  | resume i q c k t x s hi hc hact =>
    exact .left _ _ (SerialQueue.cutExpand_set hi (.resume q c k x none))
  | enqueue i q c k t make hi hc =>
    exact .left _ _ (SerialQueue.cutExpand_set hi (.enqueue q _ _))
  | micro queue hmicro => exact .right _ hmicro
  | settled i q c k j q₁ r x hi hj hx =>
    exact .left _ _ (SerialQueue.cutExpand_set hi (.resume q c k x (some j)))

/-- The promise that a fiber awaits is that of its call. -/
theorem Reachable.awaits (h : Reachable m (start s s₁) p) {i j : ℕ} {q : Q}
    {code : Async C R ε (A q)} (hi : p.fibers[i]? = some ⟨q, code, some j⟩) :
    ∃ c k make t, code = .awaiting c k ∧ m.enqueues c = some make ∧
      p.queue.requests[j]? = some (make t) := by
  induction h generalizing i j q code with
  | refl => simp [start] at hi
  | @tail p _ hrun hstep ih =>
    cases hstep with
    | start q' hq' =>
      rcases getElem?_append_singleton_cases hi with ⟨-, hi⟩ | ⟨-, heq⟩
      · exact ih hi
      · cases heq
    | resume i' _ _ _ _ _ _ _ _ _ | settled i' _ _ _ _ _ _ _ _ _ _ =>
      rcases getElem?_set_cases hi with ⟨-, heq⟩ | ⟨-, hi⟩
      · cases heq
      · exact ih hi
    | enqueue i' q' c k t make hi' hc =>
      rw [SerialQueue.requests_enqueue]
      rcases getElem?_set_cases hi with ⟨-, heq⟩ | ⟨-, hi⟩
      · cases heq
        refine ⟨c, k, make, t, rfl, hc, ?_⟩
        rw [SerialQueue.length_promises, ← SerialQueue.length_requests]
        exact List.getElem?_concat_length
      · obtain ⟨c', k', make', t', hcode, hc', hj⟩ := ih hi
        refine ⟨c', k', make', t', hcode, hc', ?_⟩
        rwa [List.getElem?_append_left (List.getElem?_eq_some_iff.mp hj).1]
    | micro queue hmicro =>
      obtain ⟨_, _, _, hm⟩ := hmicro.moves
      rw [hm.requests]
      exact ih hi

/-- Nothing can happen any more only when every request has come to a result. -/
theorem Reachable.progress
    (hact : ∀ c s, m.enqueues c = none → ∃ t x s', m.act t c s = some (x, s'))
    (hanswers : ∀ c make t r, m.enqueues c = some make → ∃ x, m.answers c (make t) r = some x)
    (ht : Nonempty T) (h : Reachable m (start s s₁) p)
    (hstuck : ∀ p', ¬ Step m.closed p p') : ∀ f ∈ p.fibers, ∃ r, f.code = .settled r := by
  intro f hf
  obtain ⟨i, hi⟩ := List.getElem?_of_mem hf
  obtain ⟨q, code, promise⟩ := f
  cases code with
  | settled r => exact ⟨r, rfl⟩
  | awaiting c k =>
    exfalso
    cases promise with
    | none =>
      cases hc : m.enqueues c with
      | none =>
        obtain ⟨t, x, s', hx⟩ := hact c p.state hc
        exact hstuck _ (.resume p i q c k t x s' hi hc hx)
      | some make =>
        obtain ⟨t⟩ := ht
        exact hstuck _ (.enqueue p i q c k t make hi hc)
    | some j =>
      obtain ⟨c', k', make, t, heq, hc, hj⟩ := h.awaits hi
      cases heq
      -- the queue cannot go on either, so the promise has settled
      have hreleased := h.queue.ordered.progress fun queue hmicro =>
        hstuck _ (.micro p queue hmicro)
      rw [SerialQueue.requests, List.getElem?_map] at hj
      obtain ⟨l, hl, hrequest⟩ := Option.map_eq_some_iff.mp hj
      obtain ⟨q₁, previous, r, tail, rfl⟩ :=
        (Link.settled_of_released (hreleased l (List.mem_of_getElem? hl))).eq
      obtain rfl := hrequest
      obtain ⟨x, hx⟩ := hanswers c make t r hc
      exact hstuck _ (.settled p i q c k j _ r x hi (SerialQueue.promises_getElem? hl) hx)

end QueuedPool

end Async
