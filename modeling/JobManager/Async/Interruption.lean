import JobManager.Async.Linearization

/-! Functions that are stopped in the middle. A serial queue that is stopped anywhere has run its
first requests to their end and the next one part of the way. -/

namespace Async

variable {C : Type} {R : C → Type} {ε α β S Q T : Type} {A : Q → Type}

/-- The states a function passes through from its start to its end. -/
def Passes (act : (c : C) → S → Except ε (R c) × S) : Async C R ε α → S → S → Prop
  | .settled _, s, s' => s' = s
  | .awaiting c k, s, s' => s' = s ∨ Passes act (k (act c s).1) (act c s).2 s'

namespace Passes

variable {act : (c : C) → S → Except ε (R c) × S} {s s' : S}

@[simp] theorem settled (r : Except ε α) :
    Passes act (.settled r : Async C R ε α) s s' ↔ s' = s := .rfl

@[simp] theorem awaiting (c : C) (k : Except ε (R c) → Async C R ε α) :
    Passes act (.awaiting c k) s s' ↔ s' = s ∨ Passes act (k (act c s).1) (act c s).2 s' := .rfl

@[simp] theorem perform (c : C) :
    Passes act (perform c) s s' ↔ s' = s ∨ s' = (act c s).2 := .rfl

theorem here (p : Async C R ε α) (s : S) : Passes act p s s := by
  cases p with
  | settled r => rfl
  | awaiting c k => exact .inl rfl

theorem final (p : Async C R ε α) (s : S) : Passes act p s (eval act p s).2 := by
  induction p generalizing s with
  | settled r => rfl
  | awaiting c k ih => exact .inr (ih _ _)

/-- A sequence is stopped in its first part, or in the second part after the first one. -/
theorem bind {p : Async C R ε α} {f : α → Async C R ε β} (h : Passes act (p >>= f) s s') :
    Passes act p s s' ∨ ∃ a s₁, eval act p s = (.ok a, s₁) ∧ Passes act (f a) s₁ s' := by
  induction p generalizing s with
  | settled r =>
    cases r with
    | ok a => exact .inr ⟨a, s, rfl, h⟩
    | error e => exact .inl h
  | awaiting c k ih =>
    rcases h with h | h
    · exact .inl (.inl h)
    · exact (ih _ h).imp_left .inr

theorem tryFinally {p : Async C R ε α} {q : Async C R ε Unit}
    (h : Passes act (p.tryFinally q) s s') :
    Passes act p s s' ∨ Passes act q (eval act p s).2 s' := by
  induction p generalizing s with
  | settled r =>
    rw [tryFinally_settled] at h
    rcases h.bind with h | ⟨_, s₁, heval, h⟩
    · exact .inr h
    · -- the result itself is no further call
      obtain rfl : s' = s₁ := h
      have hfinal : Passes act q s (eval act q s).2 := final q s
      rw [heval] at hfinal
      exact .inr hfinal
  | awaiting c k ih =>
    rcases h with h | h
    · exact .inl (.inl h)
    · exact (ih _ h).imp_left .inr

/-- What every allowed call keeps holds wherever the function is stopped. -/
theorem keeps {guar : C → Prop} {post : Except ε α → List (Event R ε) → Prop}
    (inv : S → Prop) {p : Async C R ε α} {h : List (Event R ε)}
    (hp : Conforms (fun _ c => guar c) post p h)
    (hkeep : ∀ c s, guar c → inv s → inv (act c s).2) (hs : inv s) (hpass : Passes act p s s') :
    inv s' := by
  induction p generalizing h s with
  | settled r =>
    obtain rfl := hpass
    exact hs
  | awaiting c k ih =>
    rcases hpass with rfl | hpass
    · exact hs
    · exact ih _ (hp.2 _) (hkeep c s hp.1 hs) hpass

end Passes

namespace SerialQueue

variable {program : (q : Q) → Async C R ε (A q)} {act : T → (c : C) → S → Except ε (R c) × S}
  {plan : ℕ → T} {s : S} {c c' : SerialQueue R ε A S}

/-- What every call keeps holds at every point of every run. -/
theorem Reachable.keeps (inv : S → Prop) (hkeep : ∀ t c s, inv s → inv (act t c s).2)
    (hs : inv s) (h : Reachable program act plan (start s) c) :
    inv c.state ∧ ∀ e ∈ c.trace, inv e.before := by
  induction h with
  | refl => exact ⟨hs, by simp [start]⟩
  | tail _ hstep ih =>
    cases hstep with
    | enqueue q => exact ih
    | micro hmicro =>
      cases hmicro with
      | start _ _ _ _ _ | settle _ _ _ _ _ | release _ _ _ _ _ => exact ih
      | answer i q previous call k hi =>
        refine ⟨hkeep _ _ _ ih.1, fun e he => ?_⟩
        rcases List.mem_append.mp he with he | he
        · exact ih.2 e he
        · obtain rfl := List.mem_singleton.mp he
          exact ih.1

/-- The rest of the running request passes through states of the request run by itself. -/
theorem Reachable.passes (h : Reachable program act plan (start s) c) {i : ℕ} {q : Q}
    {previous : Option ℕ} {code : Async C R ε (A q)}
    (hi : c.links[i]? = some ⟨q, previous, .running code⟩) {s' : S}
    (hpass : Passes (act (plan i)) code c.state s') :
    Passes (act (plan i)) (program q)
      (sequential program act plan s (c.requests.take i)).state s' := by
  induction h generalizing i q previous code s' with
  | refl => simp [start] at hi
  | @tail c c' hrun hstep ih =>
    cases hstep with
    | enqueue q' =>
      rcases enqueue_cases hi with hi | ⟨-, hl⟩
      · have hle := (List.getElem?_eq_some_iff.mp hi).1.le
        rw [requests, SerialQueue.enqueue, List.map_append,
          List.take_append_of_le_length (by simpa using hle)]
        exact ih hi hpass
      · cases hl
    | micro hmicro =>
      have hrequests : c'.requests = c.requests := by
        obtain ⟨_, _, _, hm⟩ := hmicro.moves
        exact hm.requests
      rw [hrequests]
      have hordered := Reachable.ordered hrun
      cases hmicro with
      | start j q' previous' hj htail =>
        by_cases hij : j = i
        · subst hij
          rw [List.getElem?_set_self (List.getElem?_eq_some_iff.mp hj).1] at hi
          cases hi
          have hidle := hordered.idle_of_fulfilled hj rfl (hordered.previous j _ hj ▸ htail)
          rw [← ((Reachable.simulates hrun).idle j hidle).1]
          exact hpass
        · rw [List.getElem?_set_ne hij] at hi
          exact ih hi hpass
      | answer j q' previous' call k hj =>
        by_cases hij : j = i
        · subst hij
          rw [List.getElem?_set_self (List.getElem?_eq_some_iff.mp hj).1] at hi
          cases hi
          exact ih hj (.inr hpass)
        · rw [List.getElem?_set_ne hij] at hi
          exact absurd (hordered.exclusive hj hi ⟨_, rfl⟩ ⟨_, rfl⟩) hij
      | settle j q' previous' r hj | release j q' previous' r hj =>
        by_cases hij : j = i
        · subst hij
          rw [List.getElem?_set_self (List.getElem?_eq_some_iff.mp hj).1] at hi
          cases hi
        · rw [List.getElem?_set_ne hij] at hi
          exact ih hi hpass

/-- Where the queue is stopped, `n` requests have run to their end, and at most one more has begun
and not come to its end. -/
theorem Reachable.interrupted (h : Reachable program act plan (start s) c) :
    ∃ n ≤ c.links.length, (∀ (i : ℕ) l, c.links[i]? = some l → (l.Settled ↔ i < n)) ∧
      let x := sequential program act plan s (c.requests.take n)
      (c.state = x.state ∨ ∃ q, c.requests[n]? = some q ∧
        Passes (act (plan n)) (program q) x.state c.state) := by
  have hordered := Reachable.ordered h
  by_cases hrun : ∃ l ∈ c.links, l.Running
  · obtain ⟨l, hl, hrunning⟩ := hrun
    obtain ⟨n, hn⟩ := List.getElem?_of_mem hl
    obtain ⟨q, previous, code, rfl⟩ := hrunning.eq
    refine ⟨n, (List.getElem?_eq_some_iff.mp hn).1.le, fun i m hm => ⟨fun hsettled => ?_,
      fun hlt => ?_⟩, .inr ⟨q, requests_getElem? hn, h.passes hn (.here _ _)⟩⟩
    · by_contra hle
      rcases eq_or_lt_of_le (not_lt.mp hle) with rfl | hlt
      · obtain rfl := Option.some.inj (hn.symm.trans hm)
        exact Link.not_settled_of_running hrunning hsettled
      · obtain ⟨r, tail, hr⟩ := hsettled
        have hreleased := hordered.order n i _ m hlt hn hm (by
          intro hw
          cases hw.symm.trans hr)
        exact Link.not_settled_of_running hrunning (Link.settled_of_released hreleased)
    · refine Link.settled_of_released (hordered.order i n m _ hlt hm hn ?_)
      rintro ⟨⟩
  · obtain ⟨n, hn⟩ := hordered.exists_idle fun l hl hrunning => hrun ⟨l, hl, hrunning⟩
    refine ⟨n, hn.le, fun i l hi => ⟨fun hsettled => ?_, hn.settled i l hi⟩,
      .inl ((Reachable.simulates h).idle n hn).1⟩
    by_contra hle
    obtain ⟨r, tail, hr⟩ := hsettled
    cases (hn.waiting i l hi (not_lt.mp hle)).symm.trans hr

end SerialQueue

end Async
