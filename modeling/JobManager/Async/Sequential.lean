import JobManager.Async.Pool

/-! Async functions run one after the other, each to its end before the next one starts. -/

namespace Async

variable {C : Type} {R : C → Type} {ε α β S Q T : Type} {A : Q → Type}

/-- Run to the end over a state: every call is answered by `act`. -/
def eval (act : (c : C) → S → Except ε (R c) × S) : Async C R ε α → S → Except ε α × S
  | .settled r, s => (r, s)
  | .awaiting c k, s => eval act (k (act c s).1) (act c s).2

section Eval

variable (act : (c : C) → S → Except ε (R c) × S)

@[simp] theorem eval_settled (r : Except ε α) (s : S) : eval act (.settled r) s = (r, s) := rfl

@[simp] theorem eval_awaiting (c : C) (k : Except ε (R c) → Async C R ε α) (s : S) :
    eval act (.awaiting c k) s = eval act (k (act c s).1) (act c s).2 := rfl

@[simp] theorem eval_perform (c : C) (s : S) : eval act (perform c) s = act c s := rfl

/-- `await p`, then the rest of the function unless `p` rejects. -/
theorem eval_bind (p : Async C R ε α) (f : α → Async C R ε β) (s : S) :
    eval act (p >>= f) s = match eval act p s with
      | (.ok a, s') => eval act (f a) s'
      | (.error e, s') => (.error e, s') := by
  induction p generalizing s with
  | settled r => cases r <;> rfl
  | awaiting c k ih => exact ih _ _

theorem eval_tryCatch (p : Async C R ε α) (f : ε → Async C R ε α) (s : S) :
    eval act (p.tryCatch f) s = match eval act p s with
      | (.ok a, s') => (.ok a, s')
      | (.error e, s') => eval act (f e) s' := by
  induction p generalizing s with
  | settled r => cases r <;> rfl
  | awaiting c k ih => exact ih _ _

theorem eval_tryFinally (p : Async C R ε α) (q : Async C R ε Unit) (s : S) :
    eval act (p.tryFinally q) s = match eval act q (eval act p s).2 with
      | (.ok _, s') => ((eval act p s).1, s')
      | (.error e, s') => (.error e, s') := by
  induction p generalizing s with
  | settled r =>
    rw [tryFinally_settled, eval_bind, eval_settled]
    cases eval act q s with | mk r' s' => cases r' <;> rfl
  | awaiting c k ih => exact ih _ _

/-- The state a `try`/`finally` leaves is that of the `finally` block. -/
theorem eval_tryFinally_state (p : Async C R ε α) (q : Async C R ε Unit) (s : S) :
    (eval act (p.tryFinally q) s).2 = (eval act q (eval act p s).2).2 := by
  rw [eval_tryFinally]
  split
  · next h => rw [h]
  · next h => rw [h]

/-- The calls of one function run to its end, as entries of a trace. -/
def calls (i : ℕ) (q : Q) : Async C R ε α → S → List (Entry R ε Q S)
  | .settled _, _ => []
  | .awaiting c k, s =>
    ⟨i, q, ⟨c, (act c s).1⟩, s, (act c s).2⟩ :: calls i q (k (act c s).1) (act c s).2

@[simp] theorem calls_settled (i : ℕ) (q : Q) (r : Except ε α) (s : S) :
    calls act i q (.settled r : Async C R ε α) s = [] := rfl

@[simp] theorem calls_awaiting (i : ℕ) (q : Q) (c : C) (k : Except ε (R c) → Async C R ε α)
    (s : S) : calls act i q (.awaiting c k) s =
      ⟨i, q, ⟨c, (act c s).1⟩, s, (act c s).2⟩ ::
        calls act i q (k (act c s).1) (act c s).2 := rfl

@[simp] theorem calls_perform (i : ℕ) (q : Q) (c : C) (s : S) :
    calls act i q (perform c) s = [⟨i, q, ⟨c, (act c s).1⟩, s, (act c s).2⟩] := rfl

theorem calls_bind (i : ℕ) (q : Q) (p : Async C R ε α) (f : α → Async C R ε β) (s : S) :
    calls act i q (p >>= f) s = calls act i q p s ++ match eval act p s with
      | (.ok a, s') => calls act i q (f a) s'
      | (.error _, _) => [] := by
  induction p generalizing s with
  | settled r => cases r <;> rfl
  | awaiting c k ih => exact congrArg _ (ih _ _)

theorem calls_tryFinally (i : ℕ) (q : Q) (p : Async C R ε α) (p' : Async C R ε Unit) (s : S) :
    calls act i q (p.tryFinally p') s =
      calls act i q p s ++ calls act i q p' (eval act p s).2 := by
  induction p generalizing s with
  | settled r =>
    rw [tryFinally_settled, calls_bind]
    cases eval act p' s with | mk r' s' => cases r' <;> simp
  | awaiting c k ih => exact congrArg _ (ih _ _)

variable {act} {guar : C → Prop} {h : List (Event R ε)}
  {post : Except ε α → List (Event R ε) → Prop} {p : Async C R ε α}

/-- Every call of the function is answered by `act` at the state it is made in. -/
theorem exists_of_mem_calls {i : ℕ} {q : Q} {s : S} {e : Entry R ε Q S}
    (he : e ∈ calls act i q p s) : ∃ c s', e = ⟨i, q, ⟨c, (act c s').1⟩, s', (act c s').2⟩ := by
  induction p generalizing s with
  | settled r => cases he
  | awaiting c k ih =>
    rcases List.mem_cons.mp he with rfl | he
    · exact ⟨c, s, rfl⟩
    · exact ih _ he

/-- The events of a run do not depend on who makes the calls. -/
theorem map_event_calls (i j : ℕ) (q q' : Q) (s : S) :
    (calls act i q p s).map Entry.event = (calls act j q' p s).map Entry.event := by
  induction p generalizing s with
  | settled r => rfl
  | awaiting c k ih => exact congrArg (List.cons _) (ih _ _)

/-- What a function conforms to whatever the answers are holds of its run. -/
theorem Conforms.eval_post {guar : List (Event R ε) → C → Prop} (hp : Conforms guar post p h)
    (i : ℕ) (q : Q) (s : S) :
    post (Async.eval act p s).1 (h ++ (calls act i q p s).map Entry.event) := by
  induction p generalizing h s with
  | settled r => simpa [Conforms] using hp
  | awaiting c k ih => simpa using ih _ (hp.2 (act c s).1) (act c s).2

/-- A view of the state that each call updates by its event is updated by the events of the run. -/
theorem eval_foldl {V : Type} (view : S → V) {f : V → Event R ε → V}
    (hview : ∀ c s, view (act c s).2 = f (view s) ⟨c, (act c s).1⟩) (i : ℕ) (q : Q) (s : S) :
    view (Async.eval act p s).2 = ((calls act i q p s).map Entry.event).foldl f (view s) := by
  induction p generalizing s with
  | settled r => rfl
  | awaiting c k ih => simpa [hview] using ih (act c s).1 (act c s).2

/-- A function that makes only certain calls makes only these. -/
theorem Conforms.mem_calls (hp : Conforms (fun _ c => guar c) post p h) {i : ℕ} {q : Q} {s : S} :
    ∀ e ∈ calls act i q p s, guar e.event.call := by
  induction p generalizing h s with
  | settled r => simp
  | awaiting c k ih =>
    intro e he
    rcases List.mem_cons.mp he with rfl | he
    · exact hp.1
    · exact ih _ (hp.2 _) e he

/-- What every allowed call keeps, the whole function keeps. -/
theorem Conforms.eval {inv : S → Prop} (hp : Conforms (fun _ c => guar c) post p h)
    (hkeep : ∀ c s, guar c → inv s → inv (act c s).2) {s : S} (hs : inv s) :
    inv (Async.eval act p s).2 := by
  induction p generalizing h s with
  | settled r => exact hs
  | awaiting c k ih => exact ih _ (hp.2 _) (hkeep c s hp.1 hs)

end Eval

/-- What a sequence of requests has led to: a result for each, the state and all calls. -/
structure Execution (R : C → Type) (ε : Type) (A : Q → Type) (S : Type) where
  results : List ((q : Q) × Except ε (A q))
  state : S
  trace : List (Entry R ε Q S)

section Sequential

variable (program : (q : Q) → Async C R ε (A q)) (act : T → (c : C) → S → Except ε (R c) × S)
  (plan : ℕ → T)

/-- One more request, run to its end. -/
def Execution.next (x : Execution R ε A S) (q : Q) : Execution R ε A S :=
  let i := x.results.length
  let (r, s) := eval (act (plan i)) (program q) x.state
  ⟨x.results ++ [⟨q, r⟩], s, x.trace ++ calls (act (plan i)) i q (program q) x.state⟩

/-- The sequential execution; `plan i` answers the calls of the request with number `i`. -/
def sequential (s : S) (qs : List Q) : Execution R ε A S :=
  qs.foldl (Execution.next program act plan) ⟨[], s, []⟩

variable (s : S)

@[simp] theorem sequential_nil :
    sequential program act plan s [] = (⟨[], s, []⟩ : Execution R ε A S) := rfl

@[simp] theorem sequential_append_singleton (qs : List Q) (q : Q) :
    sequential program act plan s (qs ++ [q]) =
      (sequential program act plan s qs).next program act plan q := by
  simp [sequential]

@[simp] theorem length_sequential (qs : List Q) :
    (sequential program act plan s qs).results.length = qs.length := by
  induction qs using List.reverseRecOn with
  | nil => rfl
  | append_singleton qs q ih => simp [Execution.next, ih]

theorem sequential_take_succ {qs : List Q} {i : ℕ} {q : Q} (h : qs[i]? = some q) :
    sequential program act plan s (qs.take (i + 1)) =
      (sequential program act plan s (qs.take i)).next program act plan q := by
  rw [List.take_add_one, h, Option.toList_some, sequential_append_singleton]

/-- An element of a list with one more at its end. -/
theorem getElem?_append_singleton_cases {l : List Q} {a b : Q} {i : ℕ}
    (h : (l ++ [a])[i]? = some b) : (i < l.length ∧ l[i]? = some b) ∨ (i = l.length ∧ a = b) := by
  rcases Nat.lt_or_ge i l.length with hi | hi
  · rw [List.getElem?_append_left hi] at h
    exact .inl ⟨hi, h⟩
  · rw [List.getElem?_append_right hi, List.getElem?_singleton] at h
    split at h
    · exact .inr ⟨by omega, Option.some.inj h⟩
    · cases h

/-- The result of each request is that of its program at the state its predecessors left. -/
theorem sequential_results {qs : List Q} {i : ℕ} {q : Q} (h : qs[i]? = some q) :
    (sequential program act plan s qs).results[i]? = some ⟨q,
      (eval (act (plan i)) (program q)
        (sequential program act plan s (qs.take i)).state).1⟩ := by
  induction qs using List.reverseRecOn with
  | nil => simp at h
  | append_singleton qs q' ih =>
    rw [sequential_append_singleton, Execution.next]
    rcases getElem?_append_singleton_cases h with ⟨hi, h⟩ | ⟨rfl, rfl⟩
    · rw [List.getElem?_append_left (by simpa using hi), ih h,
        List.take_append_of_le_length hi.le]
    · simp

theorem sequential_state_succ {qs : List Q} {i : ℕ} {q : Q} (h : qs[i]? = some q) :
    (sequential program act plan s (qs.take (i + 1))).state =
      (eval (act (plan i)) (program q) (sequential program act plan s (qs.take i)).state).2 := by
  obtain ⟨hi, -⟩ := List.getElem?_eq_some_iff.mp h
  rw [sequential_take_succ _ _ _ _ h, Execution.next, length_sequential, List.length_take,
    min_eq_left hi.le]

theorem sequential_trace_append (qs qs' : List Q) :
    (sequential program act plan s qs).trace <+:
      (sequential program act plan s (qs ++ qs')).trace := by
  induction qs' using List.reverseRecOn with
  | nil => simp
  | append_singleton qs' q ih =>
    rw [← List.append_assoc, sequential_append_singleton]
    exact ih.trans (List.prefix_append _ _)

theorem sequential_fiber_lt (qs : List Q) :
    ∀ e ∈ (sequential program act plan s qs).trace, e.fiber < qs.length := by
  induction qs using List.reverseRecOn with
  | nil => simp
  | append_singleton qs q ih =>
    intro e he
    rw [sequential_append_singleton] at he
    rw [List.length_append, List.length_singleton]
    rcases List.mem_append.mp he with he | he
    · exact (ih e he).trans (Nat.lt_succ_self _)
    · obtain ⟨c, s', rfl⟩ := exists_of_mem_calls he
      simp

/-- The calls of one request are those of its program at the state its predecessors left. -/
theorem sequential_calls {qs : List Q} {i : ℕ} {q : Q} (h : qs[i]? = some q) :
    (sequential program act plan s qs).trace.filter (·.fiber = i) =
      calls (act (plan i)) i q (program q) (sequential program act plan s (qs.take i)).state := by
  induction qs using List.reverseRecOn with
  | nil => simp at h
  | append_singleton qs q' ih =>
    have hown : ∀ e ∈ calls (act (plan qs.length)) qs.length q' (program q')
        (sequential program act plan s qs).state, e.fiber = qs.length := by
      intro e he
      obtain ⟨c, s', rfl⟩ := exists_of_mem_calls he
      rfl
    rw [sequential_append_singleton, Execution.next, List.filter_append]
    simp only [length_sequential]
    rcases getElem?_append_singleton_cases h with ⟨hi, h⟩ | ⟨rfl, rfl⟩
    · rw [ih h, List.take_append_of_le_length hi.le, List.append_right_eq_self.mpr]
      simp only [List.filter_eq_nil_iff, decide_eq_true_eq]
      intro e he
      rw [hown e he]
      exact hi.ne'
    · rw [List.filter_eq_nil_iff.mpr, List.filter_eq_self.mpr]
      · simp
      · simpa using hown
      · simpa using fun e he => (sequential_fiber_lt program act plan s qs e he).ne

end Sequential

end Async
