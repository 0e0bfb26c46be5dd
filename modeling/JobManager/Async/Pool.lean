import JobManager.Async.Conforms

/-! Async functions in progress at once over a shared state: every call is atomic, and the calls
of different functions interleave in any order. -/

namespace Async

/-- An async function in progress, with the request it was started for. -/
structure Fiber {C : Type} (R : C → Type) (ε : Type) {Q : Type} (A : Q → Type) where
  request : Q
  code : Async C R ε (A request)

/-- An answered call: who made it, and the state around it. -/
structure Entry {C : Type} (R : C → Type) (ε Q S : Type) where
  fiber : ℕ
  request : Q
  event : Event R ε
  before : S
  after : S

/-- Fibers in the order they were started, the state they share, and the calls answered so far. -/
structure Pool {C : Type} (R : C → Type) (ε : Type) {Q : Type} (A : Q → Type) (S : Type) where
  state : S
  fibers : List (Fiber R ε A)
  trace : List (Entry R ε Q S)

variable {C : Type} {R : C → Type} {ε S Q T : Type} {A : Q → Type}

/-- The calls of one fiber. -/
def history (i : ℕ) (trace : List (Entry R ε Q S)) : List (Event R ε) :=
  (trace.filter fun e => e.fiber = i).map Entry.event

@[simp] theorem history_nil (i : ℕ) : history i ([] : List (Entry R ε Q S)) = [] := rfl

@[simp] theorem history_append (i : ℕ) (t t' : List (Entry R ε Q S)) :
    history i (t ++ t') = history i t ++ history i t' := by simp [history]

theorem history_singleton (i : ℕ) (e : Entry R ε Q S) :
    history i [e] = if e.fiber = i then [e.event] else [] := by
  unfold history
  split <;> simp_all

theorem mem_history {trace : List (Entry R ε Q S)} {e : Entry R ε Q S} (h : e ∈ trace) :
    e.event ∈ history e.fiber trace :=
  List.mem_map_of_mem (List.mem_filter.mpr ⟨h, by simp⟩)

theorem mem_of_mem_history {i : ℕ} {trace : List (Entry R ε Q S)} {event : Event R ε}
    (h : event ∈ history i trace) : ∃ e ∈ trace, e.fiber = i ∧ e.event = event := by
  obtain ⟨e, he, rfl⟩ := List.mem_map.mp h
  obtain ⟨he, hi⟩ := List.mem_filter.mp he
  exact ⟨e, he, of_decide_eq_true hi, rfl⟩

/-- A count over the trace is the sum of the counts over the histories. -/
theorem sum_history (f : Event R ε → ℕ) {n : ℕ} {trace : List (Entry R ε Q S)}
    (h : ∀ e ∈ trace, e.fiber < n) : (trace.map fun e => f e.event).sum =
      ∑ i ∈ Finset.range n, ((history i trace).map f).sum := by
  induction trace with
  | nil => simp
  | cons e trace ih =>
    have hcons : ∀ i, ((history i (e :: trace)).map f).sum =
        (if e.fiber = i then f e.event else 0) + ((history i trace).map f).sum := by
      intro i
      rw [← List.singleton_append, history_append, history_singleton]
      split <;> simp
    simp only [hcons, Finset.sum_add_distrib, List.map_cons, List.sum_cons]
    rw [ih fun e he => h e (List.mem_cons_of_mem _ he), Finset.sum_ite_eq,
      if_pos (Finset.mem_range.mpr (h e List.mem_cons_self))]

/-- What the calls of a trace yield is what those of the histories yield, up to order. -/
theorem perm_flatMap_history {β : Type} (f : Event R ε → List β) {n : ℕ}
    {trace : List (Entry R ε Q S)} (h : ∀ e ∈ trace, e.fiber < n) :
    (trace.flatMap fun e => f e.event).Perm
      ((List.range n).flatMap fun i => (history i trace).flatMap f) := by
  classical
  refine List.perm_iff_count.mpr fun x => ?_
  rw [List.count_flatMap, List.count_flatMap]
  simp only [Function.comp_def, List.count_flatMap]
  exact sum_history (fun event => (f event).count x) h

/-- What every function has no more often than something else, the trace has no more often. -/
theorem count_flatMap_history_le {β : Type} [DecidableEq β] (f g : Event R ε → List β) (x : β)
    {trace : List (Entry R ε Q S)} (h : ∀ i, ((history i trace).flatMap f).count x ≤
      ((history i trace).flatMap g).count x) :
    (trace.flatMap fun e => f e.event).count x ≤ (trace.flatMap fun e => g e.event).count x := by
  obtain ⟨n, hn⟩ : ∃ n, ∀ e ∈ trace, e.fiber < n :=
    ⟨(trace.map Entry.fiber).sum + 1, fun e he =>
      Nat.lt_succ_of_le (List.single_le_sum (by simp) _ (List.mem_map_of_mem he))⟩
  rw [(perm_flatMap_history f hn).count_eq, (perm_flatMap_history g hn).count_eq,
    List.count_flatMap, List.count_flatMap]
  exact List.sum_le_sum fun i _ => h i

/-- A sequence of answered calls that `act` allows from a start state, each made under `guar`. -/
inductive Valid (allowed : Q → Prop) (act : T → (c : C) → S → Option (Except ε (R c) × S))
    (guar : Q → List (Event R ε) → C → Prop) (s : S) : List (Entry R ε Q S) → S → Prop where
  | nil : Valid allowed act guar s [] s
  | snoc {trace : List (Entry R ε Q S)} (e : Entry R ε Q S)
      (h : Valid allowed act guar s trace e.before) (hq : allowed e.request) (t : T)
      (hact : act t e.event.call e.before = some (e.event.answer, e.after))
      (hguar : guar e.request (history e.fiber trace) e.event.call) :
      Valid allowed act guar s (trace ++ [e]) e.after

section Valid

variable {allowed : Q → Prop} {act : T → (c : C) → S → Option (Except ε (R c) × S)}
  {guar : Q → List (Event R ε) → C → Prop} {s s' : S} {trace : List (Entry R ε Q S)}

/-- What one entry of a valid trace is, after the entries before it. -/
structure Occurs (allowed : Q → Prop) (act : T → (c : C) → S → Option (Except ε (R c) × S))
    (guar : Q → List (Event R ε) → C → Prop) (s : S) (before : List (Entry R ε Q S))
    (e : Entry R ε Q S) : Prop where
  valid : Valid allowed act guar s before e.before
  allowed : allowed e.request
  act : ∃ t, act t e.event.call e.before = some (e.event.answer, e.after)
  guar : guar e.request (history e.fiber before) e.event.call

theorem Occurs.snoc {e : Entry R ε Q S} (h : Occurs allowed act guar s trace e) :
    Valid allowed act guar s (trace ++ [e]) e.after :=
  let ⟨t, hact⟩ := h.act
  .snoc e h.valid h.allowed t hact h.guar

/-- Induction along a valid trace, with all that is known of the entry it goes on with. -/
@[elab_as_elim]
theorem Valid.occurs_induction
    {motive : ∀ s' trace, Valid allowed act guar s trace s' → Prop} (nil : motive s [] .nil)
    (snoc : ∀ trace e (h : Occurs allowed act guar s trace e), motive e.before trace h.valid →
      motive e.after (trace ++ [e]) h.snoc)
    (h : Valid allowed act guar s trace s') : motive s' trace h := by
  induction h with
  | nil => exact nil
  | snoc e h hq t hact hguar ih => exact snoc _ e ⟨h, hq, ⟨t, hact⟩, hguar⟩ ih

theorem Valid.occurs (h : Valid allowed act guar s trace s') {before after : List (Entry R ε Q S)}
    {e : Entry R ε Q S} (htrace : trace = before ++ e :: after) :
    Occurs allowed act guar s before e := by
  induction h generalizing after with
  | nil => simp at htrace
  | @snoc trace e' h hq t hact hguar ih =>
    cases after using List.reverseRecOn with
    | nil =>
      obtain ⟨rfl, he⟩ := List.append_inj' htrace rfl
      obtain rfl := List.singleton_inj.mp he
      exact ⟨h, hq, ⟨t, hact⟩, hguar⟩
    | append_singleton after last =>
      rw [← List.cons_append, ← List.append_assoc] at htrace
      exact ih (List.append_inj' htrace rfl).1

theorem Valid.mem (h : Valid allowed act guar s trace s') {e : Entry R ε Q S} (he : e ∈ trace) :
    ∃ before, Occurs allowed act guar s before e :=
  let ⟨before, _, htrace⟩ := List.append_of_mem he
  ⟨before, h.occurs htrace⟩

/-- What an entry leaves is found by the next one, or at the end. -/
theorem Valid.after_mem (h : Valid allowed act guar s trace s') {e : Entry R ε Q S}
    (he : e ∈ trace) : e.after = s' ∨ ∃ e' ∈ trace, e'.before = e.after := by
  induction h with
  | nil => simp at he
  | @snoc trace e' h hq t hact hguar ih =>
    rcases List.mem_append.mp he with he | he
    · refine .inr ?_
      rcases ih he with hafter | ⟨e'', he'', hbefore⟩
      · exact ⟨e', List.mem_append_right _ (List.mem_singleton_self e'), hafter.symm⟩
      · exact ⟨e'', List.mem_append_left _ he'', hbefore⟩
    · exact .inl (congrArg Entry.after (List.mem_singleton.mp he))

end Valid

namespace Pool

variable (program : (q : Q) → Async C R ε (A q)) (allowed : Q → Prop)
  (act : T → (c : C) → S → Option (Except ε (R c) × S))

/-- Nothing started yet. -/
def start (s : S) : Pool R ε A S := ⟨s, [], []⟩

/-- Start a fiber, or answer the call some fiber waits for. -/
inductive Step : Pool R ε A S → Pool R ε A S → Prop where
  | start (p : Pool R ε A S) (q : Q) (hq : allowed q) :
      Step p { p with fibers := p.fibers ++ [⟨q, program q⟩] }
  | resume (p : Pool R ε A S) (i : ℕ) (q : Q) (c : C) (k : Except ε (R c) → Async C R ε (A q))
      (t : T) (x : Except ε (R c)) (s : S) (hi : p.fibers[i]? = some ⟨q, .awaiting c k⟩)
      (hact : act t c p.state = some (x, s)) :
      Step p ⟨s, p.fibers.set i ⟨q, k x⟩, p.trace ++ [⟨i, q, ⟨c, x⟩, p.state, s⟩]⟩

/-- Any interleaving of starts and calls. -/
def Reachable : Pool R ε A S → Pool R ε A S → Prop :=
  Relation.ReflTransGen (Step program allowed act)

variable {program allowed act} in
/-- What some requests lead to, more requests lead to. -/
theorem Reachable.mono {allowed' : Q → Prop} (h : ∀ q, allowed q → allowed' q) {p p' : Pool R ε A S}
    (hrun : Reachable program allowed act p p') : Reachable program allowed' act p p' := by
  refine Relation.ReflTransGen.mono ?_ _ _ hrun
  intro p p' hstep
  cases hstep with
  | start q hq => exact .start p q (h q hq)
  | resume i q c k t x s hi hact => exact .resume p i q c k t x s hi hact

/-- One decision of a scheduler. -/
inductive Move (Q T : Type) where
  | start (q : Q)
  | resume (i : ℕ) (t : T)

/-- Run a schedule; `none` where it asks for something impossible. -/
def exec [DecidablePred allowed] : List (Move Q T) → Pool R ε A S → Option (Pool R ε A S)
  | [], p => some p
  | .start q :: moves, p =>
    if allowed q then exec moves { p with fibers := p.fibers ++ [⟨q, program q⟩] } else none
  | .resume i t :: moves, p =>
    match p.fibers[i]? with
    | some ⟨q, .awaiting c k⟩ =>
      match act t c p.state with
      | some (x, s) =>
        exec moves ⟨s, p.fibers.set i ⟨q, k x⟩, p.trace ++ [⟨i, q, ⟨c, x⟩, p.state, s⟩]⟩
      | none => none
    | _ => none

variable {program allowed act}

theorem exec_reachable [DecidablePred allowed] {moves : List (Move Q T)} {p p' : Pool R ε A S}
    (h : exec program allowed act moves p = some p') : Reachable program allowed act p p' := by
  induction moves generalizing p with
  | nil =>
    obtain rfl := Option.some.inj h
    exact .refl
  | cons move moves ih =>
    cases move with
    | start q =>
      simp only [exec] at h
      split at h
      · next hq => exact .head (.start p q hq) (ih h)
      · cases h
    | resume i t =>
      simp only [exec] at h
      split at h
      · next q c k hi =>
        split at h
        · next x s hact => exact .head (.resume p i q c k t x s hi hact) (ih h)
        · cases h
      · cases h

/-- A schedule that ends in a pool with some property. -/
theorem exists_reachable [DecidablePred allowed] (moves : List (Move Q T)) (p : Pool R ε A S)
    (P : Pool R ε A S → Prop) [DecidablePred P]
    (h : (exec program allowed act moves p).any (fun p' => P p') = true) :
    ∃ p', Reachable program allowed act p p' ∧ P p' := by
  obtain ⟨p', hp', hP⟩ := (Option.any_eq_true _ _).mp h
  exact ⟨p', exec_reachable hp', of_decide_eq_true hP⟩

/-- What one pool owes to the conformance of its programs. -/
structure Conforming (allowed : Q → Prop) (act : T → (c : C) → S → Option (Except ε (R c) × S))
    (guar : Q → List (Event R ε) → C → Prop)
    (post : (q : Q) → Except ε (A q) → List (Event R ε) → Prop) (s : S)
    (p : Pool R ε A S) : Prop where
  requests : ∀ f ∈ p.fibers, allowed f.request
  fibers : ∀ i f, p.fibers[i]? = some f → Conforms (guar f.request) (post f.request) f.code
    (history i p.trace)
  entries : ∀ e ∈ p.trace, ∃ f, p.fibers[e.fiber]? = some f ∧ f.request = e.request
  valid : Valid allowed act guar s p.trace p.state

/-- What the calls of the trace yield, if that is known of each fiber. -/
theorem Conforming.perm_flatMap {guar : Q → List (Event R ε) → C → Prop}
    {post : (q : Q) → Except ε (A q) → List (Event R ε) → Prop} {s : S} {p : Pool R ε A S}
    (hp : Conforming allowed act guar post s p) {β : Type} (f : Event R ε → List β)
    (g : Fiber R ε A → List β)
    (h : ∀ i fiber, p.fibers[i]? = some fiber → (history i p.trace).flatMap f = g fiber) :
    (p.trace.flatMap fun e => f e.event).Perm (p.fibers.flatMap g) := by
  have hlt : ∀ e ∈ p.trace, e.fiber < p.fibers.length := by
    intro e he
    obtain ⟨fiber, hfiber, -⟩ := hp.entries e he
    exact (List.getElem?_eq_some_iff.mp hfiber).1
  have hmap : ((List.range p.fibers.length).map fun i => (history i p.trace).flatMap f) =
      p.fibers.map g := by
    refine List.ext_getElem (by simp) fun i hi hi' => ?_
    rw [List.length_map] at hi'
    rw [List.getElem_map, List.getElem_range, List.getElem_map]
    exact h i _ (List.getElem?_eq_getElem hi')
  have hfibers : ((List.range p.fibers.length).flatMap fun i =>
      (history i p.trace).flatMap f) = p.fibers.flatMap g := by
    rw [List.flatMap_def, hmap, ← List.flatMap_def]
  exact hfibers ▸ perm_flatMap_history f hlt

/-- If every program conforms on its own, so does every fiber of every interleaving, and the
trace is valid. -/
theorem Reachable.conforming
    {guar : Q → List (Event R ε) → C → Prop}
    {post : (q : Q) → Except ε (A q) → List (Event R ε) → Prop} {s : S} {p : Pool R ε A S}
    (hrun : Reachable program allowed act (start s) p)
    (hprogram : ∀ q, allowed q → Conforms (guar q) (post q) (program q) []) :
    Conforming allowed act guar post s p := by
  induction hrun with
  | refl => exact ⟨by simp [start], by simp [start], by simp [start], .nil⟩
  | @tail p _ _ hstep ih =>
    cases hstep with
    | start q hq =>
      refine ⟨?_, ?_, ?_, ih.valid⟩
      · intro f hf
        rcases List.mem_append.mp hf with hf | hf
        · exact ih.requests f hf
        · obtain rfl := List.mem_singleton.mp hf
          exact hq
      · intro i f hi
        rw [List.getElem?_append] at hi
        split at hi
        · exact ih.fibers i f hi
        · rw [List.getElem?_singleton] at hi
          split at hi
          · obtain rfl := Option.some.inj hi
            -- a fiber that was not started has made no call
            have hnew : history i p.trace = [] := by
              rw [history, List.map_eq_nil_iff, List.filter_eq_nil_iff]
              intro e he hei
              obtain ⟨f, hf, -⟩ := ih.entries e he
              have := (List.getElem?_eq_some_iff.mp hf).1
              simp only [decide_eq_true_eq] at hei
              omega
            rw [hnew]
            exact hprogram q hq
          · cases hi
      · intro e he
        obtain ⟨f, hf, hq'⟩ := ih.entries e he
        exact ⟨f, by rw [List.getElem?_append_left (List.getElem?_eq_some_iff.mp hf).1, hf], hq'⟩
    | resume i q c k t x s' hi hact =>
      have hlt : i < p.fibers.length := (List.getElem?_eq_some_iff.mp hi).1
      have hk := ih.fibers i _ hi
      refine ⟨?_, ?_, ?_, ?_⟩
      · intro f hf
        rcases List.mem_or_eq_of_mem_set hf with hf | rfl
        · exact ih.requests f hf
        · exact ih.requests ⟨q, .awaiting c k⟩ (List.mem_of_getElem? hi)
      · intro j f hj
        rw [history_append, history_singleton]
        by_cases hij : i = j
        · subst hij
          rw [List.getElem?_set_self hlt] at hj
          obtain rfl := Option.some.inj hj
          rw [if_pos rfl]
          exact hk.2 x
        · rw [List.getElem?_set_ne hij] at hj
          rw [if_neg hij, List.append_nil]
          exact ih.fibers j f hj
      · intro e he
        rcases List.mem_append.mp he with he | he
        · obtain ⟨f, hf, hq⟩ := ih.entries e he
          by_cases hij : i = e.fiber
          · subst hij
            rw [hi] at hf
            obtain rfl := Option.some.inj hf
            exact ⟨_, List.getElem?_set_self hlt, hq⟩
          · exact ⟨f, by rw [List.getElem?_set_ne hij, hf], hq⟩
        · obtain rfl := List.mem_singleton.mp he
          exact ⟨_, List.getElem?_set_self hlt, rfl⟩
      · exact ih.valid.snoc ⟨i, q, ⟨c, x⟩, p.state, s'⟩
          (ih.requests ⟨q, .awaiting c k⟩ (List.mem_of_getElem? hi)) t hact hk.1

end Pool

end Async
