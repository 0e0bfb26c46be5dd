import JobManager.Async.Interruption

/-! Async functions that share a serial queue: some of their calls enqueue a request, and the caller
goes on at any time after the promise of the request has settled. Seen from outside, such a call is
one atomic step. -/

namespace Async

variable {C₁ : Type} {R₁ : C₁ → Type} {ε S₁ Q₁ T₁ : Type} {A₁ : Q₁ → Type}

/-- An element of a list with one replaced. -/
theorem getElem?_set_cases {α : Type} {l : List α} {a b : α} {i j : ℕ}
    (h : (l.set i a)[j]? = some b) : (i = j ∧ a = b) ∨ (i ≠ j ∧ l[j]? = some b) := by
  by_cases hij : i = j
  · subst hij
    have hlt := (List.getElem?_eq_some_iff.mp h).1
    rw [List.length_set] at hlt
    rw [List.getElem?_set_self hlt] at h
    exact .inl ⟨rfl, Option.some.inj h⟩
  · rw [List.getElem?_set_ne hij] at h
    exact .inr ⟨hij, h⟩

/-- What a promise is for, and what it has settled with. -/
def Link.promise (l : Link R₁ ε A₁) : (q : Q₁) × Option (Except ε (A₁ q)) :=
  match l with
  | ⟨q, _, .settled r _⟩ => ⟨q, some r⟩
  | ⟨q, _, _⟩ => ⟨q, none⟩

theorem Link.promise_isSome (l : Link R₁ ε A₁) : l.promise.2.isSome = true ↔ l.Settled := by
  obtain ⟨q, previous, run⟩ := l
  cases run with
  | settled r tail => exact iff_of_true rfl ⟨r, tail, rfl⟩
  | waiting | running code => exact iff_of_false (by simp [Link.promise]) nofun

namespace SerialQueue

def promises (c : SerialQueue R₁ ε A₁ S₁) : List ((q : Q₁) × Option (Except ε (A₁ q))) :=
  c.links.map Link.promise

/-- The first `n` promises are settled, and no other. -/
def SettledUpTo (c : SerialQueue R₁ ε A₁ S₁) (n : ℕ) : Prop :=
  ∀ j p, c.promises[j]? = some p → (p.2.isSome = true ↔ j < n)

variable {program : (q : Q₁) → Async C₁ R₁ ε (A₁ q)}
  {act : T₁ → (c : C₁) → S₁ → Except ε (R₁ c) × S₁} {plan : ℕ → T₁} {s : S₁}
  {c c' : SerialQueue R₁ ε A₁ S₁} {n : ℕ}

theorem promises_getElem? {j : ℕ} {l : Link R₁ ε A₁} (h : c.links[j]? = some l) :
    c.promises[j]? = some l.promise := by
  rw [promises, List.getElem?_map, h, Option.map_some]

@[simp] theorem length_promises : c.promises.length = c.links.length := List.length_map _

theorem promises_enqueue (q : Q₁) : (c.enqueue q).promises = c.promises ++ [⟨q, none⟩] := by
  simp [promises, enqueue, Link.promise]

theorem requests_eq : c.requests = c.promises.map Sigma.fst := by
  rw [requests, promises, List.map_map]
  refine List.map_congr_left fun l _ => ?_
  obtain ⟨q, previous, _ | _ | _⟩ := l <;> rfl

theorem getElem?_requests {j : ℕ} {q : Q₁} {o : Option (Except ε (A₁ q))}
    (h : c.promises[j]? = some ⟨q, o⟩) : c.requests[j]? = some q := by
  rw [requests_eq, List.getElem?_map, h, Option.map_some]

theorem requests_enqueue (q : Q₁) : (c.enqueue q).requests = c.requests ++ [q] := by
  simp [requests, enqueue]

theorem take_requests_enqueue (hn : n ≤ c.promises.length) (q : Q₁) :
    (c.enqueue q).requests.take n = c.requests.take n := by
  rw [requests_eq, promises_enqueue, List.map_append,
    List.take_append_of_le_length (by simpa using hn), ← requests_eq]

theorem SettledUpTo.enqueue (h : c.SettledUpTo n) (hn : n ≤ c.promises.length) (q : Q₁) :
    (c.enqueue q).SettledUpTo n := by
  intro j p hj
  rw [promises_enqueue] at hj
  rcases getElem?_append_singleton_cases hj with ⟨-, hj⟩ | ⟨rfl, rfl⟩
  · exact h j p hj
  · simpa using hn

theorem SettledUpTo.unique {n' : ℕ} (h : c.SettledUpTo n) (h' : c.SettledUpTo n')
    (hn : n ≤ c.promises.length) (hn' : n' ≤ c.promises.length) : n = n' := by
  have key : ∀ a b, c.SettledUpTo a → c.SettledUpTo b → b ≤ c.promises.length → ¬ a < b := by
    intro a b ha hb hle hlt
    have hget := List.getElem?_eq_getElem (hlt.trans_le hle)
    exact lt_irrefl a ((ha a _ hget).mp ((hb a _ hget).mpr hlt))
  have := key n n' h h' hn'
  have := key n' n h' h hn
  omega

/-- The next promise settles. -/
theorem SettledUpTo.set (h : c.SettledUpTo n) {q : Q₁} {r : Except ε (A₁ q)}
    (hset : c'.promises = c.promises.set n ⟨q, some r⟩) :
    c'.SettledUpTo (n + 1) := by
  intro j p hj
  rw [hset] at hj
  rcases getElem?_set_cases hj with ⟨rfl, rfl⟩ | ⟨hne, hj⟩
  · simp
  · rw [h j p hj]
    omega

theorem Moves.promises {i : ℕ} {l l' : Link R₁ ε A₁} (h : Moves program c c' i l l') :
    c'.promises = c.promises.set i l'.promise := by
  rw [SerialQueue.promises, h.after, List.map_set, SerialQueue.promises]

theorem Moves.promises_eq {i : ℕ} {l l' : Link R₁ ε A₁} (h : Moves program c c' i l l')
    (hl : l'.promise = l.promise) : c'.promises = c.promises := by
  obtain ⟨hlt, hget⟩ := List.getElem?_eq_some_iff.mp (promises_getElem? h.before)
  rw [h.promises, hl, ← hget, List.set_getElem_self]

/-- Between two calls of `enqueue` the promises settle one after the other, each with the result of
its request in the sequential execution. -/
theorem Reachable.micro_promises (hc : Reachable program act plan (start s) c)
    (hmicro : Micro program act plan c c') (hn : c.SettledUpTo n) :
    c'.promises = c.promises ∨ ∃ q, c.promises[n]? = some ⟨q, none⟩ ∧
      c'.promises = c.promises.set n ⟨q, some (eval (act (plan n)) (program q)
        (sequential program act plan s (c.requests.take n)).state).1⟩ := by
  have ho := Reachable.ordered hc
  have hsim := (Reachable.simulates hc).micro ho hmicro
  obtain ⟨i, l, l', hm⟩ := hmicro.moves
  have hi := hm.before
  cases hm.later with
  | start => exact .inl (hm.promises_eq rfl)
  | answer => exact .inl (hm.promises_eq rfl)
  | release => exact .inl (hm.promises_eq rfl)
  | settle q previous r =>
    have hnone : c.promises[i]? = some ⟨q, none⟩ := promises_getElem? hi
    obtain rfl : i = n := by
      have hle : ¬ i < n := fun hlt => nomatch (hn i _ hnone).mpr hlt
      refine le_antisymm (Nat.le_of_not_lt fun hlt => ?_) (Nat.le_of_not_lt hle)
      have hget := List.getElem?_eq_getElem (hlt.trans (List.getElem?_eq_some_iff.mp hi).1)
      have hreleased := ho.order n i _ _ hlt hget hi nofun
      have hsettled := Link.settled_of_released hreleased
      have := (hn n _ (promises_getElem? hget)).mp ((Link.promise_isSome _).mpr hsettled)
      omega
    refine .inr ⟨q, hnone, ?_⟩
    rw [hm.promises, ← hsim.results i q previous r false (by rw [hm.getElem?, if_pos rfl]),
      hm.requests]
    rfl

/-- Where the queue is stopped, the request after the settled ones may be on its way. -/
theorem Reachable.interrupted_at (h : Reachable program act plan (start s) c)
    (hn : c.SettledUpTo n) (hle : n ≤ c.promises.length) :
    let x := sequential program act plan s (c.requests.take n)
    c.state = x.state ∨ ∃ q, c.promises[n]? = some ⟨q, none⟩ ∧
      Passes (act (plan n)) (program q) x.state c.state := by
  obtain ⟨n', hle', hsettled, hstate⟩ := h.interrupted
  have hn' : c.SettledUpTo n' := by
    intro j p hj
    rw [promises, List.getElem?_map] at hj
    obtain ⟨l, hl, rfl⟩ := Option.map_eq_some_iff.mp hj
    exact (Link.promise_isSome l).trans (hsettled j l hl)
  obtain rfl := hn.unique hn' hle (by simpa using hle')
  refine hstate.imp_right ?_
  rintro ⟨q, hq, hpass⟩
  refine ⟨q, ?_, hpass⟩
  rw [requests_eq, List.getElem?_map] at hq
  obtain ⟨⟨q', o⟩, hj, rfl⟩ := Option.map_eq_some_iff.mp hq
  cases o with
  | none => exact hj
  | some r => exact absurd ((hn _ _ hj).mp rfl) (lt_irrefl _)

end SerialQueue

variable {C : Type} {R : C → Type} {S Q T : Type} {A : Q → Type}

/-- An async function in progress; while it waits for a call that has been enqueued, the promise
with this number is the one it awaits. -/
structure QueuedFiber {C : Type} (R : C → Type) (ε : Type) {Q : Type} (A : Q → Type) where
  request : Q
  code : Async C R ε (A request)
  promise : Option ℕ

/-- The functions in the order they were started, their own state, the queue they share, and the
calls answered so far that are none of the queue's. -/
structure QueuedPool {C : Type} (R : C → Type) (ε : Type) {Q : Type} (A : Q → Type) (S : Type)
    {C₁ : Type} (R₁ : C₁ → Type) {Q₁ : Type} (A₁ : Q₁ → Type) (S₁ : Type) where
  state : S
  queue : SerialQueue R₁ ε A₁ S₁
  fibers : List (QueuedFiber R ε A)
  trace : List (ℕ × Event R ε)

/-- What is run: `enqueues` tells which calls enqueue a request and which one, `answers` what a
caller makes of its result; `act` answers the other calls. -/
structure QueuedProgram {C : Type} (R : C → Type) (ε : Type) {Q : Type} (A : Q → Type) (S T : Type)
    {C₁ : Type} (R₁ : C₁ → Type) {Q₁ : Type} (A₁ : Q₁ → Type) (S₁ T₁ : Type) where
  program : (q : Q) → Async C R ε (A q)
  allowed : Q → Prop
  act : T → (c : C) → S → Option (Except ε (R c) × S)
  enqueues : C → Option (T → Q₁)
  answers : (c : C) → (q : Q₁) → Except ε (A₁ q) → Option (Except ε (R c))
  body : (q : Q₁) → Async C₁ R₁ ε (A₁ q)
  bodyAct : T₁ → (c : C₁) → S₁ → Except ε (R₁ c) × S₁
  plan : ℕ → T₁

namespace QueuedPool

def start (s : S) (s₁ : S₁) : QueuedPool R ε A S R₁ A₁ S₁ := ⟨s, .start s₁, [], []⟩

variable (m : QueuedProgram R ε A S T R₁ A₁ S₁ T₁)

/-- A function is started, makes a call of its own or one that enqueues, or goes on after a promise;
or something happens in the queue. -/
inductive Step : QueuedPool R ε A S R₁ A₁ S₁ → QueuedPool R ε A S R₁ A₁ S₁ → Prop where
  | start (p : QueuedPool R ε A S R₁ A₁ S₁) (q : Q) (hq : m.allowed q) :
      Step p { p with fibers := p.fibers ++ [⟨q, m.program q, none⟩] }
  | resume (p : QueuedPool R ε A S R₁ A₁ S₁) (i : ℕ) (q : Q) (c : C)
      (k : Except ε (R c) → Async C R ε (A q)) (t : T) (x : Except ε (R c)) (s : S)
      (hi : p.fibers[i]? = some ⟨q, .awaiting c k, none⟩) (hc : m.enqueues c = none)
      (hact : m.act t c p.state = some (x, s)) :
      Step p { p with
        state := s
        fibers := p.fibers.set i ⟨q, k x, none⟩
        trace := p.trace ++ [(i, ⟨c, x⟩)] }
  | enqueue (p : QueuedPool R ε A S R₁ A₁ S₁) (i : ℕ) (q : Q) (c : C)
      (k : Except ε (R c) → Async C R ε (A q)) (t : T) (make : T → Q₁)
      (hi : p.fibers[i]? = some ⟨q, .awaiting c k, none⟩) (hc : m.enqueues c = some make) :
      Step p { p with
        queue := p.queue.enqueue (make t)
        fibers := p.fibers.set i ⟨q, .awaiting c k, some p.queue.promises.length⟩ }
  | micro (p : QueuedPool R ε A S R₁ A₁ S₁) (queue : SerialQueue R₁ ε A₁ S₁)
      (hmicro : SerialQueue.Micro m.body m.bodyAct m.plan p.queue queue) :
      Step p { p with queue }
  | settled (p : QueuedPool R ε A S R₁ A₁ S₁) (i : ℕ) (q : Q) (c : C)
      (k : Except ε (R c) → Async C R ε (A q)) (j : ℕ) (q₁ : Q₁) (r : Except ε (A₁ q₁))
      (x : Except ε (R c)) (hi : p.fibers[i]? = some ⟨q, .awaiting c k, some j⟩)
      (hj : p.queue.promises[j]? = some ⟨q₁, some r⟩) (hx : m.answers c q₁ r = some x) :
      Step p { p with fibers := p.fibers.set i ⟨q, k x, none⟩ }

def Reachable : QueuedPool R ε A S R₁ A₁ S₁ → QueuedPool R ε A S R₁ A₁ S₁ → Prop :=
  Relation.ReflTransGen (Step m)

variable {m} in
theorem Reachable.queue {s : S} {s₁ : S₁} {p : QueuedPool R ε A S R₁ A₁ S₁}
    (h : Reachable m (start s s₁) p) :
    SerialQueue.Reachable m.body m.bodyAct m.plan (SerialQueue.start s₁) p.queue := by
  induction h with
  | refl => exact .refl
  | tail _ hstep ih =>
    cases hstep with
    | start _ _ | resume _ _ _ _ _ _ _ _ _ _ | settled _ _ _ _ _ _ _ _ _ _ => exact ih
    | enqueue i q c k t make hi hc => exact ih.tail (.enqueue _ _)
    | micro queue hmicro => exact ih.tail (.micro hmicro)

/-- One decision of a scheduler. -/
inductive Move (Q T : Type) where
  | start (q : Q)
  | call (i : ℕ) (t : T)
  | micro (j : ℕ)
  | settled (i : ℕ)

variable [DecidablePred m.allowed]

def move (p : QueuedPool R ε A S R₁ A₁ S₁) : Move Q T → Option (QueuedPool R ε A S R₁ A₁ S₁)
  | .start q =>
    if m.allowed q then some { p with fibers := p.fibers ++ [⟨q, m.program q, none⟩] } else none
  | .call i t =>
    match p.fibers[i]? with
    | some ⟨q, .awaiting c k, none⟩ =>
      match m.enqueues c with
      | some make => some { p with
          queue := p.queue.enqueue (make t)
          fibers := p.fibers.set i ⟨q, .awaiting c k, some p.queue.promises.length⟩ }
      | none => (m.act t c p.state).map fun (x, s) => { p with
          state := s
          fibers := p.fibers.set i ⟨q, k x, none⟩
          trace := p.trace ++ [(i, ⟨c, x⟩)] }
    | _ => none
  | .micro j =>
    (SerialQueue.micro m.body m.bodyAct m.plan p.queue j).map fun queue => { p with queue }
  | .settled i =>
    match p.fibers[i]? with
    | some ⟨q, .awaiting c k, some j⟩ =>
      match p.queue.promises[j]? with
      | some ⟨q₁, some r⟩ =>
        (m.answers c q₁ r).map fun x => { p with fibers := p.fibers.set i ⟨q, k x, none⟩ }
      | _ => none
    | _ => none

/-- Run a schedule; `none` where it asks for something impossible. -/
def exec : List (Move Q T) → QueuedPool R ε A S R₁ A₁ S₁ → Option (QueuedPool R ε A S R₁ A₁ S₁)
  | [], p => some p
  | move :: moves, p => (QueuedPool.move m p move).bind (exec moves)

variable {m}

theorem move_step {p p' : QueuedPool R ε A S R₁ A₁ S₁} {mv : Move Q T}
    (h : QueuedPool.move m p mv = some p') : Step m p p' := by
  cases mv with
  | start q =>
    simp only [move] at h
    split at h
    · next hq => exact Option.some.inj h ▸ .start p q hq
    · cases h
  | call i t =>
    simp only [move] at h
    split at h
    · next q c k hi =>
      split at h
      · next make hc => exact Option.some.inj h ▸ .enqueue p i q c k t make hi hc
      · next hc =>
        obtain ⟨⟨x, s⟩, hact, rfl⟩ := Option.map_eq_some_iff.mp h
        exact .resume p i q c k t x s hi hc hact
    · cases h
  | micro j =>
    obtain ⟨queue, hqueue, rfl⟩ := Option.map_eq_some_iff.mp h
    exact .micro p queue (SerialQueue.micro_micro hqueue)
  | settled i =>
    simp only [move] at h
    split at h
    · next q c k j hi =>
      split at h
      · next q₁ r hj =>
        obtain ⟨x, hx, rfl⟩ := Option.map_eq_some_iff.mp h
        exact .settled p i q c k j q₁ r x hi hj hx
      · cases h
    · cases h

theorem exec_reachable {moves : List (Move Q T)} {p p' : QueuedPool R ε A S R₁ A₁ S₁}
    (h : exec m moves p = some p') : Reachable m p p' := by
  induction moves generalizing p with
  | nil =>
    obtain rfl := Option.some.inj h
    exact .refl
  | cons mv moves ih =>
    obtain ⟨p₁, h₁, h₂⟩ := Option.bind_eq_some_iff.mp h
    exact .head (move_step h₁) (ih h₂)

/-- A schedule that ends in a pool with some property. -/
theorem exists_reachable (moves : List (Move Q T)) (p : QueuedPool R ε A S R₁ A₁ S₁)
    (P : QueuedPool R ε A S R₁ A₁ S₁ → Prop) [DecidablePred P]
    (h : (exec m moves p).any (fun p' => P p') = true) : ∃ p', Reachable m p p' ∧ P p' := by
  obtain ⟨p', hp', hP⟩ := (Option.any_eq_true _ _).mp h
  exact ⟨p', exec_reachable hp', of_decide_eq_true hP⟩

end QueuedPool

end Async
