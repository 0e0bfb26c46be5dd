import Mathlib.Data.Nat.PSub
import Mathlib.Logic.Hydra
import JobManager.Async.Sequential

/-! A promise chain as a queue. Enqueuing chains the body of a request to the tail of the request
before it, and makes the new tail a promise that is fulfilled however the body ends. -/

namespace Async

/-- The promise `queue.then(body)`; once it is settled, `tail` tells whether the reaction that
fulfils the swallowed promise `run.then(noop, noop)` has run. -/
inductive Run {C : Type} (R : C → Type) (ε α : Type) where
  | waiting
  | running (code : Async C R ε α)
  | settled (result : Except ε α) (tail : Bool)

/-- One enqueued request. `previous` is the request whose tail it is chained to, none for the
promise a queue starts with. -/
structure Link {C : Type} (R : C → Type) (ε : Type) {Q : Type} (A : Q → Type) where
  request : Q
  previous : Option ℕ
  run : Run R ε (A request)

/-- Requests in the order they were enqueued, the last tail, the state, and the calls answered. -/
structure SerialQueue {C : Type} (R : C → Type) (ε : Type) {Q : Type} (A : Q → Type) (S : Type)
    where
  state : S
  links : List (Link R ε A)
  queue : Option ℕ
  trace : List (Entry R ε Q S)

variable {C : Type} {R : C → Type} {ε S Q T : Type} {A : Q → Type}

namespace Link

def Waiting (l : Link R ε A) : Prop := l.run = .waiting

def Running (l : Link R ε A) : Prop := ∃ code, l.run = .running code

def Settled (l : Link R ε A) : Prop := ∃ r tail, l.run = .settled r tail

/-- The result the promise has settled with. -/
def outcome (l : Link R ε A) : Option ((q : Q) × Except ε (A q)) :=
  match l with
  | ⟨q, _, .settled r _⟩ => some ⟨q, r⟩
  | _ => none

/-- Both promises are settled. -/
def released (l : Link R ε A) : Bool :=
  match l.run with
  | .settled _ tail => tail
  | _ => false

/-- The stages of a link in the order it passes through them. -/
inductive Later (program : (q : Q) → Async C R ε (A q)) : Link R ε A → Link R ε A → Prop where
  | start (q : Q) (previous : Option ℕ) :
      Later program ⟨q, previous, .running (program q)⟩ ⟨q, previous, .waiting⟩
  | answer (q : Q) (previous : Option ℕ) (call : C) (k : Except ε (R call) → Async C R ε (A q))
      (x : Except ε (R call)) :
      Later program ⟨q, previous, .running (k x)⟩ ⟨q, previous, .running (.awaiting call k)⟩
  | settle (q : Q) (previous : Option ℕ) (r : Except ε (A q)) :
      Later program ⟨q, previous, .settled r false⟩ ⟨q, previous, .running (.settled r)⟩
  | release (q : Q) (previous : Option ℕ) (r : Except ε (A q)) :
      Later program ⟨q, previous, .settled r true⟩ ⟨q, previous, .settled r false⟩

theorem settled_of_released {l : Link R ε A} (h : l.released = true) : l.Settled := by
  unfold released at h
  split at h
  · next r tail heq => exact ⟨r, tail, heq⟩
  · cases h

theorem Running.eq {l : Link R ε A} (h : l.Running) :
    ∃ (q : Q) (previous : Option ℕ) (code : Async C R ε (A q)),
      l = ⟨q, previous, .running code⟩ := by
  obtain ⟨q, previous, run⟩ := l
  obtain ⟨code, hcode⟩ := h
  exact ⟨q, previous, code, congrArg (Link.mk q previous) hcode⟩

theorem Settled.eq {l : Link R ε A} (h : l.Settled) :
    ∃ (q : Q) (previous : Option ℕ) (r : Except ε (A q)) (tail : Bool),
      l = ⟨q, previous, .settled r tail⟩ := by
  obtain ⟨q, previous, run⟩ := l
  obtain ⟨r, tail, hr⟩ := h
  exact ⟨q, previous, r, tail, congrArg (Link.mk q previous) hr⟩

theorem not_settled_of_running {l : Link R ε A} (h : l.Running) : ¬ l.Settled := by
  rintro ⟨r, tail, hr⟩
  obtain ⟨code, hcode⟩ := h
  cases hcode.symm.trans hr

section Later

variable {program : (q : Q) → Async C R ε (A q)} {l l' : Link R ε A}

theorem Later.request (h : Later program l' l) : l'.request = l.request := by cases h <;> rfl

theorem Later.previous (h : Later program l' l) : l'.previous = l.previous := by cases h <;> rfl

theorem Later.not_released (h : Later program l' l) : l.released = false := by cases h <;> rfl

theorem acc_released {l : Link R ε A} (h : l.released = true) : Acc (Later program) l :=
  ⟨l, fun _ hl => nomatch h.symm.trans hl.not_released⟩

theorem acc_settled (q : Q) (previous : Option ℕ) (r : Except ε (A q)) (tail : Bool) :
    Acc (Later program) ⟨q, previous, .settled r tail⟩ := by
  cases tail with
  | true => exact acc_released rfl
  | false =>
    refine ⟨_, fun l hl => ?_⟩
    cases hl
    exact acc_released rfl

/-- The induction is on the code that is left: every answer leaves a part of it. -/
theorem acc_running (q : Q) (previous : Option ℕ) (code : Async C R ε (A q)) :
    Acc (Later program) ⟨q, previous, .running code⟩ := by
  induction code with
  | settled r =>
    refine ⟨_, fun l hl => ?_⟩
    cases hl
    exact acc_settled q previous r false
  | awaiting call k ih =>
    refine ⟨_, fun l hl => ?_⟩
    cases hl with
    | answer _ _ _ _ x => exact ih x

theorem later_wellFounded : WellFounded (Later program) := by
  refine ⟨fun ⟨q, previous, run⟩ => ?_⟩
  cases run with
  | settled r tail => exact acc_settled q previous r tail
  | running code => exact acc_running q previous code
  | waiting =>
    refine ⟨_, fun l hl => ?_⟩
    cases hl
    exact acc_running q previous (program q)

end Later

end Link

namespace SerialQueue

def requests (c : SerialQueue R ε A S) : List Q := c.links.map Link.request

/-- Whether a tail is fulfilled. -/
def fulfilled (c : SerialQueue R ε A S) : Option ℕ → Bool
  | none => true
  | some i => c.links[i]?.any Link.released

variable (program : (q : Q) → Async C R ε (A q)) (act : T → (c : C) → S → Except ε (R c) × S)
  (plan : ℕ → T)

def start (s : S) : SerialQueue R ε A S := ⟨s, [], none, []⟩

def enqueue (c : SerialQueue R ε A S) (q : Q) : SerialQueue R ε A S :=
  { c with links := c.links ++ [⟨q, c.queue, .waiting⟩], queue := some c.links.length }

/-- What can happen to the promises of request `i` without a new call of `enqueue`. -/
inductive Micro : SerialQueue R ε A S → SerialQueue R ε A S → Prop where
  | start (c : SerialQueue R ε A S) (i : ℕ) (q : Q) (previous : Option ℕ)
      (hi : c.links[i]? = some ⟨q, previous, .waiting⟩) (htail : c.fulfilled previous = true) :
      Micro c { c with links := c.links.set i ⟨q, previous, .running (program q)⟩ }
  | answer (c : SerialQueue R ε A S) (i : ℕ) (q : Q) (previous : Option ℕ) (call : C)
      (k : Except ε (R call) → Async C R ε (A q))
      (hi : c.links[i]? = some ⟨q, previous, .running (.awaiting call k)⟩) :
      Micro c { c with
        state := (act (plan i) call c.state).2
        links := c.links.set i ⟨q, previous, .running (k (act (plan i) call c.state).1)⟩
        trace := c.trace ++ [⟨i, q, ⟨call, (act (plan i) call c.state).1⟩, c.state,
          (act (plan i) call c.state).2⟩] }
  | settle (c : SerialQueue R ε A S) (i : ℕ) (q : Q) (previous : Option ℕ) (r : Except ε (A q))
      (hi : c.links[i]? = some ⟨q, previous, .running (.settled r)⟩) :
      Micro c { c with links := c.links.set i ⟨q, previous, .settled r false⟩ }
  | release (c : SerialQueue R ε A S) (i : ℕ) (q : Q) (previous : Option ℕ) (r : Except ε (A q))
      (hi : c.links[i]? = some ⟨q, previous, .settled r false⟩) :
      Micro c { c with links := c.links.set i ⟨q, previous, .settled r true⟩ }

/-- A request is enqueued at any time, or something happens to one already there. -/
inductive Step : SerialQueue R ε A S → SerialQueue R ε A S → Prop where
  | enqueue (c : SerialQueue R ε A S) (q : Q) : Step c (c.enqueue q)
  | micro {c c' : SerialQueue R ε A S} (h : Micro program act plan c c') : Step c c'

def Reachable : SerialQueue R ε A S → SerialQueue R ε A S → Prop :=
  Relation.ReflTransGen (Step program act plan)

/-- One decision of a scheduler. -/
inductive Move (Q : Type) where
  | enqueue (q : Q)
  | micro (i : ℕ)

/-- The one thing that can happen to request `i`. -/
def micro (c : SerialQueue R ε A S) (i : ℕ) : Option (SerialQueue R ε A S) :=
  match c.links[i]? with
  | some ⟨q, previous, .waiting⟩ =>
    if c.fulfilled previous then
      some { c with links := c.links.set i ⟨q, previous, .running (program q)⟩ }
    else none
  | some ⟨q, previous, .running (.awaiting call k)⟩ =>
    let (x, s) := act (plan i) call c.state
    some { c with
      state := s
      links := c.links.set i ⟨q, previous, .running (k x)⟩
      trace := c.trace ++ [⟨i, q, ⟨call, x⟩, c.state, s⟩] }
  | some ⟨q, previous, .running (.settled r)⟩ =>
    some { c with links := c.links.set i ⟨q, previous, .settled r false⟩ }
  | some ⟨q, previous, .settled r false⟩ =>
    some { c with links := c.links.set i ⟨q, previous, .settled r true⟩ }
  | _ => none

/-- Run a schedule; `none` where it asks for something impossible. -/
def exec : List (Move Q) → SerialQueue R ε A S → Option (SerialQueue R ε A S)
  | [], c => some c
  | .enqueue q :: moves, c => exec moves (c.enqueue q)
  | .micro i :: moves, c => (micro program act plan c i).bind (exec moves)

variable {program act plan}

theorem micro_micro {c c' : SerialQueue R ε A S} {i : ℕ}
    (h : micro program act plan c i = some c') : Micro program act plan c c' := by
  unfold micro at h
  split at h
  · next q previous hi =>
    split at h
    · next htail =>
      obtain rfl := Option.some.inj h
      exact .start c i q previous hi htail
    · cases h
  · next q previous call k hi =>
    obtain rfl := Option.some.inj h
    exact .answer c i q previous call k hi
  · next q previous r hi =>
    obtain rfl := Option.some.inj h
    exact .settle c i q previous r hi
  · next q previous r hi =>
    obtain rfl := Option.some.inj h
    exact .release c i q previous r hi
  · cases h

theorem exec_reachable {moves : List (Move Q)} {c c' : SerialQueue R ε A S}
    (h : exec program act plan moves c = some c') : Reachable program act plan c c' := by
  induction moves generalizing c with
  | nil =>
    obtain rfl := Option.some.inj h
    exact .refl
  | cons move moves ih =>
    cases move with
    | enqueue q => exact .head (.enqueue c q) (ih h)
    | micro i =>
      obtain ⟨c₁, h₁, h₂⟩ := Option.bind_eq_some_iff.mp h
      exact .head (.micro (micro_micro h₁)) (ih h₂)

/-- A schedule that ends in a queue with some property. -/
theorem exists_reachable (moves : List (Move Q)) (c : SerialQueue R ε A S)
    (P : SerialQueue R ε A S → Prop) [DecidablePred P]
    (h : (exec program act plan moves c).any (fun c' => P c') = true) :
    ∃ c', Reachable program act plan c c' ∧ P c' := by
  obtain ⟨c', hc', hP⟩ := (Option.any_eq_true _ _).mp h
  exact ⟨c', exec_reachable hc', of_decide_eq_true hP⟩

/-- Link `i` moves on from `l` to `l'`, and no other link does. -/
structure Moves (program : (q : Q) → Async C R ε (A q)) (c c' : SerialQueue R ε A S) (i : ℕ)
    (l l' : Link R ε A) : Prop where
  before : c.links[i]? = some l
  after : c'.links = c.links.set i l'
  queue : c'.queue = c.queue
  later : Link.Later program l' l
  tail : l.Waiting → c.fulfilled l.previous = true

theorem Micro.moves {c c' : SerialQueue R ε A S} (h : Micro program act plan c c') :
    ∃ i l l', Moves program c c' i l l' := by
  cases h with
  | start i q previous hi htail =>
    exact ⟨i, _, _, hi, rfl, rfl, .start q previous, fun _ => htail⟩
  | answer i q previous call k hi =>
    exact ⟨i, _, _, hi, rfl, rfl, .answer q previous call k _, nofun⟩
  | settle i q previous r hi => exact ⟨i, _, _, hi, rfl, rfl, .settle q previous r, nofun⟩
  | release i q previous r hi => exact ⟨i, _, _, hi, rfl, rfl, .release q previous r, nofun⟩

theorem cutExpand_set {α : Type} {r : α → α → Prop} {xs : List α} {i : ℕ} {a a' : α}
    (hi : xs[i]? = some a) (h : r a' a) :
    Relation.CutExpand r (xs.set i a' : Multiset α) (xs : Multiset α) := by
  induction xs generalizing i with
  | nil => simp at hi
  | cons x xs ih =>
    cases i with
    | zero =>
      obtain rfl := Option.some.inj hi
      show Relation.CutExpand r ({a'} + (xs : Multiset α)) ({x} + (xs : Multiset α))
      exact Relation.cutExpand_single_add h _
    | succ i => exact (Relation.cutExpand_add_left {x}).mpr (ih hi)

/-- There is no infinite run without new requests. -/
theorem micro_wellFounded :
    WellFounded fun c' c : SerialQueue R ε A S => Micro program act plan c c' := by
  have hwf : WellFounded (Link.Later program) := Link.later_wellFounded
  refine Subrelation.wf (fun {c' c} h => ?_)
    (InvImage.wf (fun c => (c.links : Multiset (Link R ε A))) hwf.cutExpand)
  obtain ⟨i, l, l', hm⟩ := h.moves
  show Relation.CutExpand (Link.Later program) c'.links c.links
  rw [hm.after]
  exact cutExpand_set hm.before hm.later

/-- Every link hangs on the one before it, and none starts before all earlier ones are released. -/
structure Ordered (c : SerialQueue R ε A S) : Prop where
  previous : ∀ (i : ℕ) (l : Link R ε A), c.links[i]? = some l → l.previous = i.ppred
  queue : c.queue = c.links.length.ppred
  order : ∀ (i j : ℕ) (l m : Link R ε A), i < j → c.links[i]? = some l → c.links[j]? = some m →
    ¬ m.Waiting → l.released = true

theorem Moves.getElem? {c c' : SerialQueue R ε A S} {i : ℕ} {l l' : Link R ε A}
    (h : Moves program c c' i l l') (j : ℕ) :
    c'.links[j]? = if j = i then some l' else c.links[j]? := by
  have hi := (List.getElem?_eq_some_iff.mp h.before).1
  rw [h.after]
  split
  · next hj => rw [hj, List.getElem?_set_self hi]
  · next hj => rw [List.getElem?_set_ne (Ne.symm hj)]

theorem Moves.length {c c' : SerialQueue R ε A S} {i : ℕ} {l l' : Link R ε A}
    (h : Moves program c c' i l l') : c'.links.length = c.links.length := by
  rw [h.after, List.length_set]

theorem enqueue_cases {c : SerialQueue R ε A S} {q : Q} {i : ℕ} {l : Link R ε A}
    (h : (c.enqueue q).links[i]? = some l) :
    c.links[i]? = some l ∨ (i = c.links.length ∧ l = ⟨q, c.queue, .waiting⟩) := by
  simp only [SerialQueue.enqueue, List.getElem?_append, List.getElem?_singleton] at h
  split at h
  · exact .inl h
  · split at h
    · exact .inr ⟨by omega, (Option.some.inj h).symm⟩
    · cases h

namespace Ordered

variable {c c' : SerialQueue R ε A S}

theorem start (s : S) : Ordered (start s : SerialQueue R ε A S) :=
  ⟨by simp [SerialQueue.start], rfl, by simp [SerialQueue.start]⟩

theorem enqueue (h : Ordered c) (q : Q) : Ordered (c.enqueue q) := by
  refine ⟨?_, ?_, ?_⟩
  · intro i l hi
    rcases enqueue_cases hi with hi | ⟨rfl, rfl⟩
    · exact h.previous i l hi
    · exact h.queue
  · simp [SerialQueue.enqueue]
  · intro i j l m hij hi hj hm
    rcases enqueue_cases hj with hj | ⟨rfl, rfl⟩
    · rcases enqueue_cases hi with hi | ⟨rfl, rfl⟩
      · exact h.order i j l m hij hi hj hm
      · have := (List.getElem?_eq_some_iff.mp hj).1
        omega
    · exact absurd rfl hm

/-- All links before one whose tail is fulfilled are released. -/
theorem released_of_fulfilled (h : Ordered c) {i j : ℕ} {l : Link R ε A}
    (hfulfilled : c.fulfilled i.ppred = true) (hj : j < i) (hl : c.links[j]? = some l) :
    l.released = true := by
  obtain ⟨i, rfl⟩ : ∃ k, i = k + 1 := ⟨i - 1, by omega⟩
  rw [Nat.ppred_succ, fulfilled, Option.any_eq_true] at hfulfilled
  obtain ⟨m, hm, hreleased⟩ := hfulfilled
  rcases Nat.lt_or_ge j i with hji | hji
  · obtain ⟨r, tail, hr⟩ := Link.settled_of_released hreleased
    exact h.order j i l m hji hl hm (by rw [Link.Waiting, hr]; nofun)
  · obtain rfl : j = i := by omega
    rw [hl] at hm
    exact Option.some.inj hm ▸ hreleased

theorem moves (h : Ordered c) {i : ℕ} {l l' : Link R ε A} (hm : Moves program c c' i l l') :
    Ordered c' := by
  refine ⟨?_, ?_, ?_⟩
  · intro j m hj
    rw [hm.getElem?] at hj
    split at hj
    · next hji =>
      obtain rfl := Option.some.inj hj
      rw [hm.later.previous, hji, h.previous i l hm.before]
    · exact h.previous j m hj
  · rw [hm.queue, hm.length, h.queue]
  · intro j k a b hjk hj hk hb
    rw [hm.getElem?] at hj hk
    split at hk
    · next hki =>
      -- link `i` itself: it had started before, or starts on a fulfilled tail
      have hjl : c.links[j]? = some a := by
        rw [if_neg (by omega)] at hj
        exact hj
      by_cases hw : l.Waiting
      · have htail := hm.tail hw
        rw [h.previous i l hm.before] at htail
        exact h.released_of_fulfilled htail (hki ▸ hjk) hjl
      · exact h.order j i a l (hki ▸ hjk) hjl hm.before hw
    · split at hj
      · next hji =>
        -- a link that still moves is not released, so nothing after it has started
        subst hji
        have := h.order j k l b hjk hm.before hk hb
        rw [hm.later.not_released] at this
        cases this
      · exact h.order j k a b hjk hj hk hb

theorem step (h : Ordered c) (hs : Step program act plan c c') : Ordered c' := by
  cases hs with
  | enqueue q => exact h.enqueue q
  | micro hmicro =>
    obtain ⟨i, l, l', hm⟩ := hmicro.moves
    exact h.moves hm

/-- Two requests are never in progress at once. -/
theorem exclusive (h : Ordered c) {i j : ℕ} {l m : Link R ε A} (hi : c.links[i]? = some l)
    (hj : c.links[j]? = some m) (hl : l.Running) (hm : m.Running) : i = j := by
  have key : ∀ (i j : ℕ) (l m : Link R ε A), c.links[i]? = some l → c.links[j]? = some m →
      l.Running → m.Running → ¬ i < j := by
    rintro i j l m hi hj hl ⟨code, hm⟩ hij
    have hreleased := h.order i j l m hij hi hj (by rw [Link.Waiting, hm]; nofun)
    exact Link.not_settled_of_running hl (Link.settled_of_released hreleased)
  have := key i j l m hi hj hl hm
  have := key j i m l hj hi hm hl
  omega

/-- A request that is not released can always move once all earlier ones are. -/
theorem progress (h : Ordered c) (hstuck : ∀ c', ¬ Micro program act plan c c') :
    ∀ l ∈ c.links, l.released = true := by
  suffices ∀ (i : ℕ) (l : Link R ε A), c.links[i]? = some l → l.released = true by
    intro l hl
    obtain ⟨i, hi⟩ := List.getElem?_of_mem hl
    exact this i l hi
  intro i
  induction i using Nat.strongRecOn with
  | _ i ih =>
    rintro ⟨q, previous, run⟩ hi
    cases run with
    | waiting =>
      obtain rfl : previous = i.ppred := h.previous i _ hi
      refine absurd (.start c i q _ hi ?_) (hstuck _)
      cases i with
      | zero => rfl
      | succ i =>
        have hlt : i < c.links.length := by
          have := (List.getElem?_eq_some_iff.mp hi).1
          omega
        have hget := List.getElem?_eq_getElem hlt
        rw [Nat.ppred_succ, fulfilled, hget]
        exact ih i (Nat.lt_succ_self i) _ hget
    | running code =>
      cases code with
      | settled r => exact absurd (.settle c i q previous r hi) (hstuck _)
      | awaiting call k => exact absurd (.answer c i q previous call k hi) (hstuck _)
    | settled r tail =>
      cases tail with
      | true => rfl
      | false => exact absurd (.release c i q previous r hi) (hstuck _)

end Ordered

theorem Reachable.ordered {s : S} {c : SerialQueue R ε A S}
    (h : Reachable program act plan (start s) c) : Ordered c := by
  induction h with
  | refl => exact .start s
  | tail _ hs ih => exact ih.step hs

end SerialQueue

end Async
