import JobManager.Async.Conforms

/-! Async functions on one thread: a call that is no promise is answered without leaving the
function. -/

namespace Async

variable {C C' : Type} {R : C → Type} {R' : C' → Type} {ε α β γ S : Type}

/-- Run on until a promise is awaited or the function is done; `act` answers the other calls. -/
def advance (act : (c : C) → S → Option (Except ε (R c) × S)) :
    Async C R ε α → S → Async C R ε α × S
  | .settled r, s => (.settled r, s)
  | .awaiting c k, s =>
    match act c s with
    | none => (.awaiting c k, s)
    | some (x, s') => advance act (k x) s'

/-- Every call replaced by a function that makes it. -/
def expand (f : (c : C) → Async C' R' ε (R c)) : Async C R ε α → Async C' R' ε α
  | .settled r => .settled r
  | .awaiting c k => (f c).attempt >>= fun x => expand f (k x)

section Expand

variable (f : (c : C) → Async C' R' ε (R c))

@[simp] theorem awaiting_bind (c : C) (k : Except ε (R c) → Async C R ε α)
    (g : α → Async C R ε β) : (Async.awaiting c k >>= g) = .awaiting c fun x => k x >>= g := rfl

theorem bind_assoc (p : Async C R ε α) (g : α → Async C R ε β) (h : β → Async C R ε γ) :
    ((p >>= g) >>= h) = p >>= fun a => g a >>= h := by
  induction p with
  | settled r => cases r <;> rfl
  | awaiting c k ih => exact congrArg (Async.awaiting c) (funext ih)

/-- The outcome of a function, rethrown, is the function. -/
theorem attempt_bind_settled (p : Async C R ε α) : (p.attempt >>= Async.settled) = p := by
  induction p with
  | settled r => rfl
  | awaiting c k ih => exact congrArg (Async.awaiting c) (funext ih)

/-- A `finally` block waits for the function behind an outcome. -/
theorem attempt_bind_tryFinally (p : Async C R ε α) (g : Except ε α → Async C R ε β)
    (q : Async C R ε Unit) :
    (p.attempt >>= g).tryFinally q = p.attempt >>= fun x => (g x).tryFinally q := by
  induction p with
  | settled r => rfl
  | awaiting c k ih => exact congrArg (Async.awaiting c) (funext ih)

@[simp] theorem expand_perform (c : C) : expand f (perform c) = f c := attempt_bind_settled (f c)

@[simp] theorem expand_bind (p : Async C R ε α) (g : α → Async C R ε β) :
    expand f (p >>= g) = expand f p >>= fun a => expand f (g a) := by
  induction p with
  | settled r => cases r <;> rfl
  | awaiting c k ih =>
    rw [awaiting_bind, expand, expand, bind_assoc]
    exact congrArg ((f c).attempt >>= ·) (funext ih)

@[simp] theorem expand_tryFinally (p : Async C R ε α) (q : Async C R ε Unit) :
    expand f (p.tryFinally q) = (expand f p).tryFinally (expand f q) := by
  induction p with
  | settled r => exact expand_bind f q _
  | awaiting c k ih =>
    rw [tryFinally, expand, expand, attempt_bind_tryFinally]
    exact congrArg ((f c).attempt >>= ·) (funext ih)

end Expand

/-- Functions in place of calls: what relates the two histories is kept by every function. -/
theorem Conforms.expand {f : (c : C) → Async C' R' ε (R c)} {guar : List (Event R ε) → C → Prop}
    {guar' : List (Event R' ε) → C' → Prop} {post : Except ε α → List (Event R ε) → Prop}
    (rel : List (Event R ε) → List (Event R' ε) → Prop)
    (hf : ∀ h h' c, rel h h' → guar h c →
      Conforms guar' (fun x h'' => rel (h ++ [⟨c, x⟩]) h'') (f c) h')
    {p : Async C R ε α} {h : List (Event R ε)} {h' : List (Event R' ε)}
    (hp : Conforms guar post p h) (hrel : rel h h') :
    Conforms guar' (fun r h'' => ∃ h, rel h h'' ∧ post r h) (expand f p) h' := by
  induction p generalizing h h' with
  | settled r => exact ⟨h, hrel, hp⟩
  | awaiting c k ih =>
    exact (hf h h' c hrel hp.1).attempt_bind fun x h'' hrel' => ih x (hp.2 x) hrel'

end Async
