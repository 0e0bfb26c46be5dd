import Mathlib.Logic.Relation
import Mathlib.Tactic

/-! Async functions as suspended programs: a program is settled or waits for the answer of one
call. Every awaited call may be answered or rejected. -/

/-- The remaining work of an async function over the calls `C`, where `R c` is what `c` answers. -/
inductive Async (C : Type) (R : C → Type) (ε α : Type) : Type where
  | settled (result : Except ε α)
  | awaiting (call : C) (resume : Except ε (R call) → Async C R ε α)

namespace Async

variable {C : Type} {R : C → Type} {ε α β S : Type}

protected def bind (p : Async C R ε α) (f : α → Async C R ε β) : Async C R ε β :=
  match p with
  | .settled (.ok a) => f a
  | .settled (.error e) => .settled (.error e)
  | .awaiting c k => .awaiting c fun x => (k x).bind f

instance : Monad (Async C R ε) where
  pure a := .settled (.ok a)
  bind := Async.bind

def isSettled : Async C R ε α → Bool
  | .settled _ => true
  | .awaiting _ _ => false

/-- `await` of one call: its answer, or its rejection rethrown. -/
def perform (c : C) : Async C R ε (R c) := .awaiting c .settled

/-- `try p catch (e) h(e)`. -/
def tryCatch (p : Async C R ε α) (h : ε → Async C R ε α) : Async C R ε α :=
  match p with
  | .settled (.ok a) => .settled (.ok a)
  | .settled (.error e) => h e
  | .awaiting c k => .awaiting c fun x => (k x).tryCatch h

/-- The outcome of `p` as a value. -/
def attempt (p : Async C R ε α) : Async C R ε (Except ε α) :=
  match p with
  | .settled r => .settled (.ok r)
  | .awaiting c k => .awaiting c fun x => (k x).attempt

/-- `try p finally q`: the result of `p` stands unless `q` throws. -/
def tryFinally (p : Async C R ε α) (q : Async C R ε Unit) : Async C R ε α :=
  match p with
  | .settled r => q.bind fun _ => .settled r
  | .awaiting c k => .awaiting c fun x => (k x).tryFinally q

@[simp] theorem pure_def (a : α) : (pure a : Async C R ε α) = .settled (.ok a) := rfl

@[simp] theorem settled_ok_bind (a : α) (f : α → Async C R ε β) :
    (Async.settled (.ok a) >>= f) = f a := rfl

@[simp] theorem settled_error_bind (e : ε) (f : α → Async C R ε β) :
    (Async.settled (.error e) >>= f) = .settled (.error e) := rfl

theorem perform_bind (c : C) (f : R c → Async C R ε β) :
    (perform c >>= f) = .awaiting c fun x => .settled x >>= f := rfl

@[simp] theorem tryFinally_settled (r : Except ε α) (q : Async C R ε Unit) :
    (Async.settled r).tryFinally q = q >>= fun _ => .settled r := rfl

end Async
