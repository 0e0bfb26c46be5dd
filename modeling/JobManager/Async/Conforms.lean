import JobManager.Async.Basic

/-! Reasoning about one async function by the history of its own calls. -/

namespace Async

/-- A call with its answer. -/
structure Event {C : Type} (R : C → Type) (ε : Type) where
  call : C
  answer : Except ε (R call)

variable {C : Type} {R : C → Type} {ε α β : Type}

/-- Whatever the answers are, every call satisfies `guar` at the history it is made after, and the
result satisfies `post` at the whole history. -/
def Conforms (guar : List (Event R ε) → C → Prop) (post : Except ε α → List (Event R ε) → Prop) :
    Async C R ε α → List (Event R ε) → Prop
  | .settled r, h => post r h
  | .awaiting c k, h => guar h c ∧ ∀ x, Conforms guar post (k x) (h ++ [⟨c, x⟩])

/-- What holds of the result of a function, unless it throws. -/
def IfOk (good : α → List (Event R ε) → Prop) : Except ε α → List (Event R ε) → Prop
  | .ok a, h => good a h
  | .error _, _ => True

namespace Conforms

variable {guar guar' : List (Event R ε) → C → Prop} {h : List (Event R ε)}

theorem mono {post post' : Except ε α → List (Event R ε) → Prop} {p : Async C R ε α}
    (hp : Conforms guar post p h) (hguar : ∀ h c, guar h c → guar' h c)
    (hpost : ∀ r h, post r h → post' r h) : Conforms guar' post' p h := by
  induction p generalizing h with
  | settled r => exact hpost r h hp
  | awaiting c k ih => exact ⟨hguar h c hp.1, fun x => ih x (hp.2 x)⟩

theorem bind {mid : Except ε α → List (Event R ε) → Prop}
    {post : Except ε β → List (Event R ε) → Prop} {p : Async C R ε α} {f : α → Async C R ε β}
    (hp : Conforms guar mid p h)
    (hok : ∀ a h, mid (.ok a) h → Conforms guar post (f a) h)
    (herr : ∀ e h, mid (.error e) h → post (.error e) h) :
    Conforms guar post (p >>= f) h := by
  induction p generalizing h with
  | settled r =>
    cases r with
    | ok a => exact hok a h hp
    | error e => exact herr e h hp
  | awaiting c k ih => exact ⟨hp.1, fun x => ih x (hp.2 x)⟩

/-- A part whose outcome is looked at. -/
theorem attempt_bind {mid : Except ε α → List (Event R ε) → Prop}
    {post : Except ε β → List (Event R ε) → Prop} {p : Async C R ε α}
    {k : Except ε α → Async C R ε β} (hp : Conforms guar mid p h)
    (hk : ∀ r h, mid r h → Conforms guar post (k r) h) :
    Conforms guar post (p.attempt >>= k) h := by
  induction p generalizing h with
  | settled r => exact hk r h hp
  | awaiting c k' ih => exact ⟨hp.1, fun x => ih x (hp.2 x)⟩

theorem tryFinally {mid post : Except ε α → List (Event R ε) → Prop} {p : Async C R ε α}
    {q : Async C R ε Unit} (hp : Conforms guar mid p h)
    (hfin : ∀ r h, mid r h → Conforms guar post (q >>= fun _ => .settled r) h) :
    Conforms guar post (p.tryFinally q) h := by
  induction p generalizing h with
  | settled r => exact hfin r h hp
  | awaiting c k ih => exact ⟨hp.1, fun x => ih x (hp.2 x)⟩

/-- One part after the other, where nothing is claimed of a part that throws. -/
theorem andThen {good : α → List (Event R ε) → Prop} {good' : β → List (Event R ε) → Prop}
    {p : Async C R ε α} {f : α → Async C R ε β} (hp : Conforms guar (IfOk good) p h)
    (hf : ∀ a h, good a h → Conforms guar (IfOk good') (f a) h) :
    Conforms guar (IfOk good') (p >>= f) h :=
  hp.bind hf fun _ _ _ => trivial

/-- Once the history settles the matter, the rest of the function may do anything. -/
theorem of_extension {post : Except ε α → List (Event R ε) → Prop} (p : Async C R ε α)
    (hpost : ∀ r h', h <+: h' → post r h') : Conforms (fun _ _ => True) post p h := by
  induction p generalizing h with
  | settled r => exact hpost r h (List.prefix_refl h)
  | awaiting c k ih =>
    exact ⟨trivial, fun x => ih x fun r h' hh' => hpost r h' ((List.prefix_append _ _).trans hh')⟩

/-- An assertion kept by every allowed call holds at every call and at the end. -/
theorem frame {inv : List (Event R ε) → Prop} {post : Except ε α → List (Event R ε) → Prop}
    {p : Async C R ε α} (hp : Conforms guar post p h) (hinv : inv h)
    (hkeep : ∀ h c x, inv h → guar h c → inv (h ++ [⟨c, x⟩])) :
    Conforms (fun h c => guar h c ∧ inv h) (fun r h => post r h ∧ inv h) p h := by
  induction p generalizing h with
  | settled r => exact ⟨hp, hinv⟩
  | awaiting c k ih => exact ⟨⟨hp.1, hinv⟩, fun x => ih x (hp.2 x) (hkeep h c x hinv hp.1)⟩

end Conforms

end Async
