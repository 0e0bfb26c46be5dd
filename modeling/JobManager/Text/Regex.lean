import Mathlib.Tactic

/-! Regular expressions matched by backtracking: of all ways to match, the first one counts. -/

/-- Quantifiers other than `?` are over one class of characters. -/
inductive Regex (α : Type) where
  | empty
  | one (p : α → Bool)
  | seq (r r' : Regex α)
  | either (r r' : Regex α)
  | optional (r : Regex α)
  | star (p : α → Bool)
  | lazyStar (p : α → Bool)
  | capture (r : Regex α)
  | wordEnd (p : α → Bool)  -- `\b` after a character of a word
  | stop

namespace Regex

variable {α β : Type}

/-- As many characters as possible, fewer where the rest `k` of the expression fails. -/
def greedily (p : α → Bool) (k : List α → Option β) : List α → Option β
  | [] => k []
  | c :: cs => if p c then (greedily p k cs).or (k (c :: cs)) else k (c :: cs)

/-- As few characters as possible, more where the rest of the expression fails. -/
def lazily (p : α → Bool) (k : List α → Option β) : List α → Option β
  | [] => k []
  | c :: cs => (k (c :: cs)).or (if p c then lazily p k cs else none)

/-- Match at the start of a text; `k` gets the groups captured so far and the rest of the text. -/
def run : Regex α → (List (List α) → List α → Option β) → List (List α) → List α → Option β
  | empty, k, groups, s => k groups s
  | one _, _, _, [] => none
  | one p, k, groups, c :: s => if p c then k groups s else none
  | seq r r', k, groups, s => r.run (r'.run k) groups s
  | either r r', k, groups, s => (r.run k groups s).or (r'.run k groups s)
  | optional r, k, groups, s => (r.run k groups s).or (k groups s)
  | star p, k, groups, s => greedily p (k groups) s
  | lazyStar p, k, groups, s => lazily p (k groups) s
  | capture r, k, groups, s =>
    r.run (fun groups s' => k (groups ++ [s.take (s.length - s'.length)]) s') groups s
  | wordEnd p, k, groups, s => if s.head?.any p then none else k groups s
  | stop, k, groups, s => if s.isEmpty then k groups s else none

/-- `exec` of an expression that begins with `^`: what its groups capture. -/
def exec (r : Regex α) (s : List α) : Option (List (List α)) :=
  r.run (fun groups _ => some groups) [] s

/-- One expression after the other. -/
def all (rs : List (Regex α)) : Regex α := rs.foldr seq empty

/-- One character after the other. -/
def word (ps : List (α → Bool)) : Regex α := all (ps.map one)

/-- The characters of a text, as a word. -/
def literal [DecidableEq α] (text : List α) : List (α → Bool) := text.map fun c d => d = c

variable {p : α → Bool} {k : List α → Option β} {pre rest s : List α} {b : β}
  {K : List (List α) → List α → Option β} {groups : List (List α)}

@[simp] theorem run_all_cons (r : Regex α) (rs : List (Regex α)) :
    (all (r :: rs)).run K groups s = r.run ((all rs).run K) groups s := rfl

@[simp] theorem run_star : (star p).run K groups s = greedily p (K groups) s := rfl

@[simp] theorem run_lazyStar : (lazyStar p).run K groups s = lazily p (K groups) s := rfl

/-- A greedy star takes nothing from a text that begins with some other character. -/
theorem greedily_of_head (h : ∀ c ∈ s.head?, p c = false) : greedily p k s = k s := by
  cases s with
  | nil => rfl
  | cons c s => simp [greedily, h c rfl]

/-- A greedy star takes all it can if the rest matches then. -/
theorem greedily_eq_some (hpre : ∀ c ∈ pre, p c = true)
    (hstop : ∀ c ∈ rest.head?, p c = false) (hk : k rest = some b) :
    greedily p k (pre ++ rest) = some b := by
  induction pre with
  | nil => exact (greedily_of_head hstop).trans hk
  | cons c pre ih =>
    rw [List.forall_mem_cons] at hpre
    simp [greedily, hpre.1, ih hpre.2]

/-- A lazy star takes what it must: wherever it could stop before, the rest fails. -/
theorem lazily_eq_some (hpre : ∀ c ∈ pre, p c = true)
    (hfail : ∀ s, s ≠ [] → s <:+ pre → k (s ++ rest) = none) (hk : k rest = some b) :
    lazily p k (pre ++ rest) = some b := by
  induction pre with
  | nil =>
    cases rest with
    | nil => exact hk
    | cons c rest => simp [lazily, hk]
  | cons c pre ih =>
    rw [List.forall_mem_cons] at hpre
    have hfirst := hfail (c :: pre) (List.cons_ne_nil c pre) (List.suffix_refl _)
    have hlater := ih hpre.2 fun s hs hsuffix => hfail s hs (hsuffix.trans (List.suffix_cons c pre))
    rw [List.cons_append] at hfirst ⊢
    simp [lazily, hfirst, hpre.1, hlater]

theorem greedily_sound (h : greedily p k s = some b) :
    ∃ pre rest, s = pre ++ rest ∧ (∀ c ∈ pre, p c = true) ∧ k rest = some b := by
  induction s with
  | nil => exact ⟨[], [], rfl, by simp, h⟩
  | cons c s ih =>
    unfold greedily at h
    split at h
    · next hc =>
      rcases Option.or_eq_some_iff.mp h with hlonger | ⟨-, hk⟩
      · obtain ⟨pre, rest, rfl, hpre, hk⟩ := ih hlonger
        exact ⟨c :: pre, rest, rfl, by simpa [hc] using hpre, hk⟩
      · exact ⟨[], c :: s, rfl, by simp, hk⟩
    · exact ⟨[], c :: s, rfl, by simp, h⟩

/-- A word matches its own characters. -/
theorem run_word_append {ps : List (α → Bool)} {cs : List α}
    (h : List.Forall₂ (fun p c => p c = true) ps cs) :
    (word ps).run K groups (cs ++ s) = K groups s := by
  induction h with
  | nil => rfl
  | cons hc hcs ih => simpa [word, run, hc] using ih

/-- A word matches nothing but its own characters. -/
theorem run_word_sound {ps : List (α → Bool)} (h : (word ps).run K groups s = some b) :
    ∃ cs rest, s = cs ++ rest ∧ List.Forall₂ (fun p c => p c = true) ps cs ∧
      K groups rest = some b := by
  induction ps generalizing s with
  | nil => exact ⟨[], s, rfl, .nil, h⟩
  | cons p ps ih =>
    cases s with
    | nil => cases h
    | cons c s =>
      rw [word, List.map_cons, run_all_cons, run] at h
      split at h
      · next hc =>
        obtain ⟨cs, rest, rfl, hcs, hK⟩ := ih h
        exact ⟨c :: cs, rest, rfl, .cons hc hcs, hK⟩
      · cases h

theorem literal_self [DecidableEq α] (text : List α) :
    List.Forall₂ (fun p c => p c = true) (literal text) text := by
  unfold literal
  induction text with
  | nil => exact .nil
  | cons c cs ih => exact .cons (decide_eq_true rfl) ih

theorem eq_of_literal [DecidableEq α] {text cs : List α}
    (h : List.Forall₂ (fun p c => p c = true) (literal text) cs) : cs = text := by
  unfold literal at h
  induction text generalizing cs with
  | nil =>
    cases h
    rfl
  | cons c text ih =>
    cases h with
    | cons hc hcs => rw [of_decide_eq_true hc, ih hcs]

end Regex
