import JobManager.Text.Regex

/-! A global expression on a text: its matches from left to right, and what lies between them. -/

namespace Regex

variable {α : Type} {r r' : Regex α} {a b s t : List α} {ps : List (α → Bool)}
  {groups : List (List α)}

structure Match (α : Type) where
  text : List α
  groups : List (List α)

/-- The match at the start of a text. -/
def matchStart (r : Regex α) (s : List α) : Option (Match α) :=
  r.run (fun groups rest => some ⟨s.take (s.length - rest.length), groups⟩) [] s

/-- The characters outside all matches, and the matches; what a match has taken is skipped. The
expression matches no empty text. -/
def scan (r : Regex α) : ℕ → List α → List (α ⊕ Match α)
  | _, [] => []
  | skip + 1, _ :: s => scan r skip s
  | 0, c :: s =>
    match r.matchStart (c :: s) with
    | none => .inl c :: scan r 0 s
    | some m => .inr m :: scan r (m.text.length - 1) s

/-- `matchAll`. -/
def matchAll (r : Regex α) (s : List α) : List (Match α) := (r.scan 0 s).filterMap Sum.getRight?

/-- `exec` of an expression that may match anywhere. -/
def find (r : Regex α) (s : List α) : Option (Match α) := (r.matchAll s).head?

/-- `replace` with a function of the matched text. -/
def replaceAll (r : Regex α) (f : List α → List α) (s : List α) : List α :=
  (r.scan 0 s).flatMap (Sum.elim ([·]) fun m => f m.text)

/-- `split`: what lies between the matches. -/
def split (r : Regex α) (s : List α) : List (List α) :=
  ((r.scan 0 s).splitOnP Sum.isRight).map (List.filterMap Sum.getLeft?)

theorem scan_skip (r : Regex α) (n : ℕ) (s : List α) : r.scan n s = r.scan 0 (s.drop n) := by
  induction s generalizing n with
  | nil => simp [scan]
  | cons c s ih =>
    cases n with
    | zero => rfl
    | succ n => exact ih n

theorem scan_of_none {c : α} (h : r.matchStart (c :: s) = none) :
    r.scan 0 (c :: s) = .inl c :: r.scan 0 s := by
  simp only [scan, h]

/-- A match is passed over. -/
theorem scan_of_some (h : r.matchStart (a ++ s) = some ⟨a, groups⟩) (ha : a ≠ []) :
    r.scan 0 (a ++ s) = .inr ⟨a, groups⟩ :: r.scan 0 s := by
  cases a with
  | nil => exact absurd rfl ha
  | cons c a =>
    rw [List.cons_append] at h ⊢
    simp only [scan, h]
    rw [List.length_cons, Nat.add_sub_cancel, scan_skip, List.drop_left]

/-- No match begins in `a`. -/
theorem scan_append (h : ∀ s, s ≠ [] → s <:+ a → r.matchStart (s ++ t) = none) :
    r.scan 0 (a ++ t) = a.map .inl ++ r.scan 0 t := by
  induction a with
  | nil => rfl
  | cons c a ih =>
    have hnone := h (c :: a) (List.cons_ne_nil c a) (List.suffix_refl _)
    have hrest := ih fun s hs hsuffix => h s hs (hsuffix.trans (List.suffix_cons c a))
    rw [List.cons_append] at hnone ⊢
    rw [scan_of_none hnone, hrest, List.map_cons, List.cons_append]

theorem replaceAll_of_none {c : α} (f : List α → List α) (h : r.matchStart (c :: s) = none) :
    r.replaceAll f (c :: s) = c :: r.replaceAll f s := by
  rw [replaceAll, scan_of_none h]
  rfl

theorem replaceAll_of_some (f : List α → List α)
    (h : r.matchStart (a ++ s) = some ⟨a, groups⟩) (ha : a ≠ []) :
    r.replaceAll f (a ++ s) = f a ++ r.replaceAll f s := by
  rw [replaceAll, scan_of_some h ha]
  rfl

theorem matchAll_of_some (h : r.matchStart (a ++ s) = some ⟨a, groups⟩) (ha : a ≠ []) :
    r.matchAll (a ++ s) = ⟨a, groups⟩ :: r.matchAll s := by
  rw [matchAll, scan_of_some h ha]
  rfl

theorem matchAll_append (h : ∀ s, s ≠ [] → s <:+ a → r.matchStart (s ++ t) = none) :
    r.matchAll (a ++ t) = r.matchAll t := by
  have hnone : (a.map Sum.inl).filterMap (Sum.getRight? (α := α) (β := Match α)) = [] := by
    rw [List.filterMap_map, List.filterMap_eq_nil_iff]
    exact fun c _ => rfl
  rw [matchAll, scan_append h, List.filterMap_append, hnone, List.nil_append, matchAll]

/-- The expression occurs nowhere. -/
theorem matchStart_of_matchAll_nil (h : r.matchAll a = []) (hs : s ≠ []) (hsuffix : s <:+ a) :
    r.matchStart s = none := by
  induction a with
  | nil => exact absurd (List.suffix_nil.mp hsuffix) hs
  | cons c a ih =>
    cases hstart : r.matchStart (c :: a) with
    | some m => simp [matchAll, scan, hstart] at h
    | none =>
      rw [matchAll, scan_of_none hstart] at h
      rcases List.suffix_cons_iff.mp hsuffix with rfl | hsuffix
      · exact hstart
      · exact ih h hsuffix

/-- The words of an expression and a text disagree within the text. -/
def clash : List (α → Bool) → List α → Bool
  | p :: ps, c :: s => !p c || clash ps s
  | _, _ => false

/-- The word begins nowhere in the text, whatever follows the text. -/
def clashes (ps : List (α → Bool)) : List α → Bool
  | [] => true
  | c :: s => clash ps (c :: s) && clashes ps s

theorem clash_append (h : clash ps a = true) (t : List α) : clash ps (a ++ t) = true := by
  induction ps generalizing a with
  | nil => simp [clash] at h
  | cons p ps ih =>
    cases a with
    | nil => simp [clash] at h
    | cons c a =>
      rw [clash, Bool.or_eq_true] at h
      rw [List.cons_append, clash, Bool.or_eq_true]
      exact h.imp id ih

theorem run_word_of_clash {β : Type} {K : List (List α) → List α → Option β}
    (h : clash ps s = true) : (word ps).run K groups s = none := by
  cases hrun : (word ps).run K groups s with
  | none => rfl
  | some b =>
    obtain ⟨cs, rest, rfl, hcs, -⟩ := run_word_sound hrun
    exfalso
    clear hrun
    induction hcs with
    | nil => simp [clash] at h
    | cons hc _ ih =>
      apply ih
      simpa [clash, hc] using h

theorem clashes_append (ha : clashes ps a = true) (hb : clashes ps b = true) :
    clashes ps (a ++ b) = true := by
  induction a with
  | nil => exact hb
  | cons c a ih =>
    rw [clashes, Bool.and_eq_true] at ha
    rw [List.cons_append, clashes, ih ha.2, Bool.and_true]
    exact clash_append ha.1 b

/-- Nothing in the text is a first character of the word. -/
theorem clashes_of_head {p : α → Bool} (h : ∀ c ∈ a, p c = false) :
    clashes (p :: ps) a = true := by
  induction a with
  | nil => rfl
  | cons c a ih =>
    rw [List.forall_mem_cons] at h
    simp [clashes, clash, h.1, ih h.2]

theorem clash_of_suffix (h : clashes ps a = true) (hs : s ≠ []) (hsuffix : s <:+ a)
    (t : List α) : clash ps (s ++ t) = true := by
  induction a with
  | nil => exact absurd (List.suffix_nil.mp hsuffix) hs
  | cons c a ih =>
    rw [clashes, Bool.and_eq_true] at h
    rcases List.suffix_cons_iff.mp hsuffix with rfl | hsuffix
    · exact clash_append h.1 t
    · exact ih h.2 hsuffix

/-- An expression that begins with the word finds nothing in such a text. -/
theorem find_append_of_clashes (rs : List (Regex α)) (h : clashes ps a = true) :
    (all (word ps :: rs)).find (a ++ t) = (all (word ps :: rs)).find t := by
  rw [find, find, matchAll_append]
  intro s hs hsuffix
  exact run_word_of_clash (clash_of_suffix h hs hsuffix t)

/-- In front of `s` the expression takes the text `a`, with these groups, whatever follows it in a
larger expression that then matches. -/
def Takes (r : Regex α) (a : List α) (groups : List (List α)) (s : List α) : Prop :=
  ∀ (β : Type) (K : List (List α) → List α → Option β) (before : List (List α)) (b : β),
    K (before ++ groups) s = some b → r.run K before (a ++ s) = some b

theorem Takes.matchStart (h : r.Takes a groups s) : r.matchStart (a ++ s) = some ⟨a, groups⟩ := by
  apply h
  simp

theorem Takes.nil (s : List α) : (all []).Takes [] [] s := by
  intro β K before b hK
  simpa [all, run] using hK

theorem Takes.cons {rs : List (Regex α)} {groups' : List (List α)}
    (h : r.Takes a groups (b ++ s)) (hs : (all rs).Takes b groups' s) :
    (all (r :: rs)).Takes (a ++ b) (groups ++ groups') s := by
  intro β K before m hK
  rw [List.append_assoc, run_all_cons]
  apply h
  apply hs
  rwa [List.append_assoc]

theorem Takes.word (h : List.Forall₂ (fun p c => p c = true) ps a) (s : List α) :
    (word ps).Takes a [] s := by
  intro β K before b hK
  rw [run_word_append h]
  simpa using hK

theorem Takes.star {p : α → Bool} (ha : ∀ c ∈ a, p c = true)
    (hs : ∀ c ∈ s.head?, p c = false) : (star p).Takes a [] s := by
  intro β K before b hK
  rw [run_star]
  apply greedily_eq_some ha hs
  simpa using hK

theorem Takes.wordEnd {p : α → Bool} (hs : ∀ c ∈ s.head?, p c = false) :
    (wordEnd p).Takes [] [] s := by
  intro β K before b hK
  have hnone : s.head?.any p = false := by
    cases hhead : s.head? with
    | none => rfl
    | some c => exact hs c hhead
  simpa [run, hnone] using hK

/-- Anything up to the first place where the word follows. -/
theorem Takes.capture_lazyStar {rs : List (Regex α)} (ha : clashes ps a = true)
    (h : (all (Regex.word ps :: rs)).Takes b groups s) :
    (all (capture (lazyStar fun _ => true) :: Regex.word ps :: rs)).Takes (a ++ b) (a :: groups)
      s := by
  intro β K before m hK
  rw [List.append_assoc, run_all_cons, run, run_lazyStar]
  apply lazily_eq_some
  · simp
  · intro s' hs' hsuffix
    exact run_word_of_clash (clash_of_suffix ha hs' hsuffix _)
  · apply h
    simpa using hK

section Split

theorem split_of_none {c : α} (h : r.matchStart (c :: s) = none) :
    r.split (c :: s) = (r.split s).modifyHead (c :: ·) := by
  rw [split, split, scan_of_none h, List.splitOnP_cons_eq_if_modifyHead]
  cases hpieces : (r.scan 0 s).splitOnP Sum.isRight with
  | nil => exact absurd hpieces (List.splitOnP_ne_nil _ _)
  | cons piece pieces => simp

theorem split_of_some (h : r.matchStart (a ++ s) = some ⟨a, groups⟩) (ha : a ≠ []) :
    r.split (a ++ s) = [] :: r.split s := by
  rw [split, split, scan_of_some h ha, List.splitOnP_cons_eq_if_modifyHead]
  simp

theorem split_ne_nil (r : Regex α) (s : List α) : r.split s ≠ [] := by
  simp [split, List.splitOnP_ne_nil]

/-- No match begins in `a`, and one lies behind it. -/
theorem split_append (h : ∀ s, s ≠ [] → s <:+ a → r.matchStart (s ++ (b ++ t)) = none)
    (hb : r.matchStart (b ++ t) = some ⟨b, groups⟩) (hne : b ≠ []) :
    r.split (a ++ (b ++ t)) = a :: r.split t := by
  induction a with
  | nil => exact split_of_some hb hne
  | cons c a ih =>
    have hnone := h (c :: a) (List.cons_ne_nil c a) (List.suffix_refl _)
    have hrest := ih fun s hs hsuffix => h s hs (hsuffix.trans (List.suffix_cons c a))
    rw [List.cons_append] at hnone ⊢
    rw [split_of_none hnone, hrest, List.modifyHead_cons]

theorem split_eq_singleton (h : ∀ s, s ≠ [] → s <:+ a → r.matchStart s = none) :
    r.split a = [a] := by
  induction a with
  | nil => rfl
  | cons c a ih =>
    rw [split_of_none (h _ (List.cons_ne_nil c a) (List.suffix_refl _)),
      ih fun s hs hsuffix => h s hs (hsuffix.trans (List.suffix_cons c a)), List.modifyHead_cons]

/-- The first piece is where the text begins. -/
theorem head_split (r : Regex α) (s : List α) : ∀ piece ∈ (r.split s).head?, piece <+: s := by
  induction s with
  | nil =>
    intro piece hpiece
    cases hpiece
    exact List.prefix_refl _
  | cons c s ih =>
    intro piece hpiece
    cases hmatch : r.matchStart (c :: s) with
    | none =>
      rw [split_of_none hmatch] at hpiece
      cases hsplit : r.split s with
      | nil => exact absurd hsplit (split_ne_nil r s)
      | cons piece' pieces =>
        rw [hsplit] at hpiece ih
        cases hpiece
        exact List.cons_prefix_cons.mpr ⟨rfl, ih piece' rfl⟩
    | some m =>
      have hempty : (r.split (c :: s)).head? = some [] := by
        simp [split, scan, hmatch, List.splitOnP_cons_eq_if_modifyHead]
      rw [hempty] at hpiece
      cases hpiece
      exact List.nil_prefix

end Split

section Literal

variable [DecidableEq α] {separator piece : List α} {pieces : List (List α)}

/-- Splitting undoes joining where the separator begins in no piece. -/
theorem split_intercalate (hseparator : separator ≠ []) (hpieces : pieces ≠ [])
    (h : ∀ piece ∈ pieces, clashes (literal separator) piece = true) :
    (word (literal separator)).split (separator.intercalate pieces) = pieces := by
  have hnone : ∀ piece ∈ pieces, ∀ t s, s ≠ [] → s <:+ piece →
      (word (literal separator)).matchStart (s ++ t) = none := by
    intro piece hmem t s hs hsuffix
    exact run_word_of_clash (clash_of_suffix (h piece hmem) hs hsuffix t)
  induction pieces with
  | nil => exact absurd rfl hpieces
  | cons piece pieces ih =>
    cases pieces with
    | nil =>
      rw [List.intercalate_singleton]
      apply split_eq_singleton
      intro s hs hsuffix
      rw [← List.append_nil s]
      exact hnone piece List.mem_cons_self [] s hs hsuffix
    | cons piece' pieces =>
      have hfound := (Takes.word (literal_self separator)
        (separator.intercalate (piece' :: pieces))).matchStart
      rw [List.intercalate_cons_cons, List.append_assoc,
        split_append (hnone piece List.mem_cons_self _) hfound hseparator,
        ih (List.cons_ne_nil _ _)]
      · exact fun piece hmem => h piece (List.mem_cons_of_mem _ hmem)
      · exact fun piece hmem => hnone piece (List.mem_cons_of_mem _ hmem)

/-- No piece contains the separator. -/
theorem not_infix_of_mem_split (hseparator : separator ≠ []) {s : List α}
    (h : piece ∈ (word (literal separator)).split s) : ¬ separator <:+: piece := by
  induction hlength : s.length using Nat.strong_induction_on generalizing s piece with
  | _ n ih =>
    cases s with
    | nil =>
      rw [List.mem_singleton.mp h]
      simpa using hseparator
    | cons c s =>
      rw [List.length_cons] at hlength
      cases hmatch : (word (literal separator)).matchStart (c :: s) with
      | none =>
        rw [split_of_none hmatch] at h
        have hfirst := head_split (word (literal separator)) s
        have hrest : ∀ piece ∈ (word (literal separator)).split s, ¬ separator <:+: piece :=
          fun piece h => ih s.length (by omega) h rfl
        cases hsplit : (word (literal separator)).split s with
        | nil => exact absurd hsplit (split_ne_nil _ s)
        | cons piece' pieces =>
          rw [hsplit, List.modifyHead_cons] at h
          rw [hsplit] at hfirst hrest
          rcases List.mem_cons.mp h with rfl | hmem
          · rw [List.infix_cons_iff]
            rintro (hstart | hinside)
            · obtain ⟨rest, hs⟩ :=
                hstart.trans (List.cons_prefix_cons.mpr ⟨rfl, hfirst piece' rfl⟩)
              rw [← hs, (Takes.word (literal_self separator) rest).matchStart] at hmatch
              cases hmatch
            · exact hrest piece' List.mem_cons_self hinside
          · exact hrest piece (List.mem_cons_of_mem _ hmem)
      | some m =>
        obtain ⟨cs, rest, hs, hcs, -⟩ := run_word_sound hmatch
        rw [eq_of_literal hcs] at hs
        rw [hs, split_of_some (Takes.word (literal_self separator) rest).matchStart hseparator] at h
        rcases List.mem_cons.mp h with rfl | hmem
        · simpa using hseparator
        · apply ih rest.length _ hmem rfl
          have hlengths := congrArg List.length hs
          have hpos := List.length_pos_iff.mpr hseparator
          simp only [List.length_cons, List.length_append] at hlengths
          omega

/-- A pair of equal characters begins nowhere: it is not in the text, nor half of it at the end. -/
theorem clashes_pair {x : α} :
    clashes (literal [x, x]) a = true ↔
      a.IsChain (fun c d => ¬ (c = x ∧ d = x)) ∧ a.getLast? ≠ some x := by
  induction a with
  | nil => simp [clashes]
  | cons c a ih =>
    cases a with
    | nil => simp [clashes, clash, literal]
    | cons d a =>
      rw [clashes, Bool.and_eq_true, ih, List.isChain_cons_cons, List.getLast?_cons_cons]
      simp only [clash, literal, List.map_cons, List.map_nil, Bool.or_false, Bool.or_eq_true,
        Bool.not_eq_true', decide_eq_false_iff_not]
      tauto

end Literal

end Regex

namespace Text

open Regex

/-- `text.split(separator)`. -/
def splitText (separator text : String) : List String :=
  ((word (literal separator.toList)).split text.toList).map String.ofList

theorem splitText_intercalate {separator : String} {pieces : List String}
    (hseparator : separator.toList ≠ []) (hpieces : pieces ≠ [])
    (h : ∀ piece ∈ pieces, clashes (literal separator.toList) piece.toList = true) :
    splitText separator (String.intercalate separator pieces) = pieces := by
  rw [splitText, String.toList_intercalate, split_intercalate hseparator]
  · simp
  · simpa using hpieces
  · simpa using h

theorem not_infix_of_mem_splitText {separator text piece : String}
    (hseparator : separator.toList ≠ [])
    (h : piece ∈ splitText separator text) : ¬ separator.toList <:+: piece.toList := by
  obtain ⟨cs, hcs, rfl⟩ := List.mem_map.mp h
  rw [String.toList_ofList]
  exact not_infix_of_mem_split hseparator hcs

end Text
