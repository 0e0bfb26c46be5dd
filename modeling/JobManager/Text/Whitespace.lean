import Mathlib.Data.List.DropRight
import Mathlib.Tactic

/-! Texts without white space at their ends, and `String.prototype.trim`. -/
namespace Text

section Strip

variable {α : Type} {p : α → Bool} {l pre post : List α}

/-- Drop what satisfies `p` at both ends. -/
def strip (p : α → Bool) (l : List α) : List α := (l.dropWhile p).rdropWhile p

/-- Neither end satisfies `p`. -/
def Stripped (p : α → Bool) (l : List α) : Prop :=
  ∀ h : l ≠ [], p (l.head h) = false ∧ p (l.getLast h) = false

theorem stripped_surround {a b : α} (ha : p a = false) (hb : p b = false) :
    Stripped p (a :: l ++ [b]) := by
  intro hne
  simp [ha, hb]

theorem dropWhile_eq_self (h : ∀ hne : l ≠ [], p (l.head hne) = false) : l.dropWhile p = l := by
  cases l with
  | nil => rfl
  | cons a l => exact List.dropWhile_cons_of_neg (by simpa using h (List.cons_ne_nil a l))

theorem rdropWhile_append (hpost : ∀ a ∈ post, p a = true) :
    (l ++ post).rdropWhile p = l.rdropWhile p := by
  rw [List.rdropWhile, List.reverse_append, List.dropWhile_append_of_pos (by simpa using hpost),
    ← List.rdropWhile]

theorem rdropWhile_append_of_ne_nil (hl : l.rdropWhile p ≠ []) :
    (pre ++ l).rdropWhile p = pre ++ l.rdropWhile p := by
  have hrest : (l.reverse.dropWhile p).isEmpty = false := by
    simpa [List.rdropWhile] using hl
  simp [List.rdropWhile, List.dropWhile_append, hrest]

theorem strip_eq_self : strip p l = l ↔ Stripped p l := by
  constructor
  · intro h hne
    have hdrop : l.dropWhile p = l :=
      (List.dropWhile_suffix p).eq_of_length_le
        (by conv_lhs => rw [← h]
            exact (List.rdropWhile_prefix p _).length_le)
    refine ⟨?_, ?_⟩
    · have hnot := List.head_dropWhile_not p (l := l) (by rwa [hdrop])
      simpa only [hdrop] using hnot
    · rw [strip, hdrop] at h
      simpa using List.rdropWhile_eq_self_iff.mp h hne
  · intro h
    rw [strip, dropWhile_eq_self fun hne => (h hne).1, List.rdropWhile_eq_self_iff]
    exact fun hne => by simp [(h hne).2]

theorem stripped_strip : Stripped p (strip p l) := by
  intro hne
  have hdrop : l.dropWhile p ≠ [] := by
    intro hnil
    exact hne (by rw [strip, hnil, List.rdropWhile_nil])
  refine ⟨?_, Bool.eq_false_iff.mpr (List.rdropWhile_last_not p _ hne)⟩
  rw [← List.head_dropWhile_not p hdrop]
  exact congrArg p ((List.rdropWhile_prefix p _).head hne)

/-- What surrounds a text is dropped with it. -/
theorem strip_append (hpre : ∀ a ∈ pre, p a = true) (hpost : ∀ a ∈ post, p a = true) :
    strip p (pre ++ l ++ post) = strip p l := by
  rw [strip, List.append_assoc, List.dropWhile_append_of_pos hpre, List.dropWhile_append]
  split
  · next hnil =>
    rw [List.isEmpty_iff] at hnil
    rw [strip, hnil, List.rdropWhile_nil, List.rdropWhile_eq_nil_iff]
    exact fun a ha => hpost a ((List.dropWhile_suffix p).subset ha)
  · exact rdropWhile_append hpost

/-- A text is what is left of it between what is dropped at its ends. -/
theorem exists_strip (p : α → Bool) (l : List α) : ∃ pre post, l = pre ++ strip p l ++ post ∧
    (∀ a ∈ pre, p a = true) ∧ ∀ a ∈ post, p a = true := by
  obtain ⟨post, hpost⟩ := List.rdropWhile_prefix p (l.dropWhile p)
  refine ⟨l.takeWhile p, post, ?_, fun a ha => List.mem_takeWhile_imp ha, ?_⟩
  · rw [strip, List.append_assoc, hpost, List.takeWhile_append_dropWhile]
  · intro a ha
    have hlast : post = ((l.dropWhile p).reverse.takeWhile p).reverse := by
      have hsplit := List.takeWhile_append_dropWhile (p := p) (l := (l.dropWhile p).reverse)
      have hback := congrArg List.reverse hsplit
      rw [List.reverse_append, List.reverse_reverse] at hback
      exact List.append_cancel_left (hpost.trans hback.symm)
    rw [hlast, List.mem_reverse] at ha
    exact List.mem_takeWhile_imp ha

theorem dropWhile_flatMap {f : α → List α} (hspace : ∀ a, p a = true → f a = [a])
    (hother : ∀ a, p a = false → ∃ b bs, f a = b :: bs ∧ p b = false) (l : List α) :
    (l.flatMap f).dropWhile p = (l.dropWhile p).flatMap f := by
  induction l with
  | nil => rfl
  | cons a l ih =>
    cases ha : p a with
    | true => simp [hspace a ha, ha, ih]
    | false =>
      obtain ⟨b, bs, hf, hb⟩ := hother a ha
      simp [ha, hf, hb]

/-- White space that stands for itself is dropped before or after a translation. -/
theorem strip_flatMap {f : α → List α} (hspace : ∀ a, p a = true → f a = [a])
    (hfirst : ∀ a, p a = false → ∃ b bs, f a = b :: bs ∧ p b = false)
    (hlast : ∀ a, p a = false → ∃ b bs, (f a).reverse = b :: bs ∧ p b = false) (l : List α) :
    strip p (l.flatMap f) = (strip p l).flatMap f := by
  have hreverse : ∀ l : List α, (l.flatMap f).reverse = l.reverse.flatMap fun a => (f a).reverse :=
    fun l => List.reverse_flatMap ..
  rw [strip, dropWhile_flatMap hspace hfirst, List.rdropWhile, hreverse,
    dropWhile_flatMap (f := fun a => (f a).reverse) (by simp +contextual [hspace]) hlast, strip,
    List.rdropWhile]
  generalize ((l.dropWhile p).reverse.dropWhile p) = kept
  induction kept with
  | nil => rfl
  | cons a kept ih => simp [ih]

section Words

variable {a : α} {w : List α}

/-- The words of a text: its longest stretches in which nothing satisfies `p`. -/
def words (p : α → Bool) (l : List α) : List (List α) := (l.splitOnP p).filter fun w => !w.isEmpty

theorem words_cons (ha : p a = true) (l : List α) : words p (a :: l) = words p l := by
  simp [words, List.splitOnP_cons_eq_if_modifyHead, ha]

theorem words_eq_singleton (hw : ∀ a ∈ w, p a = false) (hne : w ≠ []) : words p w = [w] := by
  simp [words, List.splitOnP_eq_singleton hw, hne]

theorem words_append (hw : ∀ a ∈ w, p a = false) (hne : w ≠ []) (ha : p a = true) (l : List α) :
    words p (w ++ a :: l) = w :: words p l := by
  simp [words, List.splitOnP_append_cons_of_forall_mem hw a ha, hne]

theorem ne_nil_of_mem_words (h : w ∈ words p l) : w ≠ [] := by
  simpa using (List.mem_filter.mp h).2

theorem strip_word (hw : ∀ a ∈ w, p a = false) : strip p w = w :=
  strip_eq_self.mpr fun hne => ⟨hw _ (List.head_mem hne), hw _ (List.getLast_mem hne)⟩

/-- What follows a word stays unless it is dropped as a whole. -/
theorem strip_word_append (hw : ∀ a ∈ w, p a = false) (hne : w ≠ []) (ha : p a = true)
    (l : List α) :
    strip p (w ++ a :: l) = if l.rdropWhile p = [] then w else w ++ a :: l.rdropWhile p := by
  have hfront : (w ++ a :: l).dropWhile p = w ++ a :: l := by
    apply dropWhile_eq_self
    intro hne'
    rw [List.head_append_of_ne_nil hne]
    exact hw _ (List.head_mem hne)
  rw [strip, hfront]
  split_ifs with hnil
  · rw [List.rdropWhile_eq_nil_iff] at hnil
    rw [rdropWhile_append (List.forall_mem_cons.mpr ⟨ha, hnil⟩), List.rdropWhile_eq_self_iff]
    exact fun hne' => by simp [hw _ (List.getLast_mem hne')]
  · rw [List.append_cons, rdropWhile_append_of_ne_nil hnil, ← List.append_cons]

/-- A text is read word by word. -/
theorem words_induction {motive : List α → Prop} (p : α → Bool) (nil : motive [])
    (space : ∀ a l, p a = true → motive l → motive (a :: l))
    (last : ∀ w, (∀ a ∈ w, p a = false) → w ≠ [] → motive w)
    (word : ∀ w a l, (∀ a ∈ w, p a = false) → w ≠ [] → p a = true → motive l →
      motive (w ++ a :: l)) (l : List α) : motive l := by
  induction hlength : l.length using Nat.strong_induction_on generalizing l with
  | _ n ih =>
    cases l with
    | nil => exact nil
    | cons a l =>
      cases ha : p a with
      | true => exact space a l ha (ih l.length (by simp [← hlength]) l rfl)
      | false =>
        have hsplit := List.takeWhile_append_dropWhile (p := fun a => !p a) (l := a :: l)
        have hw : ∀ b ∈ (a :: l).takeWhile fun a => !p a, p b = false :=
          fun b hb => by simpa using List.mem_takeWhile_imp hb
        have hne : (a :: l).takeWhile (fun a => !p a) ≠ [] := by simp [ha]
        cases hrest : (a :: l).dropWhile fun a => !p a with
        | nil =>
          rw [hrest, List.append_nil] at hsplit
          exact hsplit ▸ last _ hw hne
        | cons b rest =>
          have hb : p b = true := by
            have hhead := List.head?_dropWhile_not (fun a => !p a) (a :: l)
            simpa [hrest] using hhead
          rw [hrest] at hsplit
          rw [← hsplit]
          apply word _ b rest hw hne hb
          apply ih rest.length _ rest rfl
          rw [← hlength, ← hsplit]
          simp
          omega

end Words

end Strip

/-- ECMAScript white space and line terminators. -/
def isSpace (c : Char) : Bool :=
  let n := c.toNat
  (9 ≤ n ∧ n ≤ 13) ∨ n = 0x20 ∨ n = 0xa0 ∨ n = 0x1680 ∨ (0x2000 ≤ n ∧ n ≤ 0x200a) ∨ n = 0x2028 ∨
    n = 0x2029 ∨ n = 0x202f ∨ n = 0x205f ∨ n = 0x3000 ∨ n = 0xfeff

/-- `String.prototype.trim`. -/
def trim (s : String) : String := String.ofList (strip isSpace s.toList)

/-- There is nothing to trim. -/
def Trimmed (s : String) : Prop := trim s = s

instance (s : String) : Decidable (Trimmed s) := inferInstanceAs (Decidable (trim s = s))

variable {s : String}

theorem length_pos_iff : 0 < s.length ↔ s ≠ "" := by
  rw [Nat.pos_iff_ne_zero, Ne, String.length_eq_zero_iff]

theorem isDigit_of_mem_toString {n : ℕ} {c : Char} (hc : c ∈ (toString n).toList) :
    c.isDigit := by
  rw [Nat.toString_eq_ofList_toDigits, String.toList_ofList] at hc
  exact Nat.isDigit_of_mem_toDigits (by decide) (by decide) hc

@[simp] theorem toList_trim (s : String) : (trim s).toList = strip isSpace s.toList :=
  String.toList_ofList

theorem trimmed_iff : Trimmed s ↔ Stripped isSpace s.toList := by
  rw [Trimmed, ← String.toList_inj, toList_trim, strip_eq_self]

theorem trimmed_trim (s : String) : Trimmed (trim s) := by
  rw [trimmed_iff, toList_trim]
  exact stripped_strip

@[simp] theorem trim_trim (s : String) : trim (trim s) = trim s := trimmed_trim s

end Text
