import JobManager.NewsDigest.HttpNewsSource

/-! What is left of a description: no tags, and single spaces between its words. -/
namespace JobManager

open Text Regex

/-- The text without its tags, each of which leaves a space: a tag goes from a '<' to the next '>',
and the flag tells whether one is open. -/
def untag : Bool → List UInt16 → List UInt16
  | _, [] => []
  | true, u :: text => untag (u ≠ unit '>') text
  | false, u :: text =>
    if u = unit '<' ∧ unit '>' ∈ text then unit ' ' :: untag true text else u :: untag false text

/-- The words of a text without its tags, with one space between them. -/
def plainText (text : List UInt16) : List UInt16 :=
  [unit ' '].intercalate (words isSpaceUnit (untag false text))

/-- No '<' is followed by a '>'. -/
def NoTag (text : List UInt16) : Prop :=
  text.Pairwise fun u v => ¬ (u = unit '<' ∧ v = unit '>')

/-- The text with its tags made a space each. -/
def removeTags (text : List UInt16) : List UInt16 := tagRegex.replaceAll (fun _ => units " ") text

/-- The text with its runs of white space made a space each. -/
def collapse (text : List UInt16) : List UInt16 := spacesRegex.replaceAll (fun _ => units " ") text

variable {u : UInt16} {s text pre post : List UInt16}

section Tags

theorem takes_tagRegex (hpre : unit '>' ∉ pre) (s : List UInt16) :
    tagRegex.Takes (units "<" ++ (pre ++ (units ">" ++ []))) [] s := by
  have hattributes : (Regex.star fun u => decide (u ≠ unit '>')).Takes pre []
      (units ">" ++ [] ++ s) := by
    apply Takes.star
    · intro u hu
      simpa using ne_of_mem_of_not_mem hu hpre
    · intro u hu
      have hfirst : unit '>' = u := by simpa [units, charUnits, unit] using hu
      simp [hfirst]
  exact Takes.cons (Takes.word (literal_self (units "<")) _)
    (Takes.cons hattributes (Takes.cons (Takes.word (literal_self (units ">")) _) (Takes.nil s)))

theorem matchStart_tagRegex_eq_none (h : u = unit '<' → unit '>' ∉ s) :
    tagRegex.matchStart (u :: s) = none := by
  cases hmatch : tagRegex.matchStart (u :: s) with
  | none => rfl
  | some m =>
    exfalso
    obtain ⟨cs, rest, hs, hcs, hstar⟩ := run_word_sound hmatch
    obtain ⟨pre, rest', hrest, -, hword⟩ := greedily_sound hstar
    obtain ⟨cs', rest'', hrest', hcs', -⟩ := run_word_sound hword
    rw [eq_of_literal hcs] at hs
    rw [eq_of_literal hcs'] at hrest'
    obtain ⟨rfl, rfl⟩ : u = unit '<' ∧ s = rest := List.cons.inj hs
    apply h rfl
    rw [hrest, hrest']
    exact List.mem_append_right _ List.mem_cons_self

theorem removeTags_of_none (h : u = unit '<' → unit '>' ∉ s) :
    removeTags (u :: s) = u :: removeTags s :=
  replaceAll_of_none _ (matchStart_tagRegex_eq_none h)

theorem removeTags_tag (hpre : unit '>' ∉ pre) :
    removeTags (unit '<' :: (pre ++ unit '>' :: s)) = unit ' ' :: removeTags s := by
  have htag := replaceAll_of_some (fun _ => units " ") (takes_tagRegex hpre s).matchStart
    (List.append_ne_nil_of_left_ne_nil (by decide) _)
  rw [List.append_nil, List.append_assoc, List.append_assoc] at htag
  exact htag

/-- A text is read tag by tag, and unit by unit between the tags. -/
theorem tags_induction {motive : List UInt16 → Prop} (nil : motive [])
    (plain : ∀ u s, (u = unit '<' → unit '>' ∉ s) → motive s → motive (u :: s))
    (tag : ∀ pre s, unit '>' ∉ pre → motive s → motive (unit '<' :: (pre ++ unit '>' :: s)))
    (s : List UInt16) : motive s := by
  induction hlength : s.length using Nat.strong_induction_on generalizing s with
  | _ n ih =>
    cases s with
    | nil => exact nil
    | cons u s =>
      rw [List.length_cons] at hlength
      by_cases h : u = unit '<' ∧ unit '>' ∈ s
      · obtain ⟨rfl, hmem⟩ := h
        obtain ⟨pre, rest, rfl, hpre⟩ := List.eq_append_cons_of_mem hmem
        apply tag pre rest hpre
        apply ih rest.length _ rest rfl
        simp only [List.length_append, List.length_cons] at hlength
        omega
      · apply plain u s fun hu hmem => h ⟨hu, hmem⟩
        exact ih s.length (by omega) s rfl

theorem untag_true (hpre : unit '>' ∉ pre) :
    untag true (pre ++ unit '>' :: s) = untag false s := by
  induction pre with
  | nil => simp [untag]
  | cons u pre ih =>
    rw [List.mem_cons, not_or] at hpre
    simp [untag, Ne.symm hpre.1, ih hpre.2]

theorem removeTags_eq (text : List UInt16) : removeTags text = untag false text := by
  induction text using tags_induction with
  | nil => rfl
  | plain u s h ih =>
    rw [removeTags_of_none h, ih, untag, if_neg fun htag => h htag.1 htag.2]
  | tag pre s hpre ih =>
    rw [removeTags_tag hpre, ih, untag, if_pos ⟨rfl, by simp⟩, untag_true hpre]

theorem mem_removeTags {v : UInt16} : v ∈ removeTags text → v = unit ' ' ∨ v ∈ text := by
  induction text using tags_induction with
  | nil => exact fun hv => .inr hv
  | plain u s h ih =>
    rw [removeTags_of_none h, List.mem_cons, List.mem_cons]
    tauto
  | tag pre s hpre ih =>
    rw [removeTags_tag hpre]
    simp only [List.mem_cons, List.mem_append]
    tauto

theorem noTag_removeTags (text : List UInt16) : NoTag (removeTags text) := by
  induction text using tags_induction with
  | nil => exact .nil
  | plain u s h ih =>
    rw [removeTags_of_none h]
    apply List.Pairwise.cons _ ih
    rintro v hv ⟨hu, rfl⟩
    rcases mem_removeTags hv with hspace | hmem
    · cases hspace
    · exact h hu hmem
  | tag pre s hpre ih =>
    rw [removeTags_tag hpre]
    exact List.Pairwise.cons (fun v _ hlt => by cases hlt.1) ih

theorem removeTags_append (hpost : ∀ u ∈ post, isSpaceUnit u = true) :
    removeTags (text ++ post) = removeTags text ++ post := by
  induction text using tags_induction with
  | nil =>
    induction post with
    | nil => rfl
    | cons u post ih =>
      rw [List.forall_mem_cons] at hpost
      rw [List.nil_append] at ih ⊢
      rw [removeTags_of_none, ih hpost.2]
      · rfl
      · rintro rfl
        exact absurd hpost.1 (by decide)
  | plain u s h ih =>
    rw [List.cons_append, removeTags_of_none, ih, removeTags_of_none h, List.cons_append]
    intro hu hmem
    rcases List.mem_append.mp hmem with hmem | hmem
    · exact h hu hmem
    · exact absurd (hpost _ hmem) (by decide)
  | tag pre s hpre ih =>
    rw [List.cons_append, List.append_assoc, List.cons_append, removeTags_tag hpre, ih,
      removeTags_tag hpre, List.cons_append]

theorem append_removeTags (hpre : ∀ u ∈ pre, isSpaceUnit u = true) :
    removeTags (pre ++ text) = pre ++ removeTags text := by
  induction pre with
  | nil => rfl
  | cons u pre ih =>
    rw [List.forall_mem_cons] at hpre
    rw [List.cons_append, removeTags_of_none, ih hpre.2, List.cons_append]
    rintro rfl
    exact absurd hpre.1 (by decide)

end Tags

section Spaces

theorem matchStart_spacesRegex (hu : isSpaceUnit u = true) (s : List UInt16) :
    spacesRegex.matchStart ((u :: s.takeWhile isSpaceUnit) ++ s.dropWhile isSpaceUnit) =
      some ⟨u :: s.takeWhile isSpaceUnit, []⟩ := by
  apply Takes.matchStart
  intro β K before b hK
  rw [spacesRegex, List.cons_append, run_all_cons, run, if_pos hu, run_all_cons, run_star]
  apply greedily_eq_some
  · exact fun v hv => List.mem_takeWhile_imp hv
  · intro v hv
    have hhead := List.head?_dropWhile_not isSpaceUnit s
    rw [Option.mem_def.mp hv] at hhead
    exact hhead
  · simpa [all, run] using hK

theorem collapse_space (hu : isSpaceUnit u = true) (s : List UInt16) :
    collapse (u :: s) = unit ' ' :: collapse (s.dropWhile isSpaceUnit) := by
  have hspaces := replaceAll_of_some (fun _ => units " ") (matchStart_spacesRegex hu s)
    (List.cons_ne_nil _ _)
  rw [List.cons_append, List.takeWhile_append_dropWhile] at hspaces
  exact hspaces

theorem collapse_other (hu : isSpaceUnit u = false) (s : List UInt16) :
    collapse (u :: s) = u :: collapse s := by
  apply replaceAll_of_none
  simp [matchStart, spacesRegex, run, hu]

/-- A text is read run by run, and unit by unit between the runs of white space. -/
theorem spaces_induction {motive : List UInt16 → Prop} (nil : motive [])
    (space : ∀ u s, isSpaceUnit u = true → motive (s.dropWhile isSpaceUnit) → motive (u :: s))
    (other : ∀ u s, isSpaceUnit u = false → motive s → motive (u :: s))
    (s : List UInt16) : motive s := by
  induction hlength : s.length using Nat.strong_induction_on generalizing s with
  | _ n ih =>
    cases s with
    | nil => exact nil
    | cons u s =>
      rw [List.length_cons] at hlength
      cases hu : isSpaceUnit u with
      | true =>
        have hshorter := (List.dropWhile_suffix isSpaceUnit (l := s)).length_le
        exact space u s hu (ih _ (by omega) _ rfl)
      | false => exact other u s hu (ih s.length (by omega) s rfl)

theorem mem_collapse {v : UInt16} : v ∈ collapse text → v = unit ' ' ∨ v ∈ text := by
  induction text using spaces_induction with
  | nil => exact fun hv => .inr hv
  | space u s hu ih =>
    rw [collapse_space hu, List.mem_cons, List.mem_cons]
    rintro (hv | hv)
    · exact .inl hv
    · exact (ih hv).imp_right fun hmem => .inr ((List.dropWhile_suffix _).subset hmem)
  | other u s hu ih =>
    rw [collapse_other hu, List.mem_cons, List.mem_cons]
    tauto

theorem NoTag.collapse (h : NoTag text) : NoTag (collapse text) := by
  induction text using spaces_induction with
  | nil => exact h
  | space u s hu ih =>
    rw [collapse_space hu]
    apply List.Pairwise.cons
    · exact fun v _ hlt => by cases hlt.1
    · exact ih (h.of_cons.sublist (List.dropWhile_suffix _).sublist)
  | other u s hu ih =>
    rw [collapse_other hu]
    apply List.Pairwise.cons
    · rintro v hv ⟨rfl, rfl⟩
      rcases mem_collapse hv with hspace | hmem
      · cases hspace
      · exact (List.pairwise_cons.mp h).1 _ hmem ⟨rfl, rfl⟩
    · exact ih h.of_cons

theorem dropWhile_collapse (text : List UInt16) :
    (collapse text).dropWhile isSpaceUnit = collapse (text.dropWhile isSpaceUnit) := by
  induction text using spaces_induction with
  | nil => rfl
  | space u s hu ih =>
    rw [collapse_space hu, List.dropWhile_cons_of_pos (by decide), ih,
      List.dropWhile_cons_of_pos hu, List.dropWhile_idempotent]
  | other u s hu ih =>
    rw [collapse_other hu, List.dropWhile_cons_of_neg (by simp [hu]),
      List.dropWhile_cons_of_neg (by simp [hu]), collapse_other hu]

theorem collapse_word (hpre : ∀ u ∈ pre, isSpaceUnit u = false) (s : List UInt16) :
    collapse (pre ++ s) = pre ++ collapse s := by
  induction pre with
  | nil => rfl
  | cons u pre ih =>
    rw [List.forall_mem_cons] at hpre
    rw [List.cons_append, collapse_other hpre.1, ih hpre.2, List.cons_append]

/-- What is left of a text are its words, with one space between them. -/
theorem trimUnits_collapse (text : List UInt16) :
    trimUnits (collapse text) = [unit ' '].intercalate (words isSpaceUnit text) := by
  induction text using words_induction isSpaceUnit with
  | nil => rfl
  | space u s hu ih =>
    rw [words_cons hu, ← ih, trimUnits, trimUnits, strip, strip, dropWhile_collapse,
      List.dropWhile_cons_of_pos hu, ← dropWhile_collapse]
  | last w hw hne =>
    have hself : collapse w = w := by
      have hword := collapse_word hw []
      rw [List.append_nil] at hword
      exact hword.trans (List.append_nil w)
    rw [words_eq_singleton hw hne, List.intercalate_singleton, hself]
    exact strip_word hw
  | word w u s hw hne hu ih =>
    rw [trimUnits, strip] at ih
    rw [words_append hw hne hu, collapse_word hw, collapse_space hu, ← dropWhile_collapse,
      trimUnits, strip_word_append hw hne (by decide), ih]
    cases hwords : words isSpaceUnit s with
    | nil => simp
    | cons next rest =>
      have hnext : next ≠ [] := ne_nil_of_mem_words (hwords ▸ List.mem_cons_self)
      rw [if_neg, List.intercalate_cons_cons]
      · simp
      · cases rest <;> simp [List.intercalate_cons_cons, hnext]

/-- White space after a text stays white space. -/
theorem collapse_append (hpost : ∀ u ∈ post, isSpaceUnit u = true) :
    ∃ post', (∀ u ∈ post', isSpaceUnit u = true) ∧
      collapse (text ++ post) = collapse text ++ post' := by
  induction text using spaces_induction with
  | nil =>
    refine ⟨collapse post, ?_, rfl⟩
    intro u hu
    rcases mem_collapse hu with rfl | hmem
    · decide
    · exact hpost u hmem
  | space u s hu ih =>
    by_cases hall : s.dropWhile isSpaceUnit = []
    · have hnil : (s ++ post).dropWhile isSpaceUnit = [] := by
        rw [List.dropWhile_append, hall, List.dropWhile_eq_nil_iff.mpr hpost]
        rfl
      refine ⟨[], by simp, ?_⟩
      rw [List.cons_append, collapse_space hu, collapse_space hu, hall, hnil, List.append_nil]
    · obtain ⟨post', hpost', heq⟩ := ih
      refine ⟨post', hpost', ?_⟩
      rw [List.cons_append, collapse_space hu, collapse_space hu, List.dropWhile_append,
        if_neg (by simpa using hall), heq, List.cons_append]
  | other u s hu ih =>
    obtain ⟨post', hpost', heq⟩ := ih
    exact ⟨post', hpost', by rw [List.cons_append, collapse_other hu, collapse_other hu, heq]; rfl⟩

end Spaces

/-- What is left of a description, as its words tell. -/
theorem stripTags_eq (text : List UInt16) : stripTags text = plainText text := by
  rw [plainText, ← removeTags_eq, ← trimUnits_collapse]
  rfl

/-- White space around a description does not reach its snippet. -/
theorem stripTags_trimUnits (text : List UInt16) : stripTags (trimUnits text) = stripTags text := by
  obtain ⟨pre, post, htext, hpre, hpost⟩ := exists_strip isSpaceUnit text
  have htags : removeTags text = pre ++ (removeTags (trimUnits text) ++ post) := by
    conv_lhs => rw [htext, List.append_assoc, append_removeTags hpre, removeTags_append hpost]
    rfl
  obtain ⟨post', hpost', hcollapse⟩ : ∃ post', (∀ u ∈ post', isSpaceUnit u = true) ∧
      collapse (removeTags (trimUnits text) ++ post) =
        collapse (removeTags (trimUnits text)) ++ post' := collapse_append hpost
  have hfront : ∀ s, (collapse (pre ++ s)).dropWhile isSpaceUnit =
      (collapse s).dropWhile isSpaceUnit := by
    intro s
    rw [dropWhile_collapse, List.dropWhile_append_of_pos hpre, ← dropWhile_collapse]
  calc stripTags (trimUnits text)
      = strip isSpaceUnit ([] ++ collapse (removeTags (trimUnits text)) ++ post') :=
        (strip_append (by simp) hpost').symm
    _ = strip isSpaceUnit (collapse (removeTags text)) := by
        rw [List.nil_append, ← hcollapse, htags, strip, strip, hfront]

theorem noTag_stripTags (text : List UInt16) : NoTag (stripTags text) := by
  apply List.Pairwise.sublist _ (noTag_removeTags text).collapse
  exact (List.rdropWhile_prefix _ _).sublist.trans (List.dropWhile_suffix _).sublist

end JobManager
