import JobManager.NewsDigest.HttpNewsSource

/-! The decoder of entities undoes their encoding, in one pass. -/
namespace JobManager

open Text Regex

variable {u : UInt16} {s a text : List UInt16} {entity : String × String}

/-- The entity for a code unit that has one. -/
def encodeUnit (u : UInt16) : List UInt16 :=
  match htmlEntities.find? fun entity => units entity.2 = [u] with
  | some entity => units entity.1
  | none => [u]

def encodeEntities (text : List UInt16) : List UInt16 := text.flatMap encodeUnit

theorem encodeUnit_cases (u : UInt16) : encodeUnit u = [u] ∨
    ∃ entity ∈ htmlEntities, units entity.2 = [u] ∧ encodeUnit u = units entity.1 := by
  unfold encodeUnit
  split
  · next entity hfind =>
    have hunit : units entity.2 = [u] := by simpa using List.find?_some hfind
    exact .inr ⟨entity, List.mem_of_find?_eq_some hfind, hunit, rfl⟩
  · exact .inl rfl

theorem mem_htmlEntities : entity ∈ htmlEntities ↔ entity = ("&amp;", "&") ∨
    entity = ("&lt;", "<") ∨ entity = ("&gt;", ">") ∨ entity = ("&#39;", "'") ∨
    entity = ("&quot;", "\"") := by
  simp [htmlEntities]

theorem matchStart_entityRegex_eq_none (hu : u ≠ unit '&') (s : List UInt16) :
    entityRegex.matchStart (u :: s) = none := by
  have hclash : ∀ p ps, literally p = (fun v => decide (v = unit '&')) :: ps →
      clash (literally p) (u :: s) = true := by
    intro p ps hp
    simp [hp, clash, hu]
  rw [matchStart, entityRegex]
  simp only [run]
  rw [run_word_of_clash (hclash "&amp;" _ rfl), run_word_of_clash (hclash "&lt;" _ rfl),
    run_word_of_clash (hclash "&gt;" _ rfl), run_word_of_clash (hclash "&#39;" _ rfl),
    run_word_of_clash (hclash "&quot;" _ rfl)]
  rfl

theorem decodeEntities_cons (hu : u ≠ unit '&') (s : List UInt16) :
    decodeEntities (u :: s) = u :: decodeEntities s :=
  replaceAll_of_none _ (matchStart_entityRegex_eq_none hu s)

theorem decodeEntities_append (ha : unit '&' ∉ a) (s : List UInt16) :
    decodeEntities (a ++ s) = a ++ decodeEntities s := by
  induction a with
  | nil => rfl
  | cons u a ih =>
    rw [List.mem_cons, not_or] at ha
    rw [List.cons_append, decodeEntities_cons (Ne.symm ha.1), ih ha.2, List.cons_append]

theorem takes_either_left {r r' : Regex UInt16} (h : r.Takes a [] s) :
    (Regex.either r r').Takes a [] s := by
  intro β K before b hK
  rw [run, h β K before b hK]
  rfl

theorem takes_either_right {ps : List (UInt16 → Bool)} {r' : Regex UInt16}
    (hclash : clash ps a = true) (h : r'.Takes a [] s) :
    (Regex.either (word ps) r').Takes a [] s := by
  intro β K before b hK
  rw [run, run_word_of_clash (clash_append hclash s)]
  exact h β K before b hK

/-- Of the alternatives only the entity itself matches. -/
theorem takes_entityRegex (hentity : entity ∈ htmlEntities) (s : List UInt16) :
    entityRegex.Takes (units entity.1) [] s := by
  have hword : ∀ p, (word (literally p)).Takes (units p) [] s :=
    fun p => Takes.word (literal_self (units p)) s
  rcases mem_htmlEntities.mp hentity with rfl | rfl | rfl | rfl | rfl
  · exact takes_either_left (hword "&amp;")
  · exact takes_either_right (by decide) (takes_either_left (hword "&lt;"))
  · exact takes_either_right (by decide) (takes_either_right (by decide)
      (takes_either_left (hword "&gt;")))
  · exact takes_either_right (by decide) (takes_either_right (by decide)
      (takes_either_right (by decide) (takes_either_left (hword "&#39;"))))
  · exact takes_either_right (by decide) (takes_either_right (by decide)
      (takes_either_right (by decide) (takes_either_right (by decide) (hword "&quot;"))))

theorem decodeEntities_entity (hentity : entity ∈ htmlEntities) (s : List UInt16) :
    decodeEntities (units entity.1 ++ s) = units entity.2 ++ decodeEntities s := by
  have hfound : units entity.1 ≠ [] ∧
      (htmlEntities.find? fun other => units other.1 = units entity.1) = some entity := by
    rcases mem_htmlEntities.mp hentity with rfl | rfl | rfl | rfl | rfl <;> decide
  rw [decodeEntities,
    replaceAll_of_some _ (takes_entityRegex hentity s).matchStart hfound.1, hfound.2]
  rfl

/-- An encoded text decodes to itself, also where it looks like entities. -/
theorem decodeEntities_encodeEntities (text s : List UInt16) :
    decodeEntities (encodeEntities text ++ s) = text ++ decodeEntities s := by
  induction text with
  | nil => rfl
  | cons u text ih =>
    rw [encodeEntities, List.flatMap_cons, List.append_assoc, ← encodeEntities, List.cons_append,
      ← ih]
    rcases encodeUnit_cases u with hself | ⟨entity, hentity, hunit, hencode⟩
    · rw [hself, List.singleton_append, decodeEntities_cons]
      rintro rfl
      exact absurd hself (by decide)
    · rw [hencode, decodeEntities_entity hentity, hunit, List.singleton_append]

/-- What an encoded text is made of: units that have no entity, and the entities. -/
theorem mem_encodeEntities {v : UInt16} (hv : v ∈ encodeEntities text) :
    v ∈ text ∧ encodeUnit v = [v] ∨ ∃ entity ∈ htmlEntities, v ∈ units entity.1 := by
  obtain ⟨u, hu, hmem⟩ := List.mem_flatMap.mp hv
  rcases encodeUnit_cases u with hself | ⟨entity, hentity, -, hencode⟩
  · rw [hself, List.mem_singleton] at hmem
    rw [hmem]
    exact .inl ⟨hu, hself⟩
  · rw [hencode] at hmem
    exact .inr ⟨entity, hentity, hmem⟩

theorem lt_not_mem_encodeEntities (text : List UInt16) : unit '<' ∉ encodeEntities text := by
  intro hmem
  rcases mem_encodeEntities hmem with ⟨-, hself⟩ | ⟨entity, hentity, hmem⟩
  · exact absurd hself (by decide)
  · rcases mem_htmlEntities.mp hentity with rfl | rfl | rfl | rfl | rfl <;>
      exact absurd hmem (by decide)

/-- An entity has no white space at its ends, and does not stand for white space. -/
theorem htmlEntities_ends (hentity : entity ∈ htmlEntities) :
    (∃ b bs, units entity.1 = b :: bs ∧ isSpaceUnit b = false) ∧
      (∃ b bs, (units entity.1).reverse = b :: bs ∧ isSpaceUnit b = false) ∧
      ∃ b, units entity.2 = [b] ∧ isSpaceUnit b = false := by
  rcases mem_htmlEntities.mp hentity with rfl | rfl | rfl | rfl | rfl <;>
    exact ⟨⟨_, _, rfl, by decide⟩, ⟨_, _, rfl, by decide⟩, _, rfl, by decide⟩

/-- White space is encoded as itself, and nothing else as white space. -/
theorem trimUnits_encodeEntities (text : List UInt16) :
    trimUnits (encodeEntities text) = encodeEntities (trimUnits text) := by
  apply strip_flatMap
  · intro u hu
    rcases encodeUnit_cases u with hself | ⟨entity, hentity, hunit, -⟩
    · exact hself
    · obtain ⟨b, hb, hspace⟩ := (htmlEntities_ends hentity).2.2
      obtain rfl : b = u := List.cons.inj (hb.symm.trans hunit) |>.1
      exact absurd hu (by simp [hspace])
  · intro u hu
    rcases encodeUnit_cases u with hself | ⟨entity, hentity, -, hencode⟩
    · exact ⟨u, [], hself, hu⟩
    · rw [hencode]
      exact (htmlEntities_ends hentity).1
  · intro u hu
    rcases encodeUnit_cases u with hself | ⟨entity, hentity, -, hencode⟩
    · exact ⟨u, [], by rw [hself]; rfl, hu⟩
    · rw [hencode]
      exact (htmlEntities_ends hentity).2.1

end JobManager
