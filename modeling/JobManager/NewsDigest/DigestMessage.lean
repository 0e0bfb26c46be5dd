import JobManager.NewsDigest.Entities

/-! The text of the message that is sent. What it escapes, the decoder of entities reads back. -/
namespace JobManager

open Text

/-- `text.replace(/c/g, replacement)` for one character. -/
def replaceChar (c : Char) (replacement text : String) : String :=
  String.ofList (text.toList.flatMap fun a => if a = c then replacement.toList else [a])

def escapeMrkdwn (text : String) : String :=
  replaceChar '>' "&gt;" (replaceChar '<' "&lt;" (replaceChar '&' "&amp;" text))

/-- The section of one group. -/
def formatGroup (group : DigestGroup) : String :=
  let topicLine := s!"*▸ {escapeMrkdwn group.topic}*"
  let summaryLines :=
    if 0 < (trim group.summary).length then [s!"  {escapeMrkdwn (trim group.summary)}"] else []
  let headlineLines := group.headlines.map fun headline => s!"   • {escapeMrkdwn headline}"
  String.intercalate "\n" (topicLine :: summaryLines ++ headlineLines)

def formatDigestMessage (jobTitle : String) (groups : List DigestGroup) : String :=
  let header := s!"📰 오늘의 뉴스 다이제스트 [{escapeMrkdwn jobTitle}] — 주제 {groups.length}개"
  String.intercalate "\n\n" (header :: groups.map formatGroup)

/-- The lines of one group, with some function on the untrusted texts. -/
def groupLines (escape : String → String) (group : DigestGroup) : List String :=
  ("*▸ " ++ escape group.topic ++ "*") ::
    (if 0 < (trim group.summary).length then ["  " ++ escape (trim group.summary)] else []) ++
    group.headlines.map fun headline => "   • " ++ escape headline

/-- The first line of the message, with some function on the job's title. -/
def digestHeader (escape : String → String) (jobTitle : String) (count : ℕ) : String :=
  "📰 오늘의 뉴스 다이제스트 [" ++ escape jobTitle ++ "] — 주제 " ++ toString count ++ "개"

/-- The layout of the message, with some function on the untrusted texts. -/
def layoutMessage (escape : String → String) (jobTitle : String) (groups : List DigestGroup) :
    String :=
  String.intercalate "\n\n"
    (digestHeader escape jobTitle groups.length ::
      groups.map fun group => String.intercalate "\n" (groupLines escape group))

theorem formatDigestMessage_eq : formatDigestMessage = layoutMessage escapeMrkdwn := rfl

/-- The escape of one character. -/
def escapeChar (c : Char) : List Char :=
  if c = '&' then "&amp;".toList else if c = '<' then "&lt;".toList
  else if c = '>' then "&gt;".toList else [c]

/-- No control sequence is in the escaped text, and it decodes to the raw one. -/
structure Escapes (escaped raw : String) : Prop where
  lt : '<' ∉ escaped.toList
  gt : '>' ∉ escaped.toList
  entity : ∀ pre post, escaped.toList = pre ++ '&' :: post →
    ∃ name ∈ ["amp;", "lt;", "gt;"], name.toList <+: post
  decode : ∀ s, decodeEntities (units escaped ++ s) = units raw ++ decodeEntities s

variable {e r e' r' : String}

theorem Escapes.append (h : Escapes e r) (h' : Escapes e' r') : Escapes (e ++ e') (r ++ r') := by
  constructor
  · simp [h.lt, h'.lt]
  · simp [h.gt, h'.gt]
  · intro pre post hsplit
    rw [String.toList_append] at hsplit
    rcases List.append_eq_append_iff.mp hsplit with ⟨mid, rfl, hpost⟩ | ⟨mid, he, hpost⟩
    · exact h'.entity mid post hpost
    · cases mid with
      | nil => exact h'.entity [] post hpost.symm
      | cons c mid =>
        obtain ⟨rfl, rfl⟩ := List.cons.inj hpost
        obtain ⟨name, hname, hmid⟩ := h.entity pre mid he
        exact ⟨name, hname, hmid.trans (List.prefix_append _ _)⟩
  · intro s
    rw [units_append, units_append, List.append_assoc, h.decode, h'.decode, List.append_assoc]

theorem Escapes.intercalate {separator : String} {es rs : List String}
    (hseparator : Escapes separator separator) (h : List.Forall₂ Escapes es rs) :
    Escapes (String.intercalate separator es) (String.intercalate separator rs) := by
  induction h with
  | nil => exact ⟨by simp, by simp, by simp, fun s => by simp [units]⟩
  | cons hfirst hrest ih =>
    cases hrest with
    | nil => simpa using hfirst
    | cons hsecond hrest =>
      rw [String.intercalate_cons_cons, String.intercalate_cons_cons]
      exact (hfirst.append hseparator).append ih

/-- A text without the three characters stands for itself. -/
theorem Escapes.plain (hamp : '&' ∉ e.toList) (hlt : '<' ∉ e.toList) (hgt : '>' ∉ e.toList) :
    Escapes e e := by
  constructor
  · exact hlt
  · exact hgt
  · intro pre post hsplit
    exact absurd (hsplit ▸ List.mem_append_right pre List.mem_cons_self) hamp
  · intro s
    exact decodeEntities_append (fun hmem => hamp (mem_units (by decide) hmem)) s

theorem Escapes.entity_self {name raw : String} (hname : name ∈ ["amp;", "lt;", "gt;"])
    (hentity : ("&" ++ name, raw) ∈ htmlEntities) : Escapes ("&" ++ name) raw := by
  have hletters : '&' ∉ name.toList ∧ '<' ∉ name.toList ∧ '>' ∉ name.toList := by
    simp only [List.mem_cons, List.not_mem_nil, or_false] at hname
    rcases hname with rfl | rfl | rfl <;> decide
  constructor
  · simp [hletters.2.1]
  · simp [hletters.2.2]
  · intro pre post hsplit
    cases pre with
    | nil =>
      refine ⟨name, hname, ?_⟩
      rw [String.toList_append] at hsplit
      exact (List.cons.inj hsplit).2 ▸ List.prefix_refl _
    | cons c pre =>
      rw [String.toList_append] at hsplit
      have hrest : name.toList = pre ++ '&' :: post := (List.cons.inj hsplit).2
      exact absurd (hrest ▸ List.mem_append_right pre List.mem_cons_self) hletters.1
  · have hdecode := decodeEntities_entity hentity
    exact hdecode

theorem toList_escapeMrkdwn (text : String) :
    (escapeMrkdwn text).toList = text.toList.flatMap escapeChar := by
  simp only [escapeMrkdwn, replaceChar, String.toList_ofList, List.flatMap_assoc]
  congr 1
  funext c
  unfold escapeChar
  by_cases hamp : c = '&'
  · subst hamp
    decide
  · by_cases hlt : c = '<'
    · subst hlt
      decide
    · simp [hamp, hlt]

theorem escapes_escapeChar (c : Char) :
    Escapes (String.ofList (escapeChar c)) (String.ofList [c]) := by
  unfold escapeChar
  split
  · next hamp =>
    subst hamp
    exact Escapes.entity_self (by simp : "amp;" ∈ _) (by simp [htmlEntities])
  · split
    · next hlt =>
      subst hlt
      exact Escapes.entity_self (by simp : "lt;" ∈ _) (by simp [htmlEntities])
    · split
      · next hgt =>
        subst hgt
        exact Escapes.entity_self (by simp : "gt;" ∈ _) (by simp [htmlEntities])
      · next hamp hlt hgt =>
        apply Escapes.plain
        · simpa using Ne.symm hamp
        · simpa using Ne.symm hlt
        · simpa using Ne.symm hgt

/-- Escaping loses nothing, and leaves no control sequence. -/
theorem escapes_escapeMrkdwn (text : String) : Escapes (escapeMrkdwn text) text := by
  have hlist : ∀ cs : List Char,
      Escapes (String.ofList (cs.flatMap escapeChar)) (String.ofList cs) := by
    intro cs
    induction cs with
    | nil => exact Escapes.plain (by simp) (by simp) (by simp)
    | cons c cs ih =>
      have happend := (escapes_escapeChar c).append ih
      rwa [← String.ofList_append, ← String.ofList_append] at happend
  have htext := hlist text.toList
  rwa [← toList_escapeMrkdwn, String.ofList_toList, String.ofList_toList] at htext

theorem Escapes.toString_nat (n : ℕ) : Escapes (toString n) (toString n) := by
  apply Escapes.plain
  · exact fun hmem => absurd (isDigit_of_mem_toString hmem) (by decide)
  · exact fun hmem => absurd (isDigit_of_mem_toString hmem) (by decide)
  · exact fun hmem => absurd (isDigit_of_mem_toString hmem) (by decide)

theorem escapes_groupLines (group : DigestGroup) :
    List.Forall₂ Escapes (groupLines escapeMrkdwn group) (groupLines id group) := by
  have hindent : Escapes "  " "  " := Escapes.plain (by decide) (by decide) (by decide)
  have hbullet : Escapes "   • " "   • " := Escapes.plain (by decide) (by decide) (by decide)
  have hmark : Escapes "*▸ " "*▸ " := Escapes.plain (by decide) (by decide) (by decide)
  have hstar : Escapes "*" "*" := Escapes.plain (by decide) (by decide) (by decide)
  unfold groupLines
  apply List.Forall₂.cons
  · exact (hmark.append (escapes_escapeMrkdwn group.topic)).append hstar
  · apply List.rel_append
    · split
      · exact .cons (hindent.append (escapes_escapeMrkdwn _)) .nil
      · exact .nil
    · rw [List.forall₂_map_left_iff, List.forall₂_map_right_iff]
      apply List.forall₂_same.mpr
      intro headline _
      exact hbullet.append (escapes_escapeMrkdwn headline)

/-- No control sequence leaves with a message, and no text is lost in it. -/
theorem formatDigestMessage_escapes (jobTitle : String) (groups : List DigestGroup) :
    Escapes (formatDigestMessage jobTitle groups) (layoutMessage id jobTitle groups) := by
  have hopen : Escapes "📰 오늘의 뉴스 다이제스트 [" "📰 오늘의 뉴스 다이제스트 [" :=
    Escapes.plain (by decide) (by decide) (by decide)
  have hmiddle : Escapes "] — 주제 " "] — 주제 " := Escapes.plain (by decide) (by decide) (by decide)
  have hclose : Escapes "개" "개" := Escapes.plain (by decide) (by decide) (by decide)
  have hnewline : Escapes "\n" "\n" := Escapes.plain (by decide) (by decide) (by decide)
  have hblank : Escapes "\n\n" "\n\n" := Escapes.plain (by decide) (by decide) (by decide)
  rw [formatDigestMessage_eq, layoutMessage, layoutMessage]
  apply Escapes.intercalate hblank
  apply List.Forall₂.cons
  · exact (((hopen.append (escapes_escapeMrkdwn jobTitle)).append hmiddle).append
      (Escapes.toString_nat _)).append hclose
  · rw [List.forall₂_map_left_iff, List.forall₂_map_right_iff]
    apply List.forall₂_same.mpr
    intro group _
    exact Escapes.intercalate hnewline (escapes_groupLines group)

/-- The decoder gives back the layout with the raw texts in it. -/
theorem formatDigestMessage_decodes (jobTitle : String) (groups : List DigestGroup) :
    '<' ∉ (formatDigestMessage jobTitle groups).toList ∧
      '>' ∉ (formatDigestMessage jobTitle groups).toList ∧
      (∀ pre post, (formatDigestMessage jobTitle groups).toList = pre ++ '&' :: post →
        ∃ name ∈ ["amp;", "lt;", "gt;"], name.toList <+: post) ∧
      decodeEntities (units (formatDigestMessage jobTitle groups)) =
        units (layoutMessage id jobTitle groups) := by
  have hescapes := formatDigestMessage_escapes jobTitle groups
  have hdecode := hescapes.decode []
  rw [List.append_nil] at hdecode
  exact ⟨hescapes.lt, hescapes.gt, hescapes.entity, hdecode.trans (List.append_nil _)⟩

example : decodeEntities (units (escapeMrkdwn "&amp;lt; <b> &#39;")) =
    units "&amp;lt; <b> &#39;" := by
  decide

end JobManager
