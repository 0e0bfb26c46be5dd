import JobManager.NewsDigest.Coercion
import JobManager.NewsDigest.DigestMessage

/-! When the sections and lines of the message are those of the groups. -/
namespace JobManager

open Text Regex

/-- The raw text of an escaped one. -/
def unescape : List Char → List Char
  | '&' :: 'a' :: 'm' :: 'p' :: ';' :: cs => '&' :: unescape cs
  | '&' :: 'l' :: 't' :: ';' :: cs => '<' :: unescape cs
  | '&' :: 'g' :: 't' :: ';' :: cs => '>' :: unescape cs
  | c :: cs => c :: unescape cs
  | [] => []

/-- Bullets are indented by three spaces, a summary by two. -/
def isBullet (line : String) : Bool := line.toList[2]? = some ' '

def readText (line : List Char) : String := String.ofList (unescape line)

/-- A group from its section. -/
def readGroup (section' : String) : DigestGroup :=
  let lines := splitText "\n" section'
  { topic := readText ((lines.headD "").toList.drop 3).dropLast
    summary := readText (((lines.tail.filter fun line => !isBullet line).headD "").toList.drop 2)
    headlines := (lines.tail.filter fun line => isBullet line).map fun line =>
      readText (line.toList.drop 5) }

/-- The groups from a message. -/
def readDigest (message : String) : List DigestGroup :=
  (splitText "\n\n" message).tail.map readGroup

/-- A reader finds the header, the groups and their lines where the format puts them. -/
structure Legible (jobTitle : String) (groups : List DigestGroup) : Prop where
  sections : splitText "\n\n" (formatDigestMessage jobTitle groups) =
    digestHeader escapeMrkdwn jobTitle groups.length :: groups.map formatGroup
  lines : ∀ group ∈ groups, splitText "\n" (formatGroup group) = groupLines escapeMrkdwn group
  readBack : readDigest (formatDigestMessage jobTitle groups) = groups

/-- No line feed follows another. -/
def NoBlankLine (text : List Char) : Prop := text.IsChain fun c d => ¬ (c = '\n' ∧ d = '\n')

def OneLine (text : String) : Prop := '\n' ∉ text.toList

instance : DecidablePred OneLine := fun text => inferInstanceAs (Decidable ('\n' ∉ text.toList))

structure DigestGroup.OneLine (group : DigestGroup) : Prop where
  topic : JobManager.OneLine group.topic
  summary : JobManager.OneLine group.summary
  headlines : ∀ headline ∈ group.headlines, JobManager.OneLine headline

variable {text : String} {cs pre mid post : List Char} {group : DigestGroup}

section LineFeeds

theorem noBlankLine_of_not_mem (h : '\n' ∉ cs) : NoBlankLine cs := by
  apply List.isChain_iff_forall_rel_of_append_cons_cons.mpr
  rintro c d before after rfl ⟨rfl, -⟩
  exact h (List.mem_append_right before List.mem_cons_self)

/-- Blank lines of a text between two others are its own. -/
theorem noBlankLine_surround (hpre : '\n' ∉ pre) (hpost : '\n' ∉ post) :
    NoBlankLine (pre ++ mid ++ post) ↔ NoBlankLine mid := by
  constructor
  · exact fun h => h.left_of_append.right_of_append
  · intro h
    apply List.IsChain.append
    · apply (noBlankLine_of_not_mem hpre).append h
      rintro c hc d - ⟨rfl, -⟩
      exact hpre (List.mem_of_getLast? hc)
    · exact noBlankLine_of_not_mem hpost
    · rintro c - d hd ⟨-, rfl⟩
      exact hpost (List.mem_of_head? hd)

/-- A character stands for itself, or both it and its escape are of a few characters. -/
theorem escapeChar_cases (c : Char) : escapeChar c = [c] ∨
    c ∈ "<>&amplgt;".toList ∧ ∀ d ∈ escapeChar c, d ∈ "<>&amplgt;".toList := by
  unfold escapeChar
  split
  · next h => exact .inr (by subst h; simp)
  · split
    · next h => exact .inr (by subst h; simp)
    · split
      · next h => exact .inr (by subst h; simp)
      · exact .inl rfl

/-- Another character begins or ends an escape only as itself. -/
theorem escapeChar_ends {x : Char} (hx : x ∉ "<>&amplgt;".toList) (c : Char) :
    ((escapeChar c).head? = some x ↔ c = x) ∧ ((escapeChar c).getLast? = some x ↔ c = x) ∧
      (x ∈ escapeChar c ↔ c = x) := by
  rcases escapeChar_cases c with hself | ⟨hc, hescape⟩
  · simp [hself, eq_comm]
  · have hne : c ≠ x := ne_of_mem_of_not_mem hc hx
    have hnot : x ∉ escapeChar c := fun hmem => hx (hescape x hmem)
    simp only [hne, hnot, iff_false, and_true]
    exact ⟨fun hhead => hnot (List.mem_of_head? hhead), fun hlast =>
      hnot (List.mem_of_getLast? hlast)⟩

theorem escapeChar_ne_nil (c : Char) : escapeChar c ≠ [] := by
  unfold escapeChar
  repeat' split
  all_goals simp

theorem oneLine_escapeMrkdwn : OneLine (escapeMrkdwn text) ↔ OneLine text := by
  unfold OneLine
  rw [toList_escapeMrkdwn, List.mem_flatMap]
  simp only [(escapeChar_ends (by decide : '\n' ∉ _) _).2.2]
  simp

theorem head_escape {x : Char} (hx : x ∉ "<>&amplgt;".toList) (cs : List Char) :
    (cs.flatMap escapeChar).head? = some x ↔ cs.head? = some x := by
  cases cs with
  | nil => rfl
  | cons c cs =>
    have hends := (escapeChar_ends hx c).1
    cases hc : escapeChar c with
    | nil => exact absurd hc (escapeChar_ne_nil c)
    | cons d ds =>
      rw [hc] at hends
      simpa [hc] using hends

theorem noBlankLine_escapeMrkdwn :
    NoBlankLine (escapeMrkdwn text).toList ↔ NoBlankLine text.toList := by
  rw [toList_escapeMrkdwn]
  induction text.toList with
  | nil => rfl
  | cons c cs ih =>
    have hchar : NoBlankLine (escapeChar c) := by
      rcases escapeChar_cases c with hself | ⟨-, hescape⟩
      · rw [hself]
        exact List.isChain_singleton _
      · exact noBlankLine_of_not_mem fun hmem => absurd (hescape _ hmem) (by decide)
    have hnext := head_escape (by decide : '\n' ∉ _) cs
    have hlast := (escapeChar_ends (by decide : '\n' ∉ _) c).2.1
    unfold NoBlankLine at ih hchar ⊢
    rw [List.flatMap_cons, List.isChain_append, List.isChain_cons, ih]
    constructor
    · rintro ⟨-, hcs, hboundary⟩
      refine ⟨?_, hcs⟩
      rintro y hy ⟨rfl, rfl⟩
      exact hboundary '\n' (hlast.mpr rfl) '\n' (hnext.mpr hy) ⟨rfl, rfl⟩
    · rintro ⟨hboundary, hcs⟩
      refine ⟨hchar, hcs, ?_⟩
      rintro x hx y hy ⟨rfl, rfl⟩
      exact hboundary '\n' (hnext.mp hy) ⟨hlast.mp hx, rfl⟩

/-- Lines that are not empty make no blank line when they are joined. -/
theorem noBlankLine_intercalate {lines : List (List Char)} (hlines : lines ≠ [])
    (h : ∀ line ∈ lines, line ≠ [] ∧ '\n' ∉ line) :
    NoBlankLine (['\n'].intercalate lines) ∧ (['\n'].intercalate lines).head? ≠ some '\n' ∧
      (['\n'].intercalate lines).getLast? ≠ some '\n' ∧ ['\n'].intercalate lines ≠ [] := by
  induction lines with
  | nil => exact absurd rfl hlines
  | cons line lines ih =>
    obtain ⟨hne, hline⟩ := h line List.mem_cons_self
    have hfirst : line.head? ≠ some '\n' := fun hhead => hline (List.mem_of_head? hhead)
    cases lines with
    | nil =>
      rw [List.intercalate_singleton]
      exact ⟨noBlankLine_of_not_mem hline, hfirst, fun hlast => hline (List.mem_of_getLast? hlast),
        hne⟩
    | cons line' lines =>
      obtain ⟨hchain, hhead, hlast, hrest⟩ :=
        ih (List.cons_ne_nil _ _) fun line hmem => h line (List.mem_cons_of_mem _ hmem)
      rw [List.intercalate_cons_cons, List.append_assoc]
      generalize ['\n'].intercalate (line' :: lines) = rest at hchain hhead hlast hrest ⊢
      refine ⟨?_, ?_, ?_, by simp [hne]⟩
      · apply (noBlankLine_of_not_mem hline).append
        · apply hchain.cons
          rintro d hd ⟨-, rfl⟩
          exact hhead hd
        · rintro c hc d - ⟨rfl, -⟩
          exact hline (List.mem_of_getLast? hc)
      · rwa [List.head?_append_of_ne_nil _ hne]
      · rwa [List.getLast?_append_of_ne_nil _ (by simp), List.getLast?_append_of_ne_nil _ hrest]

end LineFeeds

section Reader

theorem unescape_append (c : Char) (cs : List Char) :
    unescape (escapeChar c ++ cs) = c :: unescape cs := by
  by_cases hamp : c = '&'
  · subst hamp
    rfl
  · by_cases hlt : c = '<'
    · subst hlt
      rfl
    · by_cases hgt : c = '>'
      · subst hgt
        rfl
      · simp [escapeChar, hamp, hlt, hgt, unescape]

theorem readText_escapeMrkdwn (text : String) : readText (escapeMrkdwn text).toList = text := by
  have hlist : ∀ cs : List Char, unescape (cs.flatMap escapeChar) = cs := by
    intro cs
    induction cs with
    | nil => rfl
    | cons c cs ih => rw [List.flatMap_cons, unescape_append, ih]
  rw [readText, toList_escapeMrkdwn, hlist, String.ofList_toList]

/-- Behind its indentation a summary does not begin with a space. -/
theorem isBullet_summary (hsummary : trim text ≠ "") :
    isBullet ("  " ++ escapeMrkdwn (trim text)) = false := by
  have hnot : (trim text).toList.head? ≠ some ' ' := by
    intro hhead
    have hne : (trim text).toList ≠ [] := mt String.toList_eq_nil_iff.mp hsummary
    have hspace := ((trimmed_iff.mp (trimmed_trim text)) hne).1
    rw [List.head_of_head?_eq_some hhead] at hspace
    exact absurd hspace (by decide)
  have hthird : ("  " ++ escapeMrkdwn (trim text)).toList[2]? =
      ((trim text).toList.flatMap escapeChar).head? := by
    rw [String.toList_append, toList_escapeMrkdwn, List.head?_eq_getElem?]
    generalize (trim text).toList.flatMap escapeChar = escaped
    simp
  rw [isBullet, hthird, decide_eq_false_iff_not, head_escape (by decide)]
  exact hnot

theorem isBullet_headline (headline : String) :
    isBullet ("   • " ++ escapeMrkdwn headline) = true := by
  simp [isBullet]

theorem readGroup_formatGroup (hgroup : group.Normal)
    (hlines : splitText "\n" (formatGroup group) = groupLines escapeMrkdwn group) :
    readGroup (formatGroup group) = group := by
  have hbullets : (group.headlines.map fun headline => "   • " ++ escapeMrkdwn headline).filter
      isBullet = group.headlines.map fun headline => "   • " ++ escapeMrkdwn headline := by
    rw [List.filter_eq_self]
    simp [isBullet_headline]
  have hnone : (group.headlines.map fun headline => "   • " ++ escapeMrkdwn headline).filter
      (fun line => !isBullet line) = [] := by
    rw [List.filter_eq_nil_iff]
    simp [isBullet_headline]
  have htopic : readText (("*▸ " ++ escapeMrkdwn group.topic ++ "*").toList.drop 3).dropLast =
      group.topic := by
    have hinner : (("*▸ " ++ escapeMrkdwn group.topic ++ "*").toList.drop 3).dropLast =
        (escapeMrkdwn group.topic).toList := by
      simp
    rw [hinner, readText_escapeMrkdwn]
  have hheadlines : (group.headlines.map fun headline => "   • " ++ escapeMrkdwn headline).map
      (fun line => readText (line.toList.drop 5)) = group.headlines := by
    rw [List.map_map]
    conv_rhs => rw [← List.map_id group.headlines]
    apply List.map_congr_left
    intro headline _
    have hinner : ("   • " ++ escapeMrkdwn headline).toList.drop 5 =
        (escapeMrkdwn headline).toList := by
      simp
    rw [Function.comp_apply, hinner, readText_escapeMrkdwn, id_eq]
  obtain ⟨topic, summary, headlines⟩ := group
  have hsummary : trim summary = summary := hgroup.summary
  dsimp only at hbullets hnone htopic hheadlines
  rw [readGroup, hlines]
  by_cases hblank : trim summary = ""
  · have hnil : groupLines escapeMrkdwn ⟨topic, summary, headlines⟩ =
        ("*▸ " ++ escapeMrkdwn topic ++ "*") ::
          headlines.map fun headline => "   • " ++ escapeMrkdwn headline := by
      simp [groupLines, hblank]
    simp only [hnil, List.headD_cons, List.tail_cons, hbullets, hnone, htopic, hheadlines]
    rw [← hsummary, hblank]
    rfl
  · have hcons : groupLines escapeMrkdwn ⟨topic, summary, headlines⟩ =
        ("*▸ " ++ escapeMrkdwn topic ++ "*") :: ("  " ++ escapeMrkdwn (trim summary)) ::
          headlines.map fun headline => "   • " ++ escapeMrkdwn headline := by
      simp [groupLines, length_pos_iff, hblank]
    have hindent : ("  " ++ escapeMrkdwn (trim summary)).toList.drop 2 =
        (escapeMrkdwn (trim summary)).toList := by
      simp
    have hbullet := isBullet_summary hblank
    simp only [hcons, List.headD_cons, List.tail_cons, List.filter_cons, hbullet, hbullets, hnone,
      htopic, hheadlines, hindent, readText_escapeMrkdwn, Bool.not_false, if_true, if_false,
      Bool.false_eq_true]
    rw [hsummary]

end Reader

section Legibility

variable {jobTitle : String} {groups : List DigestGroup}

theorem mem_groupLines {escape : String → String} {line : String} :
    line ∈ groupLines escape group ↔ line = "*▸ " ++ escape group.topic ++ "*" ∨
      (trim group.summary ≠ "" ∧ line = "  " ++ escape (trim group.summary)) ∨
      ∃ headline ∈ group.headlines, "   • " ++ escape headline = line := by
  unfold groupLines
  by_cases hsummary : trim group.summary = ""
  · simp [hsummary]
  · simp [hsummary, length_pos_iff]

/-- No line is empty, and a line has the line feeds of its text. -/
theorem groupLines_oneLine (hnormal : group.Normal) (hgroup : group.OneLine) :
    ∀ line ∈ groupLines escapeMrkdwn group, line.toList ≠ [] ∧ '\n' ∉ line.toList := by
  intro line hline
  rcases mem_groupLines.mp hline with rfl | ⟨-, rfl⟩ | ⟨headline, hheadline, rfl⟩
  · have htext := oneLine_escapeMrkdwn.mpr hgroup.topic
    unfold OneLine at htext
    simp [htext]
  · have htext := oneLine_escapeMrkdwn.mpr hgroup.summary
    unfold OneLine at htext
    rw [show trim group.summary = group.summary from hnormal.summary]
    simp [htext]
  · have htext := oneLine_escapeMrkdwn.mpr (hgroup.headlines headline hheadline)
    unfold OneLine at htext
    simp [htext]

/-- The section of a group without line feeds has the lines of the group. -/
theorem splitText_formatGroup (hnormal : group.Normal) (hgroup : group.OneLine) :
    splitText "\n" (formatGroup group) = groupLines escapeMrkdwn group := by
  apply splitText_intercalate (by decide) (List.cons_ne_nil _ _)
  intro line hline
  rw [show "\n".toList = ['\n'] by simp]
  apply clashes_of_head
  intro c hc
  have hnot := (groupLines_oneLine hnormal hgroup line hline).2
  simpa using ne_of_mem_of_not_mem hc hnot

/-- The header has the blank lines of the title. -/
theorem noBlankLine_digestHeader (jobTitle : String) (count : ℕ) :
    NoBlankLine (digestHeader escapeMrkdwn jobTitle count).toList ↔
      NoBlankLine jobTitle.toList := by
  have hheader : digestHeader escapeMrkdwn jobTitle count =
      "📰 오늘의 뉴스 다이제스트 [" ++ escapeMrkdwn jobTitle ++
        ("] — 주제 " ++ (toString count ++ "개")) := by
    unfold digestHeader
    generalize toString count = digits
    generalize escapeMrkdwn jobTitle = title
    exact (String.append_assoc ..).trans (String.append_assoc ..)
  have hpost : '\n' ∉ ("] — 주제 " ++ (toString count ++ "개")).toList := by
    rw [String.toList_append, String.toList_append, List.mem_append, List.mem_append, not_or,
      not_or]
    exact ⟨by decide, fun hmem => absurd (isDigit_of_mem_toString hmem) (by decide), by decide⟩
  rw [hheader, String.toList_append, String.toList_append, noBlankLine_surround (by decide) hpost,
    noBlankLine_escapeMrkdwn]

theorem getLast?_digestHeader (jobTitle : String) (count : ℕ) :
    (digestHeader escapeMrkdwn jobTitle count).toList.getLast? = some '개' := by
  unfold digestHeader
  generalize "📰 오늘의 뉴스 다이제스트 [" ++ escapeMrkdwn jobTitle ++ "] — 주제 " ++ toString count = pre
  rw [String.toList_append, List.getLast?_append_of_ne_nil _ (by simp)]
  simp

/-- Neither the header nor a section has a blank line, or ends in half of one. -/
theorem splitText_formatDigestMessage (hnormal : ∀ group ∈ groups, group.Normal)
    (htitle : NoBlankLine jobTitle.toList) (hgroups : ∀ group ∈ groups, group.OneLine) :
    splitText "\n\n" (formatDigestMessage jobTitle groups) =
      digestHeader escapeMrkdwn jobTitle groups.length :: groups.map formatGroup := by
  rw [formatDigestMessage_eq, layoutMessage]
  apply splitText_intercalate (by decide) (List.cons_ne_nil _ _)
  intro piece hpiece
  rw [show "\n\n".toList = ['\n', '\n'] by simp, clashes_pair]
  rcases List.mem_cons.mp hpiece with rfl | hpiece
  · rw [getLast?_digestHeader]
    exact ⟨(noBlankLine_digestHeader jobTitle _).mpr htitle, by decide⟩
  · obtain ⟨group, hgroup, rfl⟩ := List.mem_map.mp hpiece
    have hlines := groupLines_oneLine (hnormal group hgroup) (hgroups group hgroup)
    have hne : (groupLines escapeMrkdwn group).map String.toList ≠ [] := by simp [groupLines]
    obtain ⟨hchain, -, hlast, -⟩ := noBlankLine_intercalate hne (by simpa using hlines)
    rw [String.toList_intercalate, show "\n".toList = ['\n'] by simp]
    exact ⟨hchain, hlast⟩

theorem Legible.noBlankLine (h : Legible jobTitle groups) : NoBlankLine jobTitle.toList := by
  have hheader : digestHeader escapeMrkdwn jobTitle groups.length ∈
      splitText "\n\n" (formatDigestMessage jobTitle groups) := by
    rw [h.sections]
    exact List.mem_cons_self
  have hinfix := not_infix_of_mem_splitText (by decide) hheader
  rw [← noBlankLine_digestHeader jobTitle groups.length]
  apply List.isChain_iff_forall_rel_of_append_cons_cons.mpr
  rintro c d before after hsplit ⟨rfl, rfl⟩
  apply hinfix
  rw [hsplit]
  exact ⟨before, after, by simp⟩

theorem Legible.oneLine (hnormal : ∀ group ∈ groups, group.Normal) (h : Legible jobTitle groups) :
    ∀ group ∈ groups, group.OneLine := by
  intro group hgroup
  have hlines : ∀ line ∈ groupLines escapeMrkdwn group, '\n' ∉ line.toList := by
    intro line hline hmem
    rw [← h.lines group hgroup] at hline
    apply not_infix_of_mem_splitText (by decide) hline
    obtain ⟨before, after, hsplit⟩ := List.append_of_mem hmem
    exact ⟨before, after, by simp [hsplit]⟩
  constructor
  · have htopic := hlines _ (mem_groupLines.mpr (.inl rfl))
    rw [String.toList_append, String.toList_append, List.mem_append, List.mem_append, not_or,
      not_or] at htopic
    exact oneLine_escapeMrkdwn.mp htopic.1.2
  · have htrimmed : trim group.summary = group.summary := (hnormal group hgroup).summary
    rw [← htrimmed]
    by_cases hsummary : trim group.summary = ""
    · rw [hsummary]
      decide
    · have hline := hlines _ (mem_groupLines.mpr (.inr (.inl ⟨hsummary, rfl⟩)))
      rw [String.toList_append, List.mem_append, not_or] at hline
      exact oneLine_escapeMrkdwn.mp hline.2
  · intro headline hheadline
    have hline := hlines _ (mem_groupLines.mpr (.inr (.inr ⟨headline, hheadline, rfl⟩)))
    rw [String.toList_append, List.mem_append, not_or] at hline
    exact oneLine_escapeMrkdwn.mp hline.2

/-- The layout can be read back if and only if the texts in it have no line breaks of their own. -/
theorem legible_coerceGroups_iff {N : Type} (v : Json N) (jobTitle : String) :
    Legible jobTitle (coerceGroups v) ↔
      NoBlankLine jobTitle.toList ∧ ∀ group ∈ coerceGroups v, group.OneLine := by
  have hnormal := coerceGroups_normal v
  constructor
  · exact fun h => ⟨h.noBlankLine, h.oneLine hnormal⟩
  · rintro ⟨htitle, hgroups⟩
    have hsections := splitText_formatDigestMessage hnormal htitle hgroups
    have hlines := fun group hgroup =>
      splitText_formatGroup (hnormal group hgroup) (hgroups group hgroup)
    refine ⟨hsections, hlines, ?_⟩
    rw [readDigest, hsections, List.tail_cons, List.map_map]
    conv_rhs => rw [← List.map_id (coerceGroups v)]
    apply List.map_congr_left
    intro group hgroup
    exact readGroup_formatGroup (hnormal group hgroup) (hlines group hgroup)

/-- A topic with a blank line in it makes a section of its own. -/
theorem not_legible_forged :
    let groups := coerceGroups (N := ℕ) (.array [.object [("topic", .string "one*\n\n*▸ two"),
      ("headlines", .array [.string "headline"])]])
    ¬ Legible "news" groups ∧ groups.length = 1 ∧
      (splitText "\n\n" (formatDigestMessage "news" groups)).length = 3 := by
  refine ⟨?_, rfl, by decide +kernel⟩
  intro h
  have hgroup := h.oneLine (coerceGroups_normal _) ⟨"one*\n\n*▸ two", "", ["headline"]⟩ (by decide)
  exact absurd hgroup.topic (by decide)

end Legibility

end JobManager
