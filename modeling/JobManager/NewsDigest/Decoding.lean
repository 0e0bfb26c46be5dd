import JobManager.NewsDigest.Coercion

/-! The groups arrive as the model has written them, however the answer is cut and wrapped. -/
namespace JobManager

open Text Async

def ticks : List Char := List.replicate 3 '\x60'

/-- A payload between white space, with or without a code fence. -/
inductive Wrapped (payload : List Char) : List Char → Prop where
  | bare {pre post : List Char} (hpre : ∀ c ∈ pre, isSpace c = true)
      (hpost : ∀ c ∈ post, isSpace c = true) : Wrapped payload (pre ++ payload ++ post)
  | fenced {pre tag gap gap' post : List Char} (hpre : ∀ c ∈ pre, isSpace c = true)
      (htag : tag = [] ∨ tag.map Char.toLower = ['j', 's', 'o', 'n'])
      (hgap : ∀ c ∈ gap, isSpace c = true) (hgap' : ∀ c ∈ gap', isSpace c = true)
      (hpost : ∀ c ∈ post, isSpace c = true) :
      Wrapped payload (pre ++ (ticks ++ (tag ++ (gap ++ (payload ++ (gap' ++ ticks))))) ++ post)

section Fence

variable {β : Type} {K : List (List Char) → List Char → Option β} {groups : List (List Char)}
  {gap gap' payload tag s : List Char}

/-- What follows the payload. -/
def fenceEnd : Regex Char := .all [.star isSpace, fence, .star isSpace, .stop]

theorem run_fence_ticks : fence.run K groups (ticks ++ s) = K groups s :=
  Regex.run_word_append (by simp [ticks])

theorem run_fenceEnd {b : β} (hgap : ∀ c ∈ gap, isSpace c = true) (hK : K groups [] = some b) :
    fenceEnd.run K groups (gap ++ ticks) = some b := by
  rw [fenceEnd, Regex.run_all_cons, Regex.run]
  refine Regex.greedily_eq_some hgap (by simp [ticks]; decide) ?_
  rw [Regex.run_all_cons, ← List.append_nil ticks, run_fence_ticks]
  exact hK

/-- A fence cannot end where some other character is still to come. -/
theorem run_fenceEnd_eq_none {c : Char} (hc : c ∈ s) (hspace : isSpace c = false)
    (htick : c ≠ '\x60') : fenceEnd.run K groups s = none := by
  rw [Option.eq_none_iff_forall_ne_some]
  intro b hb
  obtain ⟨pre, rest, rfl, hpre, hfence⟩ := Regex.greedily_sound hb
  obtain ⟨cs, rest, rfl, hcs, hspaces⟩ := Regex.run_word_sound hfence
  obtain ⟨post, rest, rfl, hpost, hstop⟩ := Regex.greedily_sound hspaces
  have hrest : rest = [] := by
    cases rest with
    | nil => rfl
    | cons c rest => cases hstop
  simp only [List.forall₂_cons_left_iff, List.forall₂_nil_left_iff, decide_eq_true_eq] at hcs
  obtain ⟨_, _, rfl, ⟨_, _, rfl, ⟨_, _, rfl, rfl, rfl⟩, rfl⟩, rfl⟩ := hcs
  subst hrest
  simp only [List.mem_append, List.mem_cons, List.not_mem_nil, or_false, or_self, htick,
    false_or] at hc
  rcases hc with hc | hc
  · exact absurd (hpre c hc) (Bool.eq_false_iff.mp hspace)
  · exact absurd (hpost c hc) (Bool.eq_false_iff.mp hspace)

theorem run_payload (hgap : ∀ c ∈ gap, isSpace c = true) (hlast : ∃ cs, payload = cs ++ [']']) :
    (Regex.capture (.lazyStar fun _ => true)).run (fenceEnd.run fun groups _ => some groups) groups
      (payload ++ (gap ++ ticks)) = some (groups ++ [payload]) := by
  obtain ⟨cs, hcs⟩ := hlast
  rw [Regex.run, Regex.run_lazyStar]
  refine Regex.lazily_eq_some (fun _ _ => rfl) (fun s hs hsuffix => ?_) ?_
  · have hmem : ']' ∈ s := by
      have hget := hsuffix.getLast hs
      simp only [hcs, List.getLast_append_singleton] at hget
      exact hget ▸ List.getLast_mem hs
    exact run_fenceEnd_eq_none (List.mem_append_left _ hmem) (by decide) (by decide)
  · refine run_fenceEnd hgap ?_
    simp

theorem toLower_of_isSpace {c : Char} (h : isSpace c = true) : c.toLower = c := by
  unfold Char.toLower
  rw [dif_neg]
  rintro ⟨hA, hZ⟩
  have hA : 65 ≤ c.toNat := hA
  have hZ : c.toNat ≤ 90 := hZ
  unfold isSpace at h
  simp only [decide_eq_true_eq] at h
  omega

theorem exec_fencedText (htag : tag = [] ∨ tag.map Char.toLower = ['j', 's', 'o', 'n'])
    (hgap : ∀ c ∈ gap, isSpace c = true) (hgap' : ∀ c ∈ gap', isSpace c = true)
    (hpayload : ∃ cs, payload = '[' :: cs ++ [']']) :
    fencedText.exec (ticks ++ (tag ++ (gap ++ (payload ++ (gap' ++ ticks))))) =
      some [payload] := by
  obtain ⟨cs, hcs⟩ := hpayload
  have hrest : (Regex.all [.star isSpace, .capture (.lazyStar fun _ => true), .star isSpace, fence,
      .star isSpace, .stop]).run (fun groups _ => some groups) []
        (gap ++ (payload ++ (gap' ++ ticks))) = some [payload] := by
    rw [Regex.run_all_cons, Regex.run_star]
    refine Regex.greedily_eq_some hgap (by simp [hcs]; decide) ?_
    rw [Regex.run_all_cons]
    exact run_payload hgap' ⟨'[' :: cs, hcs⟩
  rw [Regex.exec, fencedText, Regex.run_all_cons, Regex.run_star,
    Regex.greedily_of_head (by simp [ticks]; decide), Regex.run_all_cons, run_fence_ticks,
    Regex.run_all_cons, Regex.run]
  rcases htag with rfl | htag
  · -- Without a tag the optional part fails on what comes first: white space or the bracket.
    rw [List.nil_append, hrest, Option.or_eq_some_iff]
    refine .inr ⟨?_, rfl⟩
    rw [Option.eq_none_iff_forall_ne_some]
    intro b hb
    obtain ⟨tag, rest, happend, htag, -⟩ := Regex.run_word_sound hb
    cases htag with | @cons _ c _ _ hc _ =>
    rw [decide_eq_true_eq] at hc
    cases gap with
    | nil =>
      obtain rfl : '[' = c := by simpa [hcs] using congrArg List.head? happend
      exact absurd hc (by decide)
    | cons c' gap =>
      obtain rfl : c' = c := by simpa using congrArg List.head? happend
      have hspace := hgap c' (List.mem_cons_self ..)
      rw [toLower_of_isSpace hspace] at hc
      subst hc
      exact absurd hspace (by decide)
  · simp only [List.map_eq_cons_iff, List.map_eq_nil_iff] at htag
    obtain ⟨_, _, rfl, hj, _, _, rfl, hs, _, _, rfl, ho, _, _, rfl, hn, rfl⟩ := htag
    rw [Regex.run_word_append (by simp [hj, hs, ho, hn]), hrest]
    rfl

theorem exec_bracket (cs : List Char) : fencedText.exec ('[' :: cs) = none := by
  rw [Regex.exec, fencedText, Regex.run_all_cons, Regex.run_star,
    Regex.greedily_of_head (by simp; decide)]
  rfl

/-- The payload is what is left of a wrapped text. -/
theorem stripCodeFence_wrapped {text : String} (hpayload : ∃ cs, payload = '[' :: cs ++ [']'])
    (hwrapped : Wrapped payload text.toList) :
    trim text ≠ "" ∧ stripCodeFence (trim text) = String.ofList payload := by
  have hstripped : Stripped isSpace payload := by
    obtain ⟨cs, rfl⟩ := hpayload
    exact stripped_surround (by decide) (by decide)
  generalize htext : text.toList = l at hwrapped
  have htrim := toList_trim text
  rw [htext] at htrim
  rw [← String.toList_inj.ne, htrim, stripCodeFence, trim_trim, htrim]
  cases hwrapped with
  | bare hpre hpost =>
    rw [strip_append hpre hpost, strip_eq_self.mpr hstripped] at htrim ⊢
    obtain ⟨cs, rfl⟩ := hpayload
    rw [List.cons_append, exec_bracket]
    refine ⟨List.cons_ne_nil _ _, ?_⟩
    rw [← String.toList_inj, htrim, String.toList_ofList, List.cons_append]
  | @fenced pre tag gap gap' post hpre htag hgap hgap' hpost =>
    have hfenced : Stripped isSpace (ticks ++ (tag ++ (gap ++ (payload ++ (gap' ++ ticks))))) := by
      have hends : ticks ++ (tag ++ (gap ++ (payload ++ (gap' ++ ticks)))) =
          '\x60' :: (['\x60', '\x60'] ++ (tag ++ (gap ++ (payload ++ (gap' ++
            ['\x60', '\x60']))))) ++ ['\x60'] := by
        simp [ticks, List.replicate]
      rw [hends]
      exact stripped_surround (by decide) (by decide)
    rw [strip_append hpre hpost, strip_eq_self.mpr hfenced,
      exec_fencedText htag hgap hgap' hpayload]
    exact ⟨List.cons_ne_nil _ _, rfl⟩

end Fence

section Answer

open GeminiNewsDigestBuilder

variable {N : Type} {body : Json N} {parts : List (Json N)} {texts : List String}

/-- The parts of the first candidate of an answer. -/
def FirstCandidate (body : Json N) (parts : List (Json N)) : Prop :=
  ∃ candidate candidates content,
    body.property "candidates" = some (.array (candidate :: candidates)) ∧
    candidate.property "content" = some content ∧ content.property "parts" = some (.array parts)

/-- What a part adds to the text. -/
inductive PartText : Json N → String → Prop where
  | text {fields : List (String × Json N)} {text : String}
      (htext : (Json.object fields).property "text" = some (.string text)) :
      PartText (.object fields) text
  | none {fields : List (String × Json N)}
      (hnone : (Json.object fields).property "text" ∈ [Option.none, some .null]) :
      PartText (.object fields) ""

theorem partTexts_eq (hparts : List.Forall₂ PartText parts texts) :
    partTexts parts = .ok (texts.map .string) := by
  induction hparts with
  | nil => rfl
  | cons hpart hparts ih =>
    unfold partTexts at ih ⊢
    rw [List.mapM_cons, ih]
    cases hpart with
    | text htext => simp [member, htext, bind, Except.bind, pure, Except.pure]
    | none hnone =>
      simp only [List.mem_cons, List.not_mem_nil, or_false] at hnone
      rcases hnone with hnone | hnone <;>
        simp [member, hnone, bind, Except.bind, pure, Except.pure]

theorem joinTexts_map_string [NumberToString N] (texts : List String) :
    Json.joinTexts (texts.map .string : List (Json N)) = some texts := by
  induction texts with
  | nil => rfl
  | cons text texts ih => simp [Json.joinTexts, Json.text, ih]

theorem responseText_eq [NumberToString N] (hbody : FirstCandidate body parts)
    (hparts : List.Forall₂ PartText parts texts) :
    responseText body = .ok (trim (String.join texts)) := by
  obtain ⟨candidate, candidates, content, hcandidates, hcontent, hbody⟩ := hbody
  have hmember : member body "candidates" = .ok (some (.array (candidate :: candidates))) := by
    rw [← hcandidates]
    cases body with
    | null => cases hcandidates
    | bool | number | string | array | object => rfl
  have htexts := partTexts_eq hparts
  have hjoin := @joinTexts_map_string N _ texts
  simp [responseText, hmember, hcontent, hbody, htexts, hjoin, bind, Except.bind, pure, Except.pure]

end Answer

open GeminiNewsDigestBuilder

/-- What the model has written as JSON arrives as it was written. -/
theorem digest_decoded (N S : Type) [NumberToString N]
    (act : (c : GeminiCall) → S → Except Thrown (c.Answer N) × S) (s : S)
    (builder : GeminiNewsDigestBuilder) (parse : String → Except Thrown (Json N))
    (articles : List NewsArticle) (res : FetchResponse) (body : Json N) (parts : List (Json N))
    (texts : List String) (groups : List DigestGroup) (hne : groups ≠ [])
    (hnormal : ∀ group ∈ groups, group.Normal)
    (hparse : parse (Json.stringify (encodeGroups groups : Json N)) = .ok (encodeGroups groups))
    (hfetch : (act (request builder articles) s).1 = .ok res) (hok : res.ok = true)
    (hjson : (act .json (act (request builder articles) s).2).1 = .ok body)
    (hbody : FirstCandidate body parts) (hparts : List.Forall₂ PartText parts texts)
    (hwrapped : Wrapped (Json.stringify (encodeGroups groups : Json N)).toList
      (String.join texts).toList) :
    (eval act (builder.buildGroupedDigest parse articles) s).1 = .ok groups := by
  have hpayload := @Json.toList_stringify_array N _ (groups.map encodeGroup)
  obtain ⟨htext, hstrip⟩ := stripCodeFence_wrapped hpayload hwrapped
  rw [eval_buildGroupedDigest]
  refine ⟨res, body, hfetch, hok, hjson, ?_⟩
  rw [readGroups_eq_ok]
  refine ⟨_, encodeGroups groups, responseText_eq hbody hparts, htext, ?_,
    coerceGroups_encodeGroups hnormal, hne⟩
  rw [hstrip, String.ofList_toList]
  exact hparse

/-- One group whose summary holds a code fence. -/
def fencedGroups : List DigestGroup := [⟨"경제", "\x60\x60\x60json\n[]\n\x60\x60\x60", ["헤드라인"]⟩]

/-- The answer in a fence and in three parts, the second without a text. -/
def fencedAnswer : Json ℕ :=
  .object [("candidates", .array [.object [("content", .object [("parts", .array [
    .object [("text", .string " \x60\x60\x60JSON\n")], .object [],
    .object [("text", .string (Json.stringify (encodeGroups fencedGroups : Json ℕ) ++
      "\n\x60\x60\x60"))]])])]])]

theorem digest_decoded_fenced :
    (eval (S := Unit) (fun
        | .fetch _ _, s => (.ok ⟨true, 200⟩, s)
        | .json, s => (.ok fencedAnswer, s))
      (GeminiNewsDigestBuilder.buildGroupedDigest (N := ℕ) ⟨"key", "gemini"⟩
        (fun text => if text = Json.stringify (encodeGroups fencedGroups : Json ℕ)
          then .ok (encodeGroups fencedGroups) else .error "SyntaxError") []) ()).1 =
      .ok fencedGroups := by
  refine digest_decoded ℕ Unit _ () _ _ [] ⟨true, 200⟩ fencedAnswer _
    [" \x60\x60\x60JSON\n", "", Json.stringify (encodeGroups fencedGroups : Json ℕ) ++
      "\n\x60\x60\x60"] fencedGroups (List.cons_ne_nil _ _) ?_ (if_pos rfl) rfl rfl rfl
    ⟨_, _, _, rfl, rfl, rfl⟩ (.cons (.text rfl) (.cons (.none ?_) (.cons (.text rfl) .nil))) ?_
  · intro group hgroup
    rw [List.mem_singleton.mp hgroup]
    exact ⟨by decide +kernel, by decide +kernel, by decide +kernel⟩
  · exact List.mem_cons_self ..
  · have hfenced := @Wrapped.fenced
      (Json.stringify (encodeGroups fencedGroups : Json ℕ)).toList [' '] ['J', 'S', 'O', 'N']
      ['\n'] ['\n'] [] (by simp; decide) (.inr rfl) (by simp; decide) (by simp; decide) (by simp)
    simpa [String.join, ticks, List.replicate] using hfenced

end JobManager
