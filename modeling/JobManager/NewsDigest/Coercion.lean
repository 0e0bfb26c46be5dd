import JobManager.Async.Sequential
import JobManager.NewsDigest.GeminiNewsDigestBuilder

/-! What is left of the output of the model. -/
namespace JobManager

open Text Async

structure DigestGroup.Normal (group : DigestGroup) : Prop where
  topic : Trimmed group.topic ∧ group.topic ≠ ""
  summary : Trimmed group.summary
  headlines : ∀ headline ∈ group.headlines, Trimmed headline ∧ headline ≠ ""

section Coercion

variable {N : Type} {raw : Json N} {group : DigestGroup}

/-- The group as a JSON value. -/
def encodeGroup (group : DigestGroup) : Json N :=
  .object [("topic", .string group.topic), ("summary", .string group.summary),
    ("headlines", .array (group.headlines.map .string))]

def encodeGroups (groups : List DigestGroup) : Json N := .array (groups.map encodeGroup)

/-- An object with a topic or a headline that is not blank. -/
def Worth (raw : Json N) : Prop :=
  ∃ fields, raw = .object fields ∧
    ((∃ topic, raw.property "topic" = some (.string topic) ∧ trim topic ≠ "") ∨
      ∃ headlines headline, raw.property "headlines" = some (.array headlines) ∧
        .string headline ∈ headlines ∧ trim headline ≠ "")

def asString : Json N → Option String
  | .string s => some s
  | _ => none

/-- The strings among the elements. -/
def strings (values : List (Json N)) : List String := values.filterMap asString

/-- The group has the fields of the element, trimmed, and the default for a missing topic. -/
structure Coerced (raw : Json N) (group : DigestGroup) : Prop where
  topic : ∀ topic, raw.property "topic" = some (.string topic) → trim topic ≠ "" →
    group.topic = trim topic
  defaultTopic : (∀ topic, raw.property "topic" = some (.string topic) → trim topic = "") →
    group.topic = "기타"
  summary : ∀ summary, raw.property "summary" = some (.string summary) →
    group.summary = trim summary
  noSummary : (∀ summary, raw.property "summary" ≠ some (.string summary)) → group.summary = ""
  headlines : ∀ headlines, raw.property "headlines" = some (.array headlines) →
    group.headlines = ((strings headlines).map trim).filter (· ≠ "")
  noHeadlines : (∀ headlines, raw.property "headlines" ≠ some (.array headlines)) →
    group.headlines = []

/-- The elements of an array. -/
def elements (v : Json N) : List (Json N) :=
  match v with
  | .array raws => raws
  | _ => []

theorem trimmedText_trimmed (value : Option (Json N)) : Trimmed (trimmedText value) := by
  unfold trimmedText
  split
  · exact trimmed_trim _
  · rfl

theorem trimmedText_ne_empty {value : Option (Json N)} :
    trimmedText value ≠ "" ↔ ∃ s, value = some (.string s) ∧ trim s ≠ "" := by
  unfold trimmedText
  split
  · simp
  · next hother => simpa using fun s hs => absurd hs (hother s)

theorem coerceHeadline_eq (h : Json N) :
    coerceHeadline h = ((asString h).map trim).filter (· ≠ "") := by
  cases h with
  | string s => simp [coerceHeadline, asString, length_pos_iff, Option.filter]
  | null | bool | number | array | object => rfl

theorem coerceHeadlines_eq (hs : List (Json N)) :
    coerceHeadlines (some (.array hs)) = ((strings hs).map trim).filter (· ≠ "") := by
  rw [strings, List.map_filterMap, List.filter_filterMap, coerceHeadlines]
  exact List.filterMap_congr fun h _ => coerceHeadline_eq h

theorem asString_eq_some {h : Json N} {s : String} : asString h = some s ↔ h = .string s := by
  cases h <;> simp [asString]

theorem mem_coerceHeadlines {value : Option (Json N)} {headline : String} :
    headline ∈ coerceHeadlines value ↔ ∃ hs s, value = some (.array hs) ∧ .string s ∈ hs ∧
      trim s = headline ∧ headline ≠ "" := by
  by_cases harray : ∃ hs, value = some (.array hs)
  · obtain ⟨hs, rfl⟩ := harray
    rw [coerceHeadlines_eq]
    simp only [strings, List.mem_filter, List.mem_map, List.mem_filterMap, asString_eq_some]
    aesop
  · have hnil : coerceHeadlines value = [] := by
      unfold coerceHeadlines
      split
      · next hs => exact absurd ⟨hs, rfl⟩ harray
      · rfl
    simp only [hnil, List.not_mem_nil, false_iff]
    rintro ⟨hs, s, hvalue, -⟩
    exact harray ⟨hs, hvalue⟩

theorem coerceHeadlines_ne_nil {value : Option (Json N)} :
    coerceHeadlines value ≠ [] ↔ ∃ headlines headline, value = some (.array headlines) ∧
      .string headline ∈ headlines ∧ trim headline ≠ "" := by
  rw [Ne, List.eq_nil_iff_forall_not_mem, not_forall]
  simp only [not_not, mem_coerceHeadlines]
  constructor
  · rintro ⟨_, headlines, headline, hvalue, hmem, rfl, hne⟩
    exact ⟨headlines, headline, hvalue, hmem, hne⟩
  · rintro ⟨headlines, headline, hvalue, hmem, hne⟩
    exact ⟨_, headlines, headline, hvalue, hmem, rfl, hne⟩

/-- The elements that the loop does not pass over. -/
theorem worth_object_iff (fields : List (String × Json N)) :
    Worth (.object fields) ↔
      ¬ ((trimmedText ((Json.object fields).property "topic")).length = 0 ∧
        (coerceHeadlines ((Json.object fields).property "headlines")).length = 0) := by
  rw [String.length_eq_zero_iff, List.length_eq_zero_iff, not_and_or, ← ne_eq, ← ne_eq,
    trimmedText_ne_empty, coerceHeadlines_ne_nil]
  constructor
  · rintro ⟨_, hfields, hworth⟩
    exact hworth
  · exact fun hworth => ⟨fields, rfl, hworth⟩

theorem coerceGroup_eq_some : coerceGroup raw = some group ↔ Worth raw ∧
    group = ⟨if trimmedText (raw.property "topic") = "" then "기타"
      else trimmedText (raw.property "topic"), trimmedText (raw.property "summary"),
      coerceHeadlines (raw.property "headlines")⟩ := by
  cases raw with
  | object fields =>
    simp only [coerceGroup, Option.ite_none_left_eq_some, Option.some.injEq, worth_object_iff]
    rw [@eq_comm _ group]
  | array vs => simp [coerceGroup, Worth, trimmedText, coerceHeadlines, Json.property]
  | null | bool | number | string => simp [coerceGroup, Worth]

theorem coerceGroup_eq_none : coerceGroup raw = none ↔ ¬ Worth raw := by
  rw [Option.eq_none_iff_forall_ne_some]
  simp only [Ne, coerceGroup_eq_some]
  simp

theorem coerceGroup_normal (h : coerceGroup raw = some group) : group.Normal := by
  obtain ⟨-, rfl⟩ := coerceGroup_eq_some.mp h
  constructor
  · dsimp only
    split
    · decide
    · next hne => exact ⟨trimmedText_trimmed _, hne⟩
  · exact trimmedText_trimmed _
  · intro headline hmem
    obtain ⟨hs, s, -, -, rfl, hne⟩ := mem_coerceHeadlines.mp hmem
    exact ⟨trimmed_trim s, hne⟩

theorem coerceGroup_coerced (h : coerceGroup raw = some group) : Coerced raw group := by
  obtain ⟨-, rfl⟩ := coerceGroup_eq_some.mp h
  constructor
  · intro topic htopic hne
    simp [htopic, trimmedText, hne]
  · intro hblank
    have hempty : trimmedText (raw.property "topic") = "" := by
      by_contra hne
      obtain ⟨topic, htopic, hne⟩ := trimmedText_ne_empty.mp hne
      exact hne (hblank topic htopic)
    simp [hempty]
  · intro summary hsummary
    simp [hsummary, trimmedText]
  · intro hnone
    by_contra hne
    obtain ⟨summary, hsummary, -⟩ := trimmedText_ne_empty.mp hne
    exact hnone summary hsummary
  · intro headlines hheadlines
    simp [hheadlines, coerceHeadlines_eq]
  · intro hnone
    by_contra hne
    obtain ⟨headlines, -, hheadlines, -⟩ := coerceHeadlines_ne_nil.mp hne
    exact hnone headlines hheadlines

instance : DecidablePred (Worth (N := N)) :=
  fun raw => decidable_of_iff ((coerceGroup raw).isSome = true) <| by
    rw [← Option.ne_none_iff_isSome, Ne, coerceGroup_eq_none, not_not]

theorem coerceGroups_normal (v : Json N) : ∀ group ∈ coerceGroups v, group.Normal := by
  intro group hgroup
  unfold coerceGroups at hgroup
  split at hgroup
  · obtain ⟨raw, -, hraw⟩ := List.mem_filterMap.mp hgroup
    exact coerceGroup_normal hraw
  · cases hgroup

/-- The groups are those of the elements worth keeping, in their order. -/
theorem coerceGroups_coerced (v : Json N) :
    List.Forall₂ Coerced ((elements v).filter fun raw => Worth raw) (coerceGroups v) := by
  cases v with
  | array raws =>
    change List.Forall₂ Coerced (raws.filter fun raw => Worth raw) (raws.filterMap coerceGroup)
    induction raws with
    | nil => exact .nil
    | cons raw raws ih =>
      by_cases hworth : Worth raw
      · cases hgroup : coerceGroup raw with
        | none => exact absurd hworth (coerceGroup_eq_none.mp hgroup)
        | some group =>
          rw [List.filter_cons_of_pos (by simpa using hworth), List.filterMap_cons_some hgroup]
          exact .cons (coerceGroup_coerced hgroup) ih
      · rw [List.filter_cons_of_neg (by simpa using hworth),
          List.filterMap_cons_none (coerceGroup_eq_none.mpr hworth)]
        exact ih
  | null | bool | number | string | object => exact .nil

theorem coerceGroup_encodeGroup (hgroup : group.Normal) :
    coerceGroup (encodeGroup group : Json N) = some group := by
  have htopic : (encodeGroup group : Json N).property "topic" = some (.string group.topic) := rfl
  have hsummary : (encodeGroup group : Json N).property "summary" = some (.string group.summary) :=
    rfl
  have hheadlines : (encodeGroup group : Json N).property "headlines" =
      some (.array (group.headlines.map .string)) := rfl
  have hstrings : strings (group.headlines.map .string : List (Json N)) = group.headlines := by
    simp [strings, List.filterMap_map, Function.comp_def, asString]
  rw [coerceGroup_eq_some, htopic, hsummary, hheadlines, coerceHeadlines_eq, hstrings]
  have htrimmed : trim group.topic = group.topic := hgroup.topic.1
  refine ⟨⟨_, rfl, .inl ⟨group.topic, htopic, ?_⟩⟩, ?_⟩
  · rw [htrimmed]
    exact hgroup.topic.2
  · have hmap : group.headlines.map trim = group.headlines :=
      (List.map_congr_left fun headline hmem => (hgroup.headlines headline hmem).1).trans
        (List.map_id _)
    have hfilter : group.headlines.filter (· ≠ "") = group.headlines :=
      List.filter_eq_self.mpr fun headline hmem => by
        simpa using (hgroup.headlines headline hmem).2
    rw [hmap, hfilter, trimmedText, trimmedText, htrimmed, if_neg hgroup.topic.2,
      show trim group.summary = group.summary from hgroup.summary]

/-- Nothing of a list of normal groups is lost. -/
theorem coerceGroups_encodeGroups {groups : List DigestGroup}
    (hgroups : ∀ group ∈ groups, group.Normal) :
    coerceGroups (encodeGroups groups : Json N) = groups := by
  change (groups.map encodeGroup).filterMap (coerceGroup (N := N)) = groups
  induction groups with
  | nil => rfl
  | cons group groups ih =>
    rw [List.forall_mem_cons] at hgroups
    rw [List.map_cons, List.filterMap_cons_some (coerceGroup_encodeGroup hgroups.1), ih hgroups.2]

end Coercion

section Build

variable {N S : Type} [NumberToString N] {parse : String → Except Thrown (Json N)}

open GeminiNewsDigestBuilder

/-- The groups are those of a text that parses, and there is one at least. -/
theorem readGroups_eq_ok {body : Json N} {groups : List DigestGroup} :
    readGroups parse body = .ok groups ↔ ∃ text v, responseText body = .ok text ∧ text ≠ "" ∧
      parse (stripCodeFence text) = .ok v ∧ coerceGroups v = groups ∧ groups ≠ [] := by
  unfold readGroups
  cases htext : responseText body with
  | error e => simp [bind, Except.bind]
  | ok text =>
    by_cases hempty : text = ""
    · simp [hempty, bind, Except.bind, throw, throwThe, MonadExceptOf.throw]
    · cases hparse : parse (stripCodeFence text) with
      | error e => simp [hempty, hparse, bind, Except.bind, throw, throwThe, MonadExceptOf.throw]
      | ok v =>
        by_cases hgroups : coerceGroups v = []
        · simp [hempty, hparse, hgroups, bind, Except.bind, throw, throwThe, MonadExceptOf.throw]
        · simp only [bind, Except.bind, hempty, hparse, pure, Except.pure, List.length_eq_zero_iff,
            hgroups, if_false, Except.ok.injEq]
          constructor
          · rintro rfl
            exact ⟨text, v, rfl, hempty, hparse, rfl, hgroups⟩
          · rintro ⟨_, v', rfl, -, hparse', rfl, -⟩
            rw [hparse] at hparse'
            exact congrArg coerceGroups (Except.ok.inj hparse')

/-- The builder resolves with the groups of an answer to its request. -/
theorem eval_buildGroupedDigest {act : (c : GeminiCall) → S → Except Thrown (c.Answer N) × S}
    {s : S} {builder : GeminiNewsDigestBuilder} {articles : List NewsArticle}
    {groups : List DigestGroup} :
    (eval act (builder.buildGroupedDigest parse articles) s).1 = .ok groups ↔
      ∃ res body, (act (request builder articles) s).1 = .ok res ∧ res.ok = true ∧
        (act .json (act (request builder articles) s).2).1 = .ok body ∧
        readGroups parse body = .ok groups := by
  rw [buildGroupedDigest, eval_bind, eval_perform]
  cases hfetch : act (request builder articles) s with | mk answer s' =>
  cases answer with
  | error e => simp
  | ok res =>
    cases hok : res.ok with
    | false => simp [hok]
    | true =>
      simp only [hok, Bool.not_true, Bool.false_eq_true, if_false, eval_bind, eval_perform]
      cases hjson : act .json s' with | mk answer s'' =>
      cases answer with
      | error e => simp
      | ok body => simp [hok]

/-- Every output of the model is normalised, and only such groups leave the builder. -/
theorem coercion_complete (N : Type) [NumberToString N] :
    (∀ v : Json N, (∀ group ∈ coerceGroups v, group.Normal) ∧
      List.Forall₂ Coerced ((elements v).filter fun raw => Worth raw) (coerceGroups v) ∧
      coerceGroups (encodeGroups (coerceGroups v) : Json N) = coerceGroups v) ∧
    ∀ (S : Type) (act : (c : GeminiCall) → S → Except Thrown (c.Answer N) × S) (s : S)
      (builder : GeminiNewsDigestBuilder) (parse : String → Except Thrown (Json N))
      (articles : List NewsArticle),
      (∃ body text v, (act .json (act (request builder articles) s).2).1 = .ok body ∧
        responseText body = .ok text ∧ parse (stripCodeFence text) = .ok v ∧
        coerceGroups v ≠ [] ∧
        (eval act (builder.buildGroupedDigest parse articles) s).1 = .ok (coerceGroups v)) ∨
      ∃ e, (eval act (builder.buildGroupedDigest parse articles) s).1 = .error e := by
  refine ⟨fun v => ⟨coerceGroups_normal v, coerceGroups_coerced v,
    coerceGroups_encodeGroups (coerceGroups_normal v)⟩, ?_⟩
  intro S act s builder parse articles
  cases hresult : (eval act (builder.buildGroupedDigest parse articles) s).1 with
  | error e => exact .inr ⟨e, rfl⟩
  | ok groups =>
    obtain ⟨res, body, -, -, hjson, hgroups⟩ := eval_buildGroupedDigest.mp hresult
    obtain ⟨text, v, htext, -, hparse, rfl, hne⟩ := readGroups_eq_ok.mp hgroups
    exact .inl ⟨body, text, v, hjson, htext, hparse, hne, rfl⟩

end Build

end JobManager
