import JobManager.NewsDigest.Ports
import JobManager.Text.Json
import JobManager.Text.Regex
import JobManager.Text.Whitespace

/-! The builder that asks the Gemini API for the groups. -/
namespace JobManager

open Text

def buildPrompt (articles : List NewsArticle) : String :=
  let list := articles.mapIdx fun i a =>
    s!"{i + 1}. {a.title}" ++ if a.snippet = "" then "" else s!" — {a.snippet}"
  String.intercalate "\n" [
    "다음은 오늘의 뉴스 기사 목록이다. 동일하거나 유사한 주제의 기사끼리 그룹으로 묶고,",
    "각 그룹마다 (1) 짧은 주제 라벨(topic), (2) 그룹을 관통하는 1~2문장 한국어 요약(summary),",
    "(3) 그 그룹에 속한 기사 제목 목록(headlines)을 만들어라.",
    "반드시 아래 형태의 JSON 배열로만 답하라(설명·마크다운 없이):",
    "[\x7b\"topic\":\"...\",\"summary\":\"...\",\"headlines\":[\"...\", \"...\"]\x7d]",
    "",
    "기사 목록:",
    String.intercalate "\n" list]

/-- Three backticks. -/
def fence : Regex Char := .word [(· = '\x60'), (· = '\x60'), (· = '\x60')]

/-- ``/^\s*```(?:json)?\s*([\s\S]*?)\s*```\s*$/i``. -/
def fencedText : Regex Char := .all [
  .star isSpace, fence,
  .optional (.word [(·.toLower = 'j'), (·.toLower = 's'), (·.toLower = 'o'), (·.toLower = 'n')]),
  .star isSpace, .capture (.lazyStar fun _ => true), .star isSpace, fence, .star isSpace, .stop]

def stripCodeFence (text : String) : String :=
  match fencedText.exec (trim text).toList with
  | some (group :: _) => String.ofList group
  | _ => trim text

section Coercion

variable {N : Type}

/-- `typeof value === 'string' ? value.trim() : ''`. -/
def trimmedText (value : Option (Json N)) : String :=
  match value with
  | some (.string s) => trim s
  | _ => ""

/-- A headline that is a string and not blank. -/
def coerceHeadline (h : Json N) : Option String :=
  match h with
  | .string s => if 0 < (trim s).length then some (trim s) else none
  | _ => none

def coerceHeadlines (value : Option (Json N)) : List String :=
  match value with
  | some (.array headlines) => headlines.filterMap coerceHeadline
  | _ => []

/-- One round of the loop: `none` where it continues with the next element. -/
def coerceGroup (raw : Json N) : Option DigestGroup :=
  match raw with
  | .array _ | .object _ =>
    let topic := trimmedText (raw.property "topic")
    let summary := trimmedText (raw.property "summary")
    let headlines := coerceHeadlines (raw.property "headlines")
    if topic.length = 0 ∧ headlines.length = 0 then none
    else some ⟨if topic = "" then "기타" else topic, summary, headlines⟩
  | _ => none

def coerceGroups (parsed : Json N) : List DigestGroup :=
  match parsed with
  | .array raws => raws.filterMap coerceGroup
  | _ => []

end Coercion

structure RequestInit where
  method : String
  headers : List (String × String)
  body : String
  deriving DecidableEq, Repr

/-- What the builder asks of the network; an abort is a rejection of the call in flight. -/
inductive GeminiCall where
  | fetch (url : String) (init : RequestInit)
  | json
  deriving DecidableEq, Repr

abbrev GeminiCall.Answer (N : Type) : GeminiCall → Type
  | .fetch _ _ => FetchResponse
  | .json => Json N

namespace GeminiNewsDigestBuilder

variable {N : Type} [NumberToString N]

def request (builder : GeminiNewsDigestBuilder) (articles : List NewsArticle) : GeminiCall :=
  .fetch s!"https://generativelanguage.googleapis.com/v1beta/models/{builder.model}:generateContent"
    { method := "POST"
      headers := [("content-type", "application/json"), ("x-goog-api-key", builder.apiKey)]
      body := Json.stringify (N := ℕ) (.object [
        ("contents", .array [.object [("parts", .array [
          .object [("text", .string (buildPrompt articles))]])]]),
        ("generationConfig", .object [
          ("responseMimeType", .string "application/json"),
          ("maxOutputTokens", .number 4096)])]) }

def typeError : Thrown := "TypeError"

/-- `v.name` of any value. -/
def member (v : Json N) (name : String) : Except Thrown (Option (Json N)) :=
  match v with
  | .null => throw typeError
  | v => pure (v.property name)

/-- `part.text ?? ''` for each part. -/
def partTexts (parts : List (Json N)) : Except Thrown (List (Json N)) :=
  parts.mapM fun part => do
    match ← member part "text" with
    | none | some .null => pure (.string "")
    | some text => pure text

/-- The text of the first candidate. -/
def responseText (body : Json N) : Except Thrown String := do
  let candidates ← member body "candidates"
  let content := Json.chain (Json.chain candidates (·.item 0)) (·.property "content")
  match Json.chain content (·.property "parts") with
  | none | some .null => pure ""
  | some (.array parts) =>
    match Json.joinTexts (← partTexts parts) with
    | some texts => pure (trim (String.join texts))
    | none => throw typeError
  | some _ => throw typeError

/-- What follows the two awaits; `parse` is `JSON.parse`. -/
def readGroups (parse : String → Except Thrown (Json N)) (body : Json N) :
    Except Thrown (List DigestGroup) := do
  let text ← responseText body
  if text = "" then throw "Gemini 응답에 다이제스트 텍스트가 없음"
  else
    match parse (stripCodeFence text) with
    | .error _ => throw "Gemini 응답 JSON 파싱 실패"
    | .ok parsed =>
      let groups := coerceGroups parsed
      if groups.length = 0 then throw "Gemini 응답에서 유효한 그룹을 얻지 못함"
      else pure groups

def buildGroupedDigest (builder : GeminiNewsDigestBuilder)
    (parse : String → Except Thrown (Json N)) (articles : List NewsArticle) :
    Async GeminiCall (GeminiCall.Answer N) Thrown (List DigestGroup) := do
  let res ← Async.perform (request builder articles)
  if !res.ok then .settled (.error s!"Gemini 다이제스트 생성 실패: HTTP {res.status}")
  else do
    let body ← Async.perform GeminiCall.json
    .settled (readGroups parse body)

end GeminiNewsDigestBuilder

end JobManager
