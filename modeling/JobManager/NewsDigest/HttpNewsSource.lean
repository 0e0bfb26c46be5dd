import JobManager.NewsDigest.Ports
import JobManager.Text.CodeUnits
import JobManager.Text.Scan

/-! The news source that reads an RSS feed. -/
namespace JobManager

open Text

/-- A `NewsArticle` in code units: the snippet is cut after a number of them. -/
structure FeedArticle where
  title : List UInt16
  snippet : List UInt16
  link : List UInt16
  deriving DecidableEq, Repr

/-- `/<name\b[^>]*>([\s\S]*?)<\/name>/i`. -/
def elementRegex (name : String) : Regex UInt16 := .all [
  .word (ignoringCase ("<" ++ name)), .wordEnd isWordUnit, .star (· ≠ unit '>'),
  .word (literally ">"), .capture (.lazyStar fun _ => true),
  .word (ignoringCase ("</" ++ name ++ ">"))]

def itemRegex : Regex UInt16 := elementRegex "item"

def titleRegex : Regex UInt16 := elementRegex "title"

def linkRegex : Regex UInt16 := elementRegex "link"

def descriptionRegex : Regex UInt16 := elementRegex "description"

def maxSnippetLength : ℕ := 200

def htmlEntities : List (String × String) :=
  [("&amp;", "&"), ("&lt;", "<"), ("&gt;", ">"), ("&#39;", "'"), ("&quot;", "\"")]

/-- `/&amp;|&lt;|&gt;|&#39;|&quot;/`. -/
def entityRegex : Regex UInt16 :=
  .either (.word (literally "&amp;")) (.either (.word (literally "&lt;"))
    (.either (.word (literally "&gt;")) (.either (.word (literally "&#39;"))
      (.word (literally "&quot;")))))

def decodeEntities (text : List UInt16) : List UInt16 :=
  entityRegex.replaceAll (fun matched =>
    match htmlEntities.find? fun entity => units entity.1 = matched with
    | some entity => units entity.2
    | none => matched) text

/-- `/^\s*<!\[CDATA\[([\s\S]*?)\]\]>\s*$/`. -/
def cdataRegex : Regex UInt16 := .all [
  .star isSpaceUnit, .word (literally "<![CDATA["), .capture (.lazyStar fun _ => true),
  .word (literally "]]>"), .star isSpaceUnit, .stop]

def stripCdata (text : List UInt16) : List UInt16 :=
  match cdataRegex.exec text with
  | some (group :: _) => group
  | _ => text

/-- `/<[^>]*>/`. -/
def tagRegex : Regex UInt16 :=
  .all [.word (literally "<"), .star (· ≠ unit '>'), .word (literally ">")]

/-- `/\s+/`. -/
def spacesRegex : Regex UInt16 := .all [.one isSpaceUnit, .star isSpaceUnit]

def stripTags (text : List UInt16) : List UInt16 :=
  trimUnits (spacesRegex.replaceAll (fun _ => units " ")
    (tagRegex.replaceAll (fun _ => units " ") text))

def extractTag (itemXml : List UInt16) (regex : Regex UInt16) : List UInt16 :=
  match regex.find itemXml with
  | some ⟨_, group :: _⟩ => decodeEntities (trimUnits (stripCdata group))
  | _ => []

/-- What the source asks of the network; an abort is a rejection of the call in flight. -/
inductive FeedCall where
  | fetch (url : String)
  | text
  deriving DecidableEq, Repr

abbrev FeedCall.Answer : FeedCall → Type
  | .fetch _ => FetchResponse
  | .text => List UInt16

namespace HttpNewsSource

/-- The loop over the items of the feed. -/
def readItems (maxArticles : ℕ) : List (Regex.Match UInt16) → List FeedArticle → List FeedArticle
  | [], articles => articles
  | item :: items, articles =>
    if maxArticles ≤ articles.length then articles
    else
      let itemXml := item.groups.headD []
      let title := extractTag itemXml titleRegex
      if title.length = 0 then readItems maxArticles items articles
      else
        let link := extractTag itemXml linkRegex
        let snippet := (stripTags (extractTag itemXml descriptionRegex)).take maxSnippetLength
        readItems maxArticles items (articles ++ [⟨title, snippet, link⟩])

/-- What follows the two awaits. -/
def readFeed (source : HttpNewsSource) (xml : List UInt16) : List FeedArticle :=
  (readItems source.maxArticles (itemRegex.matchAll xml) []).take source.maxArticles

def fetchTodayArticles (source : HttpNewsSource) :
    Async FeedCall FeedCall.Answer Thrown (List FeedArticle) := do
  let res ← Async.perform (FeedCall.fetch source.feedUrl)
  if !res.ok then .settled (.error s!"뉴스 피드 조회 실패: HTTP {res.status}")
  else do
    let xml ← Async.perform FeedCall.text
    return source.readFeed xml

end HttpNewsSource

end JobManager
