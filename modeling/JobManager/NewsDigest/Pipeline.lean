import JobManager.Async.EventLoop
import JobManager.NewsDigest.Coercion
import JobManager.NewsDigest.HttpNewsSource
import JobManager.NewsDigest.Phases
import JobManager.NewsDigest.WebhookSlackNotifier

/-! The news processor on its own collaborators, from the feed over the model to the message. -/
namespace JobManager

open Async

/-- What the collaborators ask of the network, and what the processor asks of the rest. -/
inductive PipelineCall where
  | feed (c : FeedCall)
  | gemini (c : GeminiCall)
  | slack (c : SlackCall)
  | own (c : DigestCall)
  deriving DecidableEq, Repr

abbrev PipelineCall.Answer (N : Type) : PipelineCall → Type
  | feed c => c.Answer
  | gemini c => c.Answer N
  | slack c => c.Answer
  | own c => c.Answer

abbrev PipelineEvent (N : Type) := Event (PipelineCall.Answer N) Thrown

/-- The collaborators over the network. `parse` is `JSON.parse`, and `ofUnits` makes a string of
code units. -/
structure NewsPipeline (N : Type) where
  newsSource : HttpNewsSource
  builder : GeminiNewsDigestBuilder
  notifier : WebhookSlackNotifier
  parse : String → Except Thrown (Json N)
  ofUnits : List UInt16 → String

namespace NewsPipeline

variable {N : Type} [NumberToString N] (pipeline : NewsPipeline N)

omit [NumberToString N] in
def article (item : FeedArticle) : NewsArticle :=
  ⟨pipeline.ofUnits item.title, pipeline.ofUnits item.snippet, pipeline.ofUnits item.link⟩

/-- What is behind the calls of the processor. -/
def collaborate : (c : DigestCall) → Async PipelineCall (PipelineCall.Answer N) Thrown c.Answer
  | .fetchTodayArticles => do
    let items ← expand (fun c => perform (PipelineCall.feed c))
      pipeline.newsSource.fetchTodayArticles
    return items.map pipeline.article
  | .buildGroupedDigest articles => expand (fun c => perform (PipelineCall.gemini c))
      (pipeline.builder.buildGroupedDigest pipeline.parse articles)
  | .notify text => expand (fun c => perform (PipelineCall.slack c)) (pipeline.notifier.notify text)
  | .wasDelivered key => perform (PipelineCall.own (.wasDelivered key))
  | .markDelivered key => perform (PipelineCall.own (.markDelivered key))
  | .log event => perform (PipelineCall.own (.log event))
  | .dateNow => perform (PipelineCall.own .dateNow)
  | .setTimeout timeoutMs => perform (PipelineCall.own (.setTimeout timeoutMs))
  | .clearTimeout => perform (PipelineCall.own .clearTimeout)

/-- The articles have been read from the feed. -/
def Fetched (h : List (PipelineEvent N)) (articles : List NewsArticle) : Prop :=
  ∃ (res : FetchResponse) (xml : List UInt16),
    ⟨.feed (.fetch pipeline.newsSource.feedUrl), .ok res⟩ ∈ h ∧ res.ok = true ∧
    ⟨.feed .text, .ok xml⟩ ∈ h ∧
    articles = (pipeline.newsSource.readFeed xml).map pipeline.article

/-- The groups have been read from what the model has answered about the articles. -/
def Built (h : List (PipelineEvent N)) (articles : List NewsArticle) (groups : List DigestGroup) :
    Prop :=
  ∃ (res : FetchResponse) (body : Json N),
    ⟨.gemini (pipeline.builder.request articles), .ok res⟩ ∈ h ∧ res.ok = true ∧
    ⟨.gemini .json, .ok body⟩ ∈ h ∧
    GeminiNewsDigestBuilder.readGroups pipeline.parse body = .ok groups

/-- Slack has accepted the message. -/
def Posted (h : List (PipelineEvent N)) (text : String) : Prop :=
  ∃ res : FetchResponse, ⟨.slack (.fetch pipeline.notifier.webhookUrl
    (WebhookSlackNotifier.requestInit text)), .ok res⟩ ∈ h ∧ res.ok = true

/-- What is sent, and to whom. -/
def Sends (job : Job) (h : List (PipelineEvent N)) : PipelineCall → Prop
  | .feed (.fetch url) => url = pipeline.newsSource.feedUrl
  | .gemini (.fetch url init) => ∃ articles, .fetch url init = pipeline.builder.request articles
  | .slack (.fetch url init) => url = pipeline.notifier.webhookUrl ∧
    ⟨.own (.wasDelivered job.id), .ok false⟩ ∈ h ∧
    ∃ articles groups, pipeline.Fetched h articles ∧ articles ≠ [] ∧
      pipeline.Built h articles groups ∧ groups ≠ [] ∧
      init = WebhookSlackNotifier.requestInit (formatDigestMessage job.title groups)
  | .feed .text | .gemini .json | .own _ => True

/-- The history of the calls of the processor, beside that of the calls over the network. -/
structure Mirrors (h : List DigestEvent) (h' : List (PipelineEvent N)) : Prop where
  fetched : ∀ articles, ⟨.fetchTodayArticles, .ok articles⟩ ∈ h → pipeline.Fetched h' articles
  built : ∀ articles groups, ⟨.buildGroupedDigest articles, .ok groups⟩ ∈ h →
    pipeline.Built h' articles groups
  posted : ∀ text, ⟨.notify text, .ok ()⟩ ∈ h → pipeline.Posted h' text
  asked : ∀ key x, ⟨.wasDelivered key, x⟩ ∈ h → ⟨.own (.wasDelivered key), x⟩ ∈ h'

section

variable {pipeline : NewsPipeline N} {h : List DigestEvent} {h' h'' : List (PipelineEvent N)}
  {job : Job}

omit [NumberToString N] in
theorem Fetched.mono {articles : List NewsArticle} (hf : pipeline.Fetched h' articles)
    (hsub : h' ⊆ h'') : pipeline.Fetched h'' articles := by
  obtain ⟨res, xml, hres, hok, hxml, harticles⟩ := hf
  exact ⟨res, xml, hsub hres, hok, hsub hxml, harticles⟩

theorem Built.mono {articles : List NewsArticle} {groups : List DigestGroup}
    (hb : pipeline.Built h' articles groups) (hsub : h' ⊆ h'') :
    pipeline.Built h'' articles groups := by
  obtain ⟨res, body, hres, hok, hbody, hgroups⟩ := hb
  exact ⟨res, body, hsub hres, hok, hsub hbody, hgroups⟩

omit [NumberToString N] in
theorem Posted.mono {text : String} (hp : pipeline.Posted h' text) (hsub : h' ⊆ h'') :
    pipeline.Posted h'' text := by
  obtain ⟨res, hres, hok⟩ := hp
  exact ⟨res, hsub hres, hok⟩

/-- A call of the processor has come to an answer, and what that means has happened below. -/
theorem Mirrors.snoc (hm : pipeline.Mirrors h h') (hsub : h' ⊆ h'') {event : DigestEvent}
    (hfetched : ∀ articles, event = ⟨.fetchTodayArticles, .ok articles⟩ →
      pipeline.Fetched h'' articles)
    (hbuilt : ∀ articles groups, event = ⟨.buildGroupedDigest articles, .ok groups⟩ →
      pipeline.Built h'' articles groups)
    (hposted : ∀ text, event = ⟨.notify text, .ok ()⟩ → pipeline.Posted h'' text)
    (hasked : ∀ key x, event = ⟨.wasDelivered key, x⟩ → ⟨.own (.wasDelivered key), x⟩ ∈ h'') :
    pipeline.Mirrors (h ++ [event]) h'' where
  fetched articles hmem := by
    rcases List.mem_append.mp hmem with hmem | hmem
    · exact (hm.fetched articles hmem).mono hsub
    · exact hfetched articles (List.mem_singleton.mp hmem).symm
  built articles groups hmem := by
    rcases List.mem_append.mp hmem with hmem | hmem
    · exact (hm.built articles groups hmem).mono hsub
    · exact hbuilt articles groups (List.mem_singleton.mp hmem).symm
  posted text hmem := by
    rcases List.mem_append.mp hmem with hmem | hmem
    · exact (hm.posted text hmem).mono hsub
    · exact hposted text (List.mem_singleton.mp hmem).symm
  asked key x hmem := by
    rcases List.mem_append.mp hmem with hmem | hmem
    · exact hsub (hm.asked key x hmem)
    · exact hasked key x (List.mem_singleton.mp hmem).symm

theorem Mirrors.fails (hm : pipeline.Mirrors h h') (hsub : h' ⊆ h'') {c : DigestCall}
    (hc : ∀ key, c ≠ .wasDelivered key) (e : Thrown) :
    pipeline.Mirrors (h ++ [⟨c, .error e⟩]) h'' := by
  refine hm.snoc hsub (fun articles heq => ?_) (fun articles groups heq => ?_)
    (fun text heq => ?_) fun key x heq => absurd (congrArg Event.call heq) (hc key)
  · cases heq
  · cases heq
  · cases heq

theorem fetch_sends (hm : pipeline.Mirrors h h') :
    Conforms (pipeline.Sends job)
      (fun x h'' => pipeline.Mirrors (h ++ [⟨.fetchTodayArticles, x⟩]) h'')
      (pipeline.collaborate .fetchTodayArticles) h' := by
  refine ⟨rfl, fun x => ?_⟩
  rcases x with e | ⟨ok, status⟩
  · exact hm.fails (List.subset_append_left _ _) (by simp) e
  · cases ok with
    | false => exact hm.fails (List.subset_append_left _ _) (by simp) _
    | true =>
      refine ⟨trivial, fun x => ?_⟩
      have hsub : h' ⊆ h' ++ [⟨.feed (.fetch pipeline.newsSource.feedUrl), .ok ⟨true, status⟩⟩] ++
          [⟨.feed .text, x⟩] := fun _ hmem => by simp [hmem]
      cases x with
      | error e => exact hm.fails hsub (by simp) e
      | ok xml =>
        refine hm.snoc hsub (fun articles heq => ?_) (by simp) (by simp) (by simp)
        cases heq
        exact ⟨⟨true, status⟩, xml, by simp, rfl, by simp, rfl⟩

theorem build_sends (hm : pipeline.Mirrors h h') (articles : List NewsArticle) :
    Conforms (pipeline.Sends job)
      (fun x h'' => pipeline.Mirrors (h ++ [⟨.buildGroupedDigest articles, x⟩]) h'')
      (pipeline.collaborate (.buildGroupedDigest articles)) h' := by
  refine ⟨⟨articles, rfl⟩, fun x => ?_⟩
  rcases x with e | ⟨ok, status⟩
  · exact hm.fails (List.subset_append_left _ _) (by simp) e
  · cases ok with
    | false => exact hm.fails (List.subset_append_left _ _) (by simp) _
    | true =>
      refine ⟨trivial, fun x => ?_⟩
      have hsub : h' ⊆ h' ++ [⟨.gemini (pipeline.builder.request articles), .ok ⟨true, status⟩⟩] ++
          [⟨.gemini .json, x⟩] := fun _ hmem => by simp [hmem]
      cases x with
      | error e => exact hm.fails hsub (by simp) e
      | ok body =>
        change pipeline.Mirrors (h ++ [⟨.buildGroupedDigest articles,
          GeminiNewsDigestBuilder.readGroups pipeline.parse body⟩]) _
        cases hread : GeminiNewsDigestBuilder.readGroups pipeline.parse body with
        | error e => exact hm.fails hsub (by simp) e
        | ok groups =>
          refine hm.snoc hsub (by simp) (fun articles' groups' heq => ?_) (by simp) (by simp)
          cases heq
          exact ⟨⟨true, status⟩, body, by simp, rfl, by simp, hread⟩

theorem notify_sends (hm : pipeline.Mirrors h h') {text : String}
    (hsends : pipeline.Sends job h' (.slack (.fetch pipeline.notifier.webhookUrl
      (WebhookSlackNotifier.requestInit text)))) :
    Conforms (pipeline.Sends job) (fun x h'' => pipeline.Mirrors (h ++ [⟨.notify text, x⟩]) h'')
      (pipeline.collaborate (.notify text)) h' := by
  refine ⟨hsends, fun x => ?_⟩
  rcases x with e | ⟨ok, status⟩
  · exact hm.fails (List.subset_append_left _ _) (by simp) e
  · cases ok with
    | false => exact hm.fails (List.subset_append_left _ _) (by simp) _
    | true =>
      refine hm.snoc (List.subset_append_left _ _) (by simp) (by simp) (fun text' heq => ?_)
        (by simp)
      cases heq
      exact ⟨⟨true, status⟩, by simp, rfl⟩

/-- The other calls are passed on. -/
theorem own_sends (hm : pipeline.Mirrors h h') {c : DigestCall}
    (hcall : pipeline.collaborate c = perform (PipelineCall.own c)) :
    Conforms (pipeline.Sends job) (fun x h'' => pipeline.Mirrors (h ++ [⟨c, x⟩]) h'')
      (pipeline.collaborate c) h' := by
  rw [hcall]
  refine ⟨trivial, fun x => hm.snoc (List.subset_append_left _ _) (fun articles heq => ?_)
    (fun articles groups heq => ?_) (fun text heq => ?_) fun key y heq => ?_⟩
  · cases heq
    cases hcall
  · cases heq
    cases hcall
  · cases heq
    cases hcall
  · cases heq
    exact List.mem_append_right _ (List.mem_singleton_self _)

end

/-- Each call of the processor, with what is behind it. -/
theorem collaborate_sends {job : Job} {h : List DigestEvent} {h' : List (PipelineEvent N)}
    (hm : pipeline.Mirrors h h') {c : DigestCall} (hc : WorkCall .idle job h c) :
    Conforms (pipeline.Sends job) (fun x h'' => pipeline.Mirrors (h ++ [⟨c, x⟩]) h'')
      (pipeline.collaborate c) h' := by
  cases c with
  | fetchTodayArticles => exact fetch_sends hm
  | buildGroupedDigest articles => exact build_sends hm articles
  | notify text =>
    obtain ⟨articles, groups, harticles, hgroups, rfl, hfetched, hbuilt⟩ := hc.2 text rfl
    exact notify_sends hm ⟨rfl, hm.asked _ _ ((phaseFrom_idle h).1 _ hc.1), articles, groups,
      hm.fetched articles hfetched, harticles, hm.built articles groups hbuilt, hgroups, rfl⟩
  | wasDelivered _ | markDelivered _ | log _ | dateNow | setTimeout _ | clearTimeout =>
    exact own_sends hm rfl

/-- From the feed to the message: whatever the network, the ledger and the logger answer, the model
is only asked about articles, and a message is posted only if the ledger knows of none; it is the
digest of the groups that the model has given for the articles of the feed. A run that completes has
had its message accepted, or has been told by the ledger that there has been one. -/
theorem digest_pipeline (deps : NewsDigestJobProcessorDeps) (job : Job) :
    Conforms (pipeline.Sends job)
      (fun r h => r = .ok .completed → ⟨.own (.wasDelivered job.id), .ok true⟩ ∈ h ∨
        ∃ text, pipeline.Posted h text)
      (expand pipeline.collaborate (NewsDigestJobProcessor.process deps job)) [] := by
  refine (Conforms.expand pipeline.Mirrors (fun _ _ _ hm hc => collaborate_sends pipeline hm hc)
    (NewsDigestJobProcessor.process_sends deps job) ⟨by simp, by simp, by simp, by simp⟩).mono
    (fun _ _ hc => hc) ?_
  rintro r h' ⟨h, hm, hends⟩ hr
  rcases hends hr with hknown | ⟨text, hnotified⟩
  · exact .inl (hm.asked _ _ hknown)
  · exact .inr ⟨text, hm.posted text hnotified⟩

/-- A feed of one article, a model that makes one group, and a webhook that keeps what is posted. -/
example :
    let pipeline : NewsPipeline ℕ := {
      newsSource := ⟨"feed", 1⟩
      builder := ⟨"key", "model"⟩
      notifier := ⟨"webhook"⟩
      parse := fun _ => .ok (.array [.object [("topic", .string "topic")]])
      ofUnits := fun us => String.ofList (us.map Text.unitChar) }
    let act : (c : PipelineCall) → List String → Except Thrown (c.Answer ℕ) × List String
      | .feed (.fetch _), posted | .gemini (.fetch _ _), posted => (.ok ⟨true, 200⟩, posted)
      | .feed .text, posted => (.ok (Text.units "<item><title>title</title></item>"), posted)
      | .gemini .json, posted => (.ok (.object [("candidates", .array [.object [("content",
          .object [("parts", .array [.object [("text", .string "[]")]])])]])]), posted)
      | .slack (.fetch _ init), posted => (.ok ⟨true, 200⟩, posted ++ [init.body])
      | .own (.wasDelivered _), posted => (.ok false, posted)
      | .own .dateNow, posted => (.ok 0, posted)
      | .own .fetchTodayArticles, posted => (.ok [], posted)
      | .own (.buildGroupedDigest _), posted => (.ok [], posted)
      | .own (.markDelivered _), posted | .own (.log _), posted | .own (.setTimeout _), posted
      | .own .clearTimeout, posted | .own (.notify _), posted => (.ok (), posted)
    let run := expand pipeline.collaborate (NewsDigestJobProcessor.process
      ⟨1000, "model", true⟩ ⟨"1", "title", "", .processing, 0, "t", "t"⟩)
    let message := formatDigestMessage "title" [⟨"topic", "", []⟩]
    eval act run [] = (.ok .completed, [(WebhookSlackNotifier.requestInit message).body]) := by
  rfl

end NewsPipeline

end JobManager
