import JobManager.Application.Ports

/-! The collaborators of the news digest processor. -/
namespace JobManager

structure NewsArticle where
  title : String
  snippet : String
  link : String
  deriving DecidableEq, Repr

structure DigestGroup where
  topic : String
  summary : String
  headlines : List String
  deriving DecidableEq, Repr

/-- What the implementations of the three network collaborators are constructed with. -/
structure HttpNewsSource where
  feedUrl : String
  maxArticles : ℕ
  deriving DecidableEq, Repr

structure GeminiNewsDigestBuilder where
  apiKey : String
  model : String
  deriving DecidableEq, Repr

structure WebhookSlackNotifier where
  webhookUrl : String
  deriving DecidableEq, Repr

/-- What the network answers to a request, its body apart. -/
structure FetchResponse where
  ok : Bool
  status : ℕ
  deriving DecidableEq, Repr

def deriveDeliveryKey (job : Job) : String := job.id

/-- What the processor asks of its collaborators, of its logger and of the runtime. The three calls
over the network share one abort signal; an abort is a rejection like any other. -/
inductive DigestCall where
  | wasDelivered (key : String)
  | markDelivered (key : String)
  | fetchTodayArticles
  | buildGroupedDigest (articles : List NewsArticle)
  | notify (text : String)
  | log (event : LogEvent)
  | dateNow
  | setTimeout (timeoutMs : ℕ)
  | clearTimeout
  deriving DecidableEq, Repr

abbrev DigestCall.Answer : DigestCall → Type
  | .wasDelivered _ => Bool
  | .fetchTodayArticles => List NewsArticle
  | .buildGroupedDigest _ => List DigestGroup
  | .dateNow => ℤ
  | .markDelivered _ | .notify _ | .log _ | .setTimeout _ | .clearTimeout => Unit

abbrev DigestProgram (α : Type) := Async DigestCall DigestCall.Answer Thrown α

end JobManager
