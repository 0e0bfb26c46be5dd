import JobManager.NewsDigest.DigestMessage

/-! The processor of the news digest: fetch, build, notify, mark. -/
namespace JobManager

structure NewsDigestJobProcessorDeps where
  timeoutMs : ℕ
  model : String
  logger : Bool  -- whether there is a logger
  deriving DecidableEq, Repr

namespace NewsDigestJobProcessor

/-- The locals of `process` that its `catch` block reads. -/
structure Counts where
  articleCount : ℕ
  groupCount : ℕ
  deriving DecidableEq, Repr

/-- A part of the `try` block; what it has assigned to the counts stays when it throws. -/
abbrev TryBlock (α : Type) :=
  ExceptT Thrown (StateT Counts (Async DigestCall DigestCall.Answer Thrown)) α

/-- `await p` in the `try` block. -/
def attempt {α : Type} (p : DigestProgram α) : TryBlock α :=
  ExceptT.mk fun counts => p.attempt >>= fun result => pure (result, counts)

/-- `logger?.log(event)`. -/
def log (deps : NewsDigestJobProcessorDeps) (event : LogEvent) : DigestProgram Unit :=
  if deps.logger then Async.perform (DigestCall.log event) else pure ()

def outcomeName : JobProcessOutcome → String
  | .completed => "completed"
  | .failed => "failed"

def digestEvent (deps : NewsDigestJobProcessorDeps) (outcome : JobProcessOutcome)
    (digestDurationMs : ℤ) (counts : Counts) : LogEvent :=
  .digest ⟨.info, .scheduler, s!"news digest {outcomeName outcome}"⟩ outcome digestDurationMs
    counts.articleCount counts.groupCount deps.model

def errorEvent (job : Job) : LogEvent :=
  .error ⟨.error, .scheduler, s!"news digest failed for job {job.id}"⟩ "NEWS_DIGEST_FAILED"

def emitDigestLog (deps : NewsDigestJobProcessorDeps) (outcome : JobProcessOutcome)
    (startedAt : ℤ) (counts : Counts) : DigestProgram Unit := do
  let endedAt ← Async.perform DigestCall.dateNow
  log deps (digestEvent deps outcome (endedAt - startedAt) counts)

/-- The `try` block. -/
def deliver (deps : NewsDigestJobProcessorDeps) (job : Job) (startedAt : ℤ) :
    TryBlock JobProcessOutcome := do
  let articles ← attempt (Async.perform DigestCall.fetchTodayArticles)
  modify fun counts => { counts with articleCount := articles.length }
  if articles.length = 0 then throw "오늘의 기사가 비어 있음"
  else do
    let groups ← attempt (Async.perform (DigestCall.buildGroupedDigest articles))
    modify fun counts => { counts with groupCount := groups.length }
    if groups.length = 0 then throw "생성된 다이제스트 그룹이 없음"
    else do
      let text := formatDigestMessage job.title groups
      attempt (Async.perform (DigestCall.notify text))
      attempt (Async.perform (DigestCall.markDelivered (deriveDeliveryKey job)))
      let counts ← get
      attempt (emitDigestLog deps .completed startedAt counts)
      pure .completed

/-- The `catch` block; it does not look at what was thrown. -/
def fail (deps : NewsDigestJobProcessorDeps) (job : Job) (startedAt : ℤ) (counts : Counts) :
    DigestProgram JobProcessOutcome := do
  emitDigestLog deps .failed startedAt counts
  log deps (errorEvent job)
  pure .failed

def process (deps : NewsDigestJobProcessorDeps) (job : Job) : DigestProgram JobProcessOutcome := do
  let key := deriveDeliveryKey job
  let delivered ← Async.perform (DigestCall.wasDelivered key)
  if delivered then pure .completed
  else do
    let startedAt ← Async.perform DigestCall.dateNow
    Async.perform (DigestCall.setTimeout deps.timeoutMs)
    Async.tryFinally (do
        let (result, counts) ← (deliver deps job startedAt).run.run ⟨0, 0⟩
        match result with
        | .ok outcome => pure outcome
        | .error _ => fail deps job startedAt counts)
      (Async.perform DigestCall.clearTimeout)

end NewsDigestJobProcessor

end JobManager
