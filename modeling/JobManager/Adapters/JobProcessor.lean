import JobManager.Config.NewsDigest
import JobManager.NewsDigest.Processor

/-! The processors the scheduler can be given, and how the factory assembles them. -/
namespace JobManager

inductive JobProcessor where
  | default (decide : Job → JobProcessOutcome)
  | newsDigest (newsSource : HttpNewsSource) (builder : GeminiNewsDigestBuilder)
      (notifier : WebhookSlackNotifier) (deps : NewsDigestJobProcessorDeps)
  | dispatching (matchesJob : Job → Bool) (matched fallback : JobProcessor)
  | tracing (delegate : JobProcessor)

namespace JobProcessor

/-- `process`; a trace span changes neither the result nor what is thrown. -/
def process : JobProcessor → Job → DigestProgram JobProcessOutcome
  | default decide, job => pure (decide job)
  | newsDigest _ _ _ deps, job => NewsDigestJobProcessor.process deps job
  | dispatching matchesJob matched fallback, job =>
    if matchesJob job then matched.process job else fallback.process job
  | tracing delegate, job => delegate.process job

/-- The processor that a job is delegated to in the end. -/
def route : JobProcessor → Job → JobProcessor
  | dispatching matchesJob matched fallback, job =>
    if matchesJob job then matched.route job else fallback.route job
  | tracing delegate, job => delegate.route job
  | processor, _ => processor

def isDefault : JobProcessor → Bool
  | default _ => true
  | _ => false

def isNewsDigest : JobProcessor → Bool
  | newsDigest _ _ _ _ => true
  | _ => false

/-- Delegation ends in one processor, and the job gets what that one makes of it. -/
theorem process_route (processor : JobProcessor) (job : Job) :
    (processor.route job).process job = processor.process job := by
  induction processor with
  | default decide => rfl
  | newsDigest newsSource builder notifier deps => rfl
  | dispatching matchesJob matched fallback ihmatched ihfallback =>
    simp only [route, process]
    split
    · exact ihmatched
    · exact ihfallback
  | tracing delegate ih => exact ih

end JobProcessor

def createSchedulerJobProcessor (config : NewsDigestConfig) : JobProcessor :=
  let fallback : JobProcessor := .default fun _ => .completed
  if !config.enabled then .tracing fallback
  else
    let newsProcessor : JobProcessor := .newsDigest ⟨config.newsFeedUrl, config.maxHeadlines⟩
      ⟨config.geminiApiKey, config.geminiModel⟩ ⟨config.slackWebhookUrl⟩
      { timeoutMs := config.timeoutMs, model := config.geminiModel, logger := true }
    let dispatching : JobProcessor :=
      .dispatching (fun job => job.title = config.jobTitle) newsProcessor fallback
    .tracing dispatching

/-- Exactly the jobs with the configured title come to the news processor, if it is enabled. -/
theorem createSchedulerJobProcessor_route (config : NewsDigestConfig) (job : Job) :
    let processor := (createSchedulerJobProcessor config).route job
    (processor.isNewsDigest = true ↔ config.enabled = true ∧ job.title = config.jobTitle) ∧
      processor.isDefault = !processor.isNewsDigest := by
  unfold createSchedulerJobProcessor
  by_cases henabled : config.enabled = true
  · by_cases htitle : job.title = config.jobTitle <;>
      simp [henabled, htitle, JobProcessor.route, JobProcessor.isNewsDigest,
        JobProcessor.isDefault]
  · simp [henabled, JobProcessor.route, JobProcessor.isNewsDigest, JobProcessor.isDefault]

end JobManager
