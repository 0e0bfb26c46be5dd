import JobManager.Application.Ports

/-! The use cases behind the HTTP routes and the scheduler. -/
namespace JobManager

inductive CreateJobResult where
  | ok (job : Job)
  | unsupportedJobType (title : String) (supported : List String)
  deriving DecidableEq, Repr

def CreateJobUseCase.execute (supportedJobTypes : SupportedJobTypes) (input : CreateJobData) :
    Program CreateJobResult :=
  if !supportedJobTypes.isSupported input.title then
    pure (.unsupportedJobType input.title supportedJobTypes.titles)
  else do
    let job ← repository (.create input)
    pure (.ok job)

/-- `none` is the answer NOT_FOUND. -/
def GetJobUseCase.execute (id : String) : Program (Option Job) := repository (.findById id)

def GetJobsUseCase.execute : Program (List Job) := repository .list

def SearchJobsUseCase.execute (query : JobSearchQuery) : Program (List Job) :=
  repository (.search query)

/-- The DTO lets only `'pending'` through as a `status`. -/
structure PatchJobInput where
  id : String
  title : Option String
  description : Option String
  status : Option JobStatus
  deriving DecidableEq, Repr

namespace PatchJobUseCase

def statusName : JobStatus → String
  | .pending => "pending"
  | .processing => "processing"
  | .completed => "completed"
  | .failed => "failed"

def emitTransitionEvent (fromStatus : JobStatus) (job : Job) : Program Unit :=
  (log (.transition ⟨.info, .http, s!"transition committed: {statusName fromStatus} -> " ++
    statusName job.status⟩ job.id fromStatus job.status .api)).tryCatch fun _ => pure ()

def execute (input : PatchJobInput) : Program TransitionResult := do
  let patch : JobPatch := ⟨input.title, input.description⟩
  let current ← repository (.findById input.id)
  match current with
  | none => pure (.refused .notFound)
  | some current => do
    let target := if input.status = some .pending then .pending else current.status
    let result ← repository (.withTransition input.id target (some patch))
    match result with
    | .ok job true previousStatus => do
      emitTransitionEvent previousStatus job
      pure result
    | _ => pure result

end PatchJobUseCase

namespace DeleteJobUseCase

def emitDeleteEvent (id : String) : Program Unit :=
  (log (.delete ⟨.info, .http, s!"job deleted id={id}"⟩ id)).tryCatch fun _ => pure ()

def execute (id : String) : Program DeleteResult := do
  let result ← repository (.delete id)
  match result with
  | .ok => do
    emitDeleteEvent id
    pure result
  | _ => pure result

end DeleteJobUseCase

def schedulerBatchSize : ℤ := 10

structure ProcessPendingJobsResult where
  batchSize : ℕ
  succeeded : ℕ
  failed : ℕ
  deriving DecidableEq, Repr

namespace ProcessPendingJobsUseCase

/-- One call of the processor; whatever it throws counts as a failed outcome. -/
def processJob (job : Job) : Program JobProcessOutcome :=
  (process job).tryCatch fun _ => do
    log (.error ⟨.error, .scheduler, s!"job processor threw for job {job.id}"⟩
      "JOB_PROCESSOR_THREW")
    pure .failed

/-- The loop over the claimed jobs, with the two id lists it fills. -/
def processJobs : List Job → List String → List String → Program (List String × List String)
  | [], succeededIds, failedIds => pure (succeededIds, failedIds)
  | job :: jobs, succeededIds, failedIds => do
    let outcome ← processJob job
    match outcome with
    | .completed => processJobs jobs (succeededIds ++ [job.id]) failedIds
    | .failed => processJobs jobs succeededIds (failedIds ++ [job.id])

def commit (ids : List String) (target : JobStatus) : Program (List Job) :=
  if 0 < ids.length then do
    let result ← repository (.withBatch ids target)
    pure result.committed
  else pure []

def emitTransitionEvents : List Job → JobStatus → Program Unit
  | [], _ => pure ()
  | job :: jobs, target => do
    log (.transition ⟨.info, .scheduler, "transition committed"⟩ job.id .processing target
      .scheduler)
    emitTransitionEvents jobs target

def logBatch (message : String) (result : ProcessPendingJobsResult) : Program Unit :=
  log (.batch ⟨.info, .scheduler, message⟩ result.batchSize result.succeeded result.failed)

def execute : Program ProcessPendingJobsResult := do
  let candidates ← repository (.listByStatus .pending schedulerBatchSize)
  if candidates.length = 0 then do
    let result : ProcessPendingJobsResult := ⟨0, 0, 0⟩
    logBatch "batch skipped: no pending jobs" result
    pure result
  else do
    let claimed ← repository (.withBatch (candidates.map Job.id) .processing)
    let (succeededIds, failedIds) ← processJobs claimed.committed [] []
    let completed ← commit succeededIds .completed
    let failed ← commit failedIds .failed
    emitTransitionEvents completed .completed
    emitTransitionEvents failed .failed
    let result : ProcessPendingJobsResult :=
      ⟨claimed.committed.length, completed.length, failed.length⟩
    logBatch "tick completed" result
    pure result

end ProcessPendingJobsUseCase

end JobManager
