import JobManager.Domain.Job

/-! The repository port: its operations, their inputs and what they answer. -/
namespace JobManager

structure JobSearchQuery where
  title : Option String
  status : Option JobStatus
  deriving DecidableEq, Repr

structure CreateJobData where
  title : String
  description : String
  deriving DecidableEq, Repr

structure JobPatch where
  title : Option String
  description : Option String
  deriving DecidableEq, Repr

inductive TransitionFailureReason where
  | notFound | invalidTransition | retryLimitExceeded
  deriving DecidableEq, Repr

inductive TransitionResult where
  | ok (job : Job) (transitioned : Bool) (previousStatus : JobStatus)
  | refused (reason : TransitionFailureReason)
  deriving DecidableEq, Repr

structure BatchRejection where
  id : String
  reason : TransitionFailureReason
  deriving DecidableEq, Repr

structure BatchResult where
  committed : List Job
  rejected : List BatchRejection
  deriving DecidableEq, Repr

inductive DeleteFailureReason where
  | notFound | forbiddenProcessing
  deriving DecidableEq, Repr

inductive DeleteResult where
  | ok
  | refused (reason : DeleteFailureReason)
  deriving DecidableEq, Repr

def TransitionError.toReason : TransitionError → TransitionFailureReason
  | .invalidTransition => .invalidTransition
  | .retryLimitExceeded => .retryLimitExceeded

def DeleteError.toReason : DeleteError → DeleteFailureReason
  | .forbiddenProcessing => .forbiddenProcessing

/-- One call of `JobRepository`. -/
inductive RepoOp where
  | findById (id : String)
  | list
  | search (query : JobSearchQuery)
  | create (data : CreateJobData)
  | listByStatus (status : JobStatus) (limit : ℤ)
  | withTransition (id : String) (target : JobStatus) (patch : Option JobPatch)
  | withBatch (ids : List String) (target : JobStatus)
  | delete (id : String)
  deriving DecidableEq, Repr

abbrev RepoOp.Result : RepoOp → Type
  | .findById _ => Option Job
  | .list | .search _ | .listByStatus _ _ => List Job
  | .create _ => Job
  | .withTransition _ _ _ => TransitionResult
  | .withBatch _ _ => BatchResult
  | .delete _ => DeleteResult

end JobManager
