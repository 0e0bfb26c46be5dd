import Mathlib.Data.Rat.Defs
import JobManager.Async.Basic
import JobManager.Persistence.Port

/-! The ports of the use cases: what they call, and what comes back. -/
namespace JobManager

inductive LogLevel where
  | info | error
  deriving DecidableEq, Repr

inductive LogSource where
  | http | scheduler
  deriving DecidableEq, Repr

structure BaseLogEvent where
  level : LogLevel
  source : LogSource
  message : String
  deriving DecidableEq, Repr

inductive TickPhase where
  | start | ended | skipped  -- `ended` is the source's 'end'
  deriving DecidableEq, Repr

inductive Actor where
  | api | scheduler
  deriving DecidableEq, Repr

inductive JobProcessOutcome where
  | completed | failed
  deriving DecidableEq, Repr

/-- One structured log line; the numbers are finite. -/
inductive LogEvent where
  | httpRequest (base : BaseLogEvent) (method path : String) (statusCode latencyMs : ℚ)
      (errorCode : Option String)
  | tick (base : BaseLogEvent) (tickId : String) (phase : TickPhase) (durationMs : Option ℚ)
  | batch (base : BaseLogEvent) (batchSize succeeded failed : ℚ)
  | transition (base : BaseLogEvent) (jobId : String) (fromStatus toStatus : JobStatus)
      (actor : Actor)
  | lock (base : BaseLogEvent) (jobId : String) (waitMs holdMs : ℚ)
  | error (base : BaseLogEvent) (errorCode : String)
  | delete (base : BaseLogEvent) (jobId : String)
  | digest (base : BaseLogEvent) (outcome : JobProcessOutcome) (digestDurationMs articleCount
      groupCount : ℚ) (model : String)
  deriving DecidableEq, Repr

/-- `SupportedJobTypes`. -/
structure SupportedJobTypes where
  isSupported : String → Bool
  titles : List String

/-- A thrown value; nothing in the use cases looks into it. -/
abbrev Thrown := String

/-- What a use case or the scheduler asks of the world around it. The two tick flags are the
synchronous code on `isTickRunning`: `beginTick` answers whether to skip. -/
inductive Effect where
  | repository (op : RepoOp)
  | process (job : Job)
  | log (event : LogEvent)
  | beginTick (skipGuardEnabled : Bool)
  | endTick
  | randomUUID
  | dateNow
  deriving DecidableEq, Repr

abbrev Effect.Answer : Effect → Type
  | .repository op => op.Result
  | .process _ => JobProcessOutcome
  | .log _ | .endTick => Unit
  | .beginTick _ => Bool
  | .randomUUID => String
  | .dateNow => ℤ

abbrev Program (α : Type) := Async Effect Effect.Answer Thrown α

/-- One awaited call of `JobRepository`. -/
def repository (op : RepoOp) : Program op.Result := Async.perform (Effect.repository op)

/-- `JobProcessor.process`. -/
def process (job : Job) : Program JobProcessOutcome := Async.perform (Effect.process job)

/-- `LoggerPort.log`. -/
def log (event : LogEvent) : Program Unit := Async.perform (Effect.log event)

end JobManager
