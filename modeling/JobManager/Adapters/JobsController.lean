import JobManager.Adapters.HttpExceptionFilter
import JobManager.Adapters.JobResponse
import JobManager.Adapters.PatchJobDto

/-! The controller behind the HTTP routes, with the validation of what it is given. -/
namespace JobManager.Http

open Async

/-- A part of the work on a request, which may throw. -/
abbrev Handler (α : Type) := ExceptT Exception (Async Effect Effect.Answer Thrown) α

/-- `await p`; what a use case rejects with is an `Error`. -/
def await {α : Type} (p : Program α) : Handler α :=
  ExceptT.mk (p.attempt >>= fun x => pure (x.mapError Exception.error))

def ApiException (status : ℚ) (code message : String) (details : Option (List ApiErrorDetail)) :
    Exception := .api status ⟨code, message, details⟩

/-- What `ValidationPipe` throws. -/
def BadRequestException (messages : List String) : Exception :=
  .http 400 "Bad Request Exception" (.object [("message", .array (messages.map .string)),
    ("error", .string "Bad Request"), ("statusCode", .number ⟨"400"⟩)])

/-- The failures that class-validator lists of an object. -/
class ValidationMessages where
  messages : Dto ℚ → List (String × Json ℚ) → List String

def createJobDto : Dto ℚ where
  properties := [⟨"title", false, [.isString, .length 1 200]⟩,
    ⟨"description", true, [.isString, .length 0 2000]⟩]
  classValidator _ := .ok ()

def jobStatusValues : List JobStatus := [.pending, .processing, .completed, .failed]

def searchQueryDto : Dto ℚ where
  properties := [⟨"title", true, [.isString, .length 1 200]⟩,
    ⟨"status", true, [.isIn (jobStatusValues.map PatchJobUseCase.statusName)]⟩]
  classValidator := AtLeastOneField ["title", "status"]
    (some "title 또는 status 중 최소 1개는 필요합니다.")

def ValidationPipe.transform [ClassValidator ℚ] [ValidationMessages] (dto : Dto ℚ)
    (fields : List (String × Json ℚ)) : Handler (Json ℚ) :=
  if ValidationPipe.accepts dto fields then pure (.object fields)
  else throw (BadRequestException (ValidationMessages.messages dto fields))

def notFoundMessage (id : String) : String := s!"id={id} 인 작업을 찾을 수 없습니다."

def toTransitionFailureException (id : String) : TransitionFailureReason → Exception
  | .notFound => ApiException 404 "NOT_FOUND" (notFoundMessage id) none
  | .retryLimitExceeded => ApiException 409 "RETRY_LIMIT_EXCEEDED"
      "재시도 상한(3회)을 초과해 더 이상 재시도할 수 없습니다."
      (some [⟨some "status", "retryCount가 상한에 도달했습니다."⟩])
  | .invalidTransition => ApiException 409 "INVALID_TRANSITION"
      "현재 상태에서 허용되지 않는 전이입니다."
      (some [⟨some "status", "허용된 전이: failed → pending"⟩])

def toDeleteFailureException (id : String) : DeleteFailureReason → Exception
  | .notFound => ApiException 404 "NOT_FOUND" (notFoundMessage id) none
  | .forbiddenProcessing => ApiException 409 "JOB_IN_PROGRESS"
      "처리 중인 작업은 삭제할 수 없습니다."
      (some [⟨some "status", "processing 상태의 작업은 삭제가 금지됩니다."⟩])

def unsupportedJobType (title : String) (supported : List String) : Exception :=
  ApiException 400 "UNSUPPORTED_JOB_TYPE" ("구현되지 않은 작업 유형입니다: \"" ++ title ++ "\".")
    (some [⟨some "title", if 0 < supported.length then
      "현재 구현된 작업 유형: " ++ String.intercalate ", " supported
    else "현재 구현된 작업 유형이 없습니다."⟩])

/-- What `create` hands over to the use case: a validated title is a string. -/
def createInput (dto : Json ℚ) : CreateJobData :=
  ⟨(JobsController.fieldText (dto.property "title")).getD "",
    (JobsController.fieldText (dto.property "description")).getD ""⟩

def searchInput (query : Json ℚ) : JobSearchQuery :=
  ⟨JobsController.fieldText (query.property "title"),
    (JobsController.fieldText (query.property "status")).bind fun name =>
      jobStatusValues.find? fun status => PatchJobUseCase.statusName status = name⟩

inductive ResponseBody where
  | job (job : JobResponse)
  | jobs (items : List JobResponse) (count : ℕ)
  | empty
  | error (body : ApiErrorBody)
  deriving DecidableEq, Repr

def jobList (jobs : List Job) : ResponseBody := .jobs (jobs.map toJobResponse) jobs.length

namespace JobsController

def create (supportedJobTypes : SupportedJobTypes) (dto : Json ℚ) : Handler ResponseBody := do
  let result ← await (CreateJobUseCase.execute supportedJobTypes (createInput dto))
  match result with
  | .unsupportedJobType title supported => throw (unsupportedJobType title supported)
  | .ok job => pure (.job (toJobResponse job))

def list : Handler ResponseBody := do
  let jobs ← await GetJobsUseCase.execute
  pure (jobList jobs)

def search (query : Json ℚ) : Handler ResponseBody := do
  let jobs ← await (SearchJobsUseCase.execute (searchInput query))
  pure (jobList jobs)

def getById (id : String) : Handler ResponseBody := do
  let result ← await (GetJobUseCase.execute id)
  match result with
  | none => throw (toTransitionFailureException id .notFound)
  | some job => pure (.job (toJobResponse job))

def patch (id : String) (dto : Json ℚ) : Handler ResponseBody := do
  let result ← await (PatchJobUseCase.execute (JobManager.JobsController.patchInput id dto))
  match result with
  | .refused reason => throw (toTransitionFailureException id reason)
  | .ok job _ _ => pure (.job (toJobResponse job))

def remove (id : String) : Handler ResponseBody := do
  let result ← await (DeleteJobUseCase.execute id)
  match result with
  | .refused reason => throw (toDeleteFailureException id reason)
  | .ok => pure .empty

end JobsController

/-- The six routes, each with what its parameters take from the request. -/
inductive HttpRequest where
  | create (body : List (String × Json ℚ))
  | list
  | search (query : List (String × Json ℚ))
  | getById (id : String)
  | patch (id : String) (body : List (String × Json ℚ))
  | remove (id : String)

namespace HttpRequest

def method : HttpRequest → String
  | create _ => "POST"
  | list | search _ | getById _ => "GET"
  | patch _ _ => "PATCH"
  | remove _ => "DELETE"

/-- The status that is set before the handler runs. -/
def statusCode : HttpRequest → ℚ
  | create _ => 201
  | list | search _ | getById _ | patch _ _ => 200
  | remove _ => 204

/-- The DTO class of the route, with the object it is to validate. -/
def validates : HttpRequest → Option (Dto ℚ × List (String × Json ℚ))
  | create body => some (createJobDto, body)
  | search query => some (searchQueryDto, query)
  | patch _ body => some (patchJobDto, body)
  | list | getById _ | remove _ => none

/-- The pipe and the controller. -/
def handler [ClassValidator ℚ] [ValidationMessages] (supportedJobTypes : SupportedJobTypes) :
    HttpRequest → Handler ResponseBody
  | create body => do
    let dto ← ValidationPipe.transform createJobDto body
    JobsController.create supportedJobTypes dto
  | list => JobsController.list
  | search query => do
    let query ← ValidationPipe.transform searchQueryDto query
    JobsController.search query
  | getById id => JobsController.getById id
  | patch id body => do
    let dto ← ValidationPipe.transform patchJobDto body
    JobsController.patch id dto
  | remove id => JobsController.remove id

end HttpRequest

end JobManager.Http
