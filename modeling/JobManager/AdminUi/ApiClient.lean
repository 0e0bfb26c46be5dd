import JobManager.Adapters.LoggingInterceptor
import JobManager.AdminUi.UseJobs

/-! The client of the admin page: the requests it sends, and how it reads the answers. -/
namespace JobManager

open Text Http

/-- An `ApiError`; a body without a code leaves it `undefined`. -/
structure ApiError where
  status : ℚ
  code : Option String
  message : String
  details : Option (List ApiErrorDetail)
  deriving DecidableEq, Repr

/-- What a call of the client rejects with: an `ApiError`, or what `fetch` rejects with, which has a
message if it is an `Error`. -/
inductive ApiFailure where
  | api (error : ApiError)
  | other (message : Option String)
  deriving DecidableEq, Repr

namespace ApiClient

/-- `res.ok`. -/
def isOk (response : HttpResponse) : Bool := 200 ≤ response.status && response.status ≤ 299

def apiError (statusText : String) (response : HttpResponse) : ApiError :=
  match response.body with
  | .error body => ⟨response.status, some body.code, body.message, body.details⟩
  | .empty => ⟨response.status, some "UNKNOWN_ERROR",
      if statusText = "" then "Request failed" else statusText, none⟩
  | .job _ | .jobs _ _ => ⟨response.status, none, "", none⟩

/-- What `request` makes of an answer. -/
def read (statusText : String) (response : HttpResponse) : Except ApiFailure ResponseBody :=
  if response.status = 204 then .ok .empty
  else if isOk response then .ok response.body
  else .error (.api (apiError statusText response))

def searchQuery (title : Option String) (status : Option JobStatus) : List (String × Json ℚ) :=
  (title.map fun title => ("title", .string title)).toList ++
    (status.map fun status => ("status", .string (PatchJobUseCase.statusName status))).toList

/-- The answer to a request for a list, as `useJobs` takes it. -/
def listAnswer : Except ApiFailure ResponseBody → Option UseJobs.Answer
  | .ok (.jobs items count) => some (.ok ⟨items, count⟩)
  | .ok _ => none
  | .error (.api error) => some (.error (some error.message))
  | .error (.other message) => some (.error message)

end ApiClient

def ListCall.request : ListCall → HttpRequest
  | .listJobs => .list
  | .search title status => .search (ApiClient.searchQuery title status)

/-- What the controller reads from the query is what the client has put there. -/
theorem searchInput_searchQuery (title : Option String) (status : Option JobStatus) :
    searchInput (.object (ApiClient.searchQuery title status)) = ⟨title, status⟩ := by
  cases title <;> cases status with
  | none => rfl
  | some status => cases status <;> rfl

/-- The jobs that the page is to show. -/
def UseJobs.Params.wants [LowerCase] (params : UseJobs.Params) (job : Job) : Bool :=
  (trim params.titleQuery = "" ||
    includes (toLowerCase job.title) (toLowerCase (trim params.titleQuery))) &&
    params.statusFilter.all fun status => job.status = status

end JobManager
