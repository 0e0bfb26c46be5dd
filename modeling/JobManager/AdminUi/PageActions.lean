import JobManager.AdminUi.ApiClient

/-! What the buttons of the admin page ask the service for, and what they report. -/
namespace JobManager

open Text Http

inductive ToastVariant where
  | success | error
  deriving DecidableEq, Repr

structure Toast where
  message : String
  variant : ToastVariant
  deriving DecidableEq, Repr

/-- The handlers of the page that send a request: to create a job, to save a dialog, to retry a job,
and to delete one. -/
inductive PageAction where
  | handleSubmit (title description : String)
  | handleSave (dialog : JobDetailDialog)
  | handleRetry (job : JobResponse)
  | handleConfirmDelete (job : JobResponse)

namespace PageAction

/-- The body of `createJob`; an empty description is left out. -/
def createBody (title description : String) : List (String × Json ℚ) :=
  ("title", .string (trim title)) ::
    if trim description = "" then [] else [("description", .string (trim description))]

/-- The request that is sent; a blank title is not, and the save button may be disabled. -/
def request : PageAction → Option HttpRequest
  | handleSubmit title description =>
    if trim title = "" then none else some (.create (createBody title description))
  | handleSave dialog =>
    match dialog.handleSave with
    | some (.object fields) => some (.patch dialog.job.id fields)
    | _ => none
  | handleRetry job => some (.patch job.id [("status", .string "pending")])
  | handleConfirmDelete job => some (.remove job.id)

/-- `err.message || err.code`, where nothing is shown for `undefined`. -/
def errorText (error : ApiError) : String :=
  if error.message = "" then error.code.getD "" else error.message

/-- `err.details?.[0]?.reason || err.message || err.code`. -/
def reasonText (error : ApiError) : String :=
  match error.details with
  | some (detail :: _) => if detail.reason = "" then errorText error else detail.reason
  | _ => errorText error

def toast : PageAction → Except ApiFailure ResponseBody → Toast
  | handleSubmit _ _, .ok _ => ⟨"작업이 생성되었습니다", .success⟩
  | handleSubmit _ _, .error (.api error) => ⟨reasonText error, .error⟩
  | handleSubmit _ _, .error (.other _) => ⟨"작업 생성에 실패했습니다", .error⟩
  | handleSave _, .ok _ => ⟨"작업이 저장되었습니다", .success⟩
  | handleSave _, .error (.api error) => ⟨errorText error, .error⟩
  | handleSave _, .error (.other _) => ⟨"저장에 실패했습니다", .error⟩
  | handleRetry _, .ok _ => ⟨"재시도 대기열에 등록되었습니다", .success⟩
  | handleRetry _, .error (.api error) => ⟨errorText error, .error⟩
  | handleRetry _, .error (.other _) => ⟨"재시도에 실패했습니다", .error⟩
  | handleConfirmDelete _, .ok _ => ⟨"작업이 삭제되었습니다", .success⟩
  | handleConfirmDelete _, .error (.api error) =>
    if error.code = some "NOT_FOUND" then ⟨"이미 삭제된 작업입니다", .error⟩
    else if error.code = some "JOB_IN_PROGRESS" then ⟨"진행 중 작업은 삭제할 수 없습니다", .error⟩
    else ⟨errorText error, .error⟩
  | handleConfirmDelete _, .error (.other _) => ⟨"삭제에 실패했습니다", .error⟩

/-- Only a call of the client that resolves is reported as a success. -/
theorem toast_success {action : PageAction} {result : Except ApiFailure ResponseBody}
    (h : (action.toast result).variant = .success) : ∃ body, result = .ok body := by
  cases result with
  | ok body => exact ⟨body, rfl⟩
  | error failure =>
    cases failure with
    | other message => cases action <;> cases h
    | api error =>
      cases action with
      | handleConfirmDelete job =>
        simp only [toast] at h
        split_ifs at h
      | handleSubmit title description | handleSave dialog | handleRetry job => cases h

end PageAction

end JobManager
