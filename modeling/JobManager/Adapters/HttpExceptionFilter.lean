import JobManager.Application.Ports
import JobManager.Async.Sequential
import JobManager.Text.Json

/-! The filter that answers for exceptions, and what its answers disclose. -/
namespace JobManager

open Async

structure ApiErrorDetail where
  field : Option String
  reason : String
  deriving DecidableEq, Repr

structure ApiErrorBody where
  code : String
  message : String
  details : Option (List ApiErrorDetail)
  deriving DecidableEq, Repr

/-- A thrown value: an `ApiException`, another `HttpException`, another `Error`, or anything else
with what `String` makes of it. -/
inductive Exception where
  | api (status : ℚ) (body : ApiErrorBody)
  | http (status : ℚ) (message : String) (response : Json PrintedNumber)
  | error (message : String)
  | value (text : Except Thrown String)

def Exception.isApiException : Exception → Bool
  | .api _ _ => true
  | .http _ _ _ | .error _ | .value _ => false

/-- The message of an `HttpException` other than an `ApiException`. -/
def Exception.httpMessage : Exception → Option String
  | .http _ message _ => some message
  | .api _ _ | .error _ | .value _ => none

structure ErrorEnvelope where
  status : ℚ
  code : String
  deriving DecidableEq, Repr

def resolveErrorEnvelope : Exception → ErrorEnvelope
  | .api status body => ⟨status, body.code⟩
  | .http status _ _ =>
    if status = 400 then ⟨status, "VALIDATION_FAILED"⟩
    else if status = 404 then ⟨status, "NOT_FOUND"⟩
    else ⟨status, if 500 ≤ status then "INTERNAL" else "HTTP_ERROR"⟩
  | .error _ | .value _ => ⟨500, "INTERNAL"⟩

structure ResolvedError extends ApiErrorBody where
  status : ℚ
  deriving DecidableEq, Repr

namespace HttpExceptionFilter

/-- `String(v)`. -/
def toText (v : Json PrintedNumber) : Except Thrown String :=
  match v.text with
  | some text => .ok text
  | none => .error "TypeError"

/-- `raw.message` where `raw` is an object that has it. -/
def rawMessages (message : String) (raw : Json PrintedNumber) : Json PrintedNumber :=
  (raw.property "message").getD (.string message)

def reasons (message : String) (raw : Json PrintedNumber) : Except Thrown (List String) :=
  match rawMessages message raw with
  | .array messages => messages.mapM toText
  | v => (toText v).map ([·])

def resolveValidationFailure (message : String) (response : Json PrintedNumber) :
    Except Thrown ResolvedError := do
  let messages ← reasons message response
  return { status := 400, code := "VALIDATION_FAILED", message := "요청이 유효하지 않습니다."
           details := some (messages.map fun reason => ⟨none, reason⟩) }

/-- The text of the answer that says nothing about the failure. -/
def internalMessage : String := "서버 오류가 발생했습니다."

def resolveInternalError (text : Except Thrown String) : Program ResolvedError := do
  let message ← .settled text
  (log (.error ⟨.error, .http, message⟩ "INTERNAL")).tryCatch fun _ => pure ()
  return { status := 500, code := "INTERNAL", message := internalMessage, details := none }

def resolve (exception : Exception) : Program ResolvedError :=
  match exception with
  | .api status body => pure { body with status := status }
  | .error message => resolveInternalError (.ok message)
  | .value text => resolveInternalError text
  | .http _ message response =>
    let envelope := resolveErrorEnvelope exception
    if envelope.code = "VALIDATION_FAILED" then
      .settled (resolveValidationFailure message response)
    else pure { status := envelope.status, code := envelope.code, message, details := none }

structure Response where
  status : ℚ
  body : ApiErrorBody
  deriving DecidableEq, Repr

def catchException (exception : Exception) : Program Response := do
  let resolved ← resolve exception
  return ⟨resolved.status, resolved.toApiErrorBody⟩

section Answers

variable {S : Type} {act : (c : Effect) → S → Except Thrown c.Answer × S} {s : S}
  {exception : Exception} {response : Response}

/-- Neither the message nor a failure to log it changes the answer. -/
theorem eval_resolveInternalError (message : String) :
    (eval act (resolveInternalError (.ok message)) s).1 =
      .ok { status := 500, code := "INTERNAL", message := internalMessage, details := none } := by
  simp only [resolveInternalError, eval_bind, eval_settled, eval_tryCatch, log, eval_perform]
  cases hlog : act (.log (.error ⟨.error, .http, message⟩ "INTERNAL")) s with | mk answer s' =>
  cases answer with
  | error e => rfl
  | ok u => rfl

theorem resolved_of_internalError {text : Except Thrown String} {resolved : ResolvedError}
    (h : (eval act (resolveInternalError text) s).1 = .ok resolved) :
    resolved =
      { status := 500, code := "INTERNAL", message := internalMessage, details := none } := by
  cases text with
  | error e => cases h
  | ok message =>
    rw [eval_resolveInternalError] at h
    cases h
    rfl

/-- A failed validation is answered with the status and the code of its envelope. -/
theorem resolveValidationFailure_envelope {message : String} {raw : Json PrintedNumber}
    {resolved : ResolvedError} (h : resolveValidationFailure message raw = .ok resolved) :
    resolved.status = 400 ∧ resolved.code = "VALIDATION_FAILED" := by
  unfold resolveValidationFailure at h
  cases hmessages : reasons message raw with
  | error e =>
    rw [hmessages] at h
    cases h
  | ok messages =>
    rw [hmessages] at h
    cases h
    constructor <;> rfl

theorem status_of_validationFailed {status : ℚ} {message : String} {raw : Json PrintedNumber}
    (h : (resolveErrorEnvelope (.http status message raw)).code = "VALIDATION_FAILED") :
    status = 400 := by
  simp only [resolveErrorEnvelope] at h
  split_ifs at h with hbad
  · exact hbad
  all_goals simp at h

theorem eval_resolve_validation {status : ℚ} {message : String} {raw : Json PrintedNumber}
    (h : (resolveErrorEnvelope (.http status message raw)).code = "VALIDATION_FAILED") :
    eval act (resolve (.http status message raw)) s =
      (resolveValidationFailure message raw, s) := by
  simp only [resolve, if_pos h, eval_settled]

theorem eval_resolve_http {status : ℚ} {message : String} {raw : Json PrintedNumber}
    (h : (resolveErrorEnvelope (.http status message raw)).code ≠ "VALIDATION_FAILED") :
    eval act (resolve (.http status message raw)) s =
      (.ok { status := (resolveErrorEnvelope (.http status message raw)).status
             code := (resolveErrorEnvelope (.http status message raw)).code
             message, details := none }, s) := by
  simp only [resolve, if_neg h]
  rfl

/-- The response is made of what `resolve` returns. -/
theorem exists_resolved (h : (eval act (catchException exception) s).1 = .ok response) :
    ∃ resolved, (eval act (resolve exception) s).1 = .ok resolved ∧
      response = ⟨resolved.status, resolved.toApiErrorBody⟩ := by
  unfold catchException at h
  rw [eval_bind] at h
  cases hresolve : eval act (resolve exception) s with | mk answer s' =>
  rw [hresolve] at h
  cases answer with
  | error e => cases h
  | ok resolved =>
    cases h
    exact ⟨resolved, rfl, rfl⟩

/-- The filter answers with the status and the code that the interceptor logs. -/
theorem catchException_envelope (h : (eval act (catchException exception) s).1 = .ok response) :
    response.status = (resolveErrorEnvelope exception).status ∧
      response.body.code = (resolveErrorEnvelope exception).code := by
  obtain ⟨resolved, hresolved, rfl⟩ := exists_resolved h
  cases exception with
  | api status body =>
    cases hresolved
    constructor <;> rfl
  | http status message raw =>
    by_cases hvalid :
        (resolveErrorEnvelope (.http status message raw)).code = "VALIDATION_FAILED"
    · rw [eval_resolve_validation hvalid] at hresolved
      obtain ⟨hstatus, hcode⟩ := resolveValidationFailure_envelope hresolved
      have hbad : status = 400 := status_of_validationFailed hvalid
      subst hbad
      exact ⟨hstatus, hcode⟩
    · rw [eval_resolve_http hvalid] at hresolved
      cases hresolved
      constructor <;> rfl
  | error message =>
    rw [resolved_of_internalError hresolved]
    constructor <;> rfl
  | value text =>
    rw [resolved_of_internalError hresolved]
    constructor <;> rfl

/-- An `HttpException` puts its own message into an internal error's answer, everything else the
fixed one. -/
theorem body_of_internal (hforeign : exception.isApiException = false)
    (h : (eval act (catchException exception) s).1 = .ok response)
    (hinternal : response.body.code = "INTERNAL") :
    response.body = ⟨"INTERNAL", exception.httpMessage.getD internalMessage, none⟩ := by
  have hcode := (catchException_envelope h).2
  obtain ⟨resolved, hresolved, rfl⟩ := exists_resolved h
  cases exception with
  | api status body => cases hforeign
  | http status message raw =>
    rw [hinternal] at hcode
    rw [eval_resolve_http (by rw [← hcode]; decide), ← hcode] at hresolved
    cases hresolved
    rfl
  | error message =>
    rw [resolved_of_internalError hresolved]
    rfl
  | value text =>
    rw [resolved_of_internalError hresolved]
    rfl

end Answers

/-- Two internal errors are answered alike exactly if the exceptions agree in the message of an
`HttpException`, with the fixed text for all other values; whatever the logger does. -/
theorem internal_bodies_eq_iff {S T : Type} {act : (c : Effect) → S → Except Thrown c.Answer × S}
    {act' : (c : Effect) → T → Except Thrown c.Answer × T} {s : S} {t : T}
    {e e' : Exception} {r r' : Response}
    (he : e.isApiException = false) (he' : e'.isApiException = false)
    (hr : (eval act (catchException e) s).1 = .ok r)
    (hr' : (eval act' (catchException e') t).1 = .ok r')
    (hcode : r.body.code = "INTERNAL") (hcode' : r'.body.code = "INTERNAL") :
    r.body = r'.body ↔
      e.httpMessage.getD internalMessage = e'.httpMessage.getD internalMessage := by
  rw [body_of_internal he hr hcode, body_of_internal he' hr' hcode']
  simp

/-- A logger that always throws. -/
def brokenLogger (c : Effect) (s : Unit) : Except Thrown c.Answer × Unit :=
  (.error "EPIPE", s)

theorem internal_bodies_eq_iff_timeout :
    (⟨"INTERNAL", "ETIMEDOUT", none⟩ : ApiErrorBody) = ⟨"INTERNAL", internalMessage, none⟩ ↔
      (Exception.http 503 "ETIMEDOUT" .null).httpMessage.getD internalMessage =
        (Exception.error "ETIMEDOUT").httpMessage.getD internalMessage :=
  @internal_bodies_eq_iff Unit Unit brokenLogger brokenLogger () () _ _
    ⟨503, "INTERNAL", "ETIMEDOUT", none⟩ ⟨500, "INTERNAL", internalMessage, none⟩
    rfl rfl (by decide) (by decide) rfl rfl

/-- An `HttpException` of the server shows its message, any other error does not. -/
theorem internal_bodies_differ :
    ∃ r r' : Response,
      (eval brokenLogger (catchException (.http 503 "ETIMEDOUT" .null)) ()).1 = .ok r ∧
      (eval brokenLogger (catchException (.error "ETIMEDOUT")) ()).1 = .ok r' ∧
      r.body.code = "INTERNAL" ∧ r'.body.code = "INTERNAL" ∧ r.body ≠ r'.body := by
  refine ⟨⟨503, "INTERNAL", "ETIMEDOUT", none⟩, ⟨500, "INTERNAL", internalMessage, none⟩,
    ?_, ?_, rfl, rfl, ?_⟩
  · decide
  · decide
  · simp [internalMessage]

end HttpExceptionFilter

end JobManager
