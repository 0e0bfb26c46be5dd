import JobManager.Adapters.JobsController

/-! The way of a request through the interceptor, the controller and the filter. -/
namespace JobManager.Http

open Async

namespace LoggingInterceptor

/-- The fields of a completion that depend on whether there is an error code. -/
def completionBase : Option String → BaseLogEvent
  | none => ⟨.info, .http, "request completed"⟩
  | some _ => ⟨.error, .http, "request failed"⟩

def logCompletion (method path : String) (statusCode : ℚ) (startedAt : ℤ)
    (errorCode : Option String) : Program Unit := do
  let now ← Async.perform Effect.dateNow
  log (.httpRequest (completionBase errorCode) method path statusCode (now - startedAt : ℤ)
    errorCode)

/-- What `tap` makes of a result: if the logger throws, the result is lost. -/
def tap (method path : String) (statusCode : ℚ) (startedAt : ℤ) :
    Except Exception ResponseBody → Handler ResponseBody
  | .ok body => do
    await (logCompletion method path statusCode startedAt none)
    pure body
  | .error exception => throw exception

/-- `catchError`, also of what `tap` throws. -/
def catchError (method path : String) (startedAt : ℤ) :
    Except Exception ResponseBody → Handler ResponseBody
  | .ok body => pure body
  | .error exception => do
    let envelope := resolveErrorEnvelope exception
    await (logCompletion method path envelope.status startedAt (some envelope.code))
    throw exception

def intercept (method path : String) (statusCode : ℚ) (next : Handler ResponseBody) :
    Handler ResponseBody := do
  let startedAt ← await (Async.perform Effect.dateNow)
  let result ← ExceptT.lift next.run
  let tapped ← ExceptT.lift (tap method path statusCode startedAt result).run
  catchError method path startedAt tapped

end LoggingInterceptor

structure HttpResponse where
  status : ℚ
  body : ResponseBody
  deriving DecidableEq, Repr

/-- The filter answers for what the handler or the interceptor throws. -/
def answer (statusCode : ℚ) : Except Exception ResponseBody → Program HttpResponse
  | .ok body => pure ⟨statusCode, body⟩
  | .error exception => do
    let response ← HttpExceptionFilter.catchException exception
    pure ⟨response.status, .error response.body⟩

/-- One request, from the interceptor to the answer; `path` is its `originalUrl`. -/
def HttpRequest.handle [ClassValidator ℚ] [ValidationMessages]
    (supportedJobTypes : SupportedJobTypes) (path : String) (r : HttpRequest) :
    Program HttpResponse :=
  (LoggingInterceptor.intercept r.method path r.statusCode (r.handler supportedJobTypes)).run >>=
    answer r.statusCode

end JobManager.Http
