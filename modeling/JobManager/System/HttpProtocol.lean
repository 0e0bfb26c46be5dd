import JobManager.Adapters.LoggingInterceptor
import JobManager.System.World

/-! What a handled request has done, and what it answers and logs about it. -/
namespace JobManager.Http

open Async LoggingInterceptor

/-- What the work on a request asks of the repository. -/
def HttpRequest.Asks : HttpRequest → RepoOp → Prop
  | create body, op => op = .create (createInput (.object body))
  | list, op => op = .list
  | search query, op => op = .search (searchInput (.object query))
  | getById id, op => op = .findById id
  | patch id body, op => op = .findById id ∨
      ∃ target, op = .withTransition id target
        (some (JobsController.patchInput id (.object body)).patch)
  | remove id, op => op = .delete id

/-- The calls that the work on a request makes. -/
def HttpCall (r : HttpRequest) : Effect → Prop
  | .repository op => r.Asks op
  | .log _ | .dateNow => True
  | .process _ | .beginTick _ | .endTick | .randomUUID => False

def Threw (c : Call) : Prop := ∃ e, c.answer = .error e

/-- A call of the logger or of the clock it uses. -/
def IsLogging : Effect → Prop
  | .log _ | .dateNow => True
  | _ => False

section

variable [ClassValidator ℚ]

/-- The object that comes with the request passes the validation of its DTO class. -/
def HttpRequest.Valid (r : HttpRequest) : Prop :=
  ∀ dto fields, r.validates = some (dto, fields) → ValidationPipe.accepts dto fields = true

/-- A call of the work on a request, of the repository only once the request has been validated. -/
def ValidCall (r : HttpRequest) (c : Effect) : Prop :=
  HttpCall r c ∧ ∀ op, c = .repository op → r.Valid

theorem valid_of_accepts {r : HttpRequest} {dto : Dto ℚ} {fields : List (String × Json ℚ)}
    (hr : r.validates = some (dto, fields)) (h : ValidationPipe.accepts dto fields = true) :
    r.Valid := by
  intro dto' fields' hr'
  obtain ⟨rfl, rfl⟩ := Prod.mk.inj (Option.some.inj (hr.symm.trans hr'))
  exact h

theorem ValidCall.asks {r : HttpRequest} {op : RepoOp} (hasks : r.Asks op) (hvalid : r.Valid) :
    ValidCall r (.repository op) := ⟨hasks, fun _ _ => hvalid⟩

theorem ValidCall.log (r : HttpRequest) (event : LogEvent) : ValidCall r (.log event) :=
  ⟨trivial, nofun⟩

theorem ValidCall.dateNow (r : HttpRequest) : ValidCall r .dateNow := ⟨trivial, nofun⟩

end

/-- The `http_request` event of a call that has written one. -/
def httpEvent? : Call → Option LogEvent
  | ⟨.log (.httpRequest base method path statusCode latencyMs errorCode), .ok _⟩ =>
    some (.httpRequest base method path statusCode latencyMs errorCode)
  | _ => none

def written (h : List Call) : List LogEvent := h.filterMap httpEvent?

/-- What the controller makes of the answers it gets, request by request. -/
inductive Replies [ClassValidator ℚ] [ValidationMessages] (supportedJobTypes : SupportedJobTypes)
    (h : List Call) : HttpRequest → Except Exception ResponseBody → Prop where
  | invalid (r : HttpRequest) (dto : Dto ℚ) (fields : List (String × Json ℚ))
      (hr : r.validates = some (dto, fields)) (hinvalid : ValidationPipe.accepts dto fields = false)
      (hnone : ∀ c ∈ h, ∀ op, c.call ≠ .repository op) :
      Replies supportedJobTypes h r
        (.error (BadRequestException (ValidationMessages.messages dto fields)))
  | unsupported (body : List (String × Json ℚ))
      (hvalid : ValidationPipe.accepts createJobDto body = true)
      (htitle : supportedJobTypes.isSupported (createInput (.object body)).title = false)
      (hnone : ∀ c ∈ h, ∀ op, c.call ≠ .repository op) :
      Replies supportedJobTypes h (.create body) (.error (unsupportedJobType
        (createInput (.object body)).title supportedJobTypes.titles))
  | created (body : List (String × Json ℚ)) (job : Job)
      (hvalid : ValidationPipe.accepts createJobDto body = true)
      (htitle : supportedJobTypes.isSupported (createInput (.object body)).title = true)
      (hcall : ⟨.repository (.create (createInput (.object body))), .ok job⟩ ∈ h) :
      Replies supportedJobTypes h (.create body) (.ok (.job (toJobResponse job)))
  | listed (jobs : List Job) (hcall : ⟨.repository .list, .ok jobs⟩ ∈ h) :
      Replies supportedJobTypes h .list (.ok (jobList jobs))
  | searched (query : List (String × Json ℚ)) (jobs : List Job)
      (hvalid : ValidationPipe.accepts searchQueryDto query = true)
      (hcall : ⟨.repository (.search (searchInput (.object query))), .ok jobs⟩ ∈ h) :
      Replies supportedJobTypes h (.search query) (.ok (jobList jobs))
  | found (id : String) (job : Job)
      (hcall : ⟨.repository (.findById id), .ok (some job)⟩ ∈ h) :
      Replies supportedJobTypes h (.getById id) (.ok (.job (toJobResponse job)))
  | missing (id : String) (hcall : ⟨.repository (.findById id), .ok none⟩ ∈ h) :
      Replies supportedJobTypes h (.getById id) (.error (toTransitionFailureException id .notFound))
  | patchMissing (id : String) (body : List (String × Json ℚ))
      (hcall : ⟨.repository (.findById id), .ok none⟩ ∈ h) :
      Replies supportedJobTypes h (.patch id body)
        (.error (toTransitionFailureException id .notFound))
  | patched (id : String) (body : List (String × Json ℚ)) (target : JobStatus) (job : Job)
      (transitioned : Bool) (previousStatus : JobStatus)
      (hvalid : ValidationPipe.accepts patchJobDto body = true)
      (htarget : (JobsController.patchInput id (.object body)).status = some .pending →
        target = .pending)
      (hcall : ⟨.repository (.withTransition id target
          (some (JobsController.patchInput id (.object body)).patch)),
        .ok (.ok job transitioned previousStatus)⟩ ∈ h) :
      Replies supportedJobTypes h (.patch id body) (.ok (.job (toJobResponse job)))
  | patchRefused (id : String) (body : List (String × Json ℚ)) (target : JobStatus)
      (patch : Option JobPatch) (reason : TransitionFailureReason)
      (htarget : (JobsController.patchInput id (.object body)).status = some .pending →
        target = .pending)
      (hcall : ⟨.repository (.withTransition id target patch), .ok (.refused reason)⟩ ∈ h) :
      Replies supportedJobTypes h (.patch id body)
        (.error (toTransitionFailureException id reason))
  | removed (id : String) (hcall : ⟨.repository (.delete id), .ok .ok⟩ ∈ h) :
      Replies supportedJobTypes h (.remove id) (.ok .empty)
  | removeRefused (id : String) (reason : DeleteFailureReason)
      (hcall : ⟨.repository (.delete id), .ok (.refused reason)⟩ ∈ h) :
      Replies supportedJobTypes h (.remove id) (.error (toDeleteFailureException id reason))
  | failed (r : HttpRequest) (op : RepoOp) (e : Thrown)
      (hcall : ⟨.repository op, .error e⟩ ∈ h) :
      Replies supportedJobTypes h r (.error (.error e))

def internalError : HttpResponse :=
  ⟨500, .error ⟨"INTERNAL", HttpExceptionFilter.internalMessage, none⟩⟩

/-- The answer to what the controller returns or throws; the logger does not matter for it. -/
def respond (r : HttpRequest) : Except Exception ResponseBody → HttpResponse
  | .ok body => ⟨r.statusCode, body⟩
  | .error exception =>
    match (eval HttpExceptionFilter.brokenLogger
      (HttpExceptionFilter.catchException exception) ()).1 with
    | .ok response => ⟨response.status, .error response.body⟩
    | .error _ => internalError

def HttpResponse.errorCode (response : HttpResponse) : Option String :=
  match response.body with
  | .error body => some body.code
  | _ => none

/-- What is known of a handled request: the answer is what the controller made of its calls, unless
one of them threw, and one event that agrees with the answer is logged, unless the logger threw. -/
structure Handled [ClassValidator ℚ] [ValidationMessages] (supportedJobTypes : SupportedJobTypes)
    (path : String) (r : HttpRequest) (response : HttpResponse) (h : List Call) : Prop where
  reply : (∃ result, Replies supportedJobTypes h r result ∧ response = respond r result) ∨
    response = internalError ∧ ∃ c ∈ h, Threw c
  agrees : ∀ event ∈ written h, ∃ latencyMs, event = .httpRequest
    (completionBase response.errorCode) r.method path response.status latencyMs response.errorCode
  once : (written h).length ≤ 1
  logged : written h = [] → ∃ c ∈ h, IsLogging c.call ∧ Threw c

theorem written_snoc (h : List Call) (c : Call) :
    written (h ++ [c]) = written h ++ (httpEvent? c).toList := by
  unfold written
  rw [List.filterMap_append]
  cases hc : httpEvent? c <;> simp [hc]

theorem written_quiet {h : List Call} (hw : written h = []) {c : Call}
    (hc : httpEvent? c = none) : written (h ++ [c]) = [] := by
  rw [written_snoc, hw, hc]
  rfl

theorem written_repository {h : List Call} (hw : written h = []) (op : RepoOp)
    (x : Except Thrown op.Result) : written (h ++ [⟨.repository op, x⟩]) = [] :=
  written_quiet hw rfl

theorem written_logged (h : List Call) (base : BaseLogEvent) (method path : String)
    (statusCode latencyMs : ℚ) (errorCode : Option String) :
    written (h ++ [⟨.log (.httpRequest base method path statusCode latencyMs errorCode),
      .ok ()⟩]) = written h ++ [.httpRequest base method path statusCode latencyMs errorCode] :=
  written_snoc _ _

section Parts

variable [ClassValidator ℚ] {α β : Type} {r : HttpRequest} {h : List Call}

/-- A part of the handling, which never settles but with what it returns or throws. -/
def Yields (r : HttpRequest) (P : Except Exception α → List Call → Prop) (p : Handler α)
    (h : List Call) : Prop :=
  Conforms (fun _ c => ValidCall r c) (fun x h' => ∃ result, x = .ok result ∧ P result h') p.run h

theorem Yields.bind {P : Except Exception α → List Call → Prop}
    {P' : Except Exception β → List Call → Prop} {p : Handler α} {f : α → Handler β}
    (hp : Yields r P p h) (hok : ∀ a h', P (.ok a) h' → Yields r P' (f a) h')
    (herr : ∀ e h', P (.error e) h' → P' (.error e) h') : Yields r P' (p >>= f) h := by
  refine Conforms.bind hp ?_ fun e h' ⟨_, he, _⟩ => (by cases he)
  rintro result h' ⟨_, hresult, hgood⟩
  obtain rfl := Except.ok.inj hresult
  cases result with
  | ok a => exact hok a h' hgood
  | error e => exact ⟨_, rfl, herr e h' hgood⟩

theorem Yields.await {post : Except Thrown α → List Call → Prop}
    {P : Except Exception α → List Call → Prop} {p : Program α}
    (hp : Conforms (fun _ c => ValidCall r c) post p h)
    (hgood : ∀ x h', post x h' → P (x.mapError Exception.error) h') :
    Yields r P (Http.await p) h := by
  induction p generalizing h with
  | settled r => exact ⟨_, rfl, hgood r h hp⟩
  | awaiting c k ih => exact ⟨hp.1, fun x => ih x (hp.2 x)⟩

/-- A part whose outcome is looked at. -/
theorem Yields.lift_bind {P : Except Exception α → List Call → Prop}
    {P' : Except Exception β → List Call → Prop} {p : Handler α}
    {f : Except Exception α → Handler β} (hp : Yields r P p h)
    (hf : ∀ result h', P result h' → Yields r P' (f result) h') :
    Yields r P' (ExceptT.lift p.run >>= f) h := by
  have hlift : Yields r (fun result h' => ∃ outcome, result = .ok outcome ∧ P outcome h')
      (ExceptT.lift p.run) h := by
    refine Conforms.bind hp ?_ fun e h' ⟨_, he, _⟩ => (by cases he)
    rintro outcome h' ⟨_, houtcome, hgood⟩
    obtain rfl := Except.ok.inj houtcome
    exact ⟨_, rfl, outcome, rfl, hgood⟩
  refine hlift.bind ?_ fun e h' ⟨_, he, _⟩ => (by cases he)
  rintro outcome h' ⟨_, houtcome, hgood⟩
  obtain rfl := Except.ok.inj houtcome
  exact hf outcome h' hgood

end Parts

section Controller

variable [ClassValidator ℚ] [ValidationMessages] {supportedJobTypes : SupportedJobTypes}

/-- The controller replies, and leaves the log of the request to the interceptor. -/
abbrev Work (supportedJobTypes : SupportedJobTypes) (r : HttpRequest)
    (result : Except Exception ResponseBody) (h : List Call) : Prop :=
  Replies supportedJobTypes h r result ∧ written h = []

variable {h : List Call}

/-- A validated part, or what the pipe throws. -/
theorem transform_yields {P : Except Exception ResponseBody → List Call → Prop} {dto : Dto ℚ}
    {fields : List (String × Json ℚ)} {f : Json ℚ → Handler ResponseBody}
    (hvalid : ValidationPipe.accepts dto fields = true → Yields r P (f (.object fields)) h)
    (hinvalid : ValidationPipe.accepts dto fields = false →
      P (.error (BadRequestException (ValidationMessages.messages dto fields))) h) :
    Yields r P (ValidationPipe.transform dto fields >>= f) h := by
  unfold ValidationPipe.transform
  by_cases ha : ValidationPipe.accepts dto fields = true
  · rw [if_pos ha]
    exact hvalid ha
  · rw [if_neg ha]
    exact ⟨_, rfl, hinvalid (Bool.eq_false_iff.mpr ha)⟩

variable (hw : written h = [])

include hw

theorem Work.failed (r : HttpRequest) (op : RepoOp) (e : Thrown) :
    Work supportedJobTypes r (.error (.error e)) (h ++ [⟨.repository op, .error e⟩]) :=
  ⟨.failed r op e (by simp), written_repository hw op _⟩

theorem list_replies : Yields .list (Work supportedJobTypes .list) JobsController.list h := by
  refine ⟨.asks rfl nofun, fun x => ?_⟩
  cases x with
  | error e => exact ⟨_, rfl, .failed hw _ _ e⟩
  | ok jobs => exact ⟨_, rfl, .listed jobs (by simp), written_repository hw _ _⟩

theorem getById_replies (id : String) :
    Yields (.getById id) (Work supportedJobTypes (.getById id)) (JobsController.getById id) h := by
  refine ⟨.asks rfl nofun, fun x => ?_⟩
  cases x with
  | error e => exact ⟨_, rfl, .failed hw _ _ e⟩
  | ok found =>
    cases found with
    | none => exact ⟨_, rfl, .missing id (by simp), written_repository hw _ _⟩
    | some job => exact ⟨_, rfl, .found id job (by simp), written_repository hw _ _⟩

theorem remove_replies (id : String) :
    Yields (.remove id) (Work supportedJobTypes (.remove id)) (JobsController.remove id) h := by
  refine ⟨.asks rfl nofun, fun x => ?_⟩
  cases x with
  | error e => exact ⟨_, rfl, .failed hw _ _ e⟩
  | ok result =>
    have hcall : ⟨.repository (.delete id), .ok result⟩ ∈
        h ++ [(⟨.repository (.delete id), .ok result⟩ : Call)] := by simp
    cases result with
    | refused reason => exact ⟨_, rfl, .removeRefused id reason hcall, written_repository hw _ _⟩
    | ok =>
      refine ⟨.log _ _, fun y => ?_⟩
      cases y <;> exact ⟨_, rfl, .removed id (List.mem_append_left _ hcall),
        written_quiet (written_repository hw _ _) rfl⟩

theorem create_replies (hnone : ∀ c ∈ h, ∀ op, c.call ≠ .repository op)
    {body : List (String × Json ℚ)} (hvalid : ValidationPipe.accepts createJobDto body = true) :
    Yields (.create body) (Work supportedJobTypes (.create body))
      (JobsController.create supportedJobTypes (.object body)) h := by
  unfold JobsController.create CreateJobUseCase.execute
  cases htitle : supportedJobTypes.isSupported (createInput (.object body)).title with
  | false => exact ⟨_, rfl, .unsupported body hvalid htitle hnone, hw⟩
  | true =>
    refine ⟨.asks rfl (valid_of_accepts rfl hvalid), fun x => ?_⟩
    cases x with
    | error e => exact ⟨_, rfl, .failed hw _ _ e⟩
    | ok job => exact ⟨_, rfl, .created body job hvalid htitle (by simp), written_repository hw _ _⟩

theorem search_replies {query : List (String × Json ℚ)}
    (hvalid : ValidationPipe.accepts searchQueryDto query = true) :
    Yields (.search query) (Work supportedJobTypes (.search query))
      (JobsController.search (.object query)) h := by
  refine ⟨.asks rfl (valid_of_accepts rfl hvalid), fun x => ?_⟩
  cases x with
  | error e => exact ⟨_, rfl, .failed hw _ _ e⟩
  | ok jobs => exact ⟨_, rfl, .searched query jobs hvalid (by simp), written_repository hw _ _⟩

theorem patch_replies (id : String) {body : List (String × Json ℚ)}
    (hvalid : ValidationPipe.accepts patchJobDto body = true) :
    Yields (.patch id body) (Work supportedJobTypes (.patch id body))
      (JobsController.patch id (.object body)) h := by
  have hv : (HttpRequest.patch id body).Valid := valid_of_accepts rfl hvalid
  refine ⟨.asks (.inl rfl) hv, fun x => ?_⟩
  cases x with
  | error e => exact ⟨_, rfl, .failed hw _ _ e⟩
  | ok current =>
    cases current with
    | none => exact ⟨_, rfl, .patchMissing id body (by simp [JobsController.patchInput]),
        written_repository hw _ _⟩
    | some current =>
      have hread := written_repository hw (.findById id) (.ok (some current))
      refine ⟨.asks (.inr ⟨_, rfl⟩) hv, fun y => ?_⟩
      cases y with
      | error e => exact ⟨_, rfl, .failed hread _ _ e⟩
      | ok result =>
        cases result with
        | refused reason =>
          exact ⟨_, rfl, .patchRefused id body _ _ reason (fun hretry => if_pos hretry) (by
            exact List.mem_append_right _ (List.mem_singleton_self _)),
            written_repository hread _ _⟩
        | ok job transitioned previousStatus =>
          cases transitioned with
          | false =>
            exact ⟨_, rfl, .patched id body _ job _ _ hvalid (fun hretry => if_pos hretry)
              (List.mem_append_right _ (List.mem_singleton_self _)), written_repository hread _ _⟩
          | true =>
            refine ⟨.log _ _, fun z => ?_⟩
            cases z <;> exact ⟨_, rfl, .patched id body _ job _ _ hvalid
              (fun hretry => if_pos hretry)
              (List.mem_append_left _ (List.mem_append_right _ (List.mem_singleton_self _))),
              written_quiet (written_repository hread _ _) rfl⟩

theorem handler_replies (hnone : ∀ c ∈ h, ∀ op, c.call ≠ .repository op) (r : HttpRequest) :
    Yields r (Work supportedJobTypes r) (r.handler supportedJobTypes) h := by
  cases r with
  | create body =>
    exact transform_yields (fun hvalid => create_replies hw hnone hvalid)
      fun hinvalid => ⟨.invalid _ _ _ rfl hinvalid hnone, hw⟩
  | list => exact list_replies hw
  | search query =>
    exact transform_yields (fun hvalid => search_replies hw hvalid)
      fun hinvalid => ⟨.invalid _ _ _ rfl hinvalid hnone, hw⟩
  | getById id => exact getById_replies hw id
  | patch id body =>
    exact transform_yields (fun hvalid => patch_replies hw id hvalid)
      fun hinvalid => ⟨.invalid _ _ _ rfl hinvalid hnone, hw⟩
  | remove id => exact remove_replies hw id

end Controller

section Filter

open HttpExceptionFilter

variable {h : List Call}

/-- A line of the filter about the exception itself. -/
def IsErrorLine (c : Call) : Prop := ∃ base errorCode, c.call = .log (.error base errorCode)

theorem written_append_errorLines {more : List Call} (hmore : ∀ c ∈ more, IsErrorLine c) :
    written (h ++ more) = written h := by
  have hnil : more.filterMap httpEvent? = [] := by
    refine List.filterMap_eq_nil_iff.mpr fun ⟨call, x⟩ hc => ?_
    obtain ⟨base, errorCode, rfl⟩ := hmore _ hc
    rfl
  rw [written, List.filterMap_append, hnil, List.append_nil]
  rfl

/-- The filter answers the same whatever its logger does. -/
theorem catchException_answers [ClassValidator ℚ] {r : HttpRequest} (exception : Exception) :
    Conforms (fun _ c => ValidCall r c)
      (fun x h' => x = (eval brokenLogger (catchException exception) ()).1 ∧
        ∃ more, h' = h ++ more ∧ ∀ c ∈ more, IsErrorLine c) (catchException exception) h := by
  have hnone : ∃ more, h = h ++ more ∧ ∀ c ∈ more, IsErrorLine c := ⟨[], by simp, by simp⟩
  have hline : ∀ message x, ∃ more,
      h ++ [⟨.log (.error ⟨.error, .http, message⟩ "INTERNAL"), x⟩] = h ++ more ∧
        ∀ c ∈ more, IsErrorLine c := fun message x =>
    ⟨_, rfl, fun c hc => ⟨_, _, congrArg Event.call (List.mem_singleton.mp hc)⟩⟩
  cases exception with
  | api status body => exact ⟨rfl, hnone⟩
  | http status message response =>
    unfold catchException resolve
    dsimp only
    split
    · cases resolveValidationFailure message response <;> exact ⟨rfl, hnone⟩
    · exact ⟨rfl, hnone⟩
  | error message => exact ⟨.log _ _, fun x => by cases x <;> exact ⟨rfl, hline message _⟩⟩
  | value text =>
    cases text with
    | error e => exact ⟨rfl, hnone⟩
    | ok message => exact ⟨.log _ _, fun x => by cases x <;> exact ⟨rfl, hline message _⟩⟩

/-- The answer to a failed validation lists what the pipe listed. -/
theorem catchException_badRequest (messages : List String) :
    (eval brokenLogger (catchException (BadRequestException messages)) ()).1 =
      .ok ⟨400, ⟨"VALIDATION_FAILED", "요청이 유효하지 않습니다.",
        some (messages.map fun reason => ⟨none, reason⟩)⟩⟩ := by
  have htexts : (messages.map Json.string).mapM toText = .ok messages := by
    induction messages with
    | nil => rfl
    | cons message messages ih =>
      rw [List.map_cons, List.mapM_cons, ih]
      rfl
  have hfailure : resolveValidationFailure "Bad Request Exception"
      (.object [("message", .array (messages.map .string)), ("error", .string "Bad Request"),
        ("statusCode", .number ⟨"400"⟩)]) =
      .ok { status := 400, code := "VALIDATION_FAILED", message := "요청이 유효하지 않습니다."
            details := some (messages.map fun reason => ⟨none, reason⟩) } := by
    simp only [resolveValidationFailure, reasons, rawMessages, Json.property, List.reverse_cons,
      List.reverse_nil, List.nil_append, List.cons_append, List.find?_cons]
    simp [htexts]
  rw [catchException, BadRequestException, eval_bind, eval_resolve_validation rfl, hfailure]
  rfl

end Filter

section Answer

variable [ClassValidator ℚ] [ValidationMessages] {supportedJobTypes : SupportedJobTypes}
  {h : List Call} {r : HttpRequest}

theorem Replies.append {result : Except Exception ResponseBody}
    (hr : Replies supportedJobTypes h r result) {more : List Call}
    (hmore : ∀ c ∈ more, ∀ op, c.call ≠ .repository op) :
    Replies supportedJobTypes (h ++ more) r result := by
  have hall : (∀ c ∈ h, ∀ op, c.call ≠ .repository op) →
      ∀ c ∈ h ++ more, ∀ op, c.call ≠ .repository op := fun hnone c hc =>
    (List.mem_append.mp hc).elim (hnone c) (hmore c)
  cases hr with
  | invalid _ dto fields hv hinvalid hnone => exact .invalid _ dto fields hv hinvalid (hall hnone)
  | unsupported body hvalid htitle hnone => exact .unsupported body hvalid htitle (hall hnone)
  | created body job hvalid htitle hcall =>
    exact .created body job hvalid htitle (List.mem_append_left _ hcall)
  | listed jobs hcall => exact .listed jobs (List.mem_append_left _ hcall)
  | searched query jobs hvalid hcall =>
    exact .searched query jobs hvalid (List.mem_append_left _ hcall)
  | found id job hcall => exact .found id job (List.mem_append_left _ hcall)
  | missing id hcall => exact .missing id (List.mem_append_left _ hcall)
  | patchMissing id body hcall => exact .patchMissing id body (List.mem_append_left _ hcall)
  | patched id body target job transitioned previousStatus hvalid htarget hcall =>
    exact .patched id body target job _ _ hvalid htarget (List.mem_append_left _ hcall)
  | patchRefused id body target patch reason htarget hcall =>
    exact .patchRefused id body target patch reason htarget (List.mem_append_left _ hcall)
  | removed id hcall => exact .removed id (List.mem_append_left _ hcall)
  | removeRefused id reason hcall => exact .removeRefused id reason (List.mem_append_left _ hcall)
  | failed _ op e hcall => exact .failed _ op e (List.mem_append_left _ hcall)

/-- What the controller returns is no error body. -/
theorem Replies.no_errorCode {body : ResponseBody}
    (hr : Replies supportedJobTypes h r (.ok body)) : (respond r (.ok body)).errorCode = none := by
  cases hr <;> rfl

/-- The filter has an answer to everything the controller throws. -/
theorem Replies.answered {exception : Exception}
    (hr : Replies supportedJobTypes h r (.error exception)) : ∃ response,
      (eval HttpExceptionFilter.brokenLogger (HttpExceptionFilter.catchException exception) ()).1 =
        .ok response := by
  cases hr with
  | invalid => exact ⟨_, catchException_badRequest _⟩
  | unsupported | missing | patchMissing | failed => exact ⟨_, rfl⟩
  | patchRefused id body target patch reason => cases reason <;> exact ⟨_, rfl⟩
  | removeRefused id reason => cases reason <;> exact ⟨_, rfl⟩

end Answer

section Interception

variable {h : List Call}

/-- What is known of an attempt to log a completion. -/
def Completes (method path : String) (statusCode : ℚ) (errorCode : Option String) (h : List Call)
    (x : Except Thrown Unit) (h' : List Call) : Prop :=
  ∃ more, h' = h ++ more ∧ (∀ c ∈ more, IsLogging c.call) ∧
    match x with
    | .ok _ => ∃ latencyMs, written h' = written h ++
      [.httpRequest (completionBase errorCode) method path statusCode latencyMs errorCode]
    | .error _ => written h' = written h ∧ ∃ c ∈ more, Threw c

theorem logCompletion_completes [ClassValidator ℚ] {r : HttpRequest} (method path : String)
    (statusCode : ℚ) (startedAt : ℤ) (errorCode : Option String) :
    Conforms (fun _ c => ValidCall r c) (Completes method path statusCode errorCode h)
      (logCompletion method path statusCode startedAt errorCode) h := by
  refine ⟨.dateNow _, fun x => ?_⟩
  have hnow : ∀ x, written (h ++ [⟨.dateNow, x⟩]) = written h := fun x => by
    rw [written_snoc]
    exact List.append_nil _
  cases x with
  | error e => exact ⟨_, rfl, by simp [IsLogging], hnow _, _, List.mem_singleton_self _, e, rfl⟩
  | ok now =>
    refine ⟨.log _ _, fun y => ?_⟩
    refine ⟨_, List.append_assoc _ _ _, by simp [IsLogging], ?_⟩
    cases y with
    | error e =>
      refine ⟨?_, _, List.mem_append_right _ (List.mem_singleton_self _), e, rfl⟩
      rw [written_snoc, hnow]
      exact List.append_nil _
    | ok _ =>
      exact ⟨_, (written_logged _ _ _ _ _ _ _).trans (congrArg (· ++ [_]) (hnow _))⟩

variable [ClassValidator ℚ] [ValidationMessages] {supportedJobTypes : SupportedJobTypes}
  {r : HttpRequest} {path : String}

/-- The only event written agrees with an answer. -/
def Agrees (r : HttpRequest) (path : String) (response : HttpResponse) (h : List Call) : Prop :=
  (∀ event ∈ written h, ∃ latencyMs, event = .httpRequest
    (completionBase response.errorCode) r.method path response.status latencyMs
    response.errorCode) ∧
  (written h).length ≤ 1

/-- What leaves the interceptor: the reply of the controller, logged, or what the logger threw. -/
inductive Intercepted (supportedJobTypes : SupportedJobTypes) (r : HttpRequest) (path : String)
    (h : List Call) : Except Exception ResponseBody → Prop where
  | replied (result : Except Exception ResponseBody)
      (hreply : Replies supportedJobTypes h r result) (hagrees : Agrees r path (respond r result) h)
      (hwritten : written h ≠ []) : Intercepted supportedJobTypes r path h result
  | threw (e : Thrown) (hagrees : Agrees r path internalError h)
      (hthrew : ∃ c ∈ h, IsLogging c.call ∧ Threw c) :
      Intercepted supportedJobTypes r path h (.error (.error e))

theorem respond_error {exception : Exception}
    (hr : Replies supportedJobTypes h r (.error exception)) :
    (respond r (.error exception)).status = (resolveErrorEnvelope exception).status ∧
      (respond r (.error exception)).errorCode = some (resolveErrorEnvelope exception).code := by
  obtain ⟨response, hresponse⟩ := hr.answered
  obtain ⟨hstatus, hcode⟩ := HttpExceptionFilter.catchException_envelope hresponse
  simp only [respond, hresponse, HttpResponse.errorCode]
  exact ⟨hstatus, congrArg some hcode⟩

/-- An error reaches `catchError` with nothing logged about the request yet. -/
theorem catchError_intercepted {exception : Exception} (startedAt : ℤ) (hw : written h = [])
    (hexception : Replies supportedJobTypes h r (.error exception) ∨
      ∃ e, exception = .error e ∧ ∃ c ∈ h, IsLogging c.call ∧ Threw c) :
    Yields r (fun result h' => Intercepted supportedJobTypes r path h' result)
      (LoggingInterceptor.catchError r.method path startedAt (.error exception)) h := by
  refine (Yields.await (logCompletion_completes _ _ _ _ _) (P := fun x h' =>
    ∃ more, h' = h ++ more ∧ (∀ c ∈ more, IsLogging c.call) ∧ match x with
      | .ok _ => ∃ latencyMs, written h' = [.httpRequest
          (completionBase (some (resolveErrorEnvelope exception).code)) r.method path
          (resolveErrorEnvelope exception).status latencyMs
          (some (resolveErrorEnvelope exception).code)]
      | .error thrown => (∃ e, thrown = .error e) ∧ written h' = [] ∧ ∃ c ∈ more, Threw c)
      ?_).bind ?_ ?_
  · rintro x h' ⟨more, rfl, hlogging, hx⟩
    refine ⟨more, rfl, hlogging, ?_⟩
    rw [hw] at hx
    cases x with
    | ok _ => exact hx
    | error e => exact ⟨⟨e, rfl⟩, hx⟩
  · rintro _ h' ⟨more, rfl, hlogging, latencyMs, hwritten⟩
    refine ⟨_, rfl, ?_⟩
    rcases hexception with hreply | ⟨e, rfl, c, hc, hthrew⟩
    · obtain ⟨hstatus, hcode⟩ := respond_error hreply
      refine .replied _ (hreply.append fun c hc op hop => ?_) ⟨?_, by rw [hwritten]; rfl⟩ ?_
      · have := hlogging c hc
        rw [hop] at this
        exact this
      · intro event hevent
        rw [hwritten] at hevent
        exact ⟨latencyMs, by rw [List.mem_singleton.mp hevent, hstatus, hcode]⟩
      · rw [hwritten]
        exact List.cons_ne_nil _ _
    · refine .threw e ⟨fun event hevent => ?_, by rw [hwritten]; rfl⟩
        ⟨c, List.mem_append_left _ hc, hthrew⟩
      rw [hwritten] at hevent
      exact ⟨latencyMs, List.mem_singleton.mp hevent⟩
  · rintro thrown h' ⟨more, rfl, hlogging, ⟨e, rfl⟩, hwritten, c, hc, hthrew⟩
    refine .threw e ⟨by simp [hwritten], by simp [hwritten]⟩
      ⟨c, List.mem_append_right _ hc, hlogging c hc, hthrew⟩

omit [ValidationMessages] in
/-- What `tap` does to a result. -/
theorem tap_taps {body : ResponseBody} (startedAt : ℤ) (hw : written h = []) :
    Yields r (fun tapped h' => ∃ more, h' = h ++ more ∧ (∀ c ∈ more, IsLogging c.call) ∧
      match tapped with
      | .ok body' => body' = body ∧ ∃ latencyMs, written h' =
          [.httpRequest (completionBase none) r.method path r.statusCode latencyMs none]
      | .error thrown => ∃ e, thrown = .error e ∧ written h' = [] ∧ ∃ c ∈ more, Threw c)
      (LoggingInterceptor.tap r.method path r.statusCode startedAt (.ok body)) h := by
  refine (Yields.await (logCompletion_completes _ _ _ _ _) (P := fun x h' =>
    ∃ more, h' = h ++ more ∧ (∀ c ∈ more, IsLogging c.call) ∧ match x with
      | .ok _ => ∃ latencyMs, written h' =
          [.httpRequest (completionBase none) r.method path r.statusCode latencyMs none]
      | .error thrown => ∃ e, thrown = .error e ∧ written h' = [] ∧ ∃ c ∈ more, Threw c)
      ?_).bind ?_ ?_
  · rintro x h' ⟨more, rfl, hlogging, hx⟩
    refine ⟨more, rfl, hlogging, ?_⟩
    rw [hw] at hx
    cases x with
    | ok _ => exact hx
    | error e => exact ⟨e, rfl, hx⟩
  · rintro _ h' ⟨more, hh, hlogging, hx⟩
    exact ⟨_, rfl, more, hh, hlogging, rfl, hx⟩
  · rintro thrown h' ⟨more, hh, hlogging, hx⟩
    exact ⟨more, hh, hlogging, hx⟩

/-- The way through the interceptor. -/
theorem intercept_intercepted (supportedJobTypes : SupportedJobTypes) (r : HttpRequest)
    (path : String) : Yields r (fun result h => Intercepted supportedJobTypes r path h result)
      (intercept r.method path r.statusCode (r.handler supportedJobTypes)) [] := by
  refine ⟨.dateNow _, fun x => ?_⟩
  cases x with
  | error e =>
    exact ⟨_, rfl, .threw e ⟨by simp [written, httpEvent?], Nat.zero_le 1⟩
      ⟨_, List.mem_singleton_self _, trivial, e, rfl⟩⟩
  | ok startedAt =>
    refine Yields.lift_bind (handler_replies rfl (by simp) r) fun result h ⟨hreply, hw⟩ => ?_
    cases result with
    | error exception =>
      exact Yields.lift_bind (P := fun tapped h' => tapped = .error exception ∧ h' = h)
        ⟨_, rfl, rfl, rfl⟩ fun tapped h' ⟨htapped, hh⟩ => by
          subst htapped hh
          exact catchError_intercepted startedAt hw (.inl hreply)
    | ok body =>
      refine Yields.lift_bind (tap_taps startedAt hw) ?_
      rintro tapped h' ⟨more, rfl, hlogging, htapped⟩
      cases tapped with
      | ok body' =>
        obtain ⟨rfl, latencyMs, hwritten⟩ := htapped
        refine ⟨_, rfl, .replied _ (hreply.append fun c hc op hop => ?_) ⟨?_, ?_⟩ ?_⟩
        · have := hlogging c hc
          rw [hop] at this
          exact this
        · intro event hevent
          rw [hwritten] at hevent
          refine ⟨latencyMs, (List.mem_singleton.mp hevent).trans ?_⟩
          rw [show (respond r (.ok body')).errorCode = none from hreply.no_errorCode]
          rfl
        · rw [hwritten]
          rfl
        · rw [hwritten]
          exact List.cons_ne_nil _ _
      | error thrown =>
        obtain ⟨e, rfl, hwritten, c, hc, hthrew⟩ := htapped
        exact catchError_intercepted startedAt hwritten
          (.inr ⟨e, rfl, c, List.mem_append_right _ hc, hlogging c hc, hthrew⟩)

omit [ValidationMessages] in
/-- The filter puts the answer to an exception into words, and logs no request. -/
theorem answer_error {exception : Exception} {answered : HttpExceptionFilter.Response}
    (hanswered : (eval HttpExceptionFilter.brokenLogger
      (HttpExceptionFilter.catchException exception) ()).1 = .ok answered)
    {P : HttpResponse → List Call → Prop}
    (hgood : ∀ more, (∀ c ∈ more, IsErrorLine c) →
      P ⟨answered.status, .error answered.body⟩ (h ++ more)) (statusCode : ℚ) :
    Conforms (fun _ c => ValidCall r c) (fun x h' => ∃ response, x = .ok response ∧ P response h')
      (answer statusCode (.error exception)) h := by
  refine (catchException_answers exception).bind ?_ ?_
  · rintro response h' ⟨hresponse, more, rfl, hmore⟩
    obtain rfl := Except.ok.inj (hresponse.trans hanswered)
    exact ⟨_, rfl, hgood more hmore⟩
  · rintro e h' ⟨he, -⟩
    cases he.trans hanswered

/-- Every request is handled, whatever its calls are answered. -/
theorem handle_handled (supportedJobTypes : SupportedJobTypes) (path : String) (r : HttpRequest) :
    Conforms (fun _ c => ValidCall r c)
      (fun x h => ∃ response, x = .ok response ∧ Handled supportedJobTypes path r response h)
      (r.handle supportedJobTypes path) [] := by
  refine Conforms.bind (intercept_intercepted supportedJobTypes r path) ?_
    fun e h ⟨_, he, _⟩ => (by cases he)
  rintro result h ⟨_, hresult, hintercepted⟩
  obtain rfl := Except.ok.inj hresult
  have hline : ∀ more : List Call, (∀ c ∈ more, IsErrorLine c) →
      ∀ c ∈ more, ∀ op, c.call ≠ .repository op := by
    rintro more hmore c hc op hop
    obtain ⟨base, errorCode, hlog⟩ := hmore c hc
    rw [hop] at hlog
    cases hlog
  cases hintercepted with
  | replied _ hreply hagrees hwritten =>
    cases result with
    | ok body =>
      exact ⟨_, rfl, .inl ⟨_, hreply, rfl⟩, hagrees.1, hagrees.2, fun hnil => absurd hnil hwritten⟩
    | error exception =>
      obtain ⟨answered, hanswered⟩ := hreply.answered
      have hrespond : respond r (.error exception) = ⟨answered.status, .error answered.body⟩ := by
        rw [respond, hanswered]
      refine answer_error hanswered (fun more hmore => ?_) _
      rw [hrespond] at hagrees
      refine ⟨.inl ⟨_, hreply.append (hline more hmore), hrespond.symm⟩, ?_, ?_, ?_⟩
      · rw [written_append_errorLines hmore]
        exact hagrees.1
      · rw [written_append_errorLines hmore]
        exact hagrees.2
      · rw [written_append_errorLines hmore]
        exact fun hnil => absurd hnil hwritten
  | threw e hagrees hthrew =>
    obtain ⟨c, hc, hlogging, hthrew⟩ := hthrew
    have hanswered : (eval HttpExceptionFilter.brokenLogger
        (HttpExceptionFilter.catchException (.error e)) ()).1 =
          .ok ⟨500, ⟨"INTERNAL", HttpExceptionFilter.internalMessage, none⟩⟩ := rfl
    refine answer_error hanswered (fun more hmore =>
      ⟨.inr ⟨rfl, c, List.mem_append_left _ hc, hthrew⟩, ?_, ?_, ?_⟩) _
    · rw [written_append_errorLines hmore]
      exact hagrees.1
    · rw [written_append_errorLines hmore]
      exact hagrees.2
    · exact fun _ => ⟨c, List.mem_append_left _ hc, hlogging, hthrew⟩

end Interception

end JobManager.Http
