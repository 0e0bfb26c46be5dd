import JobManager.System.HttpProtocol
import JobManager.System.Trace

/-! The running service: HTTP requests and ticks over one repository. -/
namespace JobManager

open KeyedList Async JsonDbJobRepository Http

/-- What comes in: a request on one of the routes, with its `originalUrl`, or a tick. -/
inductive ServiceRequest where
  | http (path : String) (r : HttpRequest)
  | tick (skipGuardEnabled : Bool)

namespace ServiceRequest

abbrev Reply : ServiceRequest → Type
  | http _ _ => HttpResponse
  | tick _ => Unit

def program [ClassValidator ℚ] [ValidationMessages] (supportedJobTypes : SupportedJobTypes) :
    (q : ServiceRequest) → Program q.Reply
  | http path r => r.handle supportedJobTypes path
  | tick skipGuardEnabled => JobSchedulerAdapter.tick skipGuardEnabled

def Calls : ServiceRequest → List Call → Effect → Prop
  | http _ r, _, c => HttpCall r c
  | tick skipGuardEnabled, h, c => TickCall skipGuardEnabled h c

/-- What is known of a finished request. -/
def Post [ClassValidator ℚ] [ValidationMessages] (supportedJobTypes : SupportedJobTypes) :
    (q : ServiceRequest) → Except Thrown q.Reply → List Call → Prop
  | http path r, x, h => ∃ response, x = .ok response ∧ Handled supportedJobTypes path r response h
  | tick _, _, _ => True

/-- The same calls, with those of the repository only once the request has been validated. -/
def Validated [ClassValidator ℚ] : ServiceRequest → List Call → Effect → Prop
  | http _ r, _, c => ValidCall r c
  | tick skipGuardEnabled, h, c => TickCall skipGuardEnabled h c

theorem Validated.calls [ClassValidator ℚ] {q : ServiceRequest} {h : List Call} {c : Effect}
    (hq : q.Validated h c) : q.Calls h c := by
  cases q with
  | http path r => exact hq.1
  | tick skipGuardEnabled => exact hq

theorem validated [ClassValidator ℚ] [ValidationMessages] (supportedJobTypes : SupportedJobTypes)
    (q : ServiceRequest) : Conforms q.Validated (q.Post supportedJobTypes)
      (q.program supportedJobTypes) [] := by
  cases q with
  | http path r => exact handle_handled supportedJobTypes path r
  | tick skipGuardEnabled => exact Request.tick_conforms skipGuardEnabled

theorem conforms [ClassValidator ℚ] [ValidationMessages] (supportedJobTypes : SupportedJobTypes)
    (q : ServiceRequest) : Conforms q.Calls (q.Post supportedJobTypes)
      (q.program supportedJobTypes) [] :=
  (q.validated supportedJobTypes).mono (fun _ _ hq => hq.calls) fun _ _ hpost => hpost

end ServiceRequest

abbrev ServiceEntry := Async.Entry Effect.Answer Thrown ServiceRequest World
abbrev Service := Async.Pool Effect.Answer Thrown ServiceRequest.Reply World

variable [LowerCase] [ClassValidator ℚ] [ValidationMessages]

/-- The services that requests of an allowed kind can lead to from a store. -/
def Service.Reachable (supportedJobTypes : SupportedJobTypes) (allowed : ServiceRequest → Prop)
    (s : Store) (p : Service) : Prop :=
  Async.Pool.Reachable (ServiceRequest.program supportedJobTypes) allowed World.act
    (Async.Pool.start ⟨s, false⟩) p

theorem Service.Reachable.conforming {supportedJobTypes : SupportedJobTypes}
    {allowed : ServiceRequest → Prop} {s : Store} {p : Service}
    (h : Service.Reachable supportedJobTypes allowed s p) :
    Pool.Conforming allowed World.act ServiceRequest.Calls (ServiceRequest.Post supportedJobTypes)
      ⟨s, false⟩ p :=
  Pool.Reachable.conforming h fun q _ => q.conforms supportedJobTypes

/-- The jobs a search is after. -/
def JobSearchQuery.wants (query : JobSearchQuery) (job : Job) : Bool :=
  (query.title.all fun title => includes (toLowerCase job.title) (toLowerCase title)) &&
    query.status.all fun status => job.status = status

omit [ClassValidator ℚ] [ValidationMessages] in
theorem search_answer (stamp : Stamp) (query : JobSearchQuery) (jobs : List Job) :
    ((RepoOp.search query).run stamp jobs).1 = jobs.filter query.wants := by
  obtain ⟨title, status⟩ := query
  cases title <;> cases status <;> rfl

def Http.HttpRequest.jobId : HttpRequest → Option String
  | .getById id | .patch id _ | .remove id => some id
  | .create _ | .list | .search _ => none

/-- What an answer says about the store, and the call of the repository at which this holds. -/
inductive Truthful (e : ServiceEntry) : HttpRequest → HttpResponse → Prop where
  | created (body : List (String × Json ℚ)) (job : Job) (hnew : job.id ∉ e.before.store.issued)
      (hstored : stored e.after.store.jobs job.id = some job)
      (hdata : (⟨job.title, job.description⟩ : CreateJobData) = createInput (.object body))
      (hstatus : job.status = .pending)
      (hcall : e.event = ⟨.repository (.create (createInput (.object body))), .ok job⟩) :
      Truthful e (.create body) ⟨201, .job (toJobResponse job)⟩
  | listed (hcall : e.event = ⟨.repository .list, .ok e.before.store.jobs⟩) :
      Truthful e .list ⟨200, jobList e.before.store.jobs⟩
  | searched (query : List (String × Json ℚ)) (jobs : List Job)
      (hjobs : jobs = e.before.store.jobs.filter (searchInput (.object query)).wants)
      (hcall : e.event = ⟨.repository (.search (searchInput (.object query))), .ok jobs⟩) :
      Truthful e (.search query) ⟨200, jobList jobs⟩
  | found (id : String) (job : Job) (hstored : stored e.before.store.jobs id = some job)
      (hcall : e.event = ⟨.repository (.findById id), .ok (some job)⟩) :
      Truthful e (.getById id) ⟨200, .job (toJobResponse job)⟩
  | missing (r : HttpRequest) (id : String) (hid : r.jobId = some id)
      (hstored : stored e.before.store.jobs id = none)
      (hcall : ∃ op result, e.event = ⟨.repository op, .ok result⟩) :
      Truthful e r ⟨404, .error ⟨"NOT_FOUND", notFoundMessage id, none⟩⟩
  | patched (id : String) (body : List (String × Json ℚ)) (job : Job)
      (hstored : stored e.after.store.jobs id = some job)
      (hretry : (JobsController.patchInput id (.object body)).status = some .pending →
        job.status = .pending)
      (htext : ∀ field text, (JobsController.patchInput id (.object body)).patch.text field =
        some text → job.text field = text)
      (hcall : ∃ target transitioned previousStatus, e.event =
        ⟨.repository (.withTransition id target
            (some (JobsController.patchInput id (.object body)).patch)),
          .ok (.ok job transitioned previousStatus)⟩) :
      Truthful e (.patch id body) ⟨200, .job (toJobResponse job)⟩
  | notTransitioned (id : String) (body : List (String × Json ℚ)) (job : Job) (target : JobStatus)
      (hstored : stored e.before.store.jobs id = some job)
      (hretry : (JobsController.patchInput id (.object body)).status = some .pending →
        target = .pending)
      (htarget : target ≠ job.status ∧ target ∉ jobTransitions job.status) (error : ApiErrorBody)
      (hcode : error.code = "INVALID_TRANSITION")
      (hcall : ∃ patch, e.event =
        ⟨.repository (.withTransition id target patch), .ok (.refused .invalidTransition)⟩) :
      Truthful e (.patch id body) ⟨409, .error error⟩
  | exhausted (id : String) (body : List (String × Json ℚ)) (job : Job)
      (hstored : stored e.before.store.jobs id = some job) (hstatus : job.status = .failed)
      (hretries : maxRetryCount ≤ job.retryCount) (error : ApiErrorBody)
      (hcode : error.code = "RETRY_LIMIT_EXCEEDED")
      (hcall : ∃ target patch, e.event =
        ⟨.repository (.withTransition id target patch), .ok (.refused .retryLimitExceeded)⟩) :
      Truthful e (.patch id body) ⟨409, .error error⟩
  | removed (id : String) (job : Job) (hstored : stored e.before.store.jobs id = some job)
      (hstatus : job.status ≠ .processing) (hgone : stored e.after.store.jobs id = none)
      (hcall : e.event = ⟨.repository (.delete id), .ok .ok⟩) :
      Truthful e (.remove id) ⟨204, .empty⟩
  | inProgress (id : String) (job : Job) (hstored : stored e.before.store.jobs id = some job)
      (hstatus : job.status = .processing) (error : ApiErrorBody)
      (hcode : error.code = "JOB_IN_PROGRESS")
      (hcall : e.event = ⟨.repository (.delete id), .ok (.refused .forbiddenProcessing)⟩) :
      Truthful e (.remove id) ⟨409, .error error⟩

section

variable {allowed : ServiceRequest → Prop} {s : Store} {before : List ServiceEntry}
  {e : ServiceEntry} {supportedJobTypes : SupportedJobTypes} {r : HttpRequest}

abbrev Service.Occurs (allowed : ServiceRequest → Prop) (s : Store) :
    List ServiceEntry → ServiceEntry → Prop :=
  Async.Occurs allowed World.act ServiceRequest.Calls ⟨s, false⟩

omit [ClassValidator ℚ] [ValidationMessages] in
/-- What an entry does to the store: nothing, or what the operation it answers does. -/
theorem Service.Occurs.effect {guar : ServiceRequest → List Call → Effect → Prop}
    (h : Async.Occurs allowed World.act guar ⟨s, false⟩ before e) :
    (e.after.store = e.before.store ∧ ∀ op result, e.event ≠ ⟨.repository op, .ok result⟩) ∨
    ∃ op stamp, ∃ hf : op.Fresh stamp e.before.store.issued,
      e.event = ⟨.repository op, .ok (op.run stamp e.before.store.jobs).1⟩ ∧
        e.after.store = e.before.store.apply op stamp hf := by
  obtain ⟨t, hact⟩ := h.act
  obtain ⟨i, q, ⟨c, x⟩, w, w'⟩ := e
  by_cases hc : ∃ op, c = .repository op
  · obtain ⟨op, rfl⟩ := hc
    rcases World.act_repository hact with ⟨thrown, hx, hw⟩ | ⟨hf, hx, hw⟩
    · refine .inl ⟨congrArg World.store hw, fun op' result heq => ?_⟩
      cases heq
      cases hx
    · exact .inr ⟨op, t.stamp, hf, congrArg (Event.mk _) hx, congrArg World.store hw⟩
  · refine .inl ⟨World.act_store hact fun op hop => hc ⟨op, hop⟩, fun op result heq => hc ⟨op, ?_⟩⟩
    exact congrArg Event.call heq

omit [ClassValidator ℚ] [ValidationMessages] in
/-- An answered repository call is the atomic operation. -/
theorem Service.Occurs.applies (h : Service.Occurs allowed s before e) {op : RepoOp}
    {result : op.Result} (he : e.event = ⟨.repository op, .ok result⟩) :
    ∃ stamp, ∃ hf : op.Fresh stamp e.before.store.issued,
      result = (op.run stamp e.before.store.jobs).1 ∧
        e.after.store = e.before.store.apply op stamp hf := by
  rcases Service.Occurs.effect h with ⟨-, hquiet⟩ | ⟨op', stamp, hf, he', hafter⟩
  · exact absurd he (hquiet op result)
  · rw [he] at he'
    cases he'
    exact ⟨stamp, hf, rfl, hafter⟩

omit [ClassValidator ℚ] [ValidationMessages] in
theorem Service.Occurs.silent (h : Service.Occurs allowed s before e)
    (hc : ∀ op, e.event.call ≠ .repository op) : e.after.store = e.before.store := by
  rcases Service.Occurs.effect h with ⟨hsame, -⟩ | ⟨op, stamp, hf, he, -⟩
  · exact hsame
  · exact absurd (congrArg Event.call he) (hc op)

end

omit [LowerCase] [ClassValidator ℚ] [ValidationMessages] in
theorem verdict_ok {target : JobStatus} {patch : Option JobPatch} {now : String}
    {found : Option Job} {job : Job} {transitioned : Bool} {previousStatus : JobStatus}
    (h : TransitionResult.ok job transitioned previousStatus = verdict target patch now found) :
    ∃ current, found = some current ∧ Admits current target ∧
      job = updatedJob current target patch now := by
  cases found with
  | none => cases h
  | some current =>
    rw [verdict] at h
    split at h
    · next hadmits => exact ⟨current, rfl, hadmits, (TransitionResult.ok.inj h).1⟩
    · cases h

omit [LowerCase] [ClassValidator ℚ] [ValidationMessages] in
theorem verdict_refused {target : JobStatus} {patch : Option JobPatch} {now : String}
    {found : Option Job} {reason : TransitionFailureReason}
    (h : TransitionResult.refused reason = verdict target patch now found) :
    found = none ∧ reason = .notFound ∨ ∃ job, found = some job ∧ target ≠ job.status ∧
      (reason = .invalidTransition ∧ target ∉ jobTransitions job.status ∨
        reason = .retryLimitExceeded ∧ job.status = .failed ∧ maxRetryCount ≤ job.retryCount) := by
  cases found with
  | none => exact .inl ⟨rfl, TransitionResult.refused.inj h⟩
  | some job =>
    rw [verdict] at h
    split at h
    · cases h
    · next hadmits =>
      refine .inr ⟨job, rfl, fun htarget => hadmits (.inl htarget), ?_⟩
      obtain rfl := TransitionResult.refused.inj h
      obtain ⟨error, herror, hrefusal⟩ := transitionError_of_not_admits hadmits
      rw [hrefusal]
      rcases transitionError_eq_some herror with ⟨rfl, hedge⟩ | ⟨rfl, hlimit⟩
      · exact .inl ⟨rfl, hedge⟩
      · exact .inr ⟨rfl, hlimit⟩

omit [LowerCase] [ClassValidator ℚ] [ValidationMessages] in
theorem deleteVerdict_ok {found : Option Job} (h : DeleteResult.ok = deleteVerdict found) :
    ∃ job, found = some job ∧ canDelete job = true := by
  cases found with
  | none => cases h
  | some job =>
    rw [deleteVerdict] at h
    split at h
    · next hdelete => exact ⟨job, rfl, hdelete⟩
    · cases h

omit [LowerCase] [ClassValidator ℚ] [ValidationMessages] in
theorem deleteVerdict_refused {found : Option Job} {reason : DeleteFailureReason}
    (h : DeleteResult.refused reason = deleteVerdict found) :
    found = none ∧ reason = .notFound ∨
      ∃ job, found = some job ∧ reason = .forbiddenProcessing ∧ job.status = .processing := by
  cases found with
  | none => exact .inl ⟨rfl, DeleteResult.refused.inj h⟩
  | some job =>
    rw [deleteVerdict] at h
    split at h
    · cases h
    · next hdelete =>
      exact .inr ⟨job, rfl, DeleteResult.refused.inj h, by simpa [canDelete_iff] using hdelete⟩

/-- What is turned away before any call: an invalid object, or a job of no supported type. -/
inductive TurnedAway (supportedJobTypes : SupportedJobTypes) :
    HttpRequest → HttpResponse → Prop where
  | invalid (r : HttpRequest) (dto : Dto ℚ) (fields : List (String × Json ℚ))
      (hr : r.validates = some (dto, fields)) (hinvalid : ValidationPipe.accepts dto fields = false)
      (error : ApiErrorBody) (hcode : error.code = "VALIDATION_FAILED") :
      TurnedAway supportedJobTypes r ⟨400, .error error⟩
  | unsupported (body : List (String × Json ℚ))
      (htitle : supportedJobTypes.isSupported (createInput (.object body)).title = false)
      (error : ApiErrorBody) (hcode : error.code = "UNSUPPORTED_JOB_TYPE") :
      TurnedAway supportedJobTypes (.create body) ⟨400, .error error⟩

section

variable {allowed : ServiceRequest → Prop} {s : Store} {supportedJobTypes : SupportedJobTypes}
  {p : Service} {i : ℕ} {r : HttpRequest}

omit [ClassValidator ℚ] [ValidationMessages] in
theorem Service.silent_of_history
    (hp : Async.Valid allowed World.act ServiceRequest.Calls ⟨s, false⟩ p.trace p.state)
    (hnone : ∀ c ∈ history i p.trace, ∀ op, c.call ≠ .repository op) :
    ∀ e ∈ p.trace, e.fiber = i → e.after.store = e.before.store := by
  rintro e he rfl
  obtain ⟨before, hoccurs⟩ := hp.mem he
  exact Service.Occurs.silent hoccurs (hnone _ (mem_history he))

omit [ClassValidator ℚ] [ValidationMessages] in
/-- An answered call of the repository is the operation on the jobs stored at that moment. -/
theorem Service.applies_of_history
    (hp : Async.Valid allowed World.act ServiceRequest.Calls ⟨s, false⟩ p.trace p.state)
    {op : RepoOp} {x : op.Result} (hx : (⟨.repository op, .ok x⟩ : Call) ∈ history i p.trace) :
    ∃ e ∈ p.trace, e.fiber = i ∧ e.event = ⟨.repository op, .ok x⟩ ∧
      ∃ stamp, ∃ hf : op.Fresh stamp e.before.store.issued,
        x = (op.run stamp e.before.store.jobs).1 ∧
          e.after.store = e.before.store.apply op stamp hf := by
  obtain ⟨e, he, hi, hevent⟩ := mem_of_mem_history hx
  obtain ⟨before, hoccurs⟩ := hp.mem he
  exact ⟨e, he, hi, hevent, Service.Occurs.applies hoccurs hevent⟩

/-- What a reply of the controller rests on, found in the trace. -/
theorem Http.Replies.truthful (hp : Async.Valid allowed World.act ServiceRequest.Calls ⟨s, false⟩
      p.trace p.state) {result : Except Exception ResponseBody}
    (hr : Replies supportedJobTypes (history i p.trace) r result) :
    (∃ e ∈ p.trace, e.fiber = i ∧ Truthful e r (respond r result)) ∨
    (TurnedAway supportedJobTypes r (respond r result) ∧
      ∀ e ∈ p.trace, e.fiber = i → e.after.store = e.before.store) ∨
    respond r result = internalError ∧ ∃ e ∈ p.trace, e.fiber = i ∧ Threw e.event := by
  cases hr with
  | invalid _ dto fields hv hinvalid hnone =>
    refine .inr (.inl ⟨?_, Service.silent_of_history hp hnone⟩)
    rw [respond, catchException_badRequest]
    exact .invalid r dto fields hv hinvalid _ rfl
  | unsupported body hvalid htitle hnone =>
    exact .inr (.inl ⟨.unsupported body htitle _ rfl, Service.silent_of_history hp hnone⟩)
  | created body job hvalid htitle hcall =>
    obtain ⟨e, he, hi, hcall, stamp, hf, rfl, hafter⟩ := Service.applies_of_history hp hcall
    refine .inl ⟨e, he, hi, .created body _ (hf _ rfl) ?_ rfl rfl hcall⟩
    have hnone : stored e.before.store.jobs stamp.uuid = none :=
      (e.before.store.stored_eq_none _).mpr fun hid =>
        hf _ rfl (e.before.store.ids_subset_issued hid)
    rw [hafter, Store.stored_apply]
    exact (congrArg (Option.or · _) hnone).trans (if_pos rfl)
  | listed jobs hcall =>
    obtain ⟨e, he, hi, hcall, stamp, hf, rfl, hafter⟩ := Service.applies_of_history hp hcall
    exact .inl ⟨e, he, hi, .listed hcall⟩
  | searched query jobs hvalid hcall =>
    obtain ⟨e, he, hi, hcall, stamp, hf, rfl, hafter⟩ := Service.applies_of_history hp hcall
    exact .inl ⟨e, he, hi, .searched query _ (search_answer stamp _ _) hcall⟩
  | found id job hcall =>
    obtain ⟨e, he, hi, hcall, stamp, hf, hx, hafter⟩ := Service.applies_of_history hp hcall
    exact .inl ⟨e, he, hi, .found id job hx.symm hcall⟩
  | missing id hcall =>
    obtain ⟨e, he, hi, hcall, stamp, hf, hx, hafter⟩ := Service.applies_of_history hp hcall
    exact .inl ⟨e, he, hi, .missing _ id rfl hx.symm ⟨_, _, hcall⟩⟩
  | patchMissing id body hcall =>
    obtain ⟨e, he, hi, hcall, stamp, hf, hx, hafter⟩ := Service.applies_of_history hp hcall
    exact .inl ⟨e, he, hi, .missing _ id rfl hx.symm ⟨_, _, hcall⟩⟩
  | patched id body target job transitioned previousStatus hvalid htarget hcall =>
    obtain ⟨e, he, hi, hcall, stamp, hf, hx, hafter⟩ := Service.applies_of_history hp hcall
    rw [withTransition_answer] at hx
    obtain ⟨current, hstored, hadmits, rfl⟩ := verdict_ok hx
    refine .inl ⟨e, he, hi, .patched id body _ ?_ htarget ?_ ⟨_, _, _, hcall⟩⟩
    · rw [hafter, Store.stored_apply, hstored]
      simp [RepoOp.effect, hadmits]
    · intro field text htext
      rw [updatedJob_text, Option.bind_some, htext]
      rfl
  | patchRefused id body target patch reason htarget hcall =>
    obtain ⟨e, he, hi, hcall, stamp, hf, hx, hafter⟩ := Service.applies_of_history hp hcall
    rw [withTransition_answer] at hx
    rcases verdict_refused hx with ⟨hstored, rfl⟩ | ⟨job, hstored, hne, hreason⟩
    · exact .inl ⟨e, he, hi, .missing _ id rfl hstored ⟨_, _, hcall⟩⟩
    · rcases hreason with ⟨rfl, hedge⟩ | ⟨rfl, hstatus, hretries⟩
      · exact .inl ⟨e, he, hi,
          .notTransitioned id body job target hstored htarget ⟨hne, hedge⟩ _ rfl ⟨_, hcall⟩⟩
      · exact .inl ⟨e, he, hi, .exhausted id body job hstored hstatus hretries _ rfl ⟨_, _, hcall⟩⟩
  | removed id hcall =>
    obtain ⟨e, he, hi, hcall, stamp, hf, hx, hafter⟩ := Service.applies_of_history hp hcall
    rw [delete_answer] at hx
    obtain ⟨job, hstored, hdelete⟩ := deleteVerdict_ok hx
    refine .inl ⟨e, he, hi, .removed id job hstored ((canDelete_iff job).mp hdelete) ?_ hcall⟩
    rw [hafter, Store.stored_apply, hstored]
    simp [RepoOp.effect, hdelete]
  | removeRefused id reason hcall =>
    obtain ⟨e, he, hi, hcall, stamp, hf, hx, hafter⟩ := Service.applies_of_history hp hcall
    rw [delete_answer] at hx
    rcases deleteVerdict_refused hx with ⟨hstored, rfl⟩ | ⟨job, hstored, rfl, hstatus⟩
    · exact .inl ⟨e, he, hi, .missing _ id rfl hstored ⟨_, _, hcall⟩⟩
    · exact .inl ⟨e, he, hi, .inProgress id job hstored hstatus _ rfl hcall⟩
  | failed _ op e hcall =>
    obtain ⟨entry, he, hi, hevent⟩ := mem_of_mem_history hcall
    exact .inr (.inr ⟨rfl, entry, he, hi, hevent ▸ ⟨e, rfl⟩⟩)

/-- What an answer rests on, found in the trace. -/
theorem Http.Handled.truthful (hp : Async.Valid allowed World.act ServiceRequest.Calls ⟨s, false⟩
      p.trace p.state) {path : String} {response : HttpResponse}
    (hhandled : Handled supportedJobTypes path r response (history i p.trace)) :
    (∃ e ∈ p.trace, e.fiber = i ∧ Truthful e r response) ∨
    (TurnedAway supportedJobTypes r response ∧
      ∀ e ∈ p.trace, e.fiber = i → e.after.store = e.before.store) ∨
    response = internalError ∧ ∃ e ∈ p.trace, e.fiber = i ∧ Threw e.event := by
  rcases hhandled.reply with ⟨reply, hreply, rfl⟩ | ⟨hinternal, c, hc, hthrew⟩
  · exact hreply.truthful hp
  · obtain ⟨e, he, hei, rfl⟩ := mem_of_mem_history hc
    exact .inr (.inr ⟨hinternal, e, he, hei, hthrew⟩)

/-- Every HTTP answer is true of the store at one call of the repository that the request has made,
or it turns the request away before it touched the store, or it is the internal error of a call that
threw. -/
theorem http_truthful (h : Service.Reachable supportedJobTypes allowed s p) {path : String}
    {result : Except Thrown HttpResponse}
    (hi : p.fibers[i]? = some ⟨.http path r, .settled result⟩) :
    ∃ response, result = .ok response ∧
      ((∃ e ∈ p.trace, e.fiber = i ∧ Truthful e r response) ∨
        (TurnedAway supportedJobTypes r response ∧
          ∀ e ∈ p.trace, e.fiber = i → e.after.store = e.before.store) ∨
        response = internalError ∧ ∃ e ∈ p.trace, e.fiber = i ∧ Threw e.event) := by
  have hp := h.conforming
  obtain ⟨response, rfl, hhandled⟩ := hp.fibers i _ hi
  exact ⟨response, rfl, hhandled.truthful hp.valid⟩

omit [LowerCase] [ClassValidator ℚ] [ValidationMessages] in
/-- What a request of some kind has been answered. -/
def Service.answered? (p : Service) (i : ℕ) (path : String) (asks : HttpRequest → Bool) :
    Option HttpResponse :=
  match p.fibers[i]? with
  | some ⟨.http path' r, .settled (.ok response)⟩ =>
    if path' = path ∧ asks r = true then some response else none
  | _ => none

omit [LowerCase] [ClassValidator ℚ] [ValidationMessages] in
theorem Service.fiber_of_answered {path : String} {asks : HttpRequest → Bool}
    {response : HttpResponse} (h : p.answered? i path asks = some response) :
    ∃ r, asks r = true ∧ p.fibers[i]? = some ⟨.http path r, .settled (.ok response)⟩ := by
  unfold Service.answered? at h
  split at h
  · next path' r response' hi =>
    split at h
    · next hasked =>
      obtain ⟨rfl, hasks⟩ := hasked
      obtain rfl := Option.some.inj h
      exact ⟨r, hasks, hi⟩
    · cases h
  · cases h

omit [LowerCase] [ClassValidator ℚ] [ValidationMessages] in
def Http.HttpRequest.isGet (id : String) : HttpRequest → Bool
  | .getById id' => id' = id
  | _ => false

omit [LowerCase] [ClassValidator ℚ] [ValidationMessages] in
def Service.found? (p : Service) (i : ℕ) (path id : String) : Option HttpResponse :=
  p.answered? i path (HttpRequest.isGet id)

omit [LowerCase] [ClassValidator ℚ] [ValidationMessages] in
theorem Service.fiber_of_found {path id : String} {response : HttpResponse}
    (h : p.found? i path id = some response) :
    p.fibers[i]? = some ⟨.http path (.getById id), .settled (.ok response)⟩ := by
  obtain ⟨r, hasks, hi⟩ := Service.fiber_of_answered h
  cases r with
  | getById id' =>
    obtain rfl := of_decide_eq_true hasks
    exact hi
  | create body | list | search query | patch id' body | remove id' => cases hasks

omit [LowerCase] [ClassValidator ℚ] [ValidationMessages] in
/-- The one pending job is found as it is stored. -/
theorem http_truthful_found :
    letI := LowerCase.ascii
    letI := ClassValidator.codePoints ℚ
    letI : ValidationMessages := ⟨fun _ _ => []⟩
    ∃ p, Service.Reachable ⟨fun _ => true, []⟩ (fun _ => True) Store.onePending p ∧
      ∃ e ∈ p.trace, e.fiber = 0 ∧ Truthful e (.getById "1")
        ⟨200, .job ⟨"1", "title", "text", .pending, "t", "t"⟩⟩ := by
  let _ := LowerCase.ascii
  let _ := ClassValidator.codePoints ℚ
  let _ : ValidationMessages := ⟨fun _ _ => []⟩
  obtain ⟨p, hp, hfound⟩ : ∃ p, Service.Reachable ⟨fun _ => true, []⟩ (fun _ => True)
      Store.onePending p ∧ p.found? 0 "/jobs/1" "1" = some
        ⟨200, .job ⟨"1", "title", "text", .pending, "t", "t"⟩⟩ :=
    Async.Pool.exists_reachable [.start (.http "/jobs/1" (.getById "1")), .resume 0 .quiet,
      .resume 0 .quiet, .resume 0 .quiet, .resume 0 .quiet] _ _ (by decide +kernel)
  obtain ⟨response, hresponse, ⟨e, he, hei, htruthful⟩ | ⟨haway, -⟩ | ⟨hinternal, -⟩⟩ :=
    http_truthful hp (Service.fiber_of_found hfound)
  · obtain rfl := Except.ok.inj hresponse
    exact ⟨p, hp, e, he, hei, htruthful⟩
  · obtain rfl := Except.ok.inj hresponse
    cases haway
  · cases hresponse.trans (congrArg Except.ok hinternal)

/-- Every finished HTTP request has left exactly one `http_request` line, which agrees with the
answer the client got, unless a call of its own logger or clock threw. -/
theorem http_request_logged (h : Service.Reachable supportedJobTypes allowed s p) {path : String}
    {result : Except Thrown HttpResponse}
    (hi : p.fibers[i]? = some ⟨.http path r, .settled result⟩) :
    ∃ response, result = .ok response ∧
      ((∃ latencyMs, written (history i p.trace) = [.httpRequest
        (LoggingInterceptor.completionBase response.errorCode) r.method path response.status
        latencyMs response.errorCode]) ∨
      written (history i p.trace) = [] ∧
        ∃ e ∈ p.trace, e.fiber = i ∧ IsLogging e.event.call ∧ Threw e.event) := by
  have hp := h.conforming
  obtain ⟨response, rfl, hhandled⟩ := hp.fibers i _ hi
  refine ⟨response, rfl, ?_⟩
  have honce := hhandled.once
  have hagrees := hhandled.agrees
  cases hw : written (history i p.trace) with
  | nil =>
    obtain ⟨c, hc, hlogging, hthrew⟩ := hhandled.logged hw
    obtain ⟨e, he, hei, rfl⟩ := mem_of_mem_history hc
    exact .inr ⟨rfl, e, he, hei, hlogging, hthrew⟩
  | cons event events =>
    rw [hw] at honce hagrees
    obtain rfl : events = [] := List.eq_nil_of_length_eq_zero (Nat.le_zero.mp
      (Nat.le_of_succ_le_succ honce))
    obtain ⟨latencyMs, rfl⟩ := hagrees event (List.mem_singleton_self event)
    exact .inl ⟨latencyMs, rfl⟩

omit [LowerCase] [ClassValidator ℚ] [ValidationMessages] in
/-- The line of the same GET. -/
theorem http_request_logged_found :
    letI := LowerCase.ascii
    letI := ClassValidator.codePoints ℚ
    letI : ValidationMessages := ⟨fun _ _ => []⟩
    ∃ p, Service.Reachable ⟨fun _ => true, []⟩ (fun _ => True) Store.onePending p ∧
      ∃ latencyMs, written (history 0 p.trace) = [.httpRequest ⟨.info, .http, "request completed"⟩
        "GET" "/jobs/1" 200 latencyMs none] := by
  let _ := LowerCase.ascii
  let _ := ClassValidator.codePoints ℚ
  let _ : ValidationMessages := ⟨fun _ _ => []⟩
  obtain ⟨p, hp, hfound, hok⟩ : ∃ p, Service.Reachable ⟨fun _ => true, []⟩ (fun _ => True)
      Store.onePending p ∧ p.found? 0 "/jobs/1" "1" = some
        ⟨200, .job ⟨"1", "title", "text", .pending, "t", "t"⟩⟩ ∧
      ∀ e ∈ p.trace, e.event.answer.isOk = true :=
    Async.Pool.exists_reachable [.start (.http "/jobs/1" (.getById "1")), .resume 0 .quiet,
      .resume 0 .quiet, .resume 0 .quiet, .resume 0 .quiet] _ _ (by decide +kernel)
  obtain ⟨response, hresponse, ⟨latencyMs, hwritten⟩ | ⟨-, e, he, -, -, thrown, hthrew⟩⟩ :=
    http_request_logged hp (Service.fiber_of_found hfound)
  · obtain rfl := Except.ok.inj hresponse
    exact ⟨p, hp, latencyMs, hwritten⟩
  · have := hok e he
    rw [hthrew] at this
    cases this

end

end JobManager
