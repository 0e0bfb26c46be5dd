import JobManager.AdminUi.AdminPage
import JobManager.AdminUi.PageActions
import JobManager.System.Sessions

/-! The admin page in front of the running service: what it shows and reports is so. -/
namespace JobManager

open KeyedList Async JsonDbJobRepository Http Text

section Answers

variable {statusText : String}

/-- What the client resolves with is not an answer of the filter. -/
theorem ApiClient.read_error {status : ℚ} {error : ApiErrorBody} (h : 400 ≤ status) :
    ApiClient.read statusText ⟨status, .error error⟩ =
      .error (.api ⟨status, some error.code, error.message, error.details⟩) := by
  have hempty : status ≠ 204 := by
    rintro rfl
    norm_num at h
  have hok : ApiClient.isOk ⟨status, .error error⟩ = false := by
    have : ¬ status ≤ 299 := not_le.mpr (lt_of_lt_of_le (by norm_num) h)
    simp [ApiClient.isOk, this]
  unfold ApiClient.read
  rw [if_neg hempty, hok]
  rfl

theorem listAnswer_jobList {jobs : List Job} {envelope : JobListEnvelope}
    (h : ApiClient.listAnswer (ApiClient.read statusText ⟨200, jobList jobs⟩) =
      some (.ok envelope)) : envelope = ⟨jobs.map toJobResponse, jobs.length⟩ := by
  have hread : ApiClient.read statusText ⟨200, jobList jobs⟩ = .ok (jobList jobs) := by
    norm_num [ApiClient.read, ApiClient.isOk]
  rw [hread] at h
  exact (Except.ok.inj (Option.some.inj h)).symm

/-- The call for some parameters, with what is left of the search box. -/
theorem UseJobs.request_call (params : UseJobs.Params) :
    ((UseJobs.request params).call = .listJobs ∧ trim params.titleQuery = "" ∧
      params.statusFilter = none) ∨
    (UseJobs.request params).call = .search
      (if trim params.titleQuery = "" then none else some (trim params.titleQuery))
      params.statusFilter := by
  unfold UseJobs.request searchJobs
  by_cases htitle : trim params.titleQuery = "" <;> cases hstatus : params.statusFilter <;>
    simp [htitle]

variable [LowerCase] {e : ServiceEntry}

/-- The list that answers the parameters of the page. -/
theorem Truthful.list_wants {params : UseJobs.Params} {response : HttpResponse}
    (h : Truthful e (UseJobs.request params).call.request response) {envelope : JobListEnvelope}
    (hread : ApiClient.listAnswer (ApiClient.read statusText response) = some (.ok envelope)) :
    envelope = ⟨(e.before.store.jobs.filter params.wants).map toJobResponse,
      (e.before.store.jobs.filter params.wants).length⟩ := by
  rcases UseJobs.request_call params with ⟨hcall, htitle, hstatus⟩ | hcall <;> rw [hcall] at h
  · cases h with
    | listed =>
      have hwants : e.before.store.jobs.filter params.wants = e.before.store.jobs :=
        List.filter_eq_self.mpr fun job _ => by simp [UseJobs.Params.wants, htitle, hstatus]
      rw [hwants]
      exact listAnswer_jobList hread
    | missing _ id hid => cases hid
  · cases h with
    | searched query jobs hjobs =>
      subst hjobs
      rw [searchInput_searchQuery] at hread
      have hwants : params.wants = JobSearchQuery.wants
          ⟨if trim params.titleQuery = "" then none else some (trim params.titleQuery),
            params.statusFilter⟩ := by
        funext job
        unfold UseJobs.Params.wants JobSearchQuery.wants
        split_ifs with htitle <;> simp [htitle]
      rw [hwants]
      exact listAnswer_jobList hread
    | missing _ id hid => cases hid

end Answers

variable [LowerCase] [ClassValidator ℚ] [ValidationMessages] {supportedJobTypes : SupportedJobTypes}
  {allowed : ServiceRequest → Prop} {s : Store} {p : Service} {i : ℕ} {path statusText : String}

/-- What the client resolves with rests on a call of its request. -/
theorem Http.HttpRequest.resolved {r : HttpRequest} {response : HttpResponse}
    (hp : Pool.Conforming allowed World.act ServiceRequest.Calls
      (ServiceRequest.Post supportedJobTypes) ⟨s, false⟩ p)
    (hi : p.fibers[i]? = some ⟨.http path r, .settled (.ok response)⟩) {body : ResponseBody}
    (hread : ApiClient.read statusText response = .ok body) :
    ∃ e ∈ p.trace, e.fiber = i ∧ Truthful e r response := by
  obtain ⟨_, hresponse, hhandled⟩ := hp.fibers i _ hi
  obtain rfl := Except.ok.inj hresponse
  rcases hhandled.truthful hp.valid with hrests | ⟨haway, -⟩ | ⟨rfl, -⟩
  · exact hrests
  · cases haway <;> (rw [ApiClient.read_error le_rfl] at hread; cases hread)
  · rw [internalError, ApiClient.read_error (by norm_num)] at hread
    cases hread

/-- When the page is at rest (the search box has been left alone long enough, nothing is in flight,
and the last response was a list), then it shows exactly the jobs that were stored at a moment of
the last request and fit what is in the search box and the status filter, as long as the responses
have come in order. -/
theorem page_at_rest_shows_store {hidden : Bool} {steps : List (AdminPage × AdminPage.Event)}
    {page : AdminPage} (hrun : AdminPage.Run (AdminPage.mount hidden) steps page)
    (hinOrder : ∀ x ∈ steps, AdminPage.InOrder x.1 x.2) (htimer : page.timer = none)
    (hquiet : page.list.inFlight = []) {number : ℕ} {envelope : JobListEnvelope}
    (hlast : page.list.lastResponse = some (number, .ok envelope))
    {sent : UseJobs.ListRequest} (hsent : page.list.issued[number]? = some sent)
    (h : Service.Reachable supportedJobTypes allowed s p) {response : HttpResponse}
    (hi : p.fibers[i]? = some ⟨.http path sent.call.request, .settled (.ok response)⟩)
    (hread : ApiClient.listAnswer (ApiClient.read statusText response) = some (.ok envelope)) :
    ∃ e ∈ p.trace, e.fiber = i ∧
      page.list.jobs = (e.before.store.jobs.filter
        (UseJobs.Params.wants ⟨page.titleInput, page.statusFilter⟩)).map toJobResponse ∧
      page.list.count = page.list.jobs.length := by
  have hsteady := AdminPage.run_steady hrun hinOrder
  obtain ⟨hcurrent, hjobs, hcount⟩ := hsteady.current hquiet number envelope hlast
  rw [hsteady.params, hsteady.debounced htimer] at hcurrent
  obtain rfl := Option.some.inj (hsent.symm.trans hcurrent)
  obtain ⟨body, hbody⟩ : ∃ body, ApiClient.read statusText response = .ok body := by
    cases hresult : ApiClient.read statusText response with
    | ok body => exact ⟨body, rfl⟩
    | error failure =>
      rw [hresult] at hread
      cases failure <;> cases hread
  obtain ⟨e, he, hei, htruthful⟩ := HttpRequest.resolved h.conforming hi hbody
  obtain rfl := htruthful.list_wants hread
  refine ⟨e, he, hei, hjobs, ?_⟩
  rw [hcount, hjobs, List.length_map]

omit [LowerCase] [ClassValidator ℚ] [ValidationMessages] in
theorem page_at_rest_shows_store_first :
    letI := LowerCase.ascii
    letI := ClassValidator.codePoints ℚ
    letI : ValidationMessages := ⟨fun _ _ => []⟩
    let shown : JobResponse := ⟨"1", "title", "text", .pending, "t", "t"⟩
    ∃ p, Service.Reachable ⟨fun _ => true, []⟩ (fun _ => True) Store.onePending p ∧
      ∃ steps page, AdminPage.Run (AdminPage.mount false) steps page ∧
        page.list.jobs = [shown] ∧ ∃ e ∈ p.trace, e.fiber = 0 ∧
          page.list.jobs = (e.before.store.jobs.filter
            (UseJobs.Params.wants ⟨page.titleInput, page.statusFilter⟩)).map toJobResponse := by
  let _ := LowerCase.ascii
  let _ := ClassValidator.codePoints ℚ
  let _ : ValidationMessages := ⟨fun _ _ => []⟩
  let shown : JobResponse := ⟨"1", "title", "text", .pending, "t", "t"⟩
  let asks : HttpRequest → Bool := fun r => match r with
    | .list => true
    | _ => false
  obtain ⟨p, hp, hlisted⟩ : ∃ p, Service.Reachable ⟨fun _ => true, []⟩ (fun _ => True)
      Store.onePending p ∧ p.answered? 0 "/jobs" asks = some ⟨200, .jobs [shown] 1⟩ :=
    Async.Pool.exists_reachable (.start (.http "/jobs" .list) ::
      List.replicate 4 (.resume 0 .quiet)) _ _ (by decide +kernel)
  obtain ⟨r, hasks, hi⟩ := Service.fiber_of_answered hlisted
  obtain rfl : r = .list := by
    cases r with
    | list => rfl
    | create body | search query | getById id | patch id body | remove id => cases hasks
  have hread : ApiClient.listAnswer (ApiClient.read "OK" ⟨200, .jobs [shown] 1⟩) =
      some (.ok ⟨[shown], 1⟩) := by
    norm_num [ApiClient.listAnswer, ApiClient.read, ApiClient.isOk]
  have hrun : AdminPage.Run (AdminPage.mount false) _ _ :=
    .snoc (.snoc .nil .timeout rfl) (.list (.response 0 (.ok ⟨[shown], 1⟩))) rfl
  obtain ⟨e, he, hei, hjobs, -⟩ := page_at_rest_shows_store hrun
    (List.forall_mem_cons.mpr ⟨trivial, fun x hx => List.mem_singleton.mp hx ▸ fun _ => rfl⟩)
    rfl rfl rfl rfl hp hi hread
  exact ⟨p, hp, _, _, hrun, rfl, e, he, hei, hjobs⟩

/-- The call has written a job in answer to a PATCH. -/
def Wrote (e : ServiceEntry) (id : String) (job : Job) : Prop :=
  (∃ target patch transitioned previousStatus, e.event =
    ⟨.repository (.withTransition id target patch),
      .ok (.ok job transitioned previousStatus)⟩) ∧ stored e.after.store.jobs id = some job

/-- What a success of the action says, and the call of the repository that has done it. A retry of a
job that is `pending` already writes it once more. -/
def PageAction.Done (e : ServiceEntry) : PageAction → Prop
  | handleSubmit title description => ∃ job,
    e.event = ⟨.repository (.create ⟨trim title, trim description⟩), .ok job⟩ ∧
    job.id ∉ e.before.store.issued ∧ stored e.after.store.jobs job.id = some job ∧
      job.title = trim title ∧ job.description = trim description ∧ job.status = .pending
  | handleSave dialog => ∃ job, Wrote e dialog.job.id job ∧
    job.title = dialog.title ∧ job.description = dialog.description
  | handleRetry shown => ∃ job, Wrote e shown.id job ∧ job.status = .pending
  | handleConfirmDelete shown => e.event = ⟨.repository (.delete shown.id), .ok .ok⟩ ∧
    ∃ job, stored e.before.store.jobs shown.id = some job ∧
      job.status ≠ .processing ∧ stored e.after.store.jobs shown.id = none

omit [LowerCase] [ClassValidator ℚ] [ValidationMessages] in
/-- What the controller reads of a job to be created is what the page has put there. -/
theorem createInput_createBody (title description : String) :
    createInput (.object (PageAction.createBody title description)) =
      ⟨trim title, trim description⟩ := by
  unfold PageAction.createBody
  split_ifs with hempty
  · rw [hempty]
    rfl
  · rfl

section Actions

variable {e : ServiceEntry} {response : HttpResponse} {body : ResponseBody}

omit [LowerCase] [ClassValidator ℚ] [ValidationMessages] in
theorem read_ok_status {error : ApiErrorBody} {status : ℚ}
    (hread : ApiClient.read statusText ⟨status, .error error⟩ = .ok body) : ¬ 400 ≤ status := by
  intro hstatus
  rw [ApiClient.read_error hstatus] at hread
  cases hread

omit [ClassValidator ℚ] [ValidationMessages] in
/-- A PATCH that resolves has been carried out. -/
theorem Truthful.patch_resolved {id : String} {fields : List (String × Json ℚ)}
    (h : Truthful e (.patch id fields) response)
    (hread : ApiClient.read statusText response = .ok body) :
    ∃ job, Wrote e id job ∧
      ((JobsController.patchInput id (.object fields)).status = some .pending →
        job.status = .pending) ∧
      ∀ field text, (JobsController.patchInput id (.object fields)).patch.text field =
        some text → job.text field = text := by
  cases h with
  | patched id fields job hstored hretry htext hcall =>
    obtain ⟨target, transitioned, previousStatus, hevent⟩ := hcall
    exact ⟨job, ⟨⟨target, _, transitioned, previousStatus, hevent⟩, hstored⟩, hretry, htext⟩
  | missing | notTransitioned | exhausted => exact absurd (by norm_num) (read_ok_status hread)

omit [ClassValidator ℚ] [ValidationMessages] in
/-- What a resolved call of an action rests on is what the action is for. -/
theorem Truthful.done {action : PageAction} {r : HttpRequest} (hr : action.request = some r)
    (h : Truthful e r response) (hread : ApiClient.read statusText response = .ok body) :
    action.Done e := by
  cases action with
  | handleSubmit title description =>
    simp only [PageAction.request] at hr
    split at hr
    · cases hr
    · obtain rfl := Option.some.inj hr
      cases h with
      | created fields job hnew hstored hdata hstatus hcall =>
        rw [createInput_createBody] at hdata hcall
        obtain ⟨htitle, hdescription⟩ := CreateJobData.mk.inj hdata
        exact ⟨job, hcall, hnew, hstored, htitle, hdescription, hstatus⟩
      | missing _ id hid => cases hid
  | handleSave dialog =>
    simp only [PageAction.request] at hr
    split at hr
    · next fields hsave =>
      obtain rfl := Option.some.inj hr
      obtain ⟨job, hwrote, -, htext⟩ := h.patch_resolved hread
      rw [dialog.patchInput_handleSave hsave] at htext
      exact ⟨job, hwrote, htext .title _ rfl, htext .description _ rfl⟩
    · cases hr
  | handleRetry shown =>
    obtain rfl := Option.some.inj hr
    obtain ⟨job, hwrote, hretry, -⟩ := h.patch_resolved hread
    exact ⟨job, hwrote, hretry rfl⟩
  | handleConfirmDelete shown =>
    obtain rfl := Option.some.inj hr
    cases h with
    | removed id job hstored hstatus hgone hcall => exact ⟨hcall, job, hstored, hstatus, hgone⟩
    | missing | inProgress => exact absurd (by norm_num) (read_ok_status hread)

end Actions

/-- A success is reported only of what a call of the request has done. -/
theorem success_toast_true (h : Service.Reachable supportedJobTypes allowed s p)
    {action : PageAction} {r : HttpRequest} (hr : action.request = some r)
    {response : HttpResponse} (hi : p.fibers[i]? = some ⟨.http path r, .settled (.ok response)⟩)
    (hsuccess : (action.toast (ApiClient.read statusText response)).variant = .success) :
    ∃ e ∈ p.trace, e.fiber = i ∧ action.Done e := by
  obtain ⟨body, hread⟩ := PageAction.toast_success hsuccess
  obtain ⟨e, he, hei, htruthful⟩ := HttpRequest.resolved h.conforming hi hread
  exact ⟨e, he, hei, htruthful.done hr hread⟩

omit [LowerCase] [ClassValidator ℚ] [ValidationMessages] in
def Http.HttpRequest.isDelete (id : String) : HttpRequest → Bool
  | .remove id' => id' = id
  | _ => false

omit [LowerCase] [ClassValidator ℚ] [ValidationMessages] in
theorem Http.HttpRequest.eq_of_isDelete {id : String} {r : HttpRequest} (h : r.isDelete id = true) :
    r = .remove id := by
  cases r with
  | remove id' => exact congrArg _ (of_decide_eq_true h)
  | create body | list | search query | getById id' | patch id' body => cases h

/-- A DELETE of the one pending job, with so many steps. -/
def deleteMoves (i n : ℕ) : List (Async.Pool.Move ServiceRequest Choice) :=
  .start (.http "/jobs/1" (.remove "1")) :: List.replicate n (.resume i .quiet)

omit [LowerCase] [ClassValidator ℚ] [ValidationMessages] in
theorem success_toast_true_delete :
    letI := LowerCase.ascii
    letI := ClassValidator.codePoints ℚ
    letI : ValidationMessages := ⟨fun _ _ => []⟩
    let shown : JobResponse := ⟨"1", "title", "text", .pending, "t", "t"⟩
    ∃ p, Service.Reachable ⟨fun _ => true, []⟩ (fun _ => True) Store.onePending p ∧
      ∃ e ∈ p.trace, e.fiber = 0 ∧ (PageAction.handleConfirmDelete shown).Done e := by
  let _ := LowerCase.ascii
  let _ := ClassValidator.codePoints ℚ
  let _ : ValidationMessages := ⟨fun _ _ => []⟩
  let shown : JobResponse := ⟨"1", "title", "text", .pending, "t", "t"⟩
  obtain ⟨p, hp, hremoved⟩ : ∃ p, Service.Reachable ⟨fun _ => true, []⟩ (fun _ => True)
      Store.onePending p ∧ p.answered? 0 "/jobs/1" (HttpRequest.isDelete "1") =
        some ⟨204, .empty⟩ :=
    Async.Pool.exists_reachable (deleteMoves 0 5) _ _ (by decide +kernel)
  obtain ⟨r, hasks, hi⟩ := Service.fiber_of_answered hremoved
  obtain rfl := HttpRequest.eq_of_isDelete hasks
  have hsuccess : ((PageAction.handleConfirmDelete shown).toast
      (ApiClient.read "No Content" ⟨204, .empty⟩)).variant = .success := by
    rfl
  exact ⟨p, hp, success_toast_true hp rfl hi hsuccess⟩

/-- When a delete of a job that the page has shown is refused, the reason that is reported is so:
somebody has deleted the job, or it was being processed at a call of the request. -/
theorem delete_refusal_toast_true {p p' : Service}
    (h : Service.Reachable supportedJobTypes allowed s p) {i j : ℕ} {path path' : String}
    {r : HttpRequest} {response response' : HttpResponse} {shown : JobResponse}
    (hi : p.fibers[i]? = some ⟨.http path r, .settled (.ok response)⟩)
    (hshown : shown ∈ response.shown) (hlater : p.fibers.length ≤ j)
    (hrun : Async.Pool.Reachable (ServiceRequest.program supportedJobTypes) allowed World.act p p')
    (hj : p'.fibers[j]? = some ⟨.http path' (.remove shown.id), .settled (.ok response')⟩)
    {message : String} (htoast : (PageAction.handleConfirmDelete shown).toast
      (ApiClient.read statusText response') = ⟨message, .error⟩) :
    (message = "이미 삭제된 작업입니다" ∧ ∃ e ∈ p'.trace, Deletes shown.id e) ∨
    (message = "진행 중 작업은 삭제할 수 없습니다" ∧ ∃ e ∈ p'.trace, e.fiber = j ∧
      ∃ job, stored e.before.store.jobs shown.id = some job ∧ job.status = .processing) ∨
    message = HttpExceptionFilter.internalMessage := by
  have hp' := Service.Reachable.conforming (h.trans hrun)
  obtain ⟨_, hresponse, hhandled⟩ := hp'.fibers j _ hj
  obtain rfl := Except.ok.inj hresponse
  rcases hhandled.truthful hp'.valid with ⟨e, he, hej, htruthful⟩ | ⟨haway, -⟩ | ⟨rfl, -⟩
  · cases htruthful with
    | removed id job =>
      cases congrArg Toast.variant htoast
    | missing _ id hid hstored =>
      obtain rfl := Option.some.inj hid
      rw [ApiClient.read_error (by norm_num)] at htoast
      refine .inl ⟨(congrArg Toast.message htoast).symm, ?_⟩
      exact Service.deleted_of_gone h hrun hi hshown he (hej.symm ▸ hlater)
        ((e.before.store.stored_eq_none _).mp hstored)
    | inProgress id job hstored hstatus error hcode =>
      rw [ApiClient.read_error (by norm_num)] at htoast
      simp only [PageAction.toast, hcode] at htoast
      refine .inr (.inl ⟨(congrArg Toast.message htoast).symm, e, he, hej, job, hstored, hstatus⟩)
  · cases haway with
    | invalid _ dto fields hr => cases hr
  · rw [internalError, ApiClient.read_error (by norm_num)] at htoast
    exact .inr (.inr (congrArg Toast.message htoast).symm)

omit [LowerCase] [ClassValidator ℚ] [ValidationMessages] in
/-- The second of two deletes is told that the job has been deleted. -/
theorem delete_refusal_toast_true_twice :
    letI := LowerCase.ascii
    letI := ClassValidator.codePoints ℚ
    letI : ValidationMessages := ⟨fun _ _ => []⟩
    ∃ p, Service.Reachable ⟨fun _ => true, []⟩ (fun _ => True) Store.onePending p ∧
      ∃ e ∈ p.trace, Deletes "1" e := by
  let _ := LowerCase.ascii
  let _ := ClassValidator.codePoints ℚ
  let _ : ValidationMessages := ⟨fun _ _ => []⟩
  let shown : JobResponse := ⟨"1", "title", "text", .pending, "t", "t"⟩
  let error : ApiErrorBody := ⟨"NOT_FOUND", notFoundMessage "1", none⟩
  let program := ServiceRequest.program ⟨fun _ => true, []⟩
  let later := deleteMoves 1 5 ++ deleteMoves 2 4
  obtain ⟨p, hp, ⟨hlength, hfound⟩, hlater⟩ : ∃ p, Service.Reachable ⟨fun _ => true, []⟩
      (fun _ => True) Store.onePending p ∧
      (p.fibers.length = 1 ∧ p.found? 0 "/jobs/1" "1" = some ⟨200, .job shown⟩) ∧
      (Async.Pool.exec program (fun _ => True) World.act later p).any
        (fun p' => Service.answered? p' 2 "/jobs/1" (HttpRequest.isDelete "1") =
          some ⟨404, .error error⟩) = true :=
    Async.Pool.exists_reachable (.start (.http "/jobs/1" (.getById "1")) ::
      List.replicate 4 (.resume 0 .quiet)) _ _ (by decide +kernel)
  obtain ⟨p', hrun, hgone⟩ := Async.Pool.exists_reachable later p
    (fun p' => Service.answered? p' 2 "/jobs/1" (HttpRequest.isDelete "1") =
      some ⟨404, .error error⟩) hlater
  obtain ⟨r, hasks, hj⟩ := Service.fiber_of_answered hgone
  obtain rfl := HttpRequest.eq_of_isDelete hasks
  have htoast : (PageAction.handleConfirmDelete shown).toast
      (ApiClient.read "Not Found" ⟨404, .error error⟩) = ⟨"이미 삭제된 작업입니다", .error⟩ := by
    rw [ApiClient.read_error (by norm_num)]
    rfl
  rcases delete_refusal_toast_true hp (Service.fiber_of_found hfound) List.mem_cons_self
    (hlength.trans_le one_le_two) hrun hj htoast with ⟨-, hdeletes⟩ | ⟨hmessage, -⟩ | hmessage
  · exact ⟨p', hp.trans hrun, hdeletes⟩
  · exact absurd hmessage (by decide)
  · exact absurd hmessage (by decide)

end JobManager
