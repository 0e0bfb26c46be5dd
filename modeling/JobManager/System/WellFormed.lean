import JobManager.System.SuccessiveAnswers

/-! What the service stores and shows stays within what its DTOs accept: whatever a client reads it
can write back. -/
namespace JobManager

open KeyedList Async JsonDbJobRepository Http

/-- The title and the description as a body of a request. -/
def textBody (title description : String) : List (String × Json ℚ) :=
  [("title", .string title), ("description", .string description)]

/-- The bounds that the DTOs have for a field. -/
def TextField.bounds : TextField → ℕ × ℕ
  | .title => (1, 200)
  | .description => (0, 2000)

section Bodies

variable [ClassValidator ℚ] {field : TextField} {text : String}
  {body : List (String × Json ℚ)}

def Fits (field : TextField) (text : String) : Prop :=
  ClassValidator.length field.bounds.1 field.bounds.2 (some (.string text : Json ℚ)) = true

theorem validate_string {least most : ℕ} {v : Option (Json ℚ)}
    (h : [Validator.isString, .length least most].all (·.validate v) = true) :
    ∃ text, v = some (.string text) ∧ ClassValidator.length least most v = true := by
  simp only [List.all_cons, List.all_nil, Bool.and_true, Bool.and_eq_true] at h
  obtain ⟨text, htext⟩ := (ClassValidator.isString_iff v).mp h.1
  exact ⟨text, htext, h.2⟩

/-- A text that a field of an accepted object has is within the bounds of the field. -/
theorem fits_of_accepts {dto : Dto ℚ} {name : String} {isOptional : Bool}
    (haccepts : ValidationPipe.accepts dto body = true)
    (hproperty : ⟨name, isOptional, [.isString, .length field.bounds.1 field.bounds.2]⟩ ∈
      dto.properties)
    (htext : JobsController.fieldText ((Json.object body).property name) = some text) :
    Fits field text := by
  have hvalue := JobsController.fieldText_eq_some.mp htext
  simp only [ValidationPipe.accepts, Bool.and_eq_true] at haccepts
  have hvalid := List.all_eq_true.mp haccepts.1.2 _ hproperty
  simp only [DtoProperty.validate, hvalue, isMissing, Bool.and_false, Bool.false_or] at hvalid
  obtain ⟨text', htext', hlength⟩ := validate_string hvalid
  obtain rfl := Json.string.inj (Option.some.inj htext')
  exact hlength

/-- A title must be given. -/
theorem title_of_accepts (haccepts : ValidationPipe.accepts createJobDto body = true) :
    ∃ title, JobsController.fieldText ((Json.object body).property "title") = some title := by
  simp only [ValidationPipe.accepts, Bool.and_eq_true] at haccepts
  have hvalid := List.all_eq_true.mp haccepts.1.2 _ List.mem_cons_self
  obtain ⟨title, htitle, -⟩ := validate_string hvalid
  exact ⟨title, JobsController.fieldText_eq_some.mpr htitle⟩

theorem fits_createInput (hempty : Fits .description "")
    (haccepts : ValidationPipe.accepts createJobDto body = true) (field : TextField) :
    Fits field ((createInput (.object body)).text field) := by
  cases field with
  | title =>
    obtain ⟨title, htitle⟩ := title_of_accepts haccepts
    change Fits .title (Option.getD _ _)
    rw [htitle]
    exact fits_of_accepts haccepts List.mem_cons_self htitle
  | description =>
    change Fits .description (Option.getD _ _)
    cases htext : JobsController.fieldText ((Json.object body).property "description") with
    | none => exact hempty
    | some text =>
      exact fits_of_accepts haccepts (List.mem_cons_of_mem _ List.mem_cons_self) htext

theorem fits_patchInput {id : String}
    (haccepts : ValidationPipe.accepts patchJobDto body = true)
    (htext : (JobsController.patchInput id (.object body)).patch.text field = some text) :
    Fits field text := by
  cases field with
  | title => exact fits_of_accepts haccepts List.mem_cons_self htext
  | description => exact fits_of_accepts haccepts (List.mem_cons_of_mem _ List.mem_cons_self) htext

theorem accepts_textBody {title description : String} (htitle : Fits .title title)
    (hdescription : Fits .description description) :
    ValidationPipe.accepts createJobDto (textBody title description) = true ∧
      ValidationPipe.accepts patchJobDto (textBody title description) = true := by
  have hstring : ∀ text : String, ClassValidator.isString (some (.string text : Json ℚ)) = true :=
    fun text => (ClassValidator.isString_iff _).mpr ⟨text, rfl⟩
  have hgiven : (Json.object (textBody title description)).property "title" =
      some (.string title) := rfl
  have hgiven' : (Json.object (textBody title description)).property "description" =
      some (.string description) := rfl
  have hnone : (Json.object (textBody title description)).property "status" = none := rfl
  simp only [Fits, TextField.bounds] at htitle hdescription
  simp only [ValidationPipe.accepts, Bool.and_eq_true]
  refine ⟨⟨⟨rfl, ?_⟩, rfl⟩, ⟨rfl, ?_⟩, rfl⟩
  · simp [createJobDto, DtoProperty.validate, Validator.validate, isMissing, hgiven, hgiven',
      hstring, htitle, hdescription]
  · simp [patchJobDto, DtoProperty.validate, Validator.validate, isMissing, hgiven, hgiven', hnone,
      hstring, htitle, hdescription]

end Bodies

/-- A job that could be posted as it is, and has not been retried more often than allowed. -/
structure WellFormed [ClassValidator ℚ] (job : Job) : Prop where
  fits : ∀ field, Fits field (job.text field)
  retryCount : job.retryCount ≤ maxRetryCount

section Runs

variable [LowerCase] {allowed : ServiceRequest → Prop} {s : Store}
  {trace before : List ServiceEntry} {e : ServiceEntry} {w : World}

omit [LowerCase] in
theorem ServiceRequest.Calls.create {q : ServiceRequest} {h : List Call} {data : CreateJobData}
    (hq : q.Calls h (.repository (.create data))) :
    ∃ path body, q = .http path (.create body) ∧ data = createInput (.object body) := by
  cases q with
  | tick skipGuardEnabled => exact hq.1.elim
  | http path r =>
    cases r with
    | create body =>
      cases hq
      exact ⟨path, body, rfl, rfl⟩
    | patch id body => rcases hq with hq | ⟨_, hq⟩ <;> cases hq
    | list | search query | getById id | remove id => cases hq

variable [ClassValidator ℚ]

/-- The text that a validated call supplies fits. -/
theorem supplied_fits (hempty : Fits .description "")
    (h : Async.Occurs allowed World.act ServiceRequest.Validated ⟨s, false⟩ before e) {op : RepoOp}
    {stamp : Stamp} (he : e.event.call = .repository op) {field : TextField} {id text : String}
    (htext : (e.before.store.call op stamp).supplied field id = some text) : Fits field text := by
  have hguar := h.guar
  rw [he] at hguar
  cases op with
  | create data =>
    obtain ⟨path, body, hq, rfl⟩ := ServiceRequest.Calls.create hguar.calls
    rw [hq] at hguar
    unfold RepoCall.supplied Store.call at htext
    dsimp only at htext
    split at htext
    · obtain rfl := Option.some.inj htext
      exact fits_createInput hempty (hguar.2 _ rfl _ _ rfl) field
    · cases htext
  | withTransition id' target patch =>
    obtain ⟨path, body, hq, rfl⟩ := ServiceRequest.Calls.withTransition hguar.calls
    rw [hq] at hguar
    unfold Store.call at htext
    generalize ((RepoOp.withTransition id' target _).run stamp _).1 = result at htext
    cases result with
    | refused reason => cases htext
    | ok job transitioned previousStatus =>
      change (if id' = id then _ else none) = some text at htext
      split at htext
      · exact fits_patchInput (hguar.2 _ rfl _ _ rfl) htext
      · cases htext
  | findById _ | list | search _ | listByStatus _ _ | withBatch _ _ | delete _ => cases htext

theorem wellFormed_of_valid (hempty : Fits .description "") (hs : ∀ job ∈ s.jobs, WellFormed job)
    (h : Async.Valid allowed World.act ServiceRequest.Validated ⟨s, false⟩ trace w) :
    ∀ job ∈ w.store.jobs, WellFormed job := by
  induction h using Async.Valid.occurs_induction with
  | nil => exact hs
  | snoc trace e hocc ih =>
    rcases Service.Occurs.effect hocc with ⟨hsame, -⟩ | ⟨op, stamp, hf, he, hafter⟩
    · rwa [hsame]
    · rw [hafter]
      intro job' hjob'
      have hretry : ∀ job ∈ e.before.store.jobs, job.id = job'.id →
          job.retryCount ≤ maxRetryCount := fun job hjob _ => (ih job hjob).retryCount
      refine ⟨fun field => ?_, Store.Run.retryCount_bound (.snoc (.nil _) op stamp hf) hjob' hretry⟩
      have htext := e.before.store.text_call op stamp hf field hjob'
      cases hsupplied : (e.before.store.call op stamp).supplied field job'.id with
      | some text =>
        rw [hsupplied] at htext
        obtain rfl := Option.some.inj htext
        exact supplied_fits hempty hocc (congrArg Event.call he) hsupplied
      | none =>
        rw [hsupplied, Option.none_or] at htext
        obtain ⟨job, hjob, heq⟩ := Option.map_eq_some_iff.mp htext.symm
        exact heq ▸ (ih job (lookup_mem hjob)).fits field

end Runs

variable [LowerCase] [ClassValidator ℚ] [ValidationMessages] {supportedJobTypes : SupportedJobTypes}
  {allowed : ServiceRequest → Prop} {s : Store}

/-- If the service starts from well-formed jobs, then the jobs it stores are well-formed throughout,
whatever is posted and patched, and the DTO validation of POST and PATCH accepts the title and the
description of every job that an answer shows. -/
theorem shown_jobs_accepted (hempty : Fits .description "") (hs : ∀ job ∈ s.jobs, WellFormed job)
    {p : Service} (h : Service.Reachable supportedJobTypes allowed s p) :
    (∀ job ∈ p.state.store.jobs, WellFormed job) ∧
    ∀ (i : ℕ) (path : String) (r : HttpRequest) (response : HttpResponse),
      p.fibers[i]? = some ⟨.http path r, .settled (.ok response)⟩ →
      ∀ shown ∈ response.shown,
        ValidationPipe.accepts createJobDto (textBody shown.title shown.description) = true ∧
        ValidationPipe.accepts patchJobDto (textBody shown.title shown.description) = true := by
  have hp := h.conforming
  have hvalid : Async.Valid allowed World.act ServiceRequest.Validated ⟨s, false⟩ p.trace
      p.state := (Pool.Reachable.conforming h fun q _ => q.validated supportedJobTypes).valid
  refine ⟨wellFormed_of_valid hempty hs hvalid, fun i path r response hi shown hshown => ?_⟩
  obtain ⟨e, he, -, hrequest, htruthful⟩ := HttpRequest.rests_on hp hi hshown
  obtain ⟨before, after, htrace⟩ := List.append_of_mem he
  have hocc : Async.Occurs allowed World.act ServiceRequest.Validated ⟨s, false⟩ before e :=
    hvalid.occurs htrace
  obtain ⟨job, rfl, hstored⟩ := htruthful.shown_stored (hp.valid.occurs htrace) hrequest hshown
  have hjob := wellFormed_of_valid hempty hs hocc.snoc job (lookup_mem hstored)
  exact accepts_textBody (hjob.fits .title) (hjob.fits .description)

omit [LowerCase] [ClassValidator ℚ] [ValidationMessages] in
/-- A job that was posted without a description is shown with an empty one. -/
theorem shown_jobs_accepted_created :
    letI := LowerCase.ascii
    letI := ClassValidator.codePoints ℚ
    letI : ValidationMessages := ⟨fun _ _ => []⟩
    ∃ p, Service.Reachable ⟨fun _ => true, []⟩ (fun _ => True) Store.empty p ∧
      p.found? 1 "/jobs/2" "2" = some ⟨200, .job ⟨"2", "news", "", .pending, "u", "u"⟩⟩ ∧
      ValidationPipe.accepts createJobDto (textBody "news" "") = true := by
  let _ := LowerCase.ascii
  let _ := ClassValidator.codePoints ℚ
  let _ : ValidationMessages := ⟨fun _ _ => []⟩
  obtain ⟨p, hp, hfound⟩ : ∃ p, Service.Reachable ⟨fun _ => true, []⟩ (fun _ => True)
      Store.empty p ∧ p.found? 1 "/jobs/2" "2" = some
        ⟨200, .job ⟨"2", "news", "", .pending, "u", "u"⟩⟩ :=
    Async.Pool.exists_reachable
      (.start (.http "/jobs" (.create [("title", .string "news")])) ::
        List.replicate 4 (.resume 0 .quiet) ++ .start (.http "/jobs/2" (.getById "2")) ::
        List.replicate 4 (.resume 1 .quiet)) _ _ (by decide +kernel)
  have haccepted := (shown_jobs_accepted (by unfold Fits; decide)
    (fun job hjob => absurd hjob List.not_mem_nil) hp).2 1 _ _ _ (Service.fiber_of_found hfound) _
      List.mem_cons_self
  exact ⟨p, hp, hfound, haccepted.1⟩

end JobManager
