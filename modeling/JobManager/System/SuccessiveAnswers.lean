import JobManager.AdminUi.JobDetailDialog
import JobManager.Persistence.Conservation
import JobManager.System.Sessions

/-! What two answers about one job have to do with each other, when the second request starts after
the first one has been answered. -/
namespace JobManager

open KeyedList Async JsonDbJobRepository Http

/-- The text that a PATCH of this job asks for. -/
def ServiceRequest.text (field : TextField) (id : String) : ServiceRequest → Option String
  | .http _ (.patch id' body) =>
    if id' = id then (JobsController.patchInput id' (.object body)).patch.text field else none
  | _ => none

/-- The text that a successful PATCH of this job has written. -/
def patchedText (field : TextField) (id : String) (e : ServiceEntry) : Option String :=
  match e.event with
  | ⟨.repository (.withTransition _ _ _), .ok (.ok _ _ _)⟩ => e.request.text field id
  | _ => none

/-- The text that the last PATCH with this field has written. -/
def lastPatched (field : TextField) (id : String) (segment : List ServiceEntry) : Option String :=
  segment.reverse.findSome? (patchedText field id)

theorem lastPatched_snoc (field : TextField) (id : String) (segment : List ServiceEntry)
    (e : ServiceEntry) : lastPatched field id (segment ++ [e]) =
      (patchedText field id e).or (lastPatched field id segment) := by
  rw [lastPatched, List.reverse_append, List.reverse_singleton, List.singleton_append,
    List.findSome?_cons]
  cases patchedText field id e <;> rfl

/-- A transition that the life-cycle allows. -/
def Leads (status status' : JobStatus) : Prop := status' ∈ jobTransitions status

/-- What becomes of a job over a stretch of a run. -/
structure Follows (segment : List ServiceEntry) (job job' : Job) : Prop where
  createdAt : job'.createdAt = job.createdAt
  status : Relation.ReflTransGen Leads job.status job'.status
  text : ∀ field, job'.text field = (lastPatched field job.id segment).getD (job.text field)

theorem Follows.refl (job : Job) : Follows [] job job :=
  ⟨rfl, .refl, fun _ => rfl⟩

theorem Follows.snoc {segment : List ServiceEntry} {e : ServiceEntry} {job job₁ job₂ : Job}
    (h : Follows segment job job₁) (hid : job₁.id = job.id) (hnext : Follows [e] job₁ job₂) :
    Follows (segment ++ [e]) job job₂ := by
  refine ⟨hnext.createdAt.trans h.createdAt, h.status.trans hnext.status, fun field => ?_⟩
  have hlast := lastPatched_snoc field job.id [] e
  rw [List.nil_append] at hlast
  rw [hnext.text field, h.text field, hid, hlast, lastPatched_snoc]
  cases patchedText field job.id e <;> rfl

section

variable [LowerCase] {allowed : ServiceRequest → Prop} {s : Store}
  {before segment : List ServiceEntry} {e : ServiceEntry} {w w' : World} {id : String}

omit [LowerCase] in
theorem ServiceRequest.Calls.withTransition {q : ServiceRequest} {h : List Call} {id : String}
    {target : JobStatus} {patch : Option JobPatch}
    (hq : q.Calls h (.repository (.withTransition id target patch))) :
    ∃ path body, q = .http path (.patch id body) ∧
      patch = some (JobsController.patchInput id (.object body)).patch := by
  cases q with
  | tick skipGuardEnabled => exact hq.1.elim
  | http path r =>
    cases r with
    | patch id' body =>
      rcases hq with hq | ⟨target', hq⟩
      · cases hq
      · cases hq
        exact ⟨path, body, rfl, rfl⟩
    | create body | list | search query | getById id' | remove id' => cases hq

omit [LowerCase] in
theorem patchedText_eq_none (h : ∀ op r, e.event ≠ ⟨.repository op, .ok r⟩) (field : TextField) :
    patchedText field id e = none := by
  unfold patchedText
  split
  · next heq => exact absurd heq (h _ _)
  · rfl

/-- The text a call supplies for a stored job is that of a PATCH. -/
theorem supplied_eq_patchedText (h : Service.Occurs allowed s before e) {op : RepoOp}
    {stamp : Stamp} (hf : op.Fresh stamp e.before.store.issued)
    (he : e.event = ⟨.repository op, .ok (op.run stamp e.before.store.jobs).1⟩)
    (hid : id ∈ e.before.store.ids) (field : TextField) :
    (e.before.store.call op stamp).supplied field id = patchedText field id e := by
  have hguar := h.guar
  obtain ⟨i, q, event, w, w'⟩ := e
  dsimp only at he hf hid hguar ⊢
  subst he
  cases op with
  | withTransition id' target patch =>
    obtain ⟨path, body, rfl, rfl⟩ := ServiceRequest.Calls.withTransition hguar
    unfold RepoCall.supplied patchedText Store.call
    dsimp only
    generalize ((RepoOp.withTransition id' target _).run stamp _).1 = result
    cases result <;> rfl
  | create data =>
    have hne : stamp.uuid ≠ id := fun heq => hf data rfl (heq ▸ w.store.ids_subset_issued hid)
    exact if_neg hne
  | findById _ | list | search _ | listByStatus _ _ | withBatch _ _ | delete _ => rfl

theorem Service.Occurs.follows (h : Service.Occurs allowed s before e) {job job' : Job}
    (hjob : stored e.before.store.jobs id = some job)
    (hjob' : stored e.after.store.jobs id = some job') : Follows [e] job job' := by
  obtain rfl := lookup_key hjob
  have hlast : ∀ field, lastPatched field job.id [e] = patchedText field job.id e := fun field => by
    rw [← List.nil_append [e], lastPatched_snoc]
    exact Option.or_none
  rcases Service.Occurs.effect h with ⟨hsame, hquiet⟩ | ⟨op, stamp, hf, he, hafter⟩
  · obtain rfl := Option.some.inj (hjob.symm.trans (hsame ▸ hjob'))
    exact ⟨rfl, .refl, fun field => by rw [hlast, patchedText_eq_none hquiet]; rfl⟩
  · rw [hafter] at hjob'
    have hmem' := lookup_mem hjob'
    have hid := lookup_key hjob'
    have hstep := e.before.store.jobStep op stamp hf (lookup_mem hjob) hmem' hid
    refine ⟨hstep.createdAt, ?_, fun field => ?_⟩
    · rcases hstep.status with hsame | hleads
      · rw [hsame]
      · exact .single hleads
    · have htext := e.before.store.text_call op stamp hf field hmem'
      have hstored : job.id ∈ e.before.store.ids :=
        (e.before.store.stored_isSome _).mp (Option.isSome_iff_exists.mpr ⟨job, hjob⟩)
      rw [hid, supplied_eq_patchedText h hf he hstored, hjob] at htext
      rw [hlast]
      cases hpatched : patchedText field job.id e <;> rw [hpatched] at htext <;>
        exact Option.some.inj htext

theorem Service.Occurs.issued_subset (h : Service.Occurs allowed s before e) :
    e.before.store.issued ⊆ e.after.store.issued := by
  rcases Service.Occurs.effect h with ⟨hsame, -⟩ | ⟨op, stamp, hf, -, hafter⟩
  · rw [hsame]
    exact List.Subset.refl _
  · rw [hafter]
    exact List.subset_append_left _ _

/-- A job that has gone does not come back. -/
theorem Service.Occurs.stored_before (h : Service.Occurs allowed s before e)
    (hissued : id ∈ e.before.store.issued) (hid : id ∈ e.after.store.ids) :
    id ∈ e.before.store.ids := by
  rcases Service.Occurs.effect h with ⟨hsame, -⟩ | ⟨op, stamp, hf, -, hafter⟩
  · rwa [← hsame]
  · rw [hafter] at hid
    exact e.before.store.mem_ids_of_apply op stamp hf hid hissued

theorem Service.Valid.follows {w w' : World}
    (h₀ : Async.Valid allowed World.act ServiceRequest.Calls ⟨s, false⟩ before w)
    (h : Async.Valid allowed World.act ServiceRequest.Calls ⟨s, false⟩ (before ++ segment) w')
    {job job' : Job} (hjob : stored w.store.jobs id = some job)
    (hjob' : stored w'.store.jobs id = some job') : Follows segment job job' := by
  have hid : id ∈ w.store.ids :=
    (w.store.stored_isSome id).mp (Option.isSome_iff_exists.mpr ⟨job, hjob⟩)
  have hissued := w.store.ids_subset_issued hid
  have hkey := lookup_key hjob
  refine (h₀.segment_induction (motive := fun w' segment => id ∈ w'.store.issued ∧
    ∀ job', stored w'.store.jobs id = some job' → Follows segment job job') ⟨hissued, ?_⟩ ?_ h).2
      job' hjob'
  · intro job' hjob'
    obtain rfl := Option.some.inj (hjob.symm.trans hjob')
    exact .refl job
  · rintro segment e hocc ⟨hissued, hfollows⟩
    refine ⟨Service.Occurs.issued_subset hocc hissued, fun job₂ hjob₂ => ?_⟩
    have hbefore : id ∈ e.before.store.ids := Service.Occurs.stored_before hocc hissued
      ((e.after.store.stored_isSome id).mp (Option.isSome_iff_exists.mpr ⟨job₂, hjob₂⟩))
    obtain ⟨job₁, hjob₁⟩ :=
      Option.isSome_iff_exists.mp ((e.before.store.stored_isSome id).mpr hbefore)
    exact (hfollows job₁ hjob₁).snoc ((lookup_key hjob₁).trans hkey.symm)
      (Service.Occurs.follows hocc hjob₁ hjob₂)

end

variable [LowerCase] [ClassValidator ℚ] [ValidationMessages] {supportedJobTypes : SupportedJobTypes}
  {allowed : ServiceRequest → Prop} {s : Store}

/-- Of two answers that show one job, with the second request started after the first one has been
answered, the second shows a later state of the job: it was created at the same time, its status
follows by allowed transitions, and each text is that of the last PATCH in between that had it, or
else the one shown before. -/
theorem http_successive_answers {p p' : Service}
    (h : Service.Reachable supportedJobTypes allowed s p) {i j : ℕ} {path path' : String}
    {r r' : HttpRequest} {response response' : HttpResponse} {shown shown' : JobResponse}
    (hi : p.fibers[i]? = some ⟨.http path r, .settled (.ok response)⟩)
    (hshown : shown ∈ response.shown) (hlater : p.fibers.length ≤ j)
    (hrun : Async.Pool.Reachable (ServiceRequest.program supportedJobTypes) allowed World.act p p')
    (hj : p'.fibers[j]? = some ⟨.http path' r', .settled (.ok response')⟩)
    (hshown' : shown' ∈ response'.shown) (hid : shown'.id = shown.id) :
    ∃ before e segment e' after, p'.trace = before ++ e :: (segment ++ e' :: after) ∧
      (e.fiber = i ∧ Truthful e r response) ∧ (e'.fiber = j ∧ Truthful e' r' response') ∧
      shown'.createdAt = shown.createdAt ∧
      Relation.ReflTransGen Leads shown.status shown'.status ∧
      ∀ field, shown'.text field =
        (lastPatched field shown.id (segment ++ [e'])).getD (shown.text field) := by
  have hp := h.conforming
  have hp' := Service.Reachable.conforming (h.trans hrun)
  obtain ⟨e, he, hei, hrequest, htruthful⟩ := HttpRequest.rests_on hp hi hshown
  obtain ⟨e', he', hej, hrequest', htruthful'⟩ := HttpRequest.rests_on hp' hj hshown'
  obtain ⟨before, segment, after, htrace⟩ := hp.stretch hrun he he' (hej.symm ▸ hlater)
  have hocc : Service.Occurs allowed s before e := hp'.valid.occurs htrace
  have hsplit : p'.trace = before ++ [e] ++ segment ++ e' :: after := by
    rw [htrace]
    simp
  have hocc' : Service.Occurs allowed s (before ++ [e] ++ segment) e' := hp'.valid.occurs hsplit
  obtain ⟨job, rfl, hstored⟩ := htruthful.shown_stored hocc hrequest hshown
  obtain ⟨job', rfl, hstored'⟩ := htruthful'.shown_stored hocc' hrequest' hshown'
  have hvalid := hocc'.snoc
  rw [List.append_assoc] at hvalid
  have hfollows := Service.Valid.follows hocc.snoc hvalid hstored (hid ▸ hstored')
  refine ⟨before, e, segment, e', after, htrace, ⟨hei, htruthful⟩, ⟨hej, htruthful'⟩,
    hfollows.createdAt, hfollows.status, fun field => ?_⟩
  have htext : ∀ job : Job, (toJobResponse job).text field = job.text field := fun job => by
    cases field <;> rfl
  rw [htext, htext]
  exact hfollows.text field

omit [LowerCase] [ClassValidator ℚ] [ValidationMessages] in
/-- The second GET shows the title that a PATCH has just written, which is still unanswered. -/
theorem http_successive_answers_patch :
    letI := LowerCase.ascii
    letI := ClassValidator.codePoints ℚ
    letI : ValidationMessages := ⟨fun _ _ => []⟩
    ∃ p, Service.Reachable ⟨fun _ => true, []⟩ (fun _ => True) Store.onePending p ∧
      ∃ before e segment e' after, p.trace = before ++ e :: (segment ++ e' :: after) ∧
        e.fiber = 0 ∧ e'.fiber = 2 ∧
        "new title" = (lastPatched .title "1" (segment ++ [e'])).getD "title" := by
  let _ := LowerCase.ascii
  let _ := ClassValidator.codePoints ℚ
  let _ : ValidationMessages := ⟨fun _ _ => []⟩
  let found : HttpResponse := ⟨200, .job ⟨"1", "title", "text", .pending, "t", "t"⟩⟩
  let patched : HttpResponse := ⟨200, .job ⟨"1", "new title", "text", .pending, "t", "u"⟩⟩
  let program := ServiceRequest.program ⟨fun _ => true, []⟩
  let get (i : ℕ) : List (Async.Pool.Move ServiceRequest Choice) :=
    .start (.http "/jobs/1" (.getById "1")) :: List.replicate 4 (.resume i .quiet)
  let later := .start (.http "/jobs/1" (.patch "1" [("title", .string "new title")])) ::
    List.replicate 3 (.resume 1 .quiet) ++ get 2
  obtain ⟨p, hp, ⟨hlength, hfound⟩, hlater⟩ : ∃ p, Service.Reachable ⟨fun _ => true, []⟩
      (fun _ => True) Store.onePending p ∧
      (p.fibers.length = 1 ∧ p.found? 0 "/jobs/1" "1" = some found) ∧
      (Async.Pool.exec program (fun _ => True) World.act later p).any
        (fun p' => Service.found? p' 2 "/jobs/1" "1" = some patched) = true :=
    Async.Pool.exists_reachable (get 0) _ _ (by decide +kernel)
  obtain ⟨p', hrun, hpatched⟩ := Async.Pool.exists_reachable later p
    (fun p' => Service.found? p' 2 "/jobs/1" "1" = some patched) hlater
  obtain ⟨before, e, segment, e', after, htrace, ⟨he, -⟩, ⟨he', -⟩, -, -, htext⟩ :=
    http_successive_answers hp (Service.fiber_of_found hfound) List.mem_cons_self
      (hlength.trans_le one_le_two) hrun (Service.fiber_of_found hpatched) List.mem_cons_self rfl
  exact ⟨p', hp.trans hrun, before, e, segment, e', after, htrace, he, he', htext .title⟩

end JobManager
