import JobManager.Async.Ranking
import JobManager.System.Service

/-! What a client can rely on from one request to the next: a job that was shown is found until
somebody deletes it. -/
namespace JobManager

open KeyedList Async JsonDbJobRepository Http

variable [LowerCase] [ClassValidator ℚ] [ValidationMessages] {allowed : ServiceRequest → Prop}
  {s : Store} {before segment : List ServiceEntry} {e : ServiceEntry} {w w' : World}
  {supportedJobTypes : SupportedJobTypes}

/-- The jobs that an answer shows. -/
def Http.HttpResponse.shown (response : HttpResponse) : List JobResponse :=
  match response.body with
  | .job job => [job]
  | .jobs items _ => items
  | .empty | .error _ => []

/-- The repository has answered a DELETE of this job with ok. -/
def Deletes (id : String) (e : ServiceEntry) : Prop :=
  (∃ path, e.request = .http path (.remove id)) ∧ e.event = ⟨.repository (.delete id), .ok .ok⟩

omit [LowerCase] [ClassValidator ℚ] [ValidationMessages] in
/-- Only a DELETE asks to delete, and only the job it names. -/
theorem ServiceRequest.Calls.delete {q : ServiceRequest} {h : List Call} {id : String}
    (hq : q.Calls h (.repository (.delete id))) : ∃ path, q = .http path (.remove id) := by
  cases q with
  | tick skipGuardEnabled => exact hq.1.elim
  | http path r =>
    cases r with
    | patch id' body => rcases hq with hq | ⟨_, hq⟩ <;> cases hq
    | remove id' =>
      cases hq
      exact ⟨path, rfl⟩
    | create body | list | search query | getById id' => cases hq

omit [ClassValidator ℚ] [ValidationMessages] in
theorem Service.Occurs.keeps (h : Service.Occurs allowed s before e) {id : String}
    (hid : id ∈ e.before.store.ids) : id ∈ e.after.store.ids ∨ Deletes id e := by
  rcases Service.Occurs.effect h with ⟨hsame, -⟩ | ⟨op, stamp, hf, he, hafter⟩
  · exact .inl (hsame ▸ hid)
  · have hguar := h.guar
    rw [hafter, Store.ids_apply]
    cases op with
    | create data => exact .inl (List.mem_append_left _ hid)
    | delete id' =>
      rw [he] at hguar
      rw [RepoOp.keysEffect]
      split
      · next hok =>
        by_cases hne : id = id'
        · subst hne
          refine .inr ⟨ServiceRequest.Calls.delete hguar, he.trans ?_⟩
          rw [delete_answer, hok]
        · exact .inl (List.mem_filter.mpr ⟨hid, by simpa using hne⟩)
      · exact .inl hid
    | findById _ | list | search _ | listByStatus _ _ | withTransition _ _ _ | withBatch _ _ =>
      exact .inl hid

omit [ClassValidator ℚ] [ValidationMessages] in
/-- A stored job is stored until it is deleted. -/
theorem Service.Valid.stored_until_deleted
    (h₀ : Async.Valid allowed World.act ServiceRequest.Calls ⟨s, false⟩ before w)
    (h : Async.Valid allowed World.act ServiceRequest.Calls ⟨s, false⟩ (before ++ segment) w')
    {id : String} (hid : id ∈ w.store.ids) :
    id ∈ w'.store.ids ∨ ∃ e ∈ segment, Deletes id e := by
  refine h₀.segment_induction (motive := fun w' segment => id ∈ w'.store.ids ∨
    ∃ e ∈ segment, Deletes id e) (.inl hid) ?_ h
  rintro segment e hocc (hstored | ⟨e', he', hdeletes⟩)
  · rcases Service.Occurs.keeps hocc hstored with hkept | hdeletes
    · exact .inl hkept
    · exact .inr ⟨e, List.mem_append_right _ (List.mem_singleton_self e), hdeletes⟩
  · exact .inr ⟨e', List.mem_append_left _ he', hdeletes⟩

section

omit [ClassValidator ℚ] [ValidationMessages]

/-- Only a POST, a PATCH and a DELETE write. -/
theorem Service.Occurs.reads (h : Service.Occurs allowed s before e) {path : String}
    {r : HttpRequest} (hrequest : e.request = .http path r)
    (hreads : ∀ op stamp jobs id, r.Asks op → op.effect stamp id (stored jobs id) = stored jobs id)
    (id : String) : stored e.after.store.jobs id = stored e.before.store.jobs id := by
  rcases Service.Occurs.effect h with ⟨hsame, -⟩ | ⟨op, stamp, hf, he, hafter⟩
  · rw [hsame]
  · have hguar := h.guar
    rw [hrequest, he] at hguar
    rw [hafter, Store.stored_apply, hreads op stamp _ id hguar]

/-- A job that an answer shows is stored right after the call it rests on. -/
theorem Truthful.shown_stored (h : Service.Occurs allowed s before e) {path : String}
    {r : HttpRequest} (hrequest : e.request = .http path r) {response : HttpResponse}
    (htruthful : Truthful e r response) {shown : JobResponse} (hshown : shown ∈ response.shown) :
    ∃ job, shown = toJobResponse job ∧ stored e.after.store.jobs shown.id = some job := by
  cases htruthful with
  | created body job _ hstored =>
    obtain rfl := List.mem_singleton.mp hshown
    exact ⟨job, rfl, hstored⟩
  | patched id body job hstored =>
    obtain rfl := List.mem_singleton.mp hshown
    obtain rfl := lookup_key hstored
    exact ⟨job, rfl, hstored⟩
  | found id job hstored =>
    obtain rfl := List.mem_singleton.mp hshown
    obtain rfl := lookup_key hstored
    refine ⟨job, rfl, (Service.Occurs.reads h hrequest ?_ _).trans hstored⟩
    rintro _ stamp jobs id rfl
    rfl
  | listed =>
    obtain ⟨job, hjob, rfl⟩ := List.mem_map.mp hshown
    refine ⟨job, rfl, (Service.Occurs.reads h hrequest ?_ _).trans
      (e.before.store.stored_of_mem hjob)⟩
    rintro _ stamp jobs id rfl
    rfl
  | searched query jobs hjobs =>
    subst hjobs
    obtain ⟨job, hjob, rfl⟩ := List.mem_map.mp hshown
    refine ⟨job, rfl, (Service.Occurs.reads h hrequest ?_ _).trans
      (e.before.store.stored_of_mem (List.mem_filter.mp hjob).1)⟩
    rintro _ stamp jobs id rfl
    rfl
  | missing | notTransitioned | exhausted | removed | inProgress => cases hshown

theorem Truthful.not_stored {r : HttpRequest} {response : HttpResponse} (h : Truthful e r response)
    (hstatus : response.status = 404) {id : String} (hid : r.jobId = some id) :
    id ∉ e.before.store.ids := by
  cases h with
  | missing r id' hid' hstored =>
    obtain rfl := Option.some.inj (hid.symm.trans hid')
    exact (e.before.store.stored_eq_none _).mp hstored
  | created | listed | searched | found | patched | notTransitioned | exhausted | removed
  | inProgress => norm_num at hstatus

end

section

variable {p : Service} {i : ℕ} {path : String} {r : HttpRequest}
  (hp : Pool.Conforming allowed World.act ServiceRequest.Calls
    (ServiceRequest.Post supportedJobTypes) ⟨s, false⟩ p)

include hp

/-- The call that an answer with a job rests on. -/
theorem Http.HttpRequest.rests_on {response : HttpResponse}
    (hi : p.fibers[i]? = some ⟨.http path r, .settled (.ok response)⟩) {shown : JobResponse}
    (hshown : shown ∈ response.shown) :
    ∃ e ∈ p.trace, e.fiber = i ∧ e.request = .http path r ∧ Truthful e r response := by
  obtain ⟨_, hresponse, hhandled⟩ := hp.fibers i _ hi
  obtain rfl := Except.ok.inj hresponse
  rcases hhandled.truthful hp.valid with ⟨e, he, hei, htruthful⟩ | ⟨haway, -⟩ | ⟨rfl, -⟩
  · obtain ⟨f, hf, hrequest⟩ := hp.entries e he
    rw [hei, hi] at hf
    obtain rfl := Option.some.inj hf
    exact ⟨e, he, hei, hrequest.symm, htruthful⟩
  · cases haway <;> cases hshown
  · cases hshown

theorem Http.HttpRequest.not_stored {response : HttpResponse}
    (hi : p.fibers[i]? = some ⟨.http path r, .settled (.ok response)⟩)
    (hstatus : response.status = 404) {id : String} (hid : r.jobId = some id) :
    ∃ e ∈ p.trace, e.fiber = i ∧ id ∉ e.before.store.ids := by
  obtain ⟨_, hresponse, hhandled⟩ := hp.fibers i _ hi
  obtain rfl := Except.ok.inj hresponse
  rcases hhandled.truthful hp.valid with ⟨e, he, hei, htruthful⟩ | ⟨haway, -⟩ | ⟨rfl, -⟩
  · exact ⟨e, he, hei, htruthful.not_stored hstatus hid⟩
  · cases haway <;> norm_num at hstatus
  · norm_num [internalError] at hstatus

end

/-- A job that has been shown and is gone at a later request has been deleted. -/
theorem Service.deleted_of_gone {p p' : Service}
    (h : Service.Reachable supportedJobTypes allowed s p)
    (hrun : Async.Pool.Reachable (ServiceRequest.program supportedJobTypes) allowed World.act p p')
    {i : ℕ} {path : String} {r : HttpRequest} {response : HttpResponse} {shown : JobResponse}
    (hi : p.fibers[i]? = some ⟨.http path r, .settled (.ok response)⟩)
    (hshown : shown ∈ response.shown) {e' : ServiceEntry} (he' : e' ∈ p'.trace)
    (hlater : p.fibers.length ≤ e'.fiber) (hgone : shown.id ∉ e'.before.store.ids) :
    ∃ e ∈ p'.trace, Deletes shown.id e := by
  have hp := h.conforming
  have hp' := Service.Reachable.conforming (h.trans hrun)
  obtain ⟨e, he, -, hrequest, htruthful⟩ := HttpRequest.rests_on hp hi hshown
  obtain ⟨before, segment, after, htrace⟩ := hp.stretch hrun he he' hlater
  have hsplit : p'.trace = before ++ [e] ++ segment ++ e' :: after := by
    rw [htrace]
    simp
  have hocc : Service.Occurs allowed s before e := hp'.valid.occurs htrace
  have hocc' : Service.Occurs allowed s (before ++ [e] ++ segment) e' := hp'.valid.occurs hsplit
  obtain ⟨job, -, hstored⟩ := htruthful.shown_stored hocc hrequest hshown
  have hmem : shown.id ∈ e.after.store.ids :=
    (e.after.store.stored_isSome _).mp (Option.isSome_iff_exists.mpr ⟨job, hstored⟩)
  rcases Service.Valid.stored_until_deleted hocc.snoc hocc'.valid hmem with
    hstored | ⟨e'', he'', hdeletes⟩
  · exact absurd hstored hgone
  · refine ⟨e'', ?_, hdeletes⟩
    rw [htrace]
    exact List.mem_append_right _ (List.mem_cons_of_mem _ (List.mem_append_left _ he''))

/-- A job that an HTTP answer has shown is found by every request that starts after that answer,
until a DELETE of the job succeeds. -/
theorem http_found_until_deleted {p p' : Service}
    (h : Service.Reachable supportedJobTypes allowed s p) {i j : ℕ} {path path' : String}
    {r r' : HttpRequest} {response response' : HttpResponse} {shown : JobResponse}
    (hi : p.fibers[i]? = some ⟨.http path r, .settled (.ok response)⟩)
    (hshown : shown ∈ response.shown) (hlater : p.fibers.length ≤ j)
    (hrun : Async.Pool.Reachable (ServiceRequest.program supportedJobTypes) allowed World.act p p')
    (hj : p'.fibers[j]? = some ⟨.http path' r', .settled (.ok response')⟩)
    (hstatus : response'.status = 404) (hid : r'.jobId = some shown.id) :
    ∃ e ∈ p'.trace, Deletes shown.id e := by
  have hp' := Service.Reachable.conforming (h.trans hrun)
  obtain ⟨e', he', hej, hgone⟩ := HttpRequest.not_stored hp' hj hstatus hid
  exact Service.deleted_of_gone h hrun hi hshown he' (hej.symm ▸ hlater) hgone

omit [LowerCase] [ClassValidator ℚ] [ValidationMessages] in
/-- Found, deleted, and not found any more. -/
theorem http_found_until_deleted_remove :
    letI := LowerCase.ascii
    letI := ClassValidator.codePoints ℚ
    letI : ValidationMessages := ⟨fun _ _ => []⟩
    ∃ p, Service.Reachable ⟨fun _ => true, []⟩ (fun _ => True) Store.onePending p ∧
      ∃ e ∈ p.trace, Deletes "1" e := by
  let _ := LowerCase.ascii
  let _ := ClassValidator.codePoints ℚ
  let _ : ValidationMessages := ⟨fun _ _ => []⟩
  let shown : JobResponse := ⟨"1", "title", "text", .pending, "t", "t"⟩
  let gone : HttpResponse := ⟨404, .error ⟨"NOT_FOUND", notFoundMessage "1", none⟩⟩
  let program := ServiceRequest.program ⟨fun _ => true, []⟩
  let later : List (Async.Pool.Move ServiceRequest Choice) :=
    [.start (.http "/jobs/1" (.remove "1")), .resume 1 .quiet, .resume 1 .quiet, .resume 1 .quiet,
      .resume 1 .quiet, .resume 1 .quiet, .start (.http "/jobs/1" (.getById "1")),
      .resume 2 .quiet, .resume 2 .quiet, .resume 2 .quiet, .resume 2 .quiet]
  obtain ⟨p, hp, ⟨hlength, hfound⟩, hlater⟩ : ∃ p, Service.Reachable ⟨fun _ => true, []⟩
      (fun _ => True) Store.onePending p ∧
      (p.fibers.length = 1 ∧ p.found? 0 "/jobs/1" "1" = some ⟨200, .job shown⟩) ∧
      (Async.Pool.exec program (fun _ => True) World.act later p).any
        (fun p' => Service.found? p' 2 "/jobs/1" "1" = some gone) = true :=
    Async.Pool.exists_reachable [.start (.http "/jobs/1" (.getById "1")), .resume 0 .quiet,
      .resume 0 .quiet, .resume 0 .quiet, .resume 0 .quiet] _ _ (by decide +kernel)
  obtain ⟨p', hrun, hgone⟩ := Async.Pool.exists_reachable later p
    (fun p' => Service.found? p' 2 "/jobs/1" "1" = some gone) hlater
  exact ⟨p', hp.trans hrun, http_found_until_deleted hp (Service.fiber_of_found hfound)
    List.mem_cons_self (hlength.trans_le one_le_two) hrun (Service.fiber_of_found hgone) rfl rfl⟩

end JobManager
