import JobManager.System.Restarts
import JobManager.System.SuccessiveAnswers

/-! What a client has been told holds on over every crash and restart: a job that an answer has
shown is still there, and one that has been deleted does not come back. -/
namespace JobManager

open Async Http KeyedList

/-- The request asks to delete the job. -/
def ServiceRequest.removes (id : String) : ServiceRequest → Bool
  | .http _ (.remove id') => id' = id
  | _ => false

theorem ServiceRequest.removes_iff {q : ServiceRequest} {id : String} :
    q.removes id = true ↔ ∃ path, q = .http path (.remove id) := by
  refine ⟨fun h => ?_, ?_⟩
  · cases q with
    | tick skipGuardEnabled => cases h
    | http path r =>
      cases r with
      | remove id' =>
        obtain rfl := of_decide_eq_true h
        exact ⟨path, rfl⟩
      | create body | list | search query | getById id' | patch id' body => cases h
  · rintro ⟨path, rfl⟩
    exact decide_eq_true rfl

/-- A later state of a job, with the same text in the fields that have been left alone. -/
structure Descends (alone : TextField → Prop) (job job' : Job) : Prop where
  createdAt : job'.createdAt = job.createdAt
  status : Relation.ReflTransGen Leads job.status job'.status
  text : ∀ field, alone field → job'.text field = job.text field

namespace Descends

variable {alone alone' : TextField → Prop} {job job₁ job₂ : Job}

theorem refl (job : Job) : Descends alone job job := ⟨rfl, .refl, fun _ _ => rfl⟩

theorem trans (h : Descends alone job job₁) (h' : Descends alone' job₁ job₂) :
    Descends (fun field => alone field ∧ alone' field) job job₂ :=
  ⟨h'.createdAt.trans h.createdAt, h.status.trans h'.status, fun field halone =>
    (h'.text field halone.2).trans (h.text field halone.1)⟩

theorem mono (h : Descends alone job job₁) (halone : ∀ field, alone' field → alone field) :
    Descends alone' job job₁ :=
  ⟨h.createdAt, h.status, fun field hfield => h.text field (halone field hfield)⟩

end Descends

theorem Follows.descends {segment : List ServiceEntry} {job job' : Job}
    (h : Follows segment job job') :
    Descends (fun field => ∀ e ∈ segment, e.request.text field job.id = none) job job' := by
  refine ⟨h.createdAt, h.status, fun field halone => ?_⟩
  have hlast : lastPatched field job.id segment = none := by
    refine List.findSome?_eq_none_iff.mpr fun e he => ?_
    unfold patchedText
    split
    · exact halone e (List.mem_reverse.mp he)
    · rfl
  rw [h.text field, hlast]
  rfl

variable [LowerCase]

section

variable {allowed : ServiceRequest → Prop} {s : Store} {before segment : List ServiceEntry}
  {w w' : World} {id : String}
  (h₀ : Async.Valid allowed World.act ServiceRequest.Calls ⟨s, false⟩ before w)
  (h : Async.Valid allowed World.act ServiceRequest.Calls ⟨s, false⟩ (before ++ segment) w')

include h₀ h

/-- A job that nobody asks to delete stays. -/
theorem Service.Valid.keeps {job : Job} (hjob : stored w.store.jobs id = some job)
    (hkept : ∀ e ∈ segment, e.request.removes id = false) :
    ∃ job', stored w'.store.jobs id = some job' ∧ Follows segment job job' := by
  have hid : id ∈ w.store.ids :=
    (w.store.stored_isSome id).mp (Option.isSome_iff_exists.mpr ⟨job, hjob⟩)
  rcases Service.Valid.stored_until_deleted h₀ h hid with hid' | ⟨e, he, hdeletes⟩
  · obtain ⟨job', hjob'⟩ := Option.isSome_iff_exists.mp ((w'.store.stored_isSome id).mpr hid')
    exact ⟨job', hjob', Service.Valid.follows h₀ h hjob hjob'⟩
  · have hremoves := ServiceRequest.removes_iff.mpr hdeletes.1
    rw [hkept e he] at hremoves
    cases hremoves

/-- A job that has gone does not come back. -/
theorem Service.Valid.stays_gone (hissued : id ∈ w.store.issued) (hgone : id ∉ w.store.ids) :
    id ∈ w'.store.issued ∧ id ∉ w'.store.ids := by
  refine h₀.segment_induction (motive := fun w' _ => id ∈ w'.store.issued ∧ id ∉ w'.store.ids)
    ⟨hissued, hgone⟩ ?_ h
  rintro segment e hocc ⟨hissued, hgone⟩
  exact ⟨Service.Occurs.issued_subset hocc hissued,
    fun hid => hgone (Service.Occurs.stored_before hocc hissued hid)⟩

end

variable [ClassValidator ℚ] [Http.ValidationMessages] {processor : JobProcessor}
  {supportedJobTypes : SupportedJobTypes} {allowed later : ServiceRequest → Prop}

/-- Every entry of a run is a step of a request that has been asked. -/
theorem Service.Reachable.asked {s : Store} {p : Service} {p' : QueuedApp}
    (h : Service.Reachable supportedJobTypes allowed s p)
    (hrequests : p.fibers.map Fiber.request = p'.fibers.map QueuedFiber.request)
    {e : ServiceEntry} (he : e ∈ p.trace) : ∃ f ∈ p'.fibers, f.request = e.request := by
  obtain ⟨f, hf, hrequest⟩ := h.conforming.entries e he
  have hmem : e.request ∈ p'.fibers.map QueuedFiber.request := by
    rw [← hrequests, ← hrequest]
    exact List.mem_map_of_mem (List.mem_of_getElem? hf)
  exact List.mem_map.mp hmem

section

variable {plan : ℕ → ℕ → Environment (Option Fault)} {seed file : Option (List Job)} {n : ℕ}
  {id : String}

omit [LowerCase] [ClassValidator ℚ] [Http.ValidationMessages] in
/-- The ids of the later processes are new to what is in the file. -/
theorem Inherits.newIds {s : Store} (h : Inherits plan seed n file s)
    (hids : NewIds plan ((seed.getD []).map Job.id)) :
    NewIds (fun k => plan (n + k)) ((file.getD []).map Job.id) where
  notMem k i hmem := by
    rw [h.jobs] at hmem
    rcases h.issued _ (s.ids_subset_issued hmem) with hseed | ⟨k', hk', i', heq⟩
    · exact hids.notMem _ _ hseed
    · have := (hids.injective _ _ _ _ heq).1
      omega
  injective k i k' i' heq := by
    obtain ⟨hk, hi⟩ := hids.injective _ _ _ _ heq
    exact ⟨Nat.add_left_cancel hk, hi⟩

omit [LowerCase] [ClassValidator ℚ] [Http.ValidationMessages] in
theorem Inherits.nodup {s : Store} (h : Inherits plan seed n file s) :
    ((file.getD []).map Job.id).Nodup := by
  rw [h.jobs]
  exact s.distinct

/-- A job that is in the file at first stays in it, if no process is asked to delete it. -/
theorem Restarts.keeps (hclean : ∀ k i, (plan k i).Clean)
    (hids : NewIds plan ((seed.getD []).map Job.id))
    (hseed : ((seed.getD []).map Job.id).Nodup)
    (hlater : ∀ q, later q → q.removes id = false)
    (h : Restarts processor supportedJobTypes later plan seed n file) {job : Job}
    (hjob : stored (seed.getD []) id = some job) :
    ∃ job', stored (file.getD []) id = some job' ∧
      Descends (fun field => ∀ q, later q → q.text field id = none) job job' := by
  induction h with
  | zero => exact ⟨job, hjob, .refl job⟩
  | @succ n file h p hp ih =>
    obtain ⟨job₁, hjob₁, hdescends⟩ := ih
    obtain ⟨s, hs⟩ := h.inherits hclean hids hseed
    obtain ⟨p', hp', hinherits, -⟩ := hs.service hclean hids hp
    have hallowed : ∀ e ∈ p'.trace, later e.request := by
      intro e he
      obtain ⟨before, hocc⟩ := hp'.conforming.valid.mem he
      exact hocc.allowed
    rw [hs.jobs] at hjob₁
    obtain ⟨job₂, hjob₂, hfollows⟩ := Service.Valid.keeps .nil hp'.conforming.valid hjob₁
      fun e he => hlater _ (hallowed e he)
    obtain rfl := lookup_key hjob₁
    refine ⟨job₂, hinherits.jobs ▸ hjob₂, (hdescends.trans hfollows.descends).mono
      fun field halone => ⟨halone, fun e he => halone _ (hallowed e he)⟩⟩

/-- A job that an answer has shown is not lost: if nobody asks to delete it, it is in the file after
every crash and restart, created at the same time, with a status that follows by allowed
transitions, and with the text that was shown in every field that no PATCH has named. -/
theorem acknowledged_survives_restarts (hclean : ∀ k i, (plan k i).Clean)
    (hids : NewIds plan ((seed.getD []).map Job.id))
    (hseed : ((seed.getD []).map Job.id).Nodup)
    (h : Restarts processor supportedJobTypes allowed plan seed n file) {p : QueuedApp}
    (hp : QueuedApp.Reachable processor supportedJobTypes allowed (plan n) (.onFile file false) p)
    {i : ℕ} {path : String} {r : HttpRequest} {response : HttpResponse} {promise : Option ℕ}
    (hi : p.fibers[i]? = some ⟨.http path r, .settled (.ok response), promise⟩)
    {shown : JobResponse} (hshown : shown ∈ response.shown)
    (hkept : ∀ f ∈ p.fibers, f.request.removes shown.id = false)
    (hlater : ∀ q, later q → q.removes shown.id = false) {m : ℕ} {file' : Option (List Job)}
    (h' : Restarts processor supportedJobTypes later (fun k => plan (n + 1 + k))
      p.queue.state.db.file m file') :
    ∃ job, stored (file'.getD []) shown.id = some job ∧ job.createdAt = shown.createdAt ∧
      Relation.ReflTransGen Leads shown.status job.status ∧
      ∀ field, (∀ f ∈ p.fibers, f.request.text field shown.id = none) →
        (∀ q, later q → q.text field shown.id = none) → job.text field = shown.text field := by
  obtain ⟨s, hs⟩ := h.inherits hclean hids hseed
  obtain ⟨p', hp', hinherits, hrequests, hresults⟩ := hs.service hclean hids hp
  have hconf := hp'.conforming
  obtain ⟨e, he, -, hrequest, htruthful⟩ :=
    HttpRequest.rests_on hconf (hresults i _ _ promise hi) hshown
  obtain ⟨before, segment, htrace⟩ := List.append_of_mem he
  have hocc : Service.Occurs allowed s before e := hconf.valid.occurs htrace
  obtain ⟨job, rfl, hstored⟩ := htruthful.shown_stored hocc hrequest hshown
  have hasked : ∀ e ∈ segment, ∃ f ∈ p.fibers, f.request = e.request := fun e he =>
    hp'.asked hrequests (by simp [htrace, he])
  have hvalid := hconf.valid
  rw [htrace, List.append_cons] at hvalid
  obtain ⟨job₁, hjob₁, hfollows⟩ := Service.Valid.keeps hocc.snoc hvalid hstored fun e he => by
    obtain ⟨f, hf, hrequest⟩ := hasked e he
    exact hrequest ▸ hkept f hf
  obtain ⟨job₂, hjob₂, hdescends⟩ := h'.keeps (fun k => hclean (n + 1 + k))
    (hinherits.newIds hids) hinherits.nodup hlater (hinherits.jobs ▸ hjob₁)
  have hall := hfollows.descends.trans hdescends
  refine ⟨job₂, hjob₂, hall.createdAt, hall.status, fun field hpatched hlater => ?_⟩
  have htext : (toJobResponse job).text field = job.text field := by cases field <;> rfl
  rw [htext]
  refine hall.text field ⟨fun e he => ?_, hlater⟩
  obtain ⟨f, hf, hrequest⟩ := hasked e he
  exact hrequest ▸ hpatched f hf

/-- The answer that a request has been given, if it asks for what `asks` says. -/
def QueuedApp.answered? (p : QueuedApp) (i : ℕ) (asks : HttpRequest → Bool) :
    Option HttpResponse :=
  match (p.fibers[i]? : Option (QueuedFiber AppCall.Answer Thrown ServiceRequest.Reply)) with
  | some ⟨.http _ r, .settled (.ok response), _⟩ => if asks r = true then some response else none
  | _ => none

omit [LowerCase] [ClassValidator ℚ] [Http.ValidationMessages] in
theorem QueuedApp.fiber_of_answered {p : QueuedApp} {i : ℕ} {asks : HttpRequest → Bool}
    {response : HttpResponse} (h : p.answered? i asks = some response) :
    ∃ path r promise, asks r = true ∧
      p.fibers[i]? = some ⟨.http path r, .settled (.ok response), promise⟩ := by
  unfold QueuedApp.answered? at h
  split at h
  · next path r response' promise hi =>
    split at h
    · next hasks =>
      obtain rfl := Option.some.inj h
      exact ⟨path, r, promise, hasks, hi⟩
    · cases h
  · cases h

omit [LowerCase] [ClassValidator ℚ] [Http.ValidationMessages] in
/-- A PATCH is answered, the application is killed and started again, and the job is there. -/
theorem acknowledged_survives_restarts_patch :
    letI := LowerCase.ascii
    letI := ClassValidator.codePoints ℚ
    letI : Http.ValidationMessages := ⟨fun _ _ => []⟩
    let job : Job := ⟨"1", "title", "text", .completed, 0, "t", "t"⟩
    let plan (k i : ℕ) : Environment (Option Fault) := quietPlan (Nat.pair k i)
    ∃ p file', QueuedApp.Reachable digestProcessor ⟨fun _ => true, []⟩ (fun _ => True) (plan 0)
        (.onFile (some [job]) false) p ∧
      Restarts digestProcessor ⟨fun _ => true, []⟩ (fun q => q.removes "1" = false)
        (fun k => plan (0 + 1 + k)) p.queue.state.db.file 1 file' ∧
      ∃ job', stored (file'.getD []) "1" = some job' ∧ job'.createdAt = "t" := by
  let _ := LowerCase.ascii
  let _ := ClassValidator.codePoints ℚ
  let _ : Http.ValidationMessages := ⟨fun _ _ => []⟩
  intro job plan
  let t : AppChoice := ⟨.quiet, [], []⟩
  let shown : JobResponse := ⟨"1", "new title", "text", .completed, "t", "u"⟩
  obtain ⟨p, hp, hanswered, hkept⟩ := QueuedPool.exists_reachable
    (m := queuedProgram digestProcessor ⟨fun _ => true, []⟩ (fun _ => True) (plan 0))
    ([.start (.http "/jobs/1" (.patch "1" [("title", .string "new title")])), .call 0 t,
      .call 0 t] ++ List.replicate 9 (.micro 0) ++ [.settled 0, .call 0 t] ++
      List.replicate 10 (.micro 1) ++ [.settled 0, .call 0 t, .call 0 t])
    (QueuedPool.start ⟨false, .empty⟩ (Instance.onFile (some [job]) false))
    (fun p => QueuedApp.answered? p 0 (fun _ => true) = some ⟨200, .job shown⟩ ∧
      ∀ f ∈ p.fibers, f.request.removes "1" = false) (by decide +kernel)
  obtain ⟨path, r, promise, -, hi⟩ := QueuedApp.fiber_of_answered hanswered
  have hids : NewIds plan (((some [job]).getD []).map Job.id) := quietPlan_newIds
  have hrestarts : Restarts digestProcessor ⟨fun _ => true, []⟩ (fun q => q.removes "1" = false)
      (fun k => plan (0 + 1 + k)) p.queue.state.db.file 1 p.queue.state.db.file :=
    .succ .zero (QueuedPool.start ⟨false, .empty⟩ (.onFile p.queue.state.db.file false)) .refl
  obtain ⟨job', hjob', hcreated, -⟩ := acknowledged_survives_restarts
    (fun k i => quietPlan_clean (Nat.pair k i)) hids (by decide) .zero hp hi
    (List.mem_singleton_self shown) hkept (fun _ hq => hq) hrestarts
  exact ⟨p, _, hp, hrestarts, job', hjob', hcreated⟩

/-- The call that a 204 rests on: the job was stored before it, and not after it. -/
theorem Http.HttpRequest.removed {s : Store} {p : Service}
    (h : Service.Reachable supportedJobTypes allowed s p) {i : ℕ} {path : String}
    {response : HttpResponse}
    (hi : p.fibers[i]? = some ⟨.http path (.remove id), .settled (.ok response)⟩)
    (hstatus : response.status = 204) :
    ∃ e ∈ p.trace, id ∈ e.before.store.ids ∧ id ∉ e.after.store.ids := by
  have hp := h.conforming
  obtain ⟨_, hresponse, hhandled⟩ := hp.fibers i _ hi
  obtain rfl := Except.ok.inj hresponse
  rcases hhandled.truthful hp.valid with ⟨e, he, -, htruthful⟩ | ⟨haway, -⟩ | ⟨rfl, -⟩
  · cases htruthful with
    | removed id job hstored _ hgone =>
      have hbefore := Option.isSome_iff_exists.mpr ⟨job, hstored⟩
      exact ⟨e, he, (e.before.store.stored_isSome id).mp hbefore,
        (e.after.store.stored_eq_none id).mp hgone⟩
    | missing | inProgress => norm_num at hstatus
  · cases haway
    norm_num at hstatus
  · norm_num [internalError] at hstatus

/-- A DELETE that has been answered with 204 is final: the job is not in the file after any crash
and restart, whatever is asked of the later processes. -/
theorem deleted_stays_deleted (hclean : ∀ k i, (plan k i).Clean)
    (hids : NewIds plan ((seed.getD []).map Job.id))
    (hseed : ((seed.getD []).map Job.id).Nodup)
    (h : Restarts processor supportedJobTypes allowed plan seed n file) {p : QueuedApp}
    (hp : QueuedApp.Reachable processor supportedJobTypes allowed (plan n) (.onFile file false) p)
    {i : ℕ} {path : String} {response : HttpResponse} {promise : Option ℕ}
    (hi : p.fibers[i]? = some ⟨.http path (.remove id), .settled (.ok response), promise⟩)
    (hstatus : response.status = 204) {m : ℕ} {file' : Option (List Job)}
    (h' : Restarts processor supportedJobTypes later (fun k => plan (n + 1 + k))
      p.queue.state.db.file m file') :
    id ∉ (file'.getD []).map Job.id := by
  obtain ⟨s, hs⟩ := h.inherits hclean hids hseed
  obtain ⟨p', hp', hinherits, -, hresults⟩ := hs.service hclean hids hp
  obtain ⟨e, he, hbefore, hafter⟩ :=
    HttpRequest.removed hp' (hresults i _ _ promise hi) hstatus
  obtain ⟨before, segment, htrace⟩ := List.append_of_mem he
  have hocc : Service.Occurs allowed s before e := hp'.conforming.valid.occurs htrace
  have hvalid := hp'.conforming.valid
  rw [htrace, List.append_cons] at hvalid
  obtain ⟨hissued, hgone⟩ := Service.Valid.stays_gone hocc.snoc hvalid
    (Service.Occurs.issued_subset hocc (e.before.store.ids_subset_issued hbefore)) hafter
  obtain ⟨s', hs'⟩ := h'.inherits (fun k => hclean (n + 1 + k)) (hinherits.newIds hids)
    hinherits.nodup
  rw [hs'.jobs]
  intro hmem
  rcases hs'.issued id (s'.ids_subset_issued hmem) with hfile | ⟨k, -, j, hdrawn⟩
  · rw [hinherits.jobs] at hfile
    exact hgone hfile
  · -- the id was drawn before, so no later process draws it
    rcases hinherits.issued id hissued with hold | ⟨k', hk', j', hdrawn'⟩
    · exact hids.notMem _ _ (hdrawn ▸ hold)
    · have := (hids.injective _ _ _ _ (hdrawn.symm.trans hdrawn')).1
      omega

omit [LowerCase] [ClassValidator ℚ] [Http.ValidationMessages] in
/-- A DELETE is answered, the application is killed and started again, and the file is empty. -/
theorem deleted_stays_deleted_remove :
    letI := LowerCase.ascii
    letI := ClassValidator.codePoints ℚ
    letI : Http.ValidationMessages := ⟨fun _ _ => []⟩
    let job : Job := ⟨"1", "title", "text", .completed, 0, "t", "t"⟩
    let plan (k i : ℕ) : Environment (Option Fault) := quietPlan (Nat.pair k i)
    ∃ p file', QueuedApp.Reachable digestProcessor ⟨fun _ => true, []⟩ (fun _ => True) (plan 0)
        (.onFile (some [job]) false) p ∧
      Restarts digestProcessor ⟨fun _ => true, []⟩ (fun _ => True) (fun k => plan (0 + 1 + k))
        p.queue.state.db.file 1 file' ∧ "1" ∉ (file'.getD []).map Job.id := by
  let _ := LowerCase.ascii
  let _ := ClassValidator.codePoints ℚ
  let _ : Http.ValidationMessages := ⟨fun _ _ => []⟩
  intro job plan
  let t : AppChoice := ⟨.quiet, [], []⟩
  obtain ⟨p, hp, hanswered⟩ := QueuedPool.exists_reachable
    (m := queuedProgram digestProcessor ⟨fun _ => true, []⟩ (fun _ => True) (plan 0))
    ([.start (.http "/jobs/1" (.remove "1")), .call 0 t, .call 0 t] ++
      List.replicate 12 (.micro 0) ++ [.settled 0, .call 0 t, .call 0 t, .call 0 t])
    (QueuedPool.start ⟨false, .empty⟩ (Instance.onFile (some [job]) false))
    (fun p => QueuedApp.answered? p 0 (fun r => (ServiceRequest.http "" r).removes "1") =
      some ⟨204, .empty⟩) (by decide +kernel)
  obtain ⟨path, r, promise, hasks, hi⟩ := QueuedApp.fiber_of_answered hanswered
  obtain ⟨_, hr⟩ := ServiceRequest.removes_iff.mp hasks
  obtain rfl : r = .remove "1" := (ServiceRequest.http.inj hr).2
  have hids : NewIds plan (((some [job]).getD []).map Job.id) := quietPlan_newIds
  have hrestarts : Restarts digestProcessor ⟨fun _ => true, []⟩ (fun _ => True)
      (fun k => plan (0 + 1 + k)) p.queue.state.db.file 1 p.queue.state.db.file :=
    .succ .zero (QueuedPool.start ⟨false, .empty⟩ (.onFile p.queue.state.db.file false)) .refl
  exact ⟨p, _, hp, hrestarts, deleted_stays_deleted (fun k i => quietPlan_clean (Nat.pair k i)) hids
    (by decide) .zero hp hi rfl hrestarts⟩

end

end JobManager
