import JobManager.System.Ownership

/-! One run of the scheduler use case among any number of API requests. -/
namespace JobManager

open KeyedList Async JsonDbJobRepository

/-- The scheduler use case and the API requests around it. -/
def Request.SchedulerOrApi (q : Request) : Prop := q = .processPendingJobs ∨ q.Api

instance : DecidablePred Request.SchedulerOrApi := fun q => by
  unfold Request.SchedulerOrApi Request.Api Request.IsScheduler
  cases q <;> infer_instance

/-- The progress of one fiber. -/
abbrev progressOf (n : ℕ) (trace : List Entry) : Progress := progress (history n trace)

/-- The claim of fiber `n`: it names the candidates, and takes those that are still stored. -/
def ClaimsStored (n : ℕ) (trace : List Entry) (candidates : List Job) : Prop :=
  ∃ before e after result, trace = before ++ e :: after ∧ e.fiber = n ∧
    e.event = ⟨.repository (.withBatch (candidates.map Job.id) .processing), .ok result⟩ ∧
    (progressOf n trace).claims = result.committed ∧
    result.committed.map Job.id =
      (candidates.map Job.id).filter fun id => id ∈ e.before.store.ids

/-- What fiber `n`, a run of the scheduler use case, has done in a system. -/
structure SchedulerRun (n : ℕ) (p : System) : Prop where
  /-- The candidates are the first pending jobs at the listing. -/
  listed : ∀ e ∈ p.trace, e.fiber = n → ∀ status limit jobs,
    e.event = ⟨.repository (.listByStatus status limit), .ok jobs⟩ →
    jobs = (e.before.store.jobs.filter fun job => job.status = .pending).take 10
  /-- The claim takes every candidate that was not deleted. -/
  claimed : ∀ before e after, p.trace = before ++ e :: after → e.fiber = n → ∀ ids result,
    e.event = ⟨.repository (.withBatch ids .processing), .ok result⟩ →
    ∃ candidates, (progressOf n before).listings = [candidates] ∧
      result.committed.map Job.id =
        (candidates.map Job.id).filter (fun id => id ∈ e.before.store.ids) ∧
      ∀ job ∈ result.committed, Entry.Moves e job.id
  /-- From its claim to its commit nobody else touches a job. -/
  owned : ∀ before e after, p.trace = before ++ e :: after → e.fiber ≠ n →
    ∀ job ∈ (progressOf n before).claims, job.id ∉ (progressOf n before).done →
    stored e.before.store.jobs job.id = some job ∧ stored e.after.store.jobs job.id = some job ∧
      job.status = .processing
  /-- The processor is called for the claimed jobs in order, never twice. -/
  processed : (progressOf n p.trace).processed.map Prod.fst <+:
    (progressOf n p.trace).claims ∧
    ((progressOf n p.trace).claims.map Job.id).Nodup
  /-- After all processor calls each job is committed to its own outcome. -/
  committed : ∀ before e after, p.trace = before ++ e :: after → e.fiber = n →
    ∀ ids target result, e.event = ⟨.repository (.withBatch ids target), .ok result⟩ →
    target ≠ .processing → (progressOf n before).Finished ∧
      (target = .completed ∧ ids = (progressOf n before).outcomeIds .completed ∨
        target = .failed ∧ ids = (progressOf n before).outcomeIds .failed) ∧
      result.committed.map Job.id = ids ∧
      ∀ id ∈ ids, (stored e.before.store.jobs id).map Job.status = some .processing ∧
        (stored e.after.store.jobs id).map Job.status = some target
  /-- The run changes no job it has not claimed. -/
  others : ∀ e ∈ p.trace, e.fiber = n → ∀ id,
    stored e.after.store.jobs id ≠ stored e.before.store.jobs id →
    ∃ job ∈ (progressOf n p.trace).claims, job.id = id
  /-- The run does not throw. It has listed once, and claimed all candidates that were not deleted;
  its report and its log are what it did. -/
  finished : ∀ r, p.fibers[n]? = some ⟨.processPendingJobs, .settled r⟩ → ∃ result, r = .ok result ∧
    (∃ candidates, (progressOf n p.trace).listings = [candidates] ∧
      (∃ e ∈ p.trace, e.fiber = n ∧
        candidates = (e.before.store.jobs.filter fun job => job.status = .pending).take 10) ∧
      (candidates = [] ∧ (progressOf n p.trace).claims = [] ∨
        ClaimsStored n p.trace candidates)) ∧
    (progressOf n p.trace).processed.map Prod.fst = (progressOf n p.trace).claims ∧
    (∀ job ∈ (progressOf n p.trace).claims,
      (progressOf n p.trace).done.count job.id = 1) ∧
    result.batchSize = (progressOf n p.trace).claims.length ∧
    result.succeeded = ((progressOf n p.trace).outcomeIds .completed).length ∧
    result.failed = ((progressOf n p.trace).outcomeIds .failed).length ∧
    result.batchSize = result.succeeded + result.failed ∧
    (progressOf n p.trace).transitions =
      ((progressOf n p.trace).outcomeIds .completed).map
        (fun id => ⟨id, .processing, .completed, .scheduler⟩) ++
      ((progressOf n p.trace).outcomeIds .failed).map
        (fun id => ⟨id, .processing, .failed, .scheduler⟩)

namespace Owns

variable {v : Progress} {s : Store}

/-- Everything committed was committed as completed or as failed. -/
theorem done_perm (h : Owns v s) :
    v.done.Perm (v.committedIds .completed ++ v.committedIds .failed) := by
  have hfailed : (v.commits.filter fun c => c.target = .failed) =
      v.commits.filter fun c => !decide (c.target = .completed) :=
    List.filter_congr fun c hc => by rcases h.targets c hc with ht | ht <;> simp [ht]
  have hsplit := (List.filter_append_perm (fun c => decide (c.target = .completed)) v.commits).symm
  rw [Progress.committedIds, Progress.committedIds, hfailed, ← List.flatMap_append]
  exact hsplit.flatMap_right _

theorem committedJobs_ids (h : Owns v s) (target : JobStatus) :
    (v.committedJobs target).map Job.id = v.committedIds target := by
  rw [Progress.committedJobs, Progress.committedIds, List.map_flatMap]
  exact List.flatMap_congr fun c hc => h.committed c (List.mem_of_mem_filter hc)

theorem map_transitionOf (h : Owns v s) (target : JobStatus) :
    (v.committedJobs target).map (ProcessPendingJobsUseCase.transitionOf target) =
      (v.committedIds target).map fun id => ⟨id, .processing, target, .scheduler⟩ := by
  rw [← h.committedJobs_ids, List.map_map]
  rfl

end Owns

/-- Every processed job has one of the two outcomes. -/
theorem Progress.outcomeIds_perm (v : Progress) :
    (v.outcomeIds .completed ++ v.outcomeIds .failed).Perm
      (v.processed.map fun p => p.1.id) := by
  have hfailed : (v.processed.filter fun p => p.2 = .failed) =
      v.processed.filter fun p => !decide (p.2 = .completed) :=
    List.filter_congr fun p _ => by cases p.2 <;> simp
  rw [outcomeIds, outcomeIds, hfailed, ← List.map_append]
  exact (List.filter_append_perm _ _).map _

/-- The summary of a finished run, from what it owned and what it reports. -/
theorem Owns.report {v : Progress} {s : Store} {result : ProcessPendingJobsResult} (h : Owns v s)
    (hreport : ProcessPendingJobsUseCase.Report v result) :
    (∀ job ∈ v.claims, v.done.count job.id = 1) ∧ result.batchSize = v.claims.length ∧
    result.succeeded = (v.outcomeIds .completed).length ∧
    result.failed = (v.outcomeIds .failed).length ∧
    result.batchSize = result.succeeded + result.failed ∧
    v.transitions =
      (v.outcomeIds .completed).map (fun id => ⟨id, .processing, .completed, .scheduler⟩) ++
      (v.outcomeIds .failed).map fun id => ⟨id, .processing, .failed, .scheduler⟩ := by
  have hclaims : v.processed.map (fun p => p.1.id) = v.claims.map Job.id := by
    rw [← hreport.finished, List.map_map]
    rfl
  have hperm := v.outcomeIds_perm
  rw [hclaims] at hperm
  have hdone := h.done_perm
  rw [hreport.completedIds, hreport.failedIds] at hdone
  have hlength := hperm.length_eq
  have hsucceeded := congrArg List.length (h.committedJobs_ids .completed)
  have hfailed := congrArg List.length (h.committedJobs_ids .failed)
  simp only [List.length_append, List.length_map, hreport.completedIds, hreport.failedIds]
    at hlength hsucceeded hfailed
  have hbatch := hreport.batchSize
  have hs := hreport.succeeded
  have hf := hreport.failed
  refine ⟨fun job hjob => ?_, hbatch, by omega, by omega, by omega, ?_⟩
  · rw [(hdone.trans hperm).count_eq]
    exact List.count_eq_one_of_mem h.nodup (List.mem_map_of_mem hjob)
  · rw [hreport.transitions, h.map_transitionOf, h.map_transitionOf, hreport.completedIds,
      hreport.failedIds]

theorem Entry.Moves.intro {e : Entry} {id : String} {job job' : Job}
    (hjob : stored e.before.store.jobs id = some job) (hstatus : job.status = .pending)
    (hjob' : stored e.after.store.jobs id = some job') (hstatus' : job'.status = .processing) :
    e.Moves id := by
  simp [Entry.Moves, hjob, hjob', hstatus, hstatus']

variable [LowerCase] {allowed : Request → Prop} {s : Store} {before : List Entry} {e : Entry}

theorem System.Reachable.solo {supportedJobTypes : SupportedJobTypes} {p : System} {n : ℕ}
    (h : System.Reachable supportedJobTypes allowed s p)
    (hallowed : ∀ q, allowed q → q.SchedulerOrApi)
    (hsolo : ∀ i f, p.fibers[i]? = some f → (f.request = .processPendingJobs ↔ i = n)) :
    ∀ e ∈ p.trace, Entry.Solo n e := by
  intro e he
  obtain ⟨f, hf, hreq⟩ := h.conforming.entries e he
  rw [Entry.Solo, ← hreq]
  refine ⟨fun hn => (hsolo _ f hf).mpr hn, fun hn => ?_⟩
  have hrequest := hallowed _ (h.conforming.requests f (List.mem_of_getElem? hf))
  exact hrequest.resolve_left fun h => hn ((hsolo _ f hf).mp h)

/-- The claim of a run takes exactly the candidates that are still stored. -/
theorem Owns.claimed {v : Progress} (h : System.Occurs allowed s before e)
    (howns : Owns v e.before.store) {ids : List String} {result : BatchResult}
    (he : e.event = ⟨.repository (.withBatch ids .processing), .ok result⟩)
    (hallows : v.Allows (.repository (.withBatch ids .processing))) :
    ∃ candidates, v.listings = [candidates] ∧
      result.committed.map Job.id =
        (candidates.map Job.id).filter (fun id => id ∈ e.before.store.ids) ∧
      ∀ job ∈ result.committed, e.Moves job.id := by
  obtain ⟨candidates, -, rfl, rfl⟩ := hallows
  have hpending : ∀ id ∈ candidates.map Job.id, ∀ job,
      stored e.before.store.jobs id = some job → job.status = .pending := by
    intro id hid job hjob
    obtain ⟨candidate, hmem, rfl⟩ := List.mem_map.mp hid
    exact howns.candidates rfl candidates (List.mem_singleton_self _) candidate hmem job hjob
  refine ⟨candidates, rfl, ?_, fun job hjob => ?_⟩
  · rw [h.committed_ids he]
    refine List.filter_congr fun id hid => ?_
    cases hs : stored e.before.store.jobs id with
    | none => simp [(e.before.store.stored_eq_none id).mp hs]
    | some job =>
      have hmem : id ∈ e.before.store.ids := (e.before.store.stored_isSome id).mp (by simp [hs])
      have hcan : canTransition job .processing = true := by
        rw [canTransition_iff, hpending id hid job hs]
        simp [jobTransitions]
      simp [hmem, Admits, hcan]
  · obtain ⟨hid, hstatus, hafter⟩ := h.committed_stored he hjob
    have hmem : job.id ∈ result.committed.map Job.id := List.mem_map_of_mem hjob
    rw [h.committed_ids he] at hmem
    obtain ⟨job₀, hs, -⟩ := (Option.any_eq_true _ _).mp (List.mem_filter.mp hmem).2
    exact .intro hs (hpending _ hid job₀ hs) hafter hstatus

/-- A commit of a run takes every job from `processing` to its outcome. -/
theorem Owns.settles {v : Progress} (h : System.Occurs allowed s before e)
    (howns : Owns v e.before.store) {ids : List String} {target : JobStatus} {result : BatchResult}
    (he : e.event = ⟨.repository (.withBatch ids target), .ok result⟩)
    (hallows : v.Allows (.repository (.withBatch ids target))) (htarget : target ≠ .processing) :
    v.Finished ∧ (target = .completed ∧ ids = v.outcomeIds .completed ∨
        target = .failed ∧ ids = v.outcomeIds .failed) ∧
      result.committed.map Job.id = ids ∧
      ∀ id ∈ ids, (stored e.before.store.jobs id).map Job.status = some .processing ∧
        (stored e.after.store.jobs id).map Job.status = some target := by
  obtain ⟨hfin, houtcome, -, hids⟩ := howns.due hallows htarget
  refine ⟨hfin, houtcome, howns.commits_all h he ?_ hids⟩
  exact houtcome.imp And.left And.left

/-- The run itself changes a job only by claiming it or after it has claimed it. -/
theorem Owns.changed {v : Progress} (h : System.Occurs allowed s before e)
    (howns : Owns v e.before.store) (hallows : v.Allows e.event.call) {id : String}
    (hne : stored e.after.store.jobs id ≠ stored e.before.store.jobs id) :
    ∃ job ∈ (v.after e.event).claims, job.id = id := by
  rw [Progress.claims_after]
  cases h.effect with
  | silent hsame => exact absurd (by rw [hsame]) hne
  | applies op stamp hf he hafter =>
    rw [hafter, Store.stored_apply] at hne
    rw [he] at hallows
    cases op with
    | listByStatus status limit => exact absurd rfl hne
    | withBatch ids target =>
      have hid : id ∈ ids := by
        by_contra hid
        exact hne (if_neg hid)
      by_cases htarget : target = .processing
      · subst htarget
        have hstored := h.claim_stored he id
        split at hstored
        · next hclaimed =>
          obtain ⟨job, hjob, hjobId⟩ := List.mem_map.mp hclaimed
          exact ⟨job, List.mem_append_right _ hjob, hjobId⟩
        · rw [hafter, Store.stored_apply] at hstored
          exact absurd hstored hne
      · obtain ⟨job, hjob, hjobId, -⟩ := (howns.due hallows htarget).2.2.2 id hid
        exact ⟨job, List.mem_append_left _ hjob, hjobId⟩
    | findById _ | list | search _ | create _ | withTransition _ _ _ | delete _ =>
      exact hallows.elim

section Solo

variable {n : ℕ} {trace after : List Entry} {w : World} (h : System.Valid allowed s trace w)
  (hsolo : ∀ e ∈ trace, Entry.Solo n e)
include h hsolo

/-- What the run owns is so at every entry, its own or another's. -/
theorem System.Valid.owns_before (htrace : trace = before ++ e :: after) :
    Owns (progressOf n before) e.before.store :=
  System.Valid.owns (h.occurs htrace).valid fun e he => hsolo e (by simp [htrace, he])

/-- The run keeps to the protocol of the scheduler. -/
theorem System.Valid.allows_before (htrace : trace = before ++ e :: after) (hn : e.fiber = n) :
    (progressOf n before).Allows e.event.call := by
  have hcalls := (h.occurs htrace).guar
  rwa [(hsolo e (by simp [htrace])).1 hn, hn] at hcalls

/-- A run that has claimed has claimed the candidates that it has listed. -/
theorem System.Valid.claimsStored {candidates claimed : List Job}
    (hlistings : (progressOf n trace).listings = [candidates])
    (hbatches : (progressOf n trace).claimBatches = [claimed]) :
    ClaimsStored n trace candidates := by
  obtain ⟨ids, result, hmem, rfl⟩ :=
    mem_claimBatches (show claimed ∈ (progressOf n trace).claimBatches by simp [hbatches])
  obtain ⟨e, he, hn, hevent⟩ := mem_of_mem_history hmem
  obtain ⟨before, after, htrace⟩ := List.append_of_mem he
  have hallows := h.allows_before hsolo htrace hn
  rw [hevent] at hallows
  obtain ⟨listed, hlisted, hcommitted, -⟩ :=
    (h.owns_before hsolo htrace).claimed (h.occurs htrace) hevent hallows
  obtain ⟨named, -, rfl, hprogress⟩ := hallows
  have hsame : listed = candidates := by
    have hprefix : (progressOf n before).listings <+: (progressOf n trace).listings := by
      rw [htrace, progressOf, progressOf, history_append, listings_append]
      exact List.prefix_append _ _
    rw [hlisted, hlistings] at hprefix
    simpa using hprefix
  have hnamed : named = listed := by
    rw [hprogress] at hlisted
    simpa using hlisted
  subst hsame hnamed
  exact ⟨before, e, after, result, htrace, hn, hevent, by simp [Progress.claims, hbatches],
    hcommitted⟩

end Solo

/-- No outcome is lost or invented by a run of the scheduler use case, however API requests
interleave with it. -/
theorem scheduler_run {supportedJobTypes : SupportedJobTypes} {p : System} {n : ℕ}
    (h : System.Reachable supportedJobTypes Request.SchedulerOrApi s p)
    (hsolo : ∀ i f, p.fibers[i]? = some f → (f.request = .processPendingJobs ↔ i = n))
    (hok : ¬ Failing (history n p.trace)) : SchedulerRun n p := by
  have hconf := h.conforming
  have hvalid := hconf.valid
  have hentries := h.solo (fun _ hq => hq) hsolo
  have howns : ∀ {before e after}, p.trace = before ++ e :: after →
      Owns (progressOf n before) e.before.store := System.Valid.owns_before hvalid hentries
  have hself : ∀ {before : List Entry} {e after}, p.trace = before ++ e :: after → e.fiber = n →
      (progressOf n before).Allows e.event.call := System.Valid.allows_before hvalid hentries
  have hfinal : Owns (progressOf n p.trace) p.state.store := System.Valid.owns hvalid hentries
  refine ⟨?_, ?_, ?_, ⟨System.Valid.processed_prefix hvalid n, hfinal.nodup⟩, ?_, ?_, ?_⟩
  · intro e he _ status limit jobs hev
    obtain ⟨before, hocc⟩ := hvalid.mem he
    exact System.Occurs.listed hocc hev
  · intro before e after htrace hn ids result hev
    have hallows := hself htrace hn
    rw [hev] at hallows
    exact (howns htrace).claimed (hvalid.occurs htrace) hev hallows
  · intro before e after htrace hn job hjob hdone
    have hstored := (howns htrace).owned job hjob hdone
    have hstatus := (howns htrace).processing job hjob
    have hapi := (hentries e (by simp [htrace])).2 hn
    exact ⟨hstored, System.Occurs.api_processing (hvalid.occurs htrace) hapi hstored hstatus,
      hstatus⟩
  · intro before e after htrace hn ids target result hev htarget
    have hallows := hself htrace hn
    rw [hev] at hallows
    exact (howns htrace).settles (hvalid.occurs htrace) hev hallows htarget
  · intro e he hn id hne
    obtain ⟨before, after, htrace⟩ := List.append_of_mem he
    obtain ⟨job, hjob, hid⟩ :=
      (howns htrace).changed (hvalid.occurs htrace) (hself htrace hn) hne
    refine ⟨job, ?_, hid⟩
    have hhistory : history n p.trace = history n before ++ [e.event] ++ history n after := by
      rw [htrace, ← List.singleton_append, history_append, history_append, history_singleton,
        if_pos hn, List.append_assoc]
    rw [progressOf, hhistory, claims_progress, List.flatMap_append]
    rw [← progress_snoc, claims_progress] at hjob
    exact List.mem_append_left _ hjob
  · intro r hr
    have hpost := hconf.fibers n _ hr
    cases r with
    | error e => exact absurd hpost hok
    | ok result =>
      have hreport : ProcessPendingJobsUseCase.Report (progressOf n p.trace) result := hpost
      refine ⟨result, rfl, ?_, hreport.finished, hfinal.report hreport⟩
      obtain ⟨candidates, hlistings, hclaims⟩ := hreport.candidates
      obtain ⟨e, he, hn, hlisted⟩ := System.Valid.listing hvalid
        (show candidates ∈ (progressOf n p.trace).listings by simp [hlistings])
      refine ⟨candidates, hlistings, ⟨e, he, hn, hlisted⟩, ?_⟩
      rcases hclaims with ⟨hnone, hbatches⟩ | ⟨claimed, hbatches⟩
      · exact .inl ⟨hnone, congrArg List.flatten hbatches⟩
      · exact .inr (System.Valid.claimsStored hvalid hentries hlistings hbatches)

omit [LowerCase] in
/-- A job created before the listing is claimed and completed, one created after it is not. -/
theorem scheduler_run_create :
    letI := LowerCase.ascii
    ∃ p, System.Reachable ⟨fun _ => true, []⟩ Request.SchedulerOrApi Store.onePending p ∧
      SchedulerRun 0 p ∧ (progressOf 0 p.trace).claims.length = 1 ∧
      p.state.store.jobs.length = 2 := by
  let _ := LowerCase.ascii
  have hrun : ∃ p, System.Reachable ⟨fun _ => true, []⟩ Request.SchedulerOrApi Store.onePending p ∧
      (p.fibers.map Fiber.request = [.processPendingJobs, .createJob ⟨"title", "text"⟩] ∧
        ¬ Failing (history 0 p.trace)) ∧
      (progressOf 0 p.trace).claims.length = 1 ∧ p.state.store.jobs.length = 2 :=
    System.exists_reachable _ _ _
      [.start .processPendingJobs, .resume 0 .quiet, .start (.createJob ⟨"title", "text"⟩),
        .resume 1 .quiet, .resume 0 .quiet, .resume 0 .quiet, .resume 0 .quiet]
      _ (by decide +kernel)
  obtain ⟨p, hp, ⟨hfibers, hok⟩, hcounts⟩ := hrun
  refine ⟨p, hp, scheduler_run hp (fun i f hf => ?_) hok, hcounts⟩
  have hreq : (p.fibers.map Fiber.request)[i]? = some f.request := by
    rw [List.getElem?_map, hf, Option.map_some]
  rw [hfibers] at hreq
  match i with
  | 0 => exact iff_of_true (Option.some.inj hreq).symm rfl
  | 1 =>
    rw [← Option.some.inj hreq]
    exact iff_of_false (fun h => by cases h) one_ne_zero
  | i + 2 => cases hreq

end JobManager
