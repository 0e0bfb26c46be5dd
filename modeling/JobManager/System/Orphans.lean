import JobManager.System.Bounded
import JobManager.System.Ownership

/-! Jobs that a crash leaves in `processing`: nothing the restarted program does ends them. -/
namespace JobManager

open KeyedList Async JsonDbJobRepository

/-- The invariant of a job nobody owns: it is stored in `processing`, every PATCH that reads it
reads that status, and no run of the use case has it among its candidates. -/
structure Orphaned (id : String) (retryCount : ℕ) (trace : List Entry) (s : Store) : Prop where
  processing : ∃ job, stored s.jobs id = some job ∧ job.status = .processing ∧
    job.retryCount = retryCount
  unlisted : ∀ i, ∀ jobs ∈ (progress (history i trace)).listings, id ∉ jobs.map Job.id
  unclaimed : ∀ i, id ∉ (progress (history i trace)).claims.map Job.id
  read : ∀ i current, (⟨.repository (.findById id), .ok (some current)⟩ : Call) ∈
    history i trace → current.status = .processing

variable [LowerCase] {allowed : Request → Prop} {s : Store} {trace : List Entry} {e : Entry}
  {id : String} {retryCount : ℕ}

section

variable (h : Orphaned id retryCount trace e.before.store)
  (hocc : System.Occurs allowed s trace e)

include h hocc

/-- A batch names listed or claimed jobs only. -/
theorem Orphaned.notMem_batch {ids : List String} {target : JobStatus}
    {x : Except Thrown BatchResult} (he : e.event = ⟨.repository (.withBatch ids target), x⟩) :
    id ∉ ids := by
  have hcalls := hocc.guar
  rw [he] at hcalls
  have hallows := hcalls.withBatch.2
  intro hid
  cases target with
  | pending => exact hallows
  | processing =>
    obtain ⟨candidates, -, rfl, hprogress⟩ := hallows
    exact h.unlisted e.fiber candidates (by simp [hprogress]) hid
  | completed | failed =>
    obtain ⟨job, hjob, hid⟩ := hallows.1.mem_claims (hallows.2.1 ▸ hid)
    exact h.unclaimed e.fiber (List.mem_map.mpr ⟨job, hjob, hid⟩)

/-- A PATCH can only rewrite its texts; no batch names it and no DELETE is let through. -/
theorem Orphaned.processing_after : ∃ job, stored e.after.store.jobs id = some job ∧
    job.status = .processing ∧ job.retryCount = retryCount := by
  obtain ⟨job, hjob, hstatus, hretry⟩ := h.processing
  obtain rfl := lookup_key hjob
  cases hocc.effect with
  | silent hsame => exact ⟨job, hsame ▸ hjob, hstatus, hretry⟩
  | applies op stamp hf he hafter =>
    rw [hafter]
    rcases e.before.store.apply_cases op stamp hf hjob with hsame | ⟨target, patch, rfl, ha, hup⟩ |
      ⟨ids, target, rfl, hid, -, -⟩ | ⟨-, hdelete, -⟩
    · exact ⟨job, hsame, hstatus, hretry⟩
    · have hcalls := hocc.guar
      rw [he] at hcalls
      obtain ⟨input, -, hinput, -, current, hhistory, htarget⟩ := hcalls.withTransition
      have hread : current.status = .processing :=
        h.read e.fiber current (by simp [hhistory, hinput])
      have hprocessing : target = .processing := by
        rw [hread] at htarget
        rcases ha with ha | ha
        · exact ha.trans hstatus
        · split at htarget
          · subst htarget
            rw [(canTransition_pending ha).1] at hstatus
            cases hstatus
          · exact htarget
      exact ⟨_, hup, hprocessing, by simp [updatedJob, hstatus, hretry]⟩
    · exact absurd hid (h.notMem_batch hocc he)
    · exact absurd hstatus ((canDelete_iff job).mp hdelete)

theorem Orphaned.snoc : Orphaned id retryCount (trace ++ [e]) e.after.store := by
  obtain ⟨job, hjob, hstatus, -⟩ := h.processing
  refine ⟨h.processing_after hocc, fun i jobs hjobs => ?_, fun i hid => ?_, fun i current hr => ?_⟩
  · rw [history_append, history_singleton] at hjobs
    split at hjobs
    · rw [progress_snoc, Progress.listings_after] at hjobs
      rcases List.mem_append.mp hjobs with hold | hnew
      · exact h.unlisted i jobs hold
      · -- a listing answers pending jobs
        obtain ⟨status, limit, hevent⟩ := mem_listings
          (show jobs ∈ (progress [e.event]).listings from hnew)
        rw [hocc.listed (List.mem_singleton.mp hevent).symm]
        intro hid
        obtain ⟨job', hjob', rfl⟩ := List.mem_map.mp hid
        obtain ⟨hmem, hpending⟩ := List.mem_filter.mp (List.mem_of_mem_take hjob')
        rw [e.before.store.stored_of_mem hmem] at hjob
        obtain rfl := Option.some.inj hjob
        simp [hstatus] at hpending
    · rw [List.append_nil] at hjobs
      exact h.unlisted i jobs hjobs
  · rw [history_append, history_singleton] at hid
    split at hid
    · rw [progress_snoc, Progress.claims_after, List.map_append] at hid
      rcases List.mem_append.mp hid with hold | hnew
      · exact h.unclaimed i hold
      · change id ∈ e.claims.map Job.id at hnew
        by_cases hclaim : ∃ ids result,
            e.event = ⟨.repository (.withBatch ids .processing), .ok result⟩
        · obtain ⟨ids, result, he⟩ := hclaim
          rw [hocc.claims_ids he] at hnew
          exact h.notMem_batch hocc he (List.mem_of_mem_filter hnew)
        · rw [claims_eq_nil fun ids result he => hclaim ⟨ids, result, he⟩] at hnew
          cases hnew
    · rw [List.append_nil] at hid
      exact h.unclaimed i hid
  · rw [history_append, history_singleton] at hr
    rcases List.mem_append.mp hr with hr | hr
    · exact h.read i current hr
    · split at hr
      · obtain ⟨stamp, -, hanswer, -⟩ := hocc.applies (List.mem_singleton.mp hr).symm
        change some current = stored e.before.store.jobs id at hanswer
        rw [hjob] at hanswer
        obtain rfl := Option.some.inj hanswer
        exact hstatus
      · cases hr

end

theorem System.Valid.orphaned {w : World} (h : System.Valid allowed s trace w) {job : Job}
    (hjob : stored s.jobs job.id = some job) (hstatus : job.status = .processing) :
    Orphaned job.id job.retryCount trace w.store := by
  induction h using System.Valid.induction with
  | nil => exact ⟨⟨job, hjob, hstatus, rfl⟩, by simp, by simp [Progress.claims], by simp⟩
  | snoc trace e hocc ih => exact ih.snoc hocc

/-- A job that is `processing` when the program starts is never processed or claimed, keeps its
status and its retries whatever runs, and every retry and every DELETE of it is refused. -/
theorem orphan_stays {supportedJobTypes : SupportedJobTypes} {p : System}
    (h : System.Reachable supportedJobTypes allowed s p) {job : Job}
    (hjob : stored s.jobs job.id = some job) (hstatus : job.status = .processing) :
    (∃ job', stored p.state.store.jobs job.id = some job' ∧ job'.status = .processing ∧
      job'.retryCount = job.retryCount) ∧
    processCount job.id p.trace = 0 ∧
    ∀ e ∈ p.trace, job.id ∉ (Entry.claims e).map Job.id ∧
      (∀ patch r, e.event = ⟨.repository (.withTransition job.id .pending patch), .ok r⟩ →
        r = .refused .invalidTransition) ∧
      ∀ r, e.event = ⟨.repository (.delete job.id), .ok r⟩ → r = .refused .forbiddenProcessing := by
  have hvalid := h.conforming.valid
  have hunclaimed : ∀ e ∈ p.trace, job.id ∉ (Entry.claims e).map Job.id := by
    intro e he hid
    have horphan := System.Valid.orphaned hvalid hjob hstatus
    refine horphan.unclaimed e.fiber ?_
    obtain ⟨claimed, hclaimed, hid⟩ := List.mem_map.mp hid
    rw [claims_progress, List.mem_map]
    exact ⟨claimed, List.mem_flatMap.mpr ⟨e.event, mem_history he, hclaimed⟩, hid⟩
  refine ⟨(System.Valid.orphaned hvalid hjob hstatus).processing, ?_, fun e he =>
    ⟨hunclaimed e he, ?_⟩⟩
  · have hzero : claimCount job.id p.trace = 0 := by
      refine List.count_eq_zero.mpr fun hid => ?_
      obtain ⟨e, he, hid⟩ := List.mem_flatMap.mp hid
      exact hunclaimed e he hid
    exact Nat.le_zero.mp (hzero ▸ System.Valid.processCount_le hvalid job.id)
  · obtain ⟨before, hocc⟩ := hvalid.mem he
    obtain ⟨job', hjob', hstatus', -⟩ :=
      (System.Valid.orphaned hocc.valid hjob hstatus).processing
    constructor
    · intro patch r hr
      obtain ⟨stamp, -, rfl, -⟩ := System.Occurs.applies hocc hr
      rw [withTransition_answer, hjob']
      simp [verdict, Admits, canTransition, refusal, transitionError, jobTransitions, hstatus',
        TransitionError.toReason]
    · intro r hr
      obtain ⟨stamp, -, rfl, -⟩ := System.Occurs.applies hocc hr
      rw [delete_answer, hjob', deleteVerdict, if_neg]
      simp [canDelete_iff, hstatus']

omit [LowerCase] in
/-- A crash between a claim and its commit, then a tick, a retry and a DELETE after the restart. -/
theorem orphan_stays_restart :
    letI := LowerCase.ascii
    ∃ p p', System.Reachable ⟨fun _ => true, []⟩ (fun _ => True) Store.onePending p ∧
      System.Reachable ⟨fun _ => true, []⟩ (fun _ => True) p.state.store p' ∧
      p'.trace.length = 8 ∧ processCount "1" p'.trace = 0 := by
  let _ := LowerCase.ascii
  have hrun : ∃ p, System.Reachable ⟨fun _ => true, []⟩ (fun _ => True) Store.onePending p ∧
      (stored p.state.store.jobs "1").map Job.status = some .processing ∧
      (Pool.exec (Request.program ⟨fun _ => true, []⟩) (fun _ => True) World.act
        [.start (.tick true), .start (.patchJob ⟨"1", none, none, some .pending⟩),
          .start (.deleteJob "1"), .resume 0 .quiet, .resume 0 .quiet, .resume 0 .quiet,
          .resume 0 .quiet, .resume 0 .quiet, .resume 1 .quiet, .resume 1 .quiet,
          .resume 2 .quiet]
        (Pool.start ⟨p.state.store, false⟩)).any (fun p' => p'.trace.length = 8) = true :=
    System.exists_reachable _ _ _
      [.start .processPendingJobs, .resume 0 .quiet, .resume 0 .quiet] _ (by decide +kernel)
  obtain ⟨p, hp, hprocessing, hnext⟩ := hrun
  obtain ⟨p', hp', hlength⟩ := System.exists_reachable _ _ _ _ _ hnext
  obtain ⟨job, hjob, hstatus⟩ := Option.map_eq_some_iff.mp hprocessing
  have hid : job.id = "1" := lookup_key hjob
  rw [← hid] at hjob
  exact ⟨p, p', hp, hp', hlength, hid ▸ (orphan_stays hp' hjob hstatus).2.1⟩

end JobManager
