import JobManager.System.Trace

/-! Actor separation: which request commits which status change. -/
namespace JobManager

open KeyedList Async JsonDbJobRepository

/-- A step that commits a status change of one job. -/
structure Entry.Changes (e : Entry) (id : String) (job job' : Job) : Prop where
  before : stored e.before.store.jobs id = some job
  after : stored e.after.store.jobs id = some job'
  status : job.status ≠ job'.status

/-- Retries are committed by a PATCH that asks for `'pending'`, the other changes by the scheduler
use case. -/
def Entry.Separated (e : Entry) : Prop := ∀ id job job', e.Changes id job job' →
  (∃ input, e.request = .patchJob input ∧ input.status = some .pending ∧
    job.status = .failed ∧ job'.status = .pending) ∨
  e.request.IsScheduler ∧
    (job.status = .pending ∧ job'.status = .processing ∨
      job.status = .processing ∧ (job'.status = .completed ∨ job'.status = .failed))

/-- A PATCH without `'pending'` commits a status that the stored job may now move to: the status
it read is no longer the current one. -/
def Entry.StaleTarget (e : Entry) : Prop := ∃ input id target patch result job,
  e.request = .patchJob input ∧ input.status ≠ some .pending ∧
  e.event = ⟨.repository (.withTransition id target patch), .ok result⟩ ∧
  stored e.before.store.jobs id = some job ∧ canTransition job target = true

variable [LowerCase] {allowed : Request → Prop} {s : Store} {before : List Entry} {e : Entry}

theorem System.Occurs.not_separated (h : System.Occurs allowed s before e)
    (hstale : e.StaleTarget) : ¬ e.Separated := by
  obtain ⟨input, id, target, patch, result, job, hq, hstatus, he, hjob, hcan⟩ := hstale
  obtain ⟨stamp, hf, -, hafter⟩ := h.applies he
  have hne : job.status ≠ target := by
    rintro rfl
    simp at hcan
  have hafter' : stored e.after.store.jobs id = some (updatedJob job target patch stamp.now) := by
    rw [hafter, Store.stored_apply, hjob]
    simp [RepoOp.effect, Admits, hcan]
  intro hsep
  rcases hsep id job _ ⟨hjob, hafter', hne⟩ with ⟨input', hq', hstatus', -⟩ | ⟨hq', -⟩
  · rw [hq] at hq'
    cases hq'
    exact hstatus hstatus'
  · rw [hq] at hq'
    exact hq'

theorem System.Occurs.separated (h : System.Occurs allowed s before e)
    (hstale : ¬ e.StaleTarget) : e.Separated := by
  rintro id job job' ⟨hjob, hjob', hne⟩
  obtain rfl := lookup_key hjob
  cases h.effect with
  | silent hsame =>
    rw [hsame, hjob] at hjob'
    exact absurd (congrArg Job.status (Option.some.inj hjob')) hne
  | applies op stamp hf he hafter =>
    have hcalls := h.guar
    rw [he] at hcalls
    rw [hafter] at hjob'
    rcases e.before.store.apply_cases op stamp hf hjob with hsame | ⟨target, patch, rfl, ha, hup⟩ |
      ⟨ids, target, rfl, -, ha, hup⟩ | ⟨-, -, hdel⟩
    · rw [hsame] at hjob'
      exact absurd (congrArg Job.status (Option.some.inj hjob')) hne
    · rw [hup] at hjob'
      obtain rfl := Option.some.inj hjob'
      have hcan : canTransition job target = true := ha.resolve_left fun h => hne h.symm
      obtain ⟨input, hq, -, -, current, -, htarget⟩ := hcalls.withTransition
      by_cases hstatus : input.status = some .pending
      · rw [if_pos hstatus] at htarget
        subst htarget
        exact .inl ⟨input, hq, hstatus, (canTransition_pending hcan).1, rfl⟩
      · exact absurd ⟨input, job.id, target, patch, _, job, hq, hstatus, he, hjob, hcan⟩ hstale
    · rw [hup] at hjob'
      obtain rfl := Option.some.inj hjob'
      have hcan : canTransition job target = true := ha.resolve_left fun h => hne h.symm
      obtain ⟨hq, hallows⟩ := hcalls.withBatch
      refine .inr ⟨hq, ?_⟩
      have hedge := ((canTransition_iff job target).mp hcan).1
      have hpending := hallows.target
      cases hs : job.status <;> rw [hs] at hedge <;> simp [jobTransitions] at hedge
      · exact .inl ⟨rfl, hedge⟩
      · exact .inr ⟨rfl, hedge⟩
      · exact absurd hedge hpending
    · rw [hdel] at hjob'
      cases hjob'

omit [LowerCase] in
/-- A PATCH of the title reads `pending`, the scheduler claims and fails the job, and the PATCH
then retries it. -/
theorem stalePatch_run :
    letI := LowerCase.ascii
    ∃ p, System.Reachable ⟨fun _ => true, []⟩ (fun _ => True) Store.onePending p ∧
      ∃ e ∈ p.trace, ¬ Entry.Separated e := by
  let _ := LowerCase.ascii
  have hrun : ∃ p, System.Reachable ⟨fun _ => true, []⟩ (fun _ => True) Store.onePending p ∧
      ∃ e ∈ p.trace, e.request = .patchJob ⟨"1", some "new title", none, none⟩ ∧
        (stored e.before.store.jobs "1").map Job.status = some .failed ∧
        (stored e.after.store.jobs "1").map Job.status = some .pending :=
    System.exists_reachable _ _ _
      [.start (.patchJob ⟨"1", some "new title", none, none⟩), .start .processPendingJobs,
        .resume 0 .quiet, .resume 1 .quiet, .resume 1 .quiet,
        .resume 1 { Choice.quiet with outcome := .failed }, .resume 1 .quiet, .resume 0 .quiet]
      _ (by decide +kernel)
  obtain ⟨p, hp, e, he, hq, hbefore, hafter⟩ := hrun
  refine ⟨p, hp, e, he, fun hsep => ?_⟩
  obtain ⟨job, hjob, hstatus⟩ := Option.map_eq_some_iff.mp hbefore
  obtain ⟨job', hjob', hstatus'⟩ := Option.map_eq_some_iff.mp hafter
  have hne : job.status ≠ job'.status := by
    rw [hstatus, hstatus']
    exact fun h => by cases h
  rcases hsep "1" job job' ⟨hjob, hjob', hne⟩ with ⟨input, hq', hpatch, -⟩ | ⟨hq', -⟩
  · rw [hq] at hq'
    cases hq'
    cases hpatch
  · rw [hq] at hq'
    exact hq'

/-- Actor separation holds of a run exactly when no PATCH without `'pending'` commits a status the
job may have moved away from since it was read. -/
theorem actor_separation {supportedJobTypes : SupportedJobTypes} {p : System}
    (h : System.Reachable supportedJobTypes allowed s p) :
    (∀ e ∈ p.trace, Entry.Separated e) ↔ ∀ e ∈ p.trace, ¬ Entry.StaleTarget e := by
  constructor
  · intro hsep e he hstale
    obtain ⟨before, hocc⟩ := h.conforming.valid.mem he
    exact System.Occurs.not_separated hocc hstale (hsep e he)
  · intro hstale e he
    obtain ⟨before, hocc⟩ := h.conforming.valid.mem he
    exact System.Occurs.separated hocc (hstale e he)

omit [LowerCase] in
theorem actor_separation_stalePatch :
    letI := LowerCase.ascii
    ∃ p, System.Reachable ⟨fun _ => true, []⟩ (fun _ => True) Store.onePending p ∧
      ∃ e ∈ p.trace, Entry.StaleTarget e := by
  let _ := LowerCase.ascii
  obtain ⟨p, hp, e, he, hnot⟩ := stalePatch_run
  refine ⟨p, hp, ?_⟩
  by_contra hstale
  exact hnot ((actor_separation hp).mpr (fun e he h => hstale ⟨e, he, h⟩) e he)

omit [LowerCase] in
theorem not_actor_separation :
    letI := LowerCase.ascii
    ¬ ∀ p, System.Reachable ⟨fun _ => true, []⟩ (fun _ => True) Store.onePending p →
      ∀ e ∈ p.trace, Entry.Separated e := by
  let _ := LowerCase.ascii
  intro hsep
  obtain ⟨p, hp, e, he, hnot⟩ := stalePatch_run
  exact hnot (hsep p hp e he)

end JobManager
