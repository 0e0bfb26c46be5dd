import JobManager.System.Claims
import JobManager.System.Exclusivity

/-! Ownership: while one run of the scheduler use case is in progress, the jobs it has claimed and
not yet committed are touched by nobody else. -/
namespace JobManager

open KeyedList Async JsonDbJobRepository

/-- An API request whose only status change is a retry. -/
def Request.Api (q : Request) : Prop := ¬ q.IsScheduler ∧ q.RetryOnly

/-- Fiber `n` runs the scheduler use case, every other fiber an API request. -/
def Entry.Solo (n : ℕ) (e : Entry) : Prop :=
  (e.fiber = n → e.request = .processPendingJobs) ∧ (e.fiber ≠ n → e.request.Api)

/-- The ids a run has committed so far. -/
def Progress.done (v : Progress) : List String := v.commits.flatMap Commit.ids

/-- What a run can rely on: its unclaimed candidates are pending or gone, and its claimed jobs are
stored as it claimed them until it commits them. -/
structure Owns (v : Progress) (s : Store) : Prop where
  candidates : v.claimBatches = [] → ∀ jobs ∈ v.listings, ∀ job ∈ jobs, ∀ job',
    stored s.jobs job.id = some job' → job'.status = .pending
  owned : ∀ job ∈ v.claims, job.id ∉ v.done → stored s.jobs job.id = some job
  processing : ∀ job ∈ v.claims, job.status = .processing
  nodup : (v.claims.map Job.id).Nodup
  targets : ∀ c ∈ v.commits, c.target = .completed ∨ c.target = .failed
  committed : ∀ c ∈ v.commits, c.committed.map Job.id = c.ids
  released : ∀ id ∈ v.done, ∀ job, stored s.jobs id = some job → job.status ≠ .processing

theorem Owns.start (s : Store) : Owns {} s :=
  ⟨fun _ _ h => (nomatch h), fun _ h => (nomatch h), fun _ h => (nomatch h), List.nodup_nil,
    fun _ h => (nomatch h), fun _ h => (nomatch h), fun _ h => (nomatch h)⟩

/-- Only the listing, the claim and the commits matter. -/
theorem Owns.congr {v v' : Progress} {s : Store} (h : Owns v s) (hl : v'.listings = v.listings)
    (hb : v'.claimBatches = v.claimBatches) (hc : v'.commits = v.commits) : Owns v' s := by
  have hclaims : v'.claims = v.claims := congrArg List.flatten hb
  have hdone : v'.done = v.done := congrArg (List.flatMap Commit.ids) hc
  constructor
  · rw [hl, hb]
    exact h.candidates
  · rw [hclaims, hdone]
    exact h.owned
  · rw [hclaims]
    exact h.processing
  · rw [hclaims]
    exact h.nodup
  · rw [hc]
    exact h.targets
  · rw [hc]
    exact h.committed
  · rw [hdone]
    exact h.released

namespace Progress

variable {v : Progress}

theorem mem_outcomeIds {outcome : JobProcessOutcome} {id : String} :
    id ∈ v.outcomeIds outcome ↔ ∃ job, (job, outcome) ∈ v.processed ∧ job.id = id := by
  simp only [outcomeIds, List.mem_map, List.mem_filter, decide_eq_true_eq, Prod.exists]
  constructor
  · rintro ⟨job, outcome', ⟨hmem, rfl⟩, hid⟩
    exact ⟨job, hmem, hid⟩
  · rintro ⟨job, hmem, hid⟩
    exact ⟨job, outcome, ⟨hmem, rfl⟩, hid⟩

/-- A claimed job has one outcome. -/
theorem Finished.outcome_unique (hfin : v.Finished) (hnodup : (v.claims.map Job.id).Nodup)
    {id : String} {outcome outcome' : JobProcessOutcome} (h : id ∈ v.outcomeIds outcome)
    (h' : id ∈ v.outcomeIds outcome') : outcome = outcome' := by
  obtain ⟨job, hmem, rfl⟩ := mem_outcomeIds.mp h
  obtain ⟨job', hmem', hid⟩ := mem_outcomeIds.mp h'
  rw [← hfin, List.map_map] at hnodup
  exact (Prod.mk.inj (List.inj_on_of_nodup_map hnodup hmem hmem' hid.symm)).2

theorem Finished.mem_claims (hfin : v.Finished) {id : String} {outcome : JobProcessOutcome}
    (h : id ∈ v.outcomeIds outcome) : ∃ job ∈ v.claims, job.id = id := by
  obtain ⟨job, hmem, rfl⟩ := mem_outcomeIds.mp h
  exact ⟨job, hfin ▸ List.mem_map_of_mem hmem, rfl⟩

theorem mem_committedIds {target : JobStatus} {id : String} :
    id ∈ v.committedIds target ↔ ∃ c ∈ v.commits, c.target = target ∧ id ∈ c.ids := by
  simp [committedIds, and_assoc]

end Progress

variable [LowerCase] {allowed : Request → Prop} {s : Store} {trace : List Entry} {w : World}
  {before : List Entry} {e : Entry}

/-- An API request leaves a job as it is, retries it or, unless it is processing, deletes it. -/
theorem System.Occurs.api_job (h : System.Occurs allowed s before e) (hapi : e.request.Api)
    {id : String} {job : Job} (hjob : stored e.before.store.jobs id = some job) :
    stored e.after.store.jobs id = some job ∨
    job.status ≠ .processing ∧ (∀ job', stored e.after.store.jobs id = some job' →
      job'.status = .pending) := by
  obtain rfl := lookup_key hjob
  cases h.effect with
  | silent hsame => exact .inl (hsame ▸ hjob)
  | applies op stamp hf he hafter =>
    have hcalls := h.guar
    rw [he] at hcalls
    rw [hafter]
    rcases e.before.store.apply_cases op stamp hf hjob with hsame | ⟨target, patch, rfl, ha, hup⟩ |
      ⟨ids, target, rfl, -, -, -⟩ | ⟨rfl, hdelete, hdel⟩
    · exact .inl hsame
    · obtain ⟨input, hq, -, -, current, -, htarget⟩ := hcalls.withTransition
      rw [if_pos (hapi.2 input hq)] at htarget
      subst htarget
      refine .inr ⟨?_, fun job' hjob' => ?_⟩
      · rcases ha with ha | ha
        · rw [← ha]
          exact fun h => by cases h
        · rw [(canTransition_pending ha).1]
          exact fun h => by cases h
      · rw [hup] at hjob'
        obtain rfl := Option.some.inj hjob'
        rfl
    · exact absurd hcalls.withBatch.1 hapi.1
    · refine .inr ⟨(canDelete_iff job).mp hdelete, fun job' hjob' => ?_⟩
      rw [hdel] at hjob'
      cases hjob'

/-- No API request touches a job that is `processing`. -/
theorem System.Occurs.api_processing (h : System.Occurs allowed s before e)
    (hapi : e.request.Api) {id : String} {job : Job}
    (hjob : stored e.before.store.jobs id = some job) (hstatus : job.status = .processing) :
    stored e.after.store.jobs id = some job :=
  (h.api_job hapi hjob).resolve_right fun hne => hne.1 hstatus

/-- An API request leaves a pending job pending, or deletes it. -/
theorem System.Occurs.api_pending (h : System.Occurs allowed s before e)
    (hapi : e.request.Api) {id : String}
    (hjob : ∀ job, stored e.before.store.jobs id = some job → job.status = .pending) :
    ∀ job', stored e.after.store.jobs id = some job' → job'.status = .pending := by
  intro job' hjob'
  cases hs : stored e.before.store.jobs id with
  | none => exact (h.appears hs hjob').2.1
  | some job =>
    rcases h.api_job hapi hs with hsame | ⟨-, hpending⟩
    · rw [hsame] at hjob'
      exact Option.some.inj hjob' ▸ hjob job hs
    · exact hpending job' hjob'

/-- No API request starts the processing of a job. -/
theorem System.Occurs.api_not_processing (h : System.Occurs allowed s before e)
    (hapi : e.request.Api) {id : String}
    (hjob : ∀ job, stored e.before.store.jobs id = some job → job.status ≠ .processing) :
    ∀ job', stored e.after.store.jobs id = some job' → job'.status ≠ .processing := by
  intro job' hjob'
  cases hs : stored e.before.store.jobs id with
  | none =>
    rw [(h.appears hs hjob').2.1]
    exact fun h => by cases h
  | some job =>
    have hne := hjob job hs
    rcases h.api_job hapi hs with hsame | ⟨-, hpending⟩
    · rw [hsame] at hjob'
      exact Option.some.inj hjob' ▸ hne
    · rw [hpending job' hjob']
      exact fun h => by cases h

theorem Owns.api {v : Progress} (h : System.Occurs allowed s before e) (hapi : e.request.Api)
    (howns : Owns v e.before.store) : Owns v e.after.store where
  candidates hbatches jobs hjobs job hjob :=
    h.api_pending hapi (howns.candidates hbatches jobs hjobs job hjob)
  owned job hjob hdone :=
    h.api_processing hapi (howns.owned job hjob hdone) (howns.processing job hjob)
  processing := howns.processing
  nodup := howns.nodup
  targets := howns.targets
  committed := howns.committed
  released id hid := h.api_not_processing hapi (howns.released id hid)

/-- A commit of claimed, uncommitted ids commits them all, from `processing` to its target. -/
theorem Owns.commits_all {v : Progress} (h : System.Occurs allowed s before e)
    (howns : Owns v e.before.store) {ids : List String} {target : JobStatus} {result : BatchResult}
    (he : e.event = ⟨.repository (.withBatch ids target), .ok result⟩)
    (htarget : target = .completed ∨ target = .failed)
    (hids : ∀ id ∈ ids, ∃ job ∈ v.claims, job.id = id ∧ id ∉ v.done) :
    result.committed.map Job.id = ids ∧
    ∀ id ∈ ids, (stored e.before.store.jobs id).map Job.status = some .processing ∧
      (stored e.after.store.jobs id).map Job.status = some target := by
  have hall : result.committed.map Job.id = ids := by
    rw [h.committed_ids he]
    refine List.filter_eq_self.mpr fun id hid => ?_
    obtain ⟨job, hjob, rfl, hnot⟩ := hids id hid
    have hcan : canTransition job target = true := by
      rw [canTransition_iff, howns.processing job hjob]
      rcases htarget with rfl | rfl <;> simp [jobTransitions]
    rw [howns.owned job hjob hnot]
    simp [Admits, hcan]
  refine ⟨hall, fun id hid => ⟨?_, ?_⟩⟩
  · obtain ⟨job, hjob, rfl, hnot⟩ := hids id hid
    rw [howns.owned job hjob hnot, Option.map_some, howns.processing job hjob]
  · rw [← hall] at hid
    obtain ⟨job, hjob, rfl⟩ := List.mem_map.mp hid
    obtain ⟨-, hstatus, hafter⟩ := h.committed_stored he hjob
    rw [hafter, Option.map_some, hstatus]

theorem Owns.commit {v : Progress} (h : System.Occurs allowed s before e)
    (howns : Owns v e.before.store) {ids : List String} {target : JobStatus} {result : BatchResult}
    (he : e.event = ⟨.repository (.withBatch ids target), .ok result⟩)
    (htarget : target = .completed ∨ target = .failed) (hne : ids ≠ [])
    (hids : ∀ id ∈ ids, ∃ job ∈ v.claims, job.id = id ∧ id ∉ v.done) :
    Owns { v with commits := v.commits ++ [⟨target, ids, result.committed⟩] } e.after.store := by
  have hdone : Progress.done { v with commits := v.commits ++ [⟨target, ids, result.committed⟩] } =
      v.done ++ ids := by simp [Progress.done]
  obtain ⟨hall, hstatus⟩ := howns.commits_all h he htarget hids
  constructor
  · intro hbatches
    obtain ⟨id, hid⟩ := List.exists_mem_of_ne_nil ids hne
    obtain ⟨job, hjob, -⟩ := hids id hid
    rw [Progress.claims, show v.claimBatches = [] from hbatches] at hjob
    cases hjob
  · intro job hjob hnot
    rw [hdone, List.mem_append, not_or] at hnot
    rw [h.batch_stored he hnot.2]
    exact howns.owned job hjob hnot.1
  · exact howns.processing
  · exact howns.nodup
  · intro c hc
    rcases List.mem_append.mp hc with hc | hc
    · exact howns.targets c hc
    · obtain rfl := List.mem_singleton.mp hc
      exact htarget
  · intro c hc
    rcases List.mem_append.mp hc with hc | hc
    · exact howns.committed c hc
    · obtain rfl := List.mem_singleton.mp hc
      exact hall
  · intro id hid job hjob
    rw [hdone, List.mem_append] at hid
    by_cases hnew : id ∈ ids
    · have hafter := (hstatus id hnew).2
      rw [hjob, Option.map_some, Option.some.injEq] at hafter
      rw [hafter]
      rcases htarget with rfl | rfl <;> exact fun h => by cases h
    · rw [h.batch_stored he hnew] at hjob
      exact howns.released id (hid.resolve_right hnew) job hjob

theorem Owns.claim {candidates : List Job} (h : System.Occurs allowed s before e)
    {ids : List String} {result : BatchResult}
    (he : e.event = ⟨.repository (.withBatch ids .processing), .ok result⟩) :
    Owns { listings := [candidates], claimBatches := [result.committed] } e.after.store := by
  have hclaims : Progress.claims
      { listings := [candidates], claimBatches := [result.committed] } = result.committed :=
    List.flatten_singleton
  constructor
  · exact fun hbatches => nomatch hbatches
  · intro job hjob _
    exact (h.committed_stored he (hclaims ▸ hjob)).2.2
  · intro job hjob
    exact (h.committed_stored he (hclaims ▸ hjob)).2.1
  · rw [hclaims, h.committed_ids he]
    exact (h.claim_nodup he).filter _
  · exact fun _ h => nomatch h
  · exact fun _ h => nomatch h
  · exact fun _ h => nomatch h

omit [LowerCase] in
/-- What is due to be committed as failed has not been committed as completed. -/
theorem Owns.not_done {v : Progress} {s : Store} (howns : Owns v s) (hfin : v.Finished)
    (hnone : v.committedIds .failed = [])
    (hcompleted : v.committedIds .completed = v.outcomeIds .completed) {id : String}
    (hid : id ∈ v.outcomeIds .failed) : id ∉ v.done := by
  intro hdone
  obtain ⟨c, hc, hmem⟩ := List.mem_flatMap.mp hdone
  rcases howns.targets c hc with ht | ht
  · have : id ∈ v.committedIds .completed := Progress.mem_committedIds.mpr ⟨c, hc, ht, hmem⟩
    rw [hcompleted] at this
    cases hfin.outcome_unique howns.nodup this hid
  · have : id ∈ v.committedIds .failed := Progress.mem_committedIds.mpr ⟨c, hc, ht, hmem⟩
    rw [hnone] at this
    cases this

omit [LowerCase] in
/-- The ids of a commit are claimed, have the outcome of its target, and are still to be done. -/
theorem Owns.due {v : Progress} {s : Store} (howns : Owns v s) {ids : List String}
    {target : JobStatus} (hallows : v.Allows (.repository (.withBatch ids target)))
    (htarget : target ≠ .processing) :
    v.Finished ∧ (target = .completed ∧ ids = v.outcomeIds .completed ∨
      target = .failed ∧ ids = v.outcomeIds .failed) ∧ ids ≠ [] ∧
    ∀ id ∈ ids, ∃ job ∈ v.claims, job.id = id ∧ id ∉ v.done := by
  cases target with
  | pending => exact hallows.elim
  | processing => exact absurd rfl htarget
  | completed =>
    obtain ⟨hfin, rfl, hne, hcommits⟩ := hallows
    refine ⟨hfin, .inl ⟨rfl, rfl⟩, hne, fun id hid => ?_⟩
    obtain ⟨job, hjob, rfl⟩ := hfin.mem_claims hid
    exact ⟨job, hjob, rfl, by simp [Progress.done, hcommits]⟩
  | failed =>
    obtain ⟨hfin, rfl, hne, hnone, hcompleted⟩ := hallows
    refine ⟨hfin, .inr ⟨rfl, rfl⟩, hne, fun id hid => ?_⟩
    obtain ⟨job, hjob, rfl⟩ := hfin.mem_claims hid
    exact ⟨job, hjob, rfl, howns.not_done hfin hnone hcompleted hid⟩

theorem Owns.listed (h : System.Occurs allowed s before e) {status : JobStatus} {limit : ℤ}
    {jobs : List Job} (he : e.event = ⟨.repository (.listByStatus status limit), .ok jobs⟩) :
    Owns { listings := [jobs] } e.after.store := by
  obtain ⟨stamp, hf, -, hafter⟩ := h.applies he
  refine ⟨fun _ jobs' hjobs' job hjob job' hjob' => ?_, fun _ h => (nomatch h),
    fun _ h => (nomatch h), List.nodup_nil, fun _ h => (nomatch h), fun _ h => (nomatch h),
    fun _ h => (nomatch h)⟩
  obtain rfl := List.mem_singleton.mp hjobs'
  rw [h.listed he] at hjob
  obtain ⟨hmem, hpending⟩ := List.mem_filter.mp (List.mem_of_mem_take hjob)
  rw [hafter, Store.stored_apply] at hjob'
  change stored e.before.store.jobs job.id = some job' at hjob'
  rw [e.before.store.stored_of_mem hmem] at hjob'
  exact Option.some.inj hjob' ▸ of_decide_eq_true hpending

omit [LowerCase] in
theorem Progress.after_other {v : Progress} {c : Call}
    (hc : ∀ op r, c ≠ ⟨.repository op, .ok r⟩) : (v.after c).listings = v.listings ∧
      (v.after c).claimBatches = v.claimBatches ∧ (v.after c).commits = v.commits := by
  unfold Progress.after
  split <;> first | exact ⟨rfl, rfl, rfl⟩ | exact absurd rfl (hc _ _)

/-- The run itself keeps its ownership, whatever it does next. -/
theorem Owns.own {v : Progress} (h : System.Occurs allowed s before e)
    (howns : Owns v e.before.store) (hallows : v.Allows e.event.call) :
    Owns (v.after e.event) e.after.store := by
  by_cases he : ∃ op r, e.event = ⟨.repository op, .ok r⟩
  · obtain ⟨op, r, he⟩ := he
    rw [he] at hallows ⊢
    cases op with
    | listByStatus status limit =>
      obtain ⟨rfl, rfl, rfl⟩ := hallows
      exact Owns.listed h he
    | withBatch ids target =>
      by_cases htarget : target = .processing
      · subst htarget
        obtain ⟨candidates, -, rfl, rfl⟩ := hallows
        exact Owns.claim h he
      · obtain ⟨-, houtcome, hne, hids⟩ := howns.due hallows htarget
        rcases houtcome with ⟨rfl, -⟩ | ⟨rfl, -⟩
        · exact howns.commit h he (.inl rfl) hne hids
        · exact howns.commit h he (.inr rfl) hne hids
    | findById _ | list | search _ | create _ | withTransition _ _ _ | delete _ =>
      exact hallows.elim
  · have he : ∀ op r, e.event ≠ ⟨.repository op, .ok r⟩ := fun op r h => he ⟨op, r, h⟩
    have hsame : e.after.store = e.before.store := by
      cases h.effect with
      | silent hsame => exact hsame
      | applies op stamp hf hev _ => exact absurd hev (he op _)
    obtain ⟨hl, hb, hc⟩ := Progress.after_other (v := v) he
    rw [hsame]
    exact howns.congr hl hb hc

theorem System.Valid.owns (h : System.Valid allowed s trace w) {n : ℕ}
    (hsolo : ∀ e ∈ trace, Entry.Solo n e) : Owns (progress (history n trace)) w.store := by
  induction h using System.Valid.induction with
  | nil => exact Owns.start s
  | snoc trace e hocc ih =>
    have howns := ih fun e he => hsolo e (List.mem_append_left _ he)
    obtain ⟨hself, hother⟩ := hsolo e (List.mem_append_right _ (List.mem_singleton_self _))
    rw [history_append, history_singleton]
    by_cases hn : e.fiber = n
    · have hguar := hocc.guar
      rw [hself hn, hn] at hguar
      rw [if_pos hn, progress_snoc]
      exact howns.own hocc hguar
    · rw [if_neg hn, List.append_nil]
      exact howns.api hocc (hother hn)

end JobManager
