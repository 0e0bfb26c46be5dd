import JobManager.System.Claims

/-! Claim exclusivity: how claims, processor calls and status changes are counted against each
other when runs of the scheduler use case overlap. -/
namespace JobManager

open KeyedList Async JsonDbJobRepository

/-- A step that takes a job from `pending` to `processing`. -/
def Entry.Moves (e : Entry) (id : String) : Prop :=
  (stored e.before.store.jobs id).map Job.status = some .pending ∧
    (stored e.after.store.jobs id).map Job.status = some .processing

instance (e : Entry) (id : String) : Decidable (e.Moves id) := by
  unfold Entry.Moves
  infer_instance

def moveCount (id : String) (trace : List Entry) : ℕ := trace.countP fun e => e.Moves id

/-- Each change to `processing` is claimed by exactly one run, nothing else is claimed, and there
is at most one processor call for each change. -/
def Exclusive (trace : List Entry) : Prop := ∀ id,
  (∀ e ∈ trace, (e.claims.map Job.id).count id = if e.Moves id then 1 else 0) ∧
    processCount id trace ≤ moveCount id trace

/-- An answered claim that names a job which is already `processing`. -/
def Entry.Reclaims (e : Entry) : Prop := ∃ ids result job,
  e.event = ⟨.repository (.withBatch ids .processing), .ok result⟩ ∧ job.id ∈ ids ∧
    stored e.before.store.jobs job.id = some job ∧ job.status = .processing

/-- Every kind of request, except a PATCH that does not ask for `'pending'`. -/
def Request.RetryOnly (q : Request) : Prop :=
  ∀ input, q = .patchJob input → input.status = some .pending

instance : DecidablePred Request.RetryOnly := fun q =>
  match q with
  | .patchJob input => decidable_of_iff (input.status = some .pending)
      ⟨fun h _ he => by cases he; exact h, fun h => h input rfl⟩
  | .createJob _ | .getJob _ | .getJobs | .searchJobs _ | .deleteJob _ | .tick _
  | .processPendingJobs => .isTrue fun _ h => nomatch h

variable [LowerCase] {s : Store} {before : List Entry} {e : Entry}

section

variable {allowed : Request → Prop}

/-- A claim of jobs that are not `processing` yet claims just what it moves. -/
theorem System.Occurs.mem_claims (h : System.Occurs allowed s before e) {ids : List String}
    {result : BatchResult}
    (he : e.event = ⟨.repository (.withBatch ids .processing), .ok result⟩)
    (hre : ¬ e.Reclaims) (id : String) : id ∈ e.claims.map Job.id ↔ e.Moves id := by
  obtain ⟨stamp, hf, -, hafter⟩ := h.applies he
  rw [h.claims_ids he, List.mem_filter, Entry.Moves, hafter, Store.stored_apply]
  constructor
  · rintro ⟨hid, hany⟩
    obtain ⟨job, hjob, ha⟩ := (Option.any_eq_true _ _).mp hany
    have ha : Admits job .processing := of_decide_eq_true ha
    obtain rfl := lookup_key hjob
    have hne : job.status ≠ .processing := fun hs => hre ⟨ids, result, job, he, hid, hjob, hs⟩
    have hcan : canTransition job .processing = true := ha.resolve_left fun h => hne h.symm
    have hpending : job.status = .pending := by
      have hedge := ((canTransition_iff job .processing).mp hcan).1
      cases hs : job.status <;> simp [hs, jobTransitions] at hedge ⊢
    rw [hjob]
    simp [RepoOp.effect, hid, advance, ha, hpending]
  · rintro ⟨hpending, hprocessing⟩
    obtain ⟨job, hjob, hs⟩ := Option.map_eq_some_iff.mp hpending
    rw [hjob] at hprocessing ⊢
    by_cases hid : id ∈ ids
    · have ha : Admits job .processing :=
        .inr ((canTransition_iff job .processing).mpr (by simp [hs, jobTransitions]))
      exact ⟨hid, by simpa using ha⟩
    · simp [RepoOp.effect, hid, hs] at hprocessing

end

/-- With retries as the only status changes from outside, nothing but a claim leads to
`processing`. -/
theorem System.Occurs.not_moves (h : System.Occurs Request.RetryOnly s before e)
    (he : ∀ ids result, e.event ≠ ⟨.repository (.withBatch ids .processing), .ok result⟩)
    (id : String) : ¬ e.Moves id := by
  rintro ⟨hpending, hprocessing⟩
  obtain ⟨job, hjob, hs⟩ := Option.map_eq_some_iff.mp hpending
  obtain ⟨job', hjob', hs'⟩ := Option.map_eq_some_iff.mp hprocessing
  obtain rfl := lookup_key hjob
  have hsame : stored e.after.store.jobs job.id ≠ some job := by
    intro hsame
    rw [hjob'] at hsame
    obtain rfl := Option.some.inj hsame
    rw [hs] at hs'
    cases hs'
  cases h.effect with
  | silent heq => exact hsame (heq ▸ hjob)
  | applies op stamp hf hev hafter =>
    have hcalls := h.guar
    rw [hev] at hcalls
    rw [hafter] at hjob' hsame
    rcases e.before.store.apply_cases op stamp hf hjob with h' | ⟨target, patch, rfl, -, hup⟩ |
      ⟨ids, target, rfl, -, -, hup⟩ | ⟨-, -, hdel⟩
    · exact hsame h'
    · obtain ⟨input, hq, -, -, current, -, htarget⟩ := hcalls.withTransition
      rw [if_pos (h.allowed input hq)] at htarget
      rw [hup] at hjob'
      obtain rfl := Option.some.inj hjob'
      rw [updatedJob_status, htarget] at hs'
      cases hs'
    · rw [hup] at hjob'
      obtain rfl := Option.some.inj hjob'
      rw [updatedJob_status] at hs'
      subst hs'
      exact he _ _ hev
    · rw [hdel] at hjob'
      cases hjob'

theorem System.Occurs.claim_count (h : System.Occurs Request.RetryOnly s before e)
    (hre : ¬ e.Reclaims) (id : String) :
    (e.claims.map Job.id).count id = if e.Moves id then 1 else 0 := by
  by_cases he : ∃ ids result, e.event = ⟨.repository (.withBatch ids .processing), .ok result⟩
  · obtain ⟨ids, result, he⟩ := he
    have hnodup : (e.claims.map Job.id).Nodup := by
      rw [h.claims_ids he]
      exact (h.claim_nodup he).filter _
    simp only [hnodup.count, h.mem_claims he hre]
  · have he : ∀ ids result,
        e.event ≠ ⟨.repository (.withBatch ids .processing), .ok result⟩ :=
      fun ids result h => he ⟨ids, result, h⟩
    rw [claims_eq_nil he, if_neg (h.not_moves he id)]
    rfl

omit [LowerCase] in
theorem claimCount_eq {trace : List Entry} {id : String}
    (h : ∀ e ∈ trace, (e.claims.map Job.id).count id = if e.Moves id then 1 else 0) :
    claimCount id trace = moveCount id trace := by
  unfold claimCount moveCount
  induction trace with
  | nil => rfl
  | cons e trace ih =>
    rw [List.flatMap_cons, List.count_append, h e List.mem_cons_self,
      ih fun e he => h e (List.mem_cons_of_mem _ he), List.countP_cons, Nat.add_comm]
    simp

omit [LowerCase] in
/-- Both runs list the job while it is pending; the second claim commits it by the equal-status
shortcut, and both hand it to the processor. -/
theorem overlap_run :
    letI := LowerCase.ascii
    ∃ p, System.Reachable ⟨fun _ => true, []⟩ Request.RetryOnly Store.onePending p ∧
      processCount "1" p.trace = 2 ∧ moveCount "1" p.trace = 1 :=
  let _ := LowerCase.ascii
  System.exists_reachable _ _ _
    [.start .processPendingJobs, .start .processPendingJobs, .resume 0 .quiet, .resume 1 .quiet,
      .resume 0 .quiet, .resume 1 .quiet, .resume 0 .quiet, .resume 1 .quiet]
    _ (by decide +kernel)

/-- Overlapping runs exclude each other exactly as long as no claim names a job that another run
has claimed before it. -/
theorem claim_exclusivity {supportedJobTypes : SupportedJobTypes} {p : System}
    (h : System.Reachable supportedJobTypes Request.RetryOnly s p) :
    Exclusive p.trace ↔ ∀ e ∈ p.trace, ¬ Entry.Reclaims e := by
  have hvalid := h.conforming.valid
  constructor
  · rintro hex e he ⟨ids, result, job, hev, hid, hjob, hs⟩
    obtain ⟨before, hocc⟩ := hvalid.mem he
    have hnot : ¬ Entry.Moves e job.id := by
      rintro ⟨hpending, -⟩
      simp [hjob, hs] at hpending
    have hclaimed : job.id ∈ (Entry.claims e).map Job.id := by
      rw [System.Occurs.claims_ids hocc hev, List.mem_filter, hjob]
      exact ⟨hid, by simp [Admits, hs]⟩
    have hcount := (hex job.id).1 e he
    rw [if_neg hnot, List.count_eq_zero] at hcount
    exact hcount hclaimed
  · intro hre id
    have hcount : ∀ e ∈ p.trace, ((Entry.claims e).map Job.id).count id =
        if Entry.Moves e id then 1 else 0 := fun e he =>
      let ⟨_, hocc⟩ := hvalid.mem he
      System.Occurs.claim_count hocc (hre e he) id
    exact ⟨hcount, (System.Valid.processCount_le hvalid id).trans_eq (claimCount_eq hcount)⟩

omit [LowerCase] in
theorem claim_exclusivity_overlap :
    letI := LowerCase.ascii
    ∃ p, System.Reachable ⟨fun _ => true, []⟩ Request.RetryOnly Store.onePending p ∧
      ∃ e ∈ p.trace, Entry.Reclaims e := by
  let _ := LowerCase.ascii
  obtain ⟨p, hp, hprocess, hmove⟩ := overlap_run
  refine ⟨p, hp, ?_⟩
  by_contra hre
  have hex := (claim_exclusivity hp).mpr fun e he h => hre ⟨e, he, h⟩
  have := (hex "1").2
  omega

omit [LowerCase] in
theorem not_claim_exclusivity :
    letI := LowerCase.ascii
    ¬ ∀ p, System.Reachable ⟨fun _ => true, []⟩ Request.RetryOnly Store.onePending p →
      Exclusive p.trace := by
  let _ := LowerCase.ascii
  intro hex
  obtain ⟨p, hp, hprocess, hmove⟩ := overlap_run
  have := (hex p hp "1").2
  omega

end JobManager
