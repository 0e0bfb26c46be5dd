import JobManager.System.Claims
import JobManager.System.TickGuard

/-! How often a job is processed, counted against its retries. -/
namespace JobManager

open KeyedList Async

/-- The job as it was stored last, also after it was deleted. -/
def lastStored (id : String) (trace : List Entry) : Option Job :=
  trace.reverse.findSome? fun e => stored e.after.store.jobs id

/-- The retry count a job was stored with last. -/
def lastRetryCount (id : String) (trace : List Entry) : ℕ :=
  ((lastStored id trace).map Job.retryCount).getD 0

theorem lastStored_snoc (id : String) (trace : List Entry) (e : Entry) :
    lastStored id (trace ++ [e]) =
      (stored e.after.store.jobs id).or (lastStored id trace) := by
  simp only [lastStored, List.reverse_append, List.reverse_singleton, List.singleton_append,
    List.findSome?_cons]
  cases stored e.after.store.jobs id <;> rfl

@[simp] theorem claimCount_snoc (id : String) (trace : List Entry) (e : Entry) :
    claimCount id (trace ++ [e]) = claimCount id trace + (e.claims.map Job.id).count id := by
  simp [claimCount]

theorem Request.Calls.inside {q : Request} {h : List Call} {ids : List String}
    {target : JobStatus} (hq : q.Calls h (.repository (.withBatch ids target)))
    (hguarded : q.Guarded) : InsideTick h := by
  have hsched := hq.withBatch.1
  cases q with
  | tick _ => exact hq.2
  | processPendingJobs => exact absurd rfl hguarded.1
  | createJob _ | getJob _ | getJobs | searchJobs _ | patchJob _ | deleteJob _ =>
    exact hsched.elim

variable [LowerCase] {trace : List Entry} {w : World}

section

variable {allowed : Request → Prop}

theorem System.Valid.lastStored_eq (h : System.Valid allowed Store.empty trace w) {id : String}
    {job : Job} (hjob : stored w.store.jobs id = some job) : lastStored id trace = some job := by
  cases h with
  | nil => cases hjob
  | snoc e => rw [lastStored_snoc, hjob, Option.some_or]

theorem System.Valid.lastStored_issued (h : System.Valid allowed Store.empty trace w)
    {id : String} {job : Job} (hjob : lastStored id trace = some job) :
    id ∈ w.store.issued := by
  induction h using System.Valid.induction with
  | nil => cases hjob
  | snoc trace e hocc ih =>
    rw [lastStored_snoc] at hjob
    cases hs : stored e.after.store.jobs id with
    | none =>
      rw [hs, Option.none_or] at hjob
      exact hocc.issued_subset (ih hjob)
    | some job' =>
      exact e.after.store.ids_subset_issued ((e.after.store.stored_isSome id).mp (by simp [hs]))

/-- The retry count on record never falls. -/
theorem System.Occurs.lastRetryCount_le {e : Entry}
    (h : System.Occurs allowed Store.empty trace e) (id : String) :
    lastRetryCount id trace ≤ lastRetryCount id (trace ++ [e]) := by
  unfold lastRetryCount
  rw [lastStored_snoc]
  cases hs' : stored e.after.store.jobs id with
  | none => rfl
  | some job' =>
    cases hs : stored e.before.store.jobs id with
    | some job =>
      obtain ⟨call, hstep⟩ := h.jobStep hs hs'
      rw [System.Valid.lastStored_eq h.valid hs]
      exact hstep.retryCount_le
    | none =>
      have hnone : lastStored id trace = none := by
        cases hl : lastStored id trace with
        | none => rfl
        | some job => exact absurd (System.Valid.lastStored_issued h.valid hl) (h.appears hs hs').1
      rw [hnone]
      exact Nat.zero_le _

theorem System.Valid.lastRetryCount_bound (h : System.Valid allowed Store.empty trace w)
    (id : String) : lastRetryCount id trace ≤ maxRetryCount := by
  induction h using System.Valid.induction with
  | nil => exact Nat.zero_le _
  | snoc trace e hocc ih =>
    unfold lastRetryCount at ih ⊢
    rw [lastStored_snoc]
    cases hs : stored e.after.store.jobs id with
    | none => exact ih
    | some job =>
      obtain ⟨calls, hrun⟩ := System.Valid.run (Async.Occurs.snoc hocc)
      exact hrun.retryCount_bound (lookup_mem hs) fun _ h => by cases h

end

/-- The invariant of guarded ticks. A pending job has been claimed at most once for each of its
retries, also from the moment it was listed until the claim, and the claim adds one. -/
structure Budget (trace : List Entry) (w : World) : Prop where
  issued : ∀ id, 0 < claimCount id trace → id ∈ w.store.issued
  pending : ∀ id job, stored w.store.jobs id = some job → job.status = .pending →
    claimCount id trace ≤ job.retryCount
  listed : ∀ i candidates, InsideTick (history i trace) →
    candidates ∈ (progress (history i trace)).listings →
    (progress (history i trace)).claimBatches = [] →
    ∀ job ∈ candidates, claimCount job.id trace ≤ lastRetryCount job.id trace
  total : ∀ id, claimCount id trace ≤ lastRetryCount id trace + 1

section

variable {e : Entry} (h : System.Occurs Request.Guarded Store.empty trace e)
  (hbudget : Budget trace e.before)

include h hbudget

theorem Budget.claim {ids : List String} {result : BatchResult}
    (he : e.event = ⟨.repository (.withBatch ids .processing), .ok result⟩)
    (hexclusion : ∀ i j, InsideTick (history i (trace ++ [e])) →
      InsideTick (history j (trace ++ [e])) → i = j) : Budget (trace ++ [e]) e.after := by
  have hcalls := h.guar
  rw [he] at hcalls
  have hinside := hcalls.inside h.allowed
  obtain ⟨candidates, -, rfl, hprogress⟩ := hcalls.withBatch.2
  have hnodup : (e.claims.map Job.id).Nodup := by
    rw [h.claims_ids he]
    exact (h.claim_nodup he).filter _
  have hstored := h.claim_stored he
  have hcount : ∀ id, id ∉ e.claims.map Job.id → claimCount id (trace ++ [e]) =
      claimCount id trace := fun id hid => by
    rw [claimCount_snoc, List.count_eq_zero.mpr hid, Nat.add_zero]
  have hclaimed : ∀ id ∈ e.claims.map Job.id, ∃ job ∈ candidates, job.id = id ∧
      id ∈ e.before.store.ids := by
    intro id hid
    rw [h.claims_ids he] at hid
    obtain ⟨hid, hany⟩ := List.mem_filter.mp hid
    obtain ⟨job, hjob, rfl⟩ := List.mem_map.mp hid
    obtain ⟨job', hs, -⟩ := (Option.any_eq_true _ _).mp hany
    exact ⟨job, hjob, rfl, (e.before.store.stored_isSome _).mp (by simp [hs])⟩
  constructor
  · intro id hpos
    by_cases hid : id ∈ e.claims.map Job.id
    · obtain ⟨job, -, -, hmem⟩ := hclaimed id hid
      exact h.issued_subset (e.before.store.ids_subset_issued hmem)
    · rw [hcount id hid] at hpos
      exact h.issued_subset (hbudget.issued id hpos)
  · intro id job hjob hpending
    have hs := hstored id
    split at hs
    · simp [hjob, hpending] at hs
    · next hid =>
      rw [hcount id hid]
      exact hbudget.pending id job (hs ▸ hjob) hpending
  · intro i _ hin _ hbatches
    have hself : InsideTick (history e.fiber (trace ++ [e])) := by
      rw [history_append, history_singleton, if_pos rfl, he]
      exact hinside.snoc (by simp)
    obtain rfl := hexclusion i e.fiber hin hself
    rw [history_append, history_singleton, if_pos rfl, progress_snoc, he] at hbatches
    simp [Progress.after] at hbatches
  · intro id
    have hmono := h.lastRetryCount_le id
    by_cases hid : id ∈ e.claims.map Job.id
    · obtain ⟨job, hjob, rfl, -⟩ := hclaimed id hid
      have hlisted := hbudget.listed e.fiber candidates hinside (by simp [hprogress])
        (by simp [hprogress]) job hjob
      rw [claimCount_snoc, hnodup.count, if_pos hid]
      omega
    · have := hbudget.total id
      rw [hcount id hid]
      omega

theorem Budget.other
    (he : ∀ ids result, e.event ≠ ⟨.repository (.withBatch ids .processing), .ok result⟩) :
    Budget (trace ++ [e]) e.after := by
  have hcount : ∀ id, claimCount id (trace ++ [e]) = claimCount id trace := fun id => by
    rw [claimCount_snoc, claims_eq_nil he]
    rfl
  constructor
  · intro id hpos
    rw [hcount] at hpos
    exact h.issued_subset (hbudget.issued id hpos)
  · intro id job' hjob' hpending
    rw [hcount]
    cases hs : stored e.before.store.jobs id with
    | none =>
      have hnew := (h.appears hs hjob').1
      have hzero : ¬ 0 < claimCount id trace := fun hpos => hnew (hbudget.issued id hpos)
      omega
    | some job =>
      obtain ⟨call, hstep⟩ := h.jobStep hs hjob'
      rcases hstep.status with hstatus | hedge
      · have := hbudget.pending id job hs (hstatus ▸ hpending)
        have := hstep.retryCount_le
        omega
      · -- the only edge to `pending` is a counted retry
        rw [hpending] at hedge
        have hfailed : job.status = .failed := by
          cases hst : job.status <;> simp [hst, jobTransitions] at hedge ⊢
        have htotal := hbudget.total id
        rw [lastRetryCount, System.Valid.lastStored_eq h.valid hs] at htotal
        have := hstep.retry hfailed hpending
        simp only [Option.map_some, Option.getD_some] at htotal
        omega
  · intro i candidates hin hlistings hbatches job hjob
    rw [hcount]
    refine le_trans ?_ (h.lastRetryCount_le job.id)
    rw [history_append, history_singleton] at hin hlistings hbatches
    by_cases hi : e.fiber = i
    · rw [if_pos hi] at hin hlistings hbatches
      rw [progress_snoc, Progress.listings_after] at hlistings
      rw [progress_snoc, Progress.claimBatches_after] at hbatches
      subst hi
      rcases List.mem_append.mp hlistings with hold | hnew
      · rcases hin.of_snoc.2 with hin | ⟨g, hbegin⟩
        · exact hbudget.listed _ _ hin hold (List.append_eq_nil_iff.mp hbatches).1 job hjob
        · have hcalls := h.guar
          rw [hbegin] at hcalls
          obtain ⟨x, hhistory⟩ := hcalls.beginTick.2
          rw [hhistory] at hold
          cases x <;> simp [progress, Progress.after] at hold
      · -- the jobs just listed are stored and pending
        obtain ⟨status, limit, hevent⟩ := mem_listings
          (show candidates ∈ (progress [e.event]).listings from hnew)
        rw [h.listed (List.mem_singleton.mp hevent).symm] at hjob
        obtain ⟨hmem, hpending⟩ := List.mem_filter.mp (List.mem_of_mem_take hjob)
        have hs := e.before.store.stored_of_mem hmem
        rw [lastRetryCount, System.Valid.lastStored_eq h.valid hs]
        exact hbudget.pending job.id job hs (of_decide_eq_true hpending)
    · rw [if_neg hi, List.append_nil] at hin hlistings hbatches
      exact hbudget.listed i candidates hin hlistings hbatches job hjob
  · intro id
    have hmono := h.lastRetryCount_le id
    have := hbudget.total id
    rw [hcount]
    omega

end

theorem System.Valid.budget (h : System.Valid Request.Guarded Store.empty trace w) :
    Budget trace w := by
  induction h using System.Valid.induction with
  | nil => exact ⟨by simp [claimCount], fun _ _ h => (nomatch h), by simp, by simp [claimCount]⟩
  | snoc trace e hocc ih =>
    by_cases he : ∃ ids result, e.event = ⟨.repository (.withBatch ids .processing), .ok result⟩
    · obtain ⟨ids, result, he⟩ := he
      exact ih.claim hocc he (System.Valid.tick_exclusion (Async.Occurs.snoc hocc)).2
    · exact ih.other hocc fun ids result h => he ⟨ids, result, h⟩

/-- With the guard on, a job is processed at most once more often than it was retried. -/
theorem processing_bounded {supportedJobTypes : SupportedJobTypes} {p : System}
    (h : System.Reachable supportedJobTypes Request.Guarded Store.empty p) (id : String) :
    processCount id p.trace ≤ lastRetryCount id p.trace + 1 ∧ processCount id p.trace ≤ 4 := by
  have hvalid := h.conforming.valid
  have hprocess := System.Valid.processCount_le hvalid id
  have htotal := (System.Valid.budget hvalid).total id
  have hbound := System.Valid.lastRetryCount_bound hvalid id
  unfold maxRetryCount at hbound
  omega

omit [LowerCase] in
theorem processing_bounded_tick :
    letI := LowerCase.ascii
    ∃ p, System.Reachable ⟨fun _ => true, []⟩ Request.Guarded Store.empty p ∧
      processCount "2" p.trace = 1 ∧ 1 ≤ lastRetryCount "2" p.trace + 1 := by
  let _ := LowerCase.ascii
  have hrun : ∃ p, System.Reachable ⟨fun _ => true, []⟩ Request.Guarded Store.empty p ∧
      processCount "2" p.trace = 1 :=
    System.exists_reachable _ _ _
      [.start (.createJob ⟨"title", "text"⟩), .resume 0 .quiet, .start (.tick true),
        .resume 1 .quiet, .resume 1 .quiet, .resume 1 .quiet, .resume 1 .quiet, .resume 1 .quiet,
        .resume 1 .quiet, .resume 1 .quiet]
      _ (by decide +kernel)
  obtain ⟨p, hp, hcount⟩ := hrun
  exact ⟨p, hp, hcount, hcount ▸ (processing_bounded hp "2").1⟩

end JobManager
