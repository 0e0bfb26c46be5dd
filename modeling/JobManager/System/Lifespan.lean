import JobManager.Async.Ranking
import JobManager.System.Trace

/-! How often the status of one job can change, whatever runs. -/
namespace JobManager

open KeyedList Async

/-- How many edges lead from a status to the end of an attempt. -/
def JobStatus.rank : JobStatus → ℕ
  | .pending => 2
  | .processing => 1
  | .completed | .failed => 0

/-- The status changes a job has before it: three for each retry left, and the attempt it is in. -/
def Job.remaining (job : Job) : ℕ := 3 * (maxRetryCount - job.retryCount) + job.status.rank

/-- The same for an id, which may still be to be issued or already be deleted. -/
def Store.remaining (s : Store) (id : String) : ℕ :=
  match stored s.jobs id with
  | some job => job.remaining
  | none => if id ∈ s.issued then 0 else 3 * maxRetryCount + 2

/-- An entry that finds a job in one status and leaves it in another. -/
def Entry.changesStatus (e : Entry) (id : String) : Bool :=
  match stored e.before.store.jobs id, stored e.after.store.jobs id with
  | some job, some job' => job.status ≠ job'.status
  | _, _ => false

def statusChanges (id : String) (trace : List Entry) : ℕ :=
  trace.countP fun e => e.changesStatus id

theorem Job.remaining_le (job : Job) : job.remaining ≤ 3 * maxRetryCount + 2 := by
  have : job.status.rank ≤ 2 := by cases job.status <;> decide
  unfold remaining
  omega

theorem Store.remaining_le (s : Store) (id : String) : s.remaining id ≤ 3 * maxRetryCount + 2 := by
  unfold remaining
  split
  · exact Job.remaining_le _
  · split <;> omega

/-- Along an edge of the table the rank falls; only a retry, which is counted, raises it. -/
theorem JobStep.remaining {call : RepoCall} {job job' : Job} (h : JobStep call job job') :
    (if job.status ≠ job'.status then 1 else 0) + job'.remaining ≤ job.remaining := by
  have hstatus := h.status
  have hretry := h.retry
  have hcount := h.retryCount
  unfold Job.remaining
  cases hs : job.status <;> cases hs' : job'.status <;>
    simp [hs, hs', jobTransitions, JobStatus.rank] at hstatus hretry hcount ⊢ <;> omega

variable [LowerCase] {allowed : Request → Prop} {s : Store} {before : List Entry} {e : Entry}

theorem System.Occurs.remaining (h : System.Occurs allowed s before e) (id : String) :
    (if e.changesStatus id then 1 else 0) + e.after.store.remaining id ≤
      e.before.store.remaining id := by
  unfold Entry.changesStatus Store.remaining
  cases hjob : stored e.before.store.jobs id with
  | some job =>
    have hissued : id ∈ e.after.store.issued :=
      h.issued_subset (e.before.store.ids_subset_issued
        ((e.before.store.stored_isSome id).mp (by simp [hjob])))
    cases hjob' : stored e.after.store.jobs id with
    | some job' =>
      obtain ⟨call, hstep⟩ := h.jobStep hjob hjob'
      simpa using hstep.remaining
    | none => simp [hissued]
  | none =>
    cases hjob' : stored e.after.store.jobs id with
    | some job' =>
      have hle := job'.remaining_le
      simpa [(h.appears hjob hjob').1] using hle
    | none =>
      by_cases hid : id ∈ e.before.store.issued
      · simp [hid, h.issued_subset hid]
      · by_cases hid' : id ∈ e.after.store.issued <;> simp [hid, hid']

/-- From any state on, the status of a job changes at most as often as its retries allow, and so
never more than eleven times. -/
theorem status_changes_bounded {supportedJobTypes : SupportedJobTypes} {p₀ p : System}
    (h₀ : System.Reachable supportedJobTypes allowed s p₀)
    (h : Pool.Reachable (Request.program supportedJobTypes) allowed World.act p₀ p) (id : String) :
    ∃ segment, p.trace = p₀.trace ++ segment ∧
      statusChanges id segment + p.state.store.remaining id ≤ p₀.state.store.remaining id ∧
      statusChanges id segment ≤ 11 := by
  obtain ⟨segment, hsegment⟩ := h.trace_append
  have hvalid := (System.Reachable.conforming (h₀.trans h)).valid
  rw [hsegment] at hvalid
  have hcount : statusChanges id segment + p.state.store.remaining id ≤
      p₀.state.store.remaining id :=
    Valid.countP_le (fun w : World => w.store.remaining id) (fun e => Entry.changesStatus e id)
      (fun _ _ hocc => System.Occurs.remaining hocc id)
      (System.Reachable.conforming h₀).valid hvalid
  have hle := p₀.state.store.remaining_le id
  unfold maxRetryCount at hle
  exact ⟨segment, hsegment, by omega, by omega⟩

omit [LowerCase] in
/-- Four failed attempts and the three retries between them. -/
theorem status_changes_bounded_retries :
    letI := LowerCase.ascii
    ∃ p, System.Reachable ⟨fun _ => true, []⟩ (fun _ => True) Store.onePending p ∧
      statusChanges "1" p.trace = 11 ∧ p.state.store.remaining "1" = 0 := by
  let _ := LowerCase.ascii
  have hrun : ∃ p, System.Reachable ⟨fun _ => true, []⟩ (fun _ => True) Store.onePending p ∧
      statusChanges "1" p.trace = 11 :=
    System.exists_reachable _ _ _
      ((List.range 4).flatMap fun n =>
        [.start .processPendingJobs, .resume (2 * n) .quiet, .resume (2 * n) .quiet,
          .resume (2 * n) { Choice.quiet with outcome := .failed }, .resume (2 * n) .quiet,
          .start (.patchJob ⟨"1", none, none, some .pending⟩), .resume (2 * n + 1) .quiet,
          .resume (2 * n + 1) .quiet])
      _ (by decide +kernel)
  obtain ⟨p, hp, hcount⟩ := hrun
  obtain ⟨segment, hsegment, hle, -⟩ := status_changes_bounded .refl hp "1"
  rw [← List.nil_append segment] at hsegment
  obtain rfl : p.trace = segment := hsegment
  have hstart : Store.onePending.remaining "1" = 11 := by decide
  change _ ≤ Store.onePending.remaining "1" at hle
  exact ⟨p, hp, hcount, by omega⟩

end JobManager
