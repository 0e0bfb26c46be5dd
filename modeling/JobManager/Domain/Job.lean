import Mathlib.Tactic

/-! The job entity, its transition table and the two domain guards. -/
namespace JobManager

inductive JobStatus where
  | pending | processing | completed | failed
  deriving DecidableEq, Repr

structure Job where
  id : String
  title : String
  description : String
  status : JobStatus
  retryCount : ℕ
  createdAt : String
  updatedAt : String
  deriving DecidableEq, Repr

def maxRetryCount : ℕ := 3

/-- `pending → processing` and `processing → completed | failed` belong to the scheduler,
`failed → pending` to PATCH. -/
def jobTransitions : JobStatus → List JobStatus
  | .pending => [.processing]
  | .processing => [.completed, .failed]
  | .completed => []
  | .failed => [.pending]

inductive TransitionError where
  | invalidTransition | retryLimitExceeded
  deriving DecidableEq, Repr

def transitionError (job : Job) (target : JobStatus) : Option TransitionError :=
  let allowed := jobTransitions job.status
  if target ∉ allowed then some .invalidTransition
  else if job.status = .failed ∧ target = .pending ∧ maxRetryCount ≤ job.retryCount then
    some .retryLimitExceeded
  else none

def canTransition (job : Job) (target : JobStatus) : Bool := transitionError job target = none

inductive DeleteError where
  | forbiddenProcessing
  deriving DecidableEq, Repr

def deleteError (job : Job) : Option DeleteError :=
  if job.status = .processing then some .forbiddenProcessing else none

def canDelete (job : Job) : Bool := deleteError job = none

theorem canTransition_iff (job : Job) (target : JobStatus) :
    canTransition job target = true ↔ target ∈ jobTransitions job.status ∧
      (job.status = .failed → job.retryCount < maxRetryCount) := by
  unfold canTransition transitionError
  cases job.status <;> cases target <;> simp [jobTransitions]

theorem transitionError_eq_none (job : Job) (target : JobStatus) :
    transitionError job target = none ↔ canTransition job target = true := by
  simp [canTransition]

/-- The two errors, and what each says about the job. -/
theorem transitionError_eq_some {job : Job} {target : JobStatus} {error : TransitionError}
    (h : transitionError job target = some error) :
    error = .invalidTransition ∧ target ∉ jobTransitions job.status ∨
      error = .retryLimitExceeded ∧ job.status = .failed ∧ maxRetryCount ≤ job.retryCount := by
  dsimp only [transitionError] at h
  by_cases hedge : target ∈ jobTransitions job.status
  · rw [if_neg (not_not.mpr hedge)] at h
    split at h
    · next hlimit => exact .inr ⟨(Option.some.inj h).symm, hlimit.1, hlimit.2.2⟩
    · cases h
  · rw [if_pos hedge] at h
    exact .inl ⟨(Option.some.inj h).symm, hedge⟩

@[simp] theorem canTransition_self (job : Job) : canTransition job job.status = false := by
  cases h : job.status <;> simp [canTransition, transitionError, jobTransitions, h]

/-- Only `failed` has an edge to `pending`. -/
theorem canTransition_pending {job : Job} (h : canTransition job .pending = true) :
    job.status = .failed ∧ job.retryCount < maxRetryCount := by
  obtain ⟨hedge, hretry⟩ := (canTransition_iff job .pending).mp h
  cases hs : job.status <;> simp [jobTransitions, hs] at hedge ⊢
  exact hretry hs

theorem canDelete_iff (job : Job) : canDelete job = true ↔ job.status ≠ .processing := by
  unfold canDelete deleteError
  split <;> simp_all

end JobManager
