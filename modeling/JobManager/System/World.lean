import JobManager.Adapters.JobScheduler
import JobManager.Async.Pool
import JobManager.Persistence.Store

/-! The running system: requests and ticks in progress over one repository. -/
namespace JobManager

/-- What can be started: the HTTP routes, a tick, or the scheduler use case by itself. -/
inductive Request where
  | createJob (input : CreateJobData)
  | getJob (id : String)
  | getJobs
  | searchJobs (query : JobSearchQuery)
  | patchJob (input : PatchJobInput)
  | deleteJob (id : String)
  | tick (skipGuardEnabled : Bool)
  | processPendingJobs
  deriving DecidableEq, Repr

namespace Request

abbrev Reply : Request → Type
  | createJob _ => CreateJobResult
  | getJob _ => Option Job
  | getJobs | searchJobs _ => List Job
  | patchJob _ => TransitionResult
  | deleteJob _ => DeleteResult
  | tick _ => Unit
  | processPendingJobs => ProcessPendingJobsResult

def program (supportedJobTypes : SupportedJobTypes) : (q : Request) → Program q.Reply
  | createJob input => CreateJobUseCase.execute supportedJobTypes input
  | getJob id => GetJobUseCase.execute id
  | getJobs => GetJobsUseCase.execute
  | searchJobs query => SearchJobsUseCase.execute query
  | patchJob input => PatchJobUseCase.execute input
  | deleteJob id => DeleteJobUseCase.execute id
  | tick skipGuardEnabled => JobSchedulerAdapter.tick skipGuardEnabled
  | processPendingJobs => ProcessPendingJobsUseCase.execute

end Request

/-- The repository seen from outside, one atomic step per call, and the tick flag. -/
structure World where
  store : Store
  isTickRunning : Bool

/-- What the environment decides about one call: the id and time it gives, what the processor
answers, and whether the call throws instead. -/
structure Choice where
  stamp : Stamp
  outcome : JobProcessOutcome
  dateNow : ℤ
  throws : Option Thrown

/-- Nothing fails and every processor call completes. -/
def Choice.quiet : Choice := ⟨⟨"2", "u"⟩, .completed, 0, none⟩

instance (op : RepoOp) (stamp : Stamp) (issued : List String) :
    Decidable (op.Fresh stamp issued) :=
  match op with
  | .create data => decidable_of_iff (stamp.uuid ∉ issued)
      ⟨fun h _ _ => h, fun h => h data rfl⟩
  | .findById _ | .list | .search _ | .listByStatus _ _ | .withTransition _ _ _ | .withBatch _ _
  | .delete _ => .isTrue fun _ h => nomatch h

abbrev Call := Async.Event Effect.Answer Thrown
abbrev Entry := Async.Entry Effect.Answer Thrown Request World
abbrev System := Async.Pool Effect.Answer Thrown Request.Reply World

variable [LowerCase]

/-- The effect of one call; a rejected repository call changes nothing. -/
def World.act (t : Choice) : (c : Effect) → World → Option (Except Thrown c.Answer × World)
  | .repository op, w => match t.throws with
    | some e => some (.error e, w)
    | none => if h : op.Fresh t.stamp w.store.issued then
        some (.ok (op.run t.stamp w.store.jobs).1, { w with store := w.store.apply op t.stamp h })
      else none
  | .process _, w => match t.throws with
    | some e => some (.error e, w)
    | none => some (.ok t.outcome, w)
  | .log _, w => match t.throws with
    | some e => some (.error e, w)
    | none => some (.ok (), w)
  | .beginTick skipGuardEnabled, w =>
    some (.ok (skipGuardEnabled && w.isTickRunning), { w with isTickRunning := true })
  | .endTick, w => some (.ok (), { w with isTickRunning := false })
  | .randomUUID, w => some (.ok t.stamp.uuid, w)
  | .dateNow, w => some (.ok t.dateNow, w)

/-- The systems that requests of an allowed kind can lead to from a store. -/
def System.Reachable (supportedJobTypes : SupportedJobTypes) (allowed : Request → Prop)
    (s : Store) (p : System) : Prop :=
  Async.Pool.Reachable (Request.program supportedJobTypes) allowed World.act
    (Async.Pool.start ⟨s, false⟩) p

/-- A run of the system by an explicit schedule. -/
theorem System.exists_reachable (supportedJobTypes : SupportedJobTypes) (allowed : Request → Prop)
    [DecidablePred allowed] (s : Store) (moves : List (Async.Pool.Move Request Choice))
    (P : System → Prop) [DecidablePred P]
    (h : (Async.Pool.exec (Request.program supportedJobTypes) allowed World.act moves
      (Async.Pool.start ⟨s, false⟩)).any (fun p => P p) = true) :
    ∃ p, System.Reachable supportedJobTypes allowed s p ∧ P p :=
  Async.Pool.exists_reachable moves _ P h

namespace World

theorem act_repository {t : Choice} {op : RepoOp} {w w' : World} {x : Except Thrown op.Result}
    (h : act t (.repository op) w = some (x, w')) :
    (∃ e, x = .error e ∧ w' = w) ∨
    ∃ hf : op.Fresh t.stamp w.store.issued, x = .ok (op.run t.stamp w.store.jobs).1 ∧
      w' = { w with store := w.store.apply op t.stamp hf } := by
  cases ht : t.throws with
  | some e =>
    simp only [act, ht] at h
    obtain ⟨rfl, rfl⟩ := Prod.mk.inj (Option.some.inj h)
    exact .inl ⟨e, rfl, rfl⟩
  | none =>
    simp only [act, ht] at h
    split at h
    · next hf =>
      obtain ⟨rfl, rfl⟩ := Prod.mk.inj (Option.some.inj h)
      exact .inr ⟨hf, rfl, rfl⟩
    · cases h

/-- Only repository calls touch the store. -/
theorem act_store {t : Choice} {c : Effect} {w w' : World} {x : Except Thrown c.Answer}
    (h : act t c w = some (x, w')) (hc : ∀ op, c ≠ .repository op) : w'.store = w.store := by
  cases c with
  | repository op => exact absurd rfl (hc op)
  | process _ | log _ =>
    cases ht : t.throws <;> simp only [act, ht] at h <;>
      (obtain ⟨-, rfl⟩ := Prod.mk.inj (Option.some.inj h); rfl)
  | beginTick _ | endTick | randomUUID | dateNow =>
    obtain ⟨-, rfl⟩ := Prod.mk.inj (Option.some.inj h)
    rfl

/-- Only the two tick calls touch the flag. -/
theorem act_isTickRunning {t : Choice} {c : Effect} {w w' : World} {x : Except Thrown c.Answer}
    (h : act t c w = some (x, w')) (hbegin : ∀ skipGuardEnabled, c ≠ .beginTick skipGuardEnabled)
    (hend : c ≠ .endTick) : w'.isTickRunning = w.isTickRunning := by
  cases c with
  | repository op => rcases act_repository h with ⟨_, -, rfl⟩ | ⟨_, -, rfl⟩ <;> rfl
  | process _ | log _ =>
    cases ht : t.throws <;> simp only [act, ht] at h <;>
      (obtain ⟨-, rfl⟩ := Prod.mk.inj (Option.some.inj h); rfl)
  | beginTick skipGuardEnabled => exact absurd rfl (hbegin skipGuardEnabled)
  | endTick => exact absurd rfl hend
  | randomUUID | dateNow =>
    obtain ⟨-, rfl⟩ := Prod.mk.inj (Option.some.inj h)
    rfl

end World

end JobManager
