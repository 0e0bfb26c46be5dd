import JobManager.System.World

/-! The protocol of the requests: which calls each of them makes, and after which history. -/
namespace JobManager

open Async (Conforms)

/-- An answered commit of a batch. -/
structure Commit where
  target : JobStatus
  ids : List String
  committed : List Job

/-- A transition as it is logged. -/
structure TransitionRecord where
  jobId : String
  fromStatus : JobStatus
  toStatus : JobStatus
  actor : Actor
  deriving DecidableEq, Repr

/-- What a caller has done so far, as far as the scheduler protocol speaks about it. -/
structure Progress where
  listings : List (List Job) := []
  claimBatches : List (List Job) := []
  processed : List (Job × JobProcessOutcome) := []
  commits : List Commit := []
  transitions : List TransitionRecord := []

namespace Progress

/-- The progress after one more answered call; a processor that throws counts as failed. -/
def after (v : Progress) : Call → Progress
  | ⟨.repository (.listByStatus _ _), .ok jobs⟩ => { v with listings := v.listings ++ [jobs] }
  | ⟨.repository (.withBatch _ .processing), .ok result⟩ =>
    { v with claimBatches := v.claimBatches ++ [result.committed] }
  | ⟨.repository (.withBatch ids .completed), .ok result⟩ =>
    { v with commits := v.commits ++ [⟨.completed, ids, result.committed⟩] }
  | ⟨.repository (.withBatch ids .failed), .ok result⟩ =>
    { v with commits := v.commits ++ [⟨.failed, ids, result.committed⟩] }
  | ⟨.process job, .ok outcome⟩ => { v with processed := v.processed ++ [(job, outcome)] }
  | ⟨.process job, .error _⟩ => { v with processed := v.processed ++ [(job, .failed)] }
  | ⟨.log (.transition _ jobId fromStatus toStatus actor), .ok _⟩ =>
    { v with transitions := v.transitions ++ [⟨jobId, fromStatus, toStatus, actor⟩] }
  | _ => v

def claims (v : Progress) : List Job := v.claimBatches.flatten

/-- The claimed jobs whose processing ended with an outcome. -/
def outcomeIds (v : Progress) (outcome : JobProcessOutcome) : List String :=
  (v.processed.filter fun p => p.2 = outcome).map fun p => p.1.id

@[simp] theorem outcomeIds_snoc (v : Progress) (job : Job) (outcome outcome' : JobProcessOutcome) :
    outcomeIds { v with processed := v.processed ++ [(job, outcome)] } outcome' =
      v.outcomeIds outcome' ++ if outcome = outcome' then [job.id] else [] := by
  simp only [outcomeIds, List.filter_append, List.map_append]
  by_cases h : outcome = outcome' <;> simp [h]

/-- Every claimed job went through the processor, in order. -/
def Finished (v : Progress) : Prop := v.processed.map Prod.fst = v.claims

def committedIds (v : Progress) (target : JobStatus) : List String :=
  (v.commits.filter fun c => c.target = target).flatMap Commit.ids

def committedJobs (v : Progress) (target : JobStatus) : List Job :=
  (v.commits.filter fun c => c.target = target).flatMap Commit.committed

theorem filter_target {new : List Commit} {target : JobStatus}
    (h : ∀ c ∈ new, c.target = target) (target' : JobStatus) :
    (new.filter fun c => c.target = target') = if target = target' then new else [] := by
  split
  · next ht => exact List.filter_eq_self.mpr fun c hc => by simp [h c hc, ht]
  · next ht => exact List.filter_eq_nil_iff.mpr fun c hc => by simp [h c hc, ht]

/-- The calls the scheduler use case makes, each with what it has done before. -/
def Allows (v : Progress) : Effect → Prop
  | .repository (.listByStatus status limit) =>
    status = .pending ∧ limit = schedulerBatchSize ∧ v = {}
  | .repository (.withBatch ids .processing) => ∃ candidates, candidates ≠ [] ∧
    ids = candidates.map Job.id ∧ v = { listings := [candidates] }
  | .process job => ∃ rest, v.claims = v.processed.map Prod.fst ++ job :: rest ∧ v.commits = []
  | .repository (.withBatch ids .completed) =>
    v.Finished ∧ ids = v.outcomeIds .completed ∧ ids ≠ [] ∧ v.commits = []
  | .repository (.withBatch ids .failed) =>
    v.Finished ∧ ids = v.outcomeIds .failed ∧ ids ≠ [] ∧ v.committedIds .failed = [] ∧
      v.committedIds .completed = v.outcomeIds .completed
  | .log _ => True
  | _ => False

end Progress

def progress (h : List Call) : Progress := h.foldl Progress.after {}

@[simp] theorem progress_nil : progress [] = {} := rfl

@[simp] theorem progress_snoc (h : List Call) (c : Call) :
    progress (h ++ [c]) = (progress h).after c := by simp [progress]

/-- A repository or logger call that was rejected. -/
def Call.Rejected : Call → Prop
  | ⟨.repository _, .error _⟩ | ⟨.log _, .error _⟩ => True
  | _ => False

instance : DecidablePred Call.Rejected := fun c => by
  unfold Call.Rejected
  split <;> infer_instance

def Failing (h : List Call) : Prop := ∃ c ∈ h, c.Rejected

instance : DecidablePred Failing := fun h => by
  unfold Failing
  infer_instance

theorem failing_repository (h : List Call) (op : RepoOp) (e : Thrown) :
    Failing (h ++ [⟨.repository op, .error e⟩]) :=
  ⟨_, List.mem_append_right _ (List.mem_singleton_self _), trivial⟩

theorem failing_log (h : List Call) (event : LogEvent) (e : Thrown) :
    Failing (h ++ [⟨.log event, .error e⟩]) :=
  ⟨_, List.mem_append_right _ (List.mem_singleton_self _), trivial⟩

namespace ProcessPendingJobsUseCase

abbrev Follows {α : Type} (post : Except Thrown α → List Call → Prop) (p : Program α)
    (h : List Call) : Prop := Conforms (fun h c => (progress h).Allows c) post p h

/-- What holds of a finished part: `good` of its result, or else some call was rejected. -/
def OrFails {α : Type} (good : α → List Call → Prop) : Except Thrown α → List Call → Prop
  | .ok a, h => good a h
  | .error _, h => Failing h

theorem Follows.andThen {α β : Type} {good : α → List Call → Prop} {good' : β → List Call → Prop}
    {p : Program α} {f : α → Program β} {h : List Call} (hp : Follows (OrFails good) p h)
    (hf : ∀ a h, good a h → Follows (OrFails good') (f a) h) :
    Follows (OrFails good') (p >>= f) h :=
  hp.bind hf fun _ _ herr => herr

theorem repository_follows {h : List Call} {v : Progress} (op : RepoOp) (hv : progress h = v)
    (hop : v.Allows (.repository op)) : Follows (OrFails fun result h' =>
      progress h' = v.after ⟨.repository op, .ok result⟩) (repository op) h := by
  subst hv
  refine ⟨hop, fun x => ?_⟩
  cases x with
  | ok result => exact progress_snoc _ _
  | error e => exact failing_repository _ _ _

theorem log_follows {h : List Call} {v : Progress} (hv : progress h = v) (event : LogEvent) :
    Follows (OrFails fun _ h' => progress h' = v.after ⟨.log event, .ok ()⟩) (log event) h := by
  subst hv
  refine ⟨trivial, fun x => ?_⟩
  cases x with
  | ok _ => exact progress_snoc _ _
  | error e => exact failing_log _ _ _

theorem processJob_follows {h : List Call} {v : Progress} {job : Job} {rest : List Job}
    (hv : progress h = v) (hjob : v.claims = v.processed.map Prod.fst ++ job :: rest)
    (hcommits : v.commits = []) :
    Follows (OrFails fun outcome h' =>
      progress h' = { v with processed := v.processed ++ [(job, outcome)] })
      (processJob job) h := by
  refine ⟨⟨rest, by rw [hv, hjob], by rw [hv, hcommits]⟩, fun x => ?_⟩
  cases x with
  | ok outcome => exact (progress_snoc h _).trans (by rw [hv]; rfl)
  | error e =>
    refine ⟨trivial, fun y => ?_⟩
    cases y with
    | ok _ => exact (progress_snoc _ _).trans (by rw [progress_snoc, hv]; rfl)
    | error e => exact failing_log _ _ _

theorem processJobs_follows {jobs : List Job} {h : List Call} {v : Progress}
    (hv : progress h = v) (hjobs : v.claims = v.processed.map Prod.fst ++ jobs)
    (hcommits : v.commits = []) :
    Follows (OrFails fun ids h' => ∃ processed, progress h' = { v with processed := processed } ∧
      Progress.Finished { v with processed := processed } ∧
      ids = (Progress.outcomeIds { v with processed := processed } .completed,
        Progress.outcomeIds { v with processed := processed } .failed))
      (processJobs jobs (v.outcomeIds .completed) (v.outcomeIds .failed)) h := by
  induction jobs generalizing h v with
  | nil => exact ⟨v.processed, hv, by simpa [Progress.Finished] using hjobs.symm, rfl⟩
  | cons job jobs ih =>
    refine (processJob_follows hv hjobs hcommits).andThen fun outcome h' hv' => ?_
    have hclaims : Progress.claims { v with processed := v.processed ++ [(job, outcome)] } =
        (v.processed ++ [(job, outcome)]).map Prod.fst ++ jobs := by
      simpa [Progress.claims] using hjobs
    have hrest := ih hv' hclaims hcommits
    rw [Progress.outcomeIds_snoc, Progress.outcomeIds_snoc] at hrest
    cases outcome with
    | completed => simpa using hrest
    | failed => simpa using hrest

theorem commit_follows {h : List Call} {v : Progress} {ids : List String} {target : JobStatus}
    (hv : progress h = v) (htarget : target = .completed ∨ target = .failed)
    (hallows : ids ≠ [] → v.Allows (.repository (.withBatch ids target))) :
    Follows (OrFails fun jobs h' => ∃ new, progress h' = { v with commits := v.commits ++ new } ∧
      (∀ c ∈ new, c.target = target) ∧ new.flatMap Commit.ids = ids ∧
      new.flatMap Commit.committed = jobs) (commit ids target) h := by
  unfold commit
  split
  · next hpos =>
    refine (repository_follows _ hv (hallows (List.length_pos_iff.mp hpos))).andThen ?_
    intro result h' hv'
    refine ⟨[⟨target, ids, result.committed⟩], ?_, by simp, by simp, by simp⟩
    rcases htarget with rfl | rfl <;> exact hv'
  · next hpos =>
    obtain rfl : ids = [] := List.length_eq_zero_iff.mp (by omega)
    exact ⟨[], by simpa using hv, by simp, rfl, rfl⟩

def transitionOf (target : JobStatus) (job : Job) : TransitionRecord :=
  ⟨job.id, .processing, target, .scheduler⟩

theorem emitTransitionEvents_follows {jobs : List Job} {target : JobStatus} {h : List Call}
    {v : Progress} (hv : progress h = v) :
    Follows (OrFails fun _ h' => progress h' = { v with
      transitions := v.transitions ++ jobs.map (transitionOf target) })
      (emitTransitionEvents jobs target) h := by
  induction jobs generalizing h v with
  | nil => simpa [emitTransitionEvents, Conforms, OrFails] using hv
  | cons job jobs ih =>
    refine (log_follows hv _).andThen fun _ h' hv' => ?_
    simpa [Progress.after, transitionOf] using ih hv'

/-- What a finished run of the use case did, and that it reports just that. -/
structure Report (v : Progress) (result : ProcessPendingJobsResult) : Prop where
  candidates : ∃ candidates, v.listings = [candidates] ∧
    (candidates = [] ∧ v.claimBatches = [] ∨ ∃ claimed, v.claimBatches = [claimed])
  finished : v.Finished
  completedIds : v.committedIds .completed = v.outcomeIds .completed
  failedIds : v.committedIds .failed = v.outcomeIds .failed
  transitions : v.transitions = (v.committedJobs .completed).map (transitionOf .completed) ++
    (v.committedJobs .failed).map (transitionOf .failed)
  batchSize : result.batchSize = v.claims.length
  succeeded : result.succeeded = (v.committedJobs .completed).length
  failed : result.failed = (v.committedJobs .failed).length

/-- The scheduler use case keeps to its protocol, and what it reports is what it did. -/
theorem execute_follows {h : List Call} (hv : progress h = {}) :
    Follows (OrFails fun result h' => Report (progress h') result) execute h := by
  refine (repository_follows (.listByStatus .pending schedulerBatchSize) hv
    ⟨rfl, rfl, rfl⟩).andThen fun candidates h₁ hv₁ => ?_
  by_cases hempty : candidates.length = 0
  · rw [if_pos hempty]
    refine (log_follows hv₁ _).andThen fun _ h₂ hv₂ => ?_
    change Report (progress h₂) _
    rw [hv₂]
    have hnone : candidates = [] := List.length_eq_zero_iff.mp hempty
    exact ⟨⟨candidates, rfl, .inl ⟨hnone, rfl⟩⟩, rfl, rfl, rfl, rfl, rfl, rfl, rfl⟩
  · rw [if_neg hempty]
    have hne : candidates ≠ [] := fun h => hempty (by simp [h])
    refine (repository_follows (.withBatch (candidates.map Job.id) .processing) hv₁
      ⟨candidates, hne, rfl, rfl⟩).andThen fun claimed h₂ hv₂ => ?_
    change progress h₂ = { listings := [candidates], claimBatches := [claimed.committed] } at hv₂
    have hclaims : [claimed.committed].flatten = claimed.committed := List.flatten_singleton
    refine (processJobs_follows hv₂ hclaims rfl).andThen ?_
    rintro ⟨succeededIds, failedIds⟩ h₃ ⟨processed, hv₃, hfinished, hids⟩
    obtain ⟨rfl, rfl⟩ := Prod.mk.inj hids
    refine (commit_follows hv₃ (.inl rfl) fun hne => ⟨hfinished, rfl, hne, rfl⟩).andThen ?_
    rintro completed h₄ ⟨new, hv₄, hnew, hnewIds, rfl⟩
    have hfirst := Progress.filter_target hnew
    refine (commit_follows hv₄ (.inr rfl) fun hne => ⟨hfinished, rfl, hne, ?_, ?_⟩).andThen ?_
    · change ((new.filter _).flatMap _) = []
      rw [hfirst]
      rfl
    · change ((new.filter _).flatMap _) = _
      rw [hfirst]
      exact hnewIds
    rintro failed h₅ ⟨new', hv₅, hnew', hnewIds', rfl⟩
    have hsecond := Progress.filter_target hnew'
    refine (emitTransitionEvents_follows hv₅).andThen fun _ h₆ hv₆ => ?_
    refine (emitTransitionEvents_follows hv₆).andThen fun _ h₇ hv₇ => ?_
    refine (log_follows hv₇ _).andThen fun _ h₈ hv₈ => ?_
    have hids : ∀ target, ((new ++ new').filter fun c => c.target = target) =
        (if .completed = target then new else []) ++ if .failed = target then new' else [] :=
      fun target => by rw [List.filter_append, hfirst, hsecond]
    change Report (progress h₈) _
    rw [hv₈]
    refine ⟨⟨candidates, rfl, .inr ⟨claimed.committed, rfl⟩⟩, hfinished, ?_, ?_, ?_,
      by simp [Progress.claims, Progress.after], ?_, ?_⟩ <;>
      simp [Progress.after, Progress.committedIds, Progress.committedJobs, hids]
    · exact hnewIds
    · exact hnewIds'

end ProcessPendingJobsUseCase

/-- A tick that passed the guard and has not left its `finally` block. -/
def InsideTick (h : List Call) : Prop :=
  (∃ skipGuardEnabled, (⟨.beginTick skipGuardEnabled, .ok false⟩ : Call) ∈ h) ∧
    ∀ x, (⟨.endTick, x⟩ : Call) ∉ h

theorem InsideTick.snoc {h : List Call} {c : Effect} {x : Except Thrown c.Answer}
    (hin : InsideTick h) (hc : c ≠ .endTick) : InsideTick (h ++ [⟨c, x⟩]) := by
  obtain ⟨⟨skipGuardEnabled, hbegin⟩, hend⟩ := hin
  refine ⟨⟨skipGuardEnabled, List.mem_append_left _ hbegin⟩, fun y hy => ?_⟩
  rcases List.mem_append.mp hy with hy | hy
  · exact hend y hy
  · exact hc (congrArg Async.Event.call (List.mem_singleton.mp hy)).symm

/-- The calls of a tick: everything between the two flags belongs to the use case or to the log. -/
def TickCall (skipGuardEnabled : Bool) (h : List Call) : Effect → Prop
  | .randomUUID => h = []
  | .beginTick skipGuardEnabled' => skipGuardEnabled' = skipGuardEnabled ∧
    ∃ x, h = [⟨.randomUUID, x⟩]
  | .endTick | .dateNow => InsideTick h
  | .log _ => True
  | c => (progress h).Allows c ∧ InsideTick h

/-- A PATCH reads the job once and aims the transition at `'pending'` or at the status it read. -/
def PatchCall (input : PatchJobInput) (h : List Call) : Effect → Prop
  | .repository (.findById id) => id = input.id ∧ h = []
  | .repository (.withTransition id target patch) => id = input.id ∧
    patch = some ⟨input.title, input.description⟩ ∧
    ∃ current, h = [⟨.repository (.findById input.id), .ok (some current)⟩] ∧
      target = if input.status = some .pending then .pending else current.status
  | .log _ => True
  | _ => False

/-- A PATCH ends with the answer of its transition. -/
def PatchPost (r : Except Thrown TransitionResult) (h : List Call) : Prop :=
  ∀ id target patch x, (⟨.repository (.withTransition id target patch), x⟩ : Call) ∈ h → x = r

theorem PatchPost.findById (r : Except Thrown TransitionResult) (id : String)
    (x : Except Thrown (Option Job)) : PatchPost r [⟨.repository (.findById id), x⟩] := by
  intro _ _ _ _ hx
  simp at hx

theorem PatchPost.withTransition (r : Except Thrown TransitionResult) (id id' : String)
    (x : Except Thrown (Option Job)) (target : JobStatus) (patch : Option JobPatch) :
    PatchPost r [⟨.repository (.findById id), x⟩,
      ⟨.repository (.withTransition id' target patch), r⟩] := by
  intro _ _ _ _ hx
  simp only [List.mem_cons, List.not_mem_nil, or_false] at hx
  rcases hx with hx | hx <;> cases hx
  rfl

theorem PatchPost.log {r : Except Thrown TransitionResult} {h : List Call} (hr : PatchPost r h)
    (event : LogEvent) (x : Except Thrown Unit) : PatchPost r (h ++ [⟨.log event, x⟩]) := by
  intro id target patch y hy
  rcases List.mem_append.mp hy with hy | hy
  · exact hr id target patch y hy
  · cases List.mem_singleton.mp hy

namespace Request

/-- The calls a request makes. -/
def Calls : Request → List Call → Effect → Prop
  | createJob input, _, c => c = .repository (.create input)
  | getJob id, _, c => c = .repository (.findById id)
  | getJobs, _, c => c = .repository .list
  | searchJobs query, _, c => c = .repository (.search query)
  | patchJob input, h, c => PatchCall input h c
  | deleteJob id, _, c => c = .repository (.delete id) ∨ ∃ event, c = .log event
  | tick skipGuardEnabled, h, c => TickCall skipGuardEnabled h c
  | processPendingJobs, h, c => (progress h).Allows c

/-- What is known of a finished request. -/
def Post : (q : Request) → Except Thrown q.Reply → List Call → Prop
  | patchJob _, r, h => PatchPost r h
  | processPendingJobs, r, h =>
    ProcessPendingJobsUseCase.OrFails (fun result h => ProcessPendingJobsUseCase.Report
      (progress h) result) r h
  | _, _, _ => True

/-- The use case makes no call of the guard, so it stays inside its tick. -/
theorem execute_inside {h : List Call} (hv : progress h = {}) (hin : InsideTick h)
    (skipGuardEnabled : Bool) : Conforms (TickCall skipGuardEnabled) (fun _ h' => InsideTick h')
      ProcessPendingJobsUseCase.execute h := by
  have hkeep : ∀ (h : List Call) c x, InsideTick h → (progress h).Allows c →
      InsideTick (h ++ [⟨c, x⟩]) := by
    rintro h c x hin hc
    exact hin.snoc (by rintro rfl; exact hc)
  refine ((ProcessPendingJobsUseCase.execute_follows hv).frame hin hkeep).mono ?_ fun _ _ h => h.2
  rintro h c ⟨hc, hin⟩
  cases c with
  | repository _ | process _ => exact ⟨hc, hin⟩
  | log _ => trivial
  | beginTick _ | endTick | randomUUID | dateNow => exact hc.elim

theorem runTick_conforms {h : List Call} (hv : progress h = {}) (hin : InsideTick h)
    (skipGuardEnabled : Bool) (tickId : String) (startedAt : ℤ) :
    Conforms (TickCall skipGuardEnabled) (fun _ _ => True)
      (JobSchedulerAdapter.runTick tickId startedAt) h := by
  have hbody : Conforms (TickCall skipGuardEnabled)
      (fun (_ : Except Thrown Unit) h' => InsideTick h') (do
        let _ ← ProcessPendingJobsUseCase.execute
        let endedAt ← Async.perform Effect.dateNow
        JobSchedulerAdapter.logTick "tick ended" tickId .ended (some (endedAt - startedAt : ℤ)))
      h := by
    refine (execute_inside hv hin skipGuardEnabled).bind (fun _ h' hin' => ?_) fun _ _ h => h
    have hin'' : ∀ x, InsideTick (h' ++ [⟨.dateNow, x⟩]) := fun _ => hin'.snoc (by simp)
    refine ⟨hin', fun x => ?_⟩
    cases x with
    | error e => exact hin'' _
    | ok endedAt => exact ⟨trivial, fun _ => (hin'' _).snoc (by simp)⟩
  exact hbody.tryFinally fun _ _ hin' => ⟨hin', fun x => by cases x <;> trivial⟩

theorem tick_conforms (skipGuardEnabled : Bool) : Conforms (TickCall skipGuardEnabled)
    (fun _ _ => True) (JobSchedulerAdapter.tick skipGuardEnabled) [] := by
  refine ⟨rfl, fun x => ?_⟩
  cases x with
  | error e => trivial
  | ok tickId =>
    refine ⟨⟨rfl, _, rfl⟩, fun y => ?_⟩
    cases y with
    | error e => trivial
    | ok skip =>
      cases skip with
      | true => exact ⟨trivial, fun _ => by trivial⟩
      | false =>
        have hin : InsideTick
            [⟨.randomUUID, .ok tickId⟩, ⟨.beginTick skipGuardEnabled, .ok false⟩] :=
          ⟨⟨skipGuardEnabled, by simp⟩, by simp⟩
        refine ⟨hin, fun z => ?_⟩
        cases z with
        | error e => trivial
        | ok startedAt =>
          refine ⟨trivial, fun z' => ?_⟩
          cases z' with
          | error e => trivial
          | ok _ =>
            exact runTick_conforms rfl ((hin.snoc (by simp)).snoc (by simp)) _ _ _

theorem patchJob_conforms (input : PatchJobInput) : Conforms (PatchCall input) PatchPost
    (PatchJobUseCase.execute input) [] := by
  refine ⟨⟨rfl, rfl⟩, fun x => ?_⟩
  cases x with
  | error e => exact .findById _ _ _
  | ok current =>
    cases current with
    | none => exact .findById _ _ _
    | some current =>
      refine ⟨⟨rfl, rfl, current, rfl, rfl⟩, fun y => ?_⟩
      cases y with
      | error e => exact .withTransition _ _ _ _ _ _
      | ok result =>
        have hpost := PatchPost.withTransition (.ok result) input.id input.id (.ok (some current))
          (if input.status = some .pending then .pending else current.status)
          (some ⟨input.title, input.description⟩)
        cases result with
        | refused reason => exact hpost
        | ok job transitioned previousStatus =>
          cases transitioned with
          | true => exact ⟨trivial, fun z => by cases z <;> exact hpost.log _ _⟩
          | false => exact hpost

theorem conforms (supportedJobTypes : SupportedJobTypes) (q : Request) :
    Conforms q.Calls q.Post (q.program supportedJobTypes) [] := by
  cases q with
  | createJob input =>
    change Conforms _ _ (CreateJobUseCase.execute supportedJobTypes input) []
    unfold CreateJobUseCase.execute
    split
    · trivial
    · exact ⟨rfl, fun x => by cases x <;> trivial⟩
  | getJob id => exact ⟨rfl, fun _ => trivial⟩
  | getJobs => exact ⟨rfl, fun _ => trivial⟩
  | searchJobs query => exact ⟨rfl, fun _ => trivial⟩
  | patchJob input => exact patchJob_conforms input
  | deleteJob id =>
    refine ⟨.inl rfl, fun x => ?_⟩
    cases x with
    | error e => trivial
    | ok result =>
      cases result with
      | ok => exact ⟨.inr ⟨_, rfl⟩, fun y => by cases y <;> trivial⟩
      | refused reason => trivial
  | tick skipGuardEnabled => exact tick_conforms skipGuardEnabled
  | processPendingJobs => exact ProcessPendingJobsUseCase.execute_follows progress_nil

end Request

end JobManager
