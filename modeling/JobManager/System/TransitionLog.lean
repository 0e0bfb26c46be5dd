import JobManager.System.Claims

/-! The transition log: which status changes a caller may report, and the events it emits. -/
namespace JobManager

open KeyedList Async JsonDbJobRepository

/-- A change of the status of a job, as an event of the log names it. -/
structure StatusChange where
  jobId : String
  fromStatus : JobStatus
  toStatus : JobStatus
  deriving DecidableEq, Repr

/-- The transition event a call emits; it counts even if the logger throws. -/
def Effect.emitted : Effect → List StatusChange
  | .log (.transition _ jobId fromStatus toStatus _) => [⟨jobId, fromStatus, toStatus⟩]
  | _ => []

/-- The changes a commit of jobs with this target is reported as. -/
def changesTo (target : JobStatus) (jobs : List Job) : List StatusChange :=
  jobs.map fun job => ⟨job.id, .processing, target⟩

/-- The changes the use cases report for an answer: a transition with the status it found, a
commit always with `processing`. -/
def Call.reportable : Call → List StatusChange
  | ⟨.repository (.withTransition _ _ _), .ok (.ok job true previousStatus)⟩ =>
    [⟨job.id, previousStatus, job.status⟩]
  | ⟨.repository (.withBatch _ .completed), .ok result⟩ => changesTo .completed result.committed
  | ⟨.repository (.withBatch _ .failed), .ok result⟩ => changesTo .failed result.committed
  | _ => []

def emitted (h : List Call) : List StatusChange := h.flatMap fun c => c.call.emitted

def reportable (h : List Call) : List StatusChange := h.flatMap Call.reportable

@[simp] theorem emitted_snoc (h : List Call) (c : Call) :
    emitted (h ++ [c]) = emitted h ++ c.call.emitted := by simp [emitted]

@[simp] theorem reportable_snoc (h : List Call) (c : Call) :
    reportable (h ++ [c]) = reportable h ++ c.reportable := by simp [reportable]

/-- A call keeps to the log: what is emitted with it is the first part of what is reportable. -/
def Reports (h : List Call) (c : Effect) : Prop := emitted h ++ c.emitted <+: reportable h

/-- Nothing has been emitted that was not reportable. -/
def LogSound (h : List Call) : Prop := emitted h <+: reportable h

theorem Reports.snoc {h : List Call} {c : Effect} (hc : Reports h c)
    (x : Except Thrown c.Answer) : LogSound (h ++ [⟨c, x⟩]) := by
  rw [LogSound, emitted_snoc, reportable_snoc]
  exact hc.trans (List.prefix_append _ _)

theorem LogSound.reports {h : List Call} (hs : LogSound h) {c : Effect} (hc : c.emitted = []) :
    Reports h c := by
  rw [Reports, hc, List.append_nil]
  exact hs

/-- What has been emitted and what is reportable. -/
def Ledger (l d : List StatusChange) (h : List Call) : Prop := emitted h = l ∧ reportable h = d

theorem Ledger.snoc {l d : List StatusChange} {h : List Call} (hl : Ledger l d h) (c : Call) :
    Ledger (l ++ c.call.emitted) (d ++ c.reportable) (h ++ [c]) := by
  obtain ⟨rfl, rfl⟩ := hl
  exact ⟨emitted_snoc h c, reportable_snoc h c⟩

theorem Ledger.reports {l d : List StatusChange} {h : List Call} {c : Effect}
    (hl : Ledger l d h) (hc : l ++ c.emitted <+: d) : Reports h c := by
  obtain ⟨rfl, rfl⟩ := hl
  exact hc

/-- A call that neither emits nor makes anything reportable. -/
def Effect.Silent (c : Effect) : Prop := c.emitted = [] ∧ ∀ x, Call.reportable ⟨c, x⟩ = []

theorem Ledger.silent {l d : List StatusChange} {h : List Call} {c : Effect}
    (hl : Ledger l d h) (hc : c.Silent) (x : Except Thrown c.Answer) :
    Ledger l d (h ++ [⟨c, x⟩]) := by
  have := hl.snoc ⟨c, x⟩
  rwa [hc.1, hc.2, List.append_nil, List.append_nil] at this

theorem Ledger.reports_silent {l d : List StatusChange} {h : List Call} {c : Effect}
    (hl : Ledger l d h) (hld : l <+: d) (hc : c.Silent) : Reports h c :=
  hl.reports (by rwa [hc.1, List.append_nil])

namespace ProcessPendingJobsUseCase

/-- The calls keep to the log, and a result comes with what has been emitted and reportable. -/
abbrev Keeps {α : Type} (good : α → List Call → Prop) (p : Program α) (h : List Call) : Prop :=
  Conforms Reports (IfOk good) p h

variable {l d : List StatusChange} {h : List Call}

theorem perform_keeps {c : Effect} (hl : Ledger l d h) (hld : l <+: d) (hc : c.Silent) :
    Keeps (fun _ h' => Ledger l d h') (Async.perform c) h := by
  refine ⟨hl.reports_silent hld hc, fun x => ?_⟩
  cases x with
  | ok a => exact hl.silent hc _
  | error e => trivial

theorem processJob_keeps (hl : Ledger l d h) (hld : l <+: d) (job : Job) :
    Keeps (fun _ h' => Ledger l d h') (processJob job) h := by
  refine ⟨hl.reports_silent hld ⟨rfl, fun _ => rfl⟩, fun x => ?_⟩
  have hl' := hl.silent ⟨rfl, fun _ => rfl⟩ x
  cases x with
  | ok outcome => exact hl'
  | error e =>
    exact (perform_keeps hl' hld ⟨rfl, fun _ => rfl⟩).andThen fun _ _ hl'' => hl''

theorem processJobs_keeps (hl : Ledger l d h) (hld : l <+: d) (jobs : List Job)
    (succeededIds failedIds : List String) :
    Keeps (fun _ h' => Ledger l d h') (processJobs jobs succeededIds failedIds) h := by
  induction jobs generalizing h succeededIds failedIds with
  | nil => exact hl
  | cons job jobs ih =>
    refine (processJob_keeps hl hld job).andThen fun outcome h' hl' => ?_
    cases outcome with
    | completed => exact ih hl' _ _
    | failed => exact ih hl' _ _

theorem commit_keeps (hl : Ledger l d h) (hld : l <+: d) (ids : List String) {target : JobStatus}
    (htarget : target = .completed ∨ target = .failed) :
    Keeps (fun jobs h' => Ledger l (d ++ changesTo target jobs) h') (commit ids target) h := by
  unfold commit
  split
  · have hreports : Reports h (.repository (.withBatch ids target)) :=
      hl.reports (by simpa [Effect.emitted] using hld)
    refine ⟨hreports, fun x => ?_⟩
    cases x with
    | error e => trivial
    | ok result =>
      have hl' := hl.snoc ⟨.repository (.withBatch ids target), .ok result⟩
      show Ledger l (d ++ changesTo target result.committed) _
      rcases htarget with rfl | rfl <;> simpa [Effect.emitted, Call.reportable] using hl'
  · show Ledger l (d ++ []) h
    rwa [List.append_nil]

theorem emitTransitionEvents_keeps {jobs : List Job} {target : JobStatus} {r : List StatusChange}
    (hl : Ledger l (l ++ changesTo target jobs ++ r) h) :
    Keeps (fun _ h' => Ledger (l ++ changesTo target jobs) (l ++ changesTo target jobs ++ r) h')
      (emitTransitionEvents jobs target) h := by
  induction jobs generalizing h l with
  | nil => exact (List.append_nil l).symm ▸ hl
  | cons job jobs ih =>
    let event : LogEvent := .transition ⟨.info, .scheduler, "transition committed"⟩ job.id
      .processing target .scheduler
    have hsplit : l ++ changesTo target (job :: jobs) =
        l ++ Effect.emitted (.log event) ++ changesTo target jobs := by
      simp [changesTo, Effect.emitted, event]
    rw [hsplit] at hl ⊢
    have hreports : Reports h (.log event) := by
      refine hl.reports ?_
      rw [List.append_assoc _ (changesTo target jobs)]
      exact List.prefix_append _ _
    refine ⟨hreports, fun x => ?_⟩
    have hl' := hl.snoc ⟨.log event, x⟩
    cases x with
    | error e => trivial
    | ok _ => exact ih (by simpa [Call.reportable] using hl')

theorem execute_keeps (hl : Ledger [] [] h) : Keeps (fun _ _ => True) execute h := by
  refine (perform_keeps hl (List.prefix_refl _) ⟨rfl, fun _ => rfl⟩).andThen
    fun candidates h₁ hl₁ => ?_
  split
  · exact (perform_keeps hl₁ (List.prefix_refl _) ⟨rfl, fun _ => rfl⟩).andThen
      fun _ _ _ => trivial
  refine (perform_keeps hl₁ (List.prefix_refl _) ⟨rfl, fun _ => rfl⟩).andThen
    fun claimed h₂ hl₂ => ?_
  refine (processJobs_keeps hl₂ (List.prefix_refl _) _ _ _).andThen
    fun ⟨succeededIds, failedIds⟩ h₃ hl₃ => ?_
  refine (commit_keeps hl₃ (List.prefix_refl _) succeededIds (.inl rfl)).andThen
    fun completed h₄ hl₄ => ?_
  refine (commit_keeps hl₄ (List.nil_prefix) failedIds (.inr rfl)).andThen
    fun failed h₅ hl₅ => ?_
  refine (emitTransitionEvents_keeps (l := []) hl₅).andThen fun _ h₆ hl₆ => ?_
  refine (emitTransitionEvents_keeps (r := []) (by simpa using hl₆)).andThen fun _ h₇ hl₇ => ?_
  exact (perform_keeps hl₇ (by simp) ⟨rfl, fun _ => rfl⟩).andThen fun _ _ _ => trivial

end ProcessPendingJobsUseCase

namespace Request

theorem patchJob_reports (input : PatchJobInput) :
    Conforms Reports (fun _ _ => True) (PatchJobUseCase.execute input) [] := by
  refine ⟨List.nil_prefix, fun x => ?_⟩
  cases x with
  | error e => trivial
  | ok current =>
    cases current with
    | none => trivial
    | some current =>
      refine ⟨List.nil_prefix, fun y => ?_⟩
      cases y with
      | error e => trivial
      | ok result =>
        cases result with
        | refused reason => trivial
        | ok job transitioned previousStatus =>
          cases transitioned with
          | true => exact ⟨List.prefix_refl _, fun z => by cases z <;> trivial⟩
          | false => trivial

theorem runTick_reports {h : List Call} (hl : Ledger [] [] h) (tickId : String)
    (startedAt : ℤ) :
    Conforms Reports (fun _ _ => True) (JobSchedulerAdapter.runTick tickId startedAt) h := by
  have hsound : LogSound h := by
    rw [LogSound, hl.1, hl.2]
  have hkeep : ∀ (h : List Call) c x, LogSound h → Reports h c → LogSound (h ++ [⟨c, x⟩]) :=
    fun _ _ x _ hc => hc.snoc x
  have hexecute : Conforms Reports (fun _ h' => LogSound h')
      ProcessPendingJobsUseCase.execute h :=
    ((ProcessPendingJobsUseCase.execute_keeps hl).frame hsound hkeep).mono
      (fun _ _ h => h.1) fun _ _ h => h.2
  have hbody : Conforms Reports (fun (_ : Except Thrown Unit) h' => LogSound h') (do
      let _ ← ProcessPendingJobsUseCase.execute
      let endedAt ← Async.perform Effect.dateNow
      JobSchedulerAdapter.logTick "tick ended" tickId .ended (some (endedAt - startedAt : ℤ)))
      h := by
    refine hexecute.bind (fun _ h' hs => ?_) fun _ _ h => h
    have hdate : Reports h' .dateNow := hs.reports rfl
    refine ⟨hdate, fun x => ?_⟩
    have hs' : LogSound _ := hdate.snoc x
    cases x with
    | error e => exact hs'
    | ok endedAt =>
      exact ⟨hs'.reports rfl, fun y => Reports.snoc (hs'.reports rfl) y⟩
  exact hbody.tryFinally fun _ _ hs => ⟨hs.reports rfl, fun x => by cases x <;> trivial⟩

theorem tick_reports (skipGuardEnabled : Bool) : Conforms Reports (fun _ _ => True)
    (JobSchedulerAdapter.tick skipGuardEnabled) [] := by
  refine ⟨List.nil_prefix, fun x => ?_⟩
  cases x with
  | error e => trivial
  | ok tickId =>
    refine ⟨List.nil_prefix, fun y => ?_⟩
    cases y with
    | error e => trivial
    | ok skip =>
      cases skip with
      | true => exact ⟨List.nil_prefix, fun _ => trivial⟩
      | false =>
        refine ⟨List.nil_prefix, fun z => ?_⟩
        cases z with
        | error e => trivial
        | ok startedAt =>
          refine ⟨List.nil_prefix, fun z' => ?_⟩
          cases z' with
          | error e => trivial
          | ok _ => exact runTick_reports ⟨rfl, rfl⟩ _ _

theorem reports (supportedJobTypes : SupportedJobTypes) (q : Request) :
    Conforms Reports (fun _ _ => True) (q.program supportedJobTypes) [] := by
  have hnil : Ledger [] [] ([] : List Call) := ⟨rfl, rfl⟩
  cases q with
  | createJob input =>
    change Conforms _ _ (CreateJobUseCase.execute supportedJobTypes input) []
    unfold CreateJobUseCase.execute
    split
    · trivial
    · exact ⟨List.nil_prefix, fun x => by cases x <;> trivial⟩
  | getJob id => exact ⟨List.nil_prefix, fun _ => trivial⟩
  | getJobs => exact ⟨List.nil_prefix, fun _ => trivial⟩
  | searchJobs query => exact ⟨List.nil_prefix, fun _ => trivial⟩
  | patchJob input => exact patchJob_reports input
  | deleteJob id =>
    refine ⟨List.nil_prefix, fun x => ?_⟩
    cases x with
    | error e => trivial
    | ok result =>
      cases result with
      | ok => exact ⟨List.nil_prefix, fun y => by cases y <;> trivial⟩
      | refused reason => trivial
  | tick skipGuardEnabled => exact tick_reports skipGuardEnabled
  | processPendingJobs =>
    exact (ProcessPendingJobsUseCase.execute_keeps hnil).mono (fun _ _ h => h) fun _ _ _ => trivial

end Request

end JobManager
