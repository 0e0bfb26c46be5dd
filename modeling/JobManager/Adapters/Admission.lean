import JobManager.Adapters.JobProcessor
import JobManager.Application.SupportedJobTypes
import JobManager.Application.UseCases
import JobManager.Async.Sequential

/-! Which titles `POST /jobs` admits, and where the scheduler sends the jobs made from them. -/
namespace JobManager

open Text JsonDbJobRepository

variable [LowerCase]

/-- The calls of a use case over a job array; none is rejected. -/
def Effect.onJobs (stamp : Stamp) : (c : Effect) → List Job → Except Thrown c.Answer × List Job
  | .repository op, jobs => (.ok (op.run stamp jobs).1, (op.run stamp jobs).2)
  | .process _, jobs => (.ok .completed, jobs)
  | .log _, jobs | .endTick, jobs => (.ok (), jobs)
  | .beginTick _, jobs => (.ok false, jobs)
  | .randomUUID, jobs => (.ok stamp.uuid, jobs)
  | .dateNow, jobs => (.ok 0, jobs)

/-- `SUPPORTED_JOB_TYPES` of the infrastructure module. -/
def infrastructureJobTypes (env : String → Option String) : AllowListJobTypes :=
  .ofTitles [(readNewsDigestConfig env).jobTitle]

/-- `POST /jobs` creates the job. -/
def Accepts (types : AllowListJobTypes) (data : CreateJobData) (stamp : Stamp) (jobs : List Job)
    (job : Job) : Prop :=
  (Async.eval (Effect.onJobs stamp)
    (CreateJobUseCase.execute types.toSupportedJobTypes data) jobs).1 = .ok (.ok job)

/-- The titles that are admitted are those whose jobs come to the news processor. -/
def AdmissionAgrees (env : String → Option String) (data : CreateJobData) (stamp : Stamp)
    (jobs : List Job) : Prop :=
  let processor := (createSchedulerJobProcessor (readNewsDigestConfig env)).route
    (createdJob data stamp)
  (∃ job, Accepts (infrastructureJobTypes env) data stamp jobs job) ↔
    processor.isNewsDigest = true ∧ processor.isDefault = false

theorem accepts_iff {types : AllowListJobTypes} {data : CreateJobData} {stamp : Stamp}
    {jobs : List Job} {job : Job} : Accepts types data stamp jobs job ↔
      types.isSupported data.title = true ∧ job = createdJob data stamp := by
  unfold Accepts CreateJobUseCase.execute
  by_cases h : types.isSupported data.title = true
  · have hrun : (Async.eval (Effect.onJobs stamp)
        (repository (.create data) >>= fun job => pure (CreateJobResult.ok job)) jobs).1 =
        .ok (.ok (createdJob data stamp)) := rfl
    simp only [AllowListJobTypes.toSupportedJobTypes, h, Bool.not_true, Bool.false_eq_true,
      ↓reduceIte, hrun, true_and]
    constructor
    · intro heq
      injection heq with heq
      injection heq with heq
      exact heq.symm
    · rintro rfl
      rfl
  · simp [AllowListJobTypes.toSupportedJobTypes, h]

/-- The registry compares trimmed titles and the dispatcher compares them as they are: the two agree
on a title unless white space surrounds the configured one. -/
theorem admissionAgrees_iff {env : String → Option String}
    (henabled : (readNewsDigestConfig env).enabled = true) (data : CreateJobData) (stamp : Stamp)
    (jobs : List Job) : AdmissionAgrees env data stamp jobs ↔
      Trimmed data.title ∨ trim data.title ≠ (readNewsDigestConfig env).jobTitle := by
  have hnormal := (readNewsDigestConfig_normal env).texts
    (readNewsDigestConfig env).jobTitle List.mem_cons_self
  have haccept : (∃ job, Accepts (infrastructureJobTypes env) data stamp jobs job) ↔
      trim data.title = (readNewsDigestConfig env).jobTitle := by
    simp only [accepts_iff, exists_and_left, exists_eq, and_true, infrastructureJobTypes,
      AllowListJobTypes.isSupported_ofTitles, List.mem_singleton, exists_eq_left]
    rw [hnormal.1]
    exact ⟨fun h => h.1.symm, fun h => ⟨h.symm, h ▸ hnormal.2⟩⟩
  obtain ⟨hnews, hdefault⟩ :=
    createSchedulerJobProcessor_route (readNewsDigestConfig env) (createdJob data stamp)
  have hroute : ∀ processor : JobProcessor, processor.isDefault = !processor.isNewsDigest →
      (processor.isNewsDigest = true ∧ processor.isDefault = false ↔
        processor.isNewsDigest = true) := by
    intro processor h
    rw [h]
    cases processor.isNewsDigest <;> simp
  have htitle : (createdJob data stamp).title = data.title := rfl
  rw [AdmissionAgrees, haccept, hroute _ hdefault, hnews, htitle]
  constructor
  · intro hagrees
    by_cases htrim : trim data.title = (readNewsDigestConfig env).jobTitle
    · exact .inl (htrim.trans (hagrees.mp htrim).2.symm)
    · exact .inr htrim
  · rintro (htrimmed | hne)
    · exact ⟨fun h => ⟨henabled, htrimmed.symm.trans h⟩, fun h => htrimmed.trans h.2⟩
    · refine ⟨fun h => absurd h hne, fun h => ?_⟩
      exact absurd ((congrArg trim h.2).trans hnormal.1) hne

/-- The flag and the two secrets are set, the job title is the default. -/
def digestEnv (name : String) : Option String :=
  if name = "NEWS_DIGEST_ENABLED" then some "true"
  else if name = "GEMINI_API_KEY" then some "key"
  else if name = "SLACK_WEBHOOK_URL" then some "webhook"
  else none

omit [LowerCase] in
theorem admissionAgrees_news_digest :
    letI := LowerCase.ascii
    AdmissionAgrees digestEnv ⟨"news-digest", "text"⟩ ⟨"1", "t"⟩ [] := by
  let _ := LowerCase.ascii
  have henabled : (readNewsDigestConfig digestEnv).enabled = true := by decide +kernel
  exact (admissionAgrees_iff henabled _ _ _).mpr (.inl (by decide +kernel))

omit [LowerCase] in
/-- A title with a space in front is admitted, and its job completes without doing anything. -/
theorem not_admissionAgrees :
    letI := LowerCase.ascii
    ¬ ∀ (env : String → Option String) (data : CreateJobData) (stamp : Stamp) (jobs : List Job),
      (readNewsDigestConfig env).enabled = true →
      1 ≤ data.title.length ∧ data.title.length ≤ 200 → AdmissionAgrees env data stamp jobs := by
  let _ := LowerCase.ascii
  intro hagrees
  have hagrees := hagrees digestEnv ⟨" news-digest", "text"⟩ ⟨"1", "t"⟩ [] (by decide +kernel)
    (by decide +kernel)
  have hnews := (hagrees.mp ⟨_, accepts_iff.mpr ⟨by decide +kernel, rfl⟩⟩).1
  have hfallback : ((createSchedulerJobProcessor (readNewsDigestConfig digestEnv)).route
      (createdJob ⟨" news-digest", "text"⟩ ⟨"1", "t"⟩)).isNewsDigest = false := by decide +kernel
  rw [hfallback] at hnews
  cases hnews

end JobManager
