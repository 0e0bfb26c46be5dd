import JobManager.Persistence.Store

/-! The life of one job through any sequence of repository operations. -/
namespace JobManager

open KeyedList JsonDbJobRepository

/-- A finished operation. -/
structure RepoCall where
  op : RepoOp
  answer : op.Result

/-- The two fields a patch can supply. -/
inductive TextField where
  | title | description

def Job.text (job : Job) : TextField → String
  | .title => job.title
  | .description => job.description

def JobPatch.text (patch : JobPatch) : TextField → Option String
  | .title => patch.title
  | .description => patch.description

def CreateJobData.text (data : CreateJobData) : TextField → String
  | .title => data.title
  | .description => data.description

theorem updatedJob_text (job : Job) (target : JobStatus) (patch : Option JobPatch) (now : String)
    (field : TextField) : (updatedJob job target patch now).text field =
      (patch.bind fun p => p.text field).getD (job.text field) := by
  cases field <;> rfl

/-- What one operation may do to a job that is stored before and after it. -/
structure JobStep (call : RepoCall) (job job' : Job) : Prop where
  id : job'.id = job.id
  createdAt : job'.createdAt = job.createdAt
  status : job'.status = job.status ∨ job'.status ∈ jobTransitions job.status
  retryCount : job'.retryCount = job.retryCount ∨
    job.status = .failed ∧ job'.status = .pending ∧ job.retryCount < maxRetryCount ∧
      job'.retryCount = job.retryCount + 1
  retry : job.status = .failed → job'.status = .pending → job'.retryCount = job.retryCount + 1
  text : ∀ field, job'.text field = job.text field ∨
    ∃ target patch transitioned previous, patch.text field = some (job'.text field) ∧
      call = ⟨.withTransition job.id target (some patch), .ok job' transitioned previous⟩

theorem JobStep.refl (call : RepoCall) (job : Job) : JobStep call job job :=
  ⟨rfl, rfl, .inl rfl, .inl rfl, fun hf hp => (by simp [hf] at hp), fun _ => .inl rfl⟩

theorem JobStep.completed {call : RepoCall} {job job' : Job} (h : JobStep call job job')
    (hjob : job.status = .completed) : job'.status = .completed := by
  rcases h.status with hs | hs
  · rw [hs, hjob]
  · simp [hjob, jobTransitions] at hs

theorem JobStep.retryCount_le {call : RepoCall} {job job' : Job} (h : JobStep call job job') :
    job.retryCount ≤ job'.retryCount := by
  rcases h.retryCount with hr | ⟨-, -, -, hr⟩ <;> omega

theorem JobStep.retryCount_bound {call : RepoCall} {job job' : Job} (h : JobStep call job job')
    (hjob : job.retryCount ≤ maxRetryCount) : job'.retryCount ≤ maxRetryCount := by
  rcases h.retryCount with hr | ⟨-, -, hlt, hr⟩ <;> omega

/-- Both write paths move the status along an edge and count retries the same way. -/
theorem updatedJob_step {job : Job} {target : JobStatus} (patch : Option JobPatch)
    (now : String) (h : Admits job target) :
    let job' := updatedJob job target patch now
    (job'.status = job.status ∨ job'.status ∈ jobTransitions job.status) ∧
    (job'.retryCount = job.retryCount ∨
      job.status = .failed ∧ job'.status = .pending ∧ job.retryCount < maxRetryCount ∧
        job'.retryCount = job.retryCount + 1) ∧
    (job.status = .failed → job'.status = .pending → job'.retryCount = job.retryCount + 1) := by
  refine ⟨h.imp id fun hcan => ((canTransition_iff job target).mp hcan).1, ?_,
    fun hf hp => if_pos ⟨hf, hp⟩⟩
  rcases h with heq | hcan
  · have : ¬ (job.status = .failed ∧ target = .pending) := by
      rintro ⟨hs, rfl⟩
      rw [hs] at heq
      cases heq
    exact .inl (by simp [updatedJob, this])
  · obtain ⟨hedge, hlt⟩ := (canTransition_iff job target).mp hcan
    by_cases hretry : job.status = .failed ∧ target = .pending
    · exact .inr ⟨hretry.1, hretry.2, hlt hretry.1, by simp [updatedJob, hretry]⟩
    · exact .inl (by simp [updatedJob, hretry])

variable [LowerCase]

namespace Store

/-- The operation as it is recorded. -/
def call (s : Store) (op : RepoOp) (stamp : Stamp) : RepoCall := ⟨op, (op.run stamp s.jobs).1⟩

/-- A finite sequence of operations with their answers. -/
inductive Run : Store → List RepoCall → Store → Prop where
  | nil (s : Store) : Run s [] s
  | snoc {s s' : Store} {calls : List RepoCall} (h : Run s calls s') (op : RepoOp)
      (stamp : Stamp) (hf : op.Fresh stamp s'.issued) :
      Run s (calls ++ [s'.call op stamp]) (s'.apply op stamp hf)

theorem call_withTransition (s : Store) (id : String) (target : JobStatus)
    (patch : Option JobPatch) (stamp : Stamp) : s.call (.withTransition id target patch) stamp =
      ⟨.withTransition id target patch, verdict target patch stamp.now (stored s.jobs id)⟩ :=
  congrArg (RepoCall.mk _) (withTransition_answer stamp id target patch)

theorem jobStep (s : Store) (op : RepoOp) (stamp : Stamp) (hf : op.Fresh stamp s.issued)
    {job job' : Job} (hjob : job ∈ s.jobs) (hjob' : job' ∈ (s.apply op stamp hf).jobs)
    (hid : job'.id = job.id) : JobStep (s.call op stamp) job job' := by
  have hs := s.stored_of_mem hjob
  have hs' := (s.apply op stamp hf).stored_of_mem hjob'
  rw [hid] at hs'
  rcases s.apply_cases op stamp hf hs with hsame | ⟨target, patch, hop, ha, hup⟩ |
    ⟨ids, target, hop, -, ha, hup⟩ | ⟨-, -, hdel⟩
  · rw [hs'] at hsame
    obtain rfl := Option.some.inj hsame
    exact .refl _ _
  · rw [hs'] at hup
    obtain rfl := Option.some.inj hup
    subst hop
    have hstep := updatedJob_step patch stamp.now ha
    refine ⟨rfl, rfl, hstep.1, hstep.2.1, hstep.2.2, fun field => ?_⟩
    rw [updatedJob_text]
    cases hp : patch.bind fun p => p.text field with
    | none => exact .inl rfl
    | some text =>
      obtain ⟨p, rfl, hpt⟩ := Option.bind_eq_some_iff.mp hp
      have hcall := s.call_withTransition job.id target (some p) stamp
      rw [hs, verdict, if_pos ha] at hcall
      exact .inr ⟨target, p, _, _, hpt, hcall⟩
  · rw [hs'] at hup
    obtain rfl := Option.some.inj hup
    have hstep := updatedJob_step none stamp.now ha
    exact ⟨rfl, rfl, hstep.1, hstep.2.1, hstep.2.2,
      fun field => .inl (by rw [updatedJob_text]; rfl)⟩
  · rw [hs'] at hdel
    cases hdel

namespace Run

variable {s s' s'' : Store} {calls calls' : List RepoCall}

theorem issued_mono (h : Run s calls s') : s.issued ⊆ s'.issued := by
  induction h with
  | nil => exact List.Subset.refl _
  | snoc _ _ _ _ ih => exact fun _ hid => List.mem_append_left _ (ih hid)

/-- A property of a job that every operation keeps holds for as long as the job is stored. -/
theorem job_induction (h : Run s calls s') {job : Job} (hjob : job ∈ s.jobs) (P : Job → Prop)
    (h0 : P job) (hstep : ∀ call job₁ job₂, P job₁ → JobStep call job₁ job₂ → P job₂)
    {job' : Job} (hjob' : job' ∈ s'.jobs) (hid : job'.id = job.id) : P job' := by
  induction h generalizing job' with
  | nil => rwa [List.inj_on_of_nodup_map s.distinct hjob' hjob hid]
  | @snoc s' calls hrun op stamp hf ih =>
    have hmem : job.id ∈ s'.ids := by
      apply s'.mem_ids_of_apply op stamp hf (hid ▸ List.mem_map_of_mem hjob')
      exact hrun.issued_mono (s.issued_of_mem job hjob)
    obtain ⟨job₁, hjob₁, hid₁⟩ := List.mem_map.mp hmem
    exact hstep _ job₁ job' (ih hjob₁ hid₁) (s'.jobStep op stamp hf hjob₁ hjob' (by rw [hid, hid₁]))

/-- The retry count of a job stays within the bound it started within. -/
theorem retryCount_bound (h : Run s calls s') {job' : Job} (hjob' : job' ∈ s'.jobs)
    (hstart : ∀ job ∈ s.jobs, job.id = job'.id → job.retryCount ≤ maxRetryCount) :
    job'.retryCount ≤ maxRetryCount := by
  induction h generalizing job' with
  | nil => exact hstart job' hjob' rfl
  | @snoc s' calls hrun op stamp hf ih =>
    by_cases hmem : job'.id ∈ s'.ids
    · obtain ⟨job₁, hjob₁, hid₁⟩ := List.mem_map.mp hmem
      exact (s'.jobStep op stamp hf hjob₁ hjob' hid₁.symm).retryCount_bound
        (ih hjob₁ fun job hj he => hstart job hj (by rw [he, hid₁]))
    · have hnew := (s'.apply op stamp hf).stored_of_mem hjob'
      rw [s'.stored_apply, (s'.stored_eq_none _).mpr hmem] at hnew
      cases op with
      | create data =>
        simp only [RepoOp.effect, Option.none_or] at hnew
        split at hnew
        · obtain rfl := Option.some.inj hnew
          exact Nat.zero_le _
        · cases hnew
      | findById _ | list | search _ | listByStatus _ _ | withTransition _ _ _ | withBatch _ _
      | delete _ => simp [RepoOp.effect] at hnew

end Run

/-- The life-cycle of a job. Between two successive stores its status stays or follows an edge of
the table and only a retry of a failed job counts up `retryCount`; over any longer stretch a
completed job stays completed and the retry count never falls, nor passes the limit. -/
theorem job_lifecycle {s s' s'' : Store} {calls calls' : List RepoCall} (h : Run s calls s')
    (h' : Run s' calls' s'') :
    (∀ op stamp (hf : op.Fresh stamp s'.issued), ∀ job ∈ s'.jobs,
      ∀ job' ∈ (s'.apply op stamp hf).jobs, job'.id = job.id →
        JobStep (s'.call op stamp) job job') ∧
    (∀ job ∈ s'.jobs, ∀ job' ∈ s''.jobs, job'.id = job.id →
      (job.status = .completed → job'.status = .completed) ∧
      job.retryCount ≤ job'.retryCount ∧ job'.createdAt = job.createdAt) ∧
    ∀ job' ∈ s'.jobs, (∀ job ∈ s.jobs, job.id = job'.id → job.retryCount ≤ maxRetryCount) →
      job'.retryCount ≤ maxRetryCount := by
  refine ⟨fun op stamp hf job hj job' hj' hid => s'.jobStep op stamp hf hj hj' hid,
    fun job hj job' hj' hid => ?_, fun job' hj' hstart => h.retryCount_bound hj' hstart⟩
  refine h'.job_induction hj (fun job' => (job.status = .completed → job'.status = .completed) ∧
    job.retryCount ≤ job'.retryCount ∧ job'.createdAt = job.createdAt)
    ⟨id, le_rfl, rfl⟩ ?_ hj' hid
  intro call job₁ job₂ ⟨hc, hr, ht⟩ hstep
  exact ⟨fun hs => hstep.completed (hc hs), hr.trans hstep.retryCount_le,
    hstep.createdAt.trans ht⟩

omit [LowerCase] in
theorem job_lifecycle_claim :
    letI := LowerCase.ascii
    ∃ (calls : List RepoCall) (s' : Store), Run empty calls s' ∧ calls.length = 2 ∧
      ∀ job ∈ s'.jobs, job.retryCount ≤ 3 := by
  let _ := LowerCase.ascii
  have hcreate := (Run.nil empty).snoc (.create ⟨"title", "text"⟩) ⟨"1", "t"⟩
    fun _ _ => List.not_mem_nil
  have hclaim := hcreate.snoc (.withBatch ["1"] .processing) ⟨"2", "u"⟩ fun _ h => by cases h
  exact ⟨_, _, hclaim, rfl, fun job hjob =>
    (job_lifecycle hclaim (Run.nil _)).2.2 job hjob fun _ h => by cases h⟩

end Store

end JobManager
