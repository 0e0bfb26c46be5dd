import JobManager.Persistence.JsonDb
import JobManager.Persistence.Store

/-! The in-memory repository of the unit tests answers what the repository over node-json-db
answers, up to the times of the clock. -/
namespace JobManager

open KeyedList

/-- What `randomUUID` and the clock give during one call of the in-memory repository; a batch
reads the clock once for each job it commits. -/
structure Readings where
  uuid : String
  now : ℕ → String

/-- A batch result after the answer for one more id. -/
def BatchResult.note (result : BatchResult) (id : String) : TransitionResult → BatchResult
  | .ok job _ _ => { result with committed := result.committed ++ [job] }
  | .refused reason => { result with rejected := result.rejected ++ [⟨id, reason⟩] }

structure InMemoryJobRepository where
  jobs : InsertionMap String Job

namespace InMemoryJobRepository

def empty : InMemoryJobRepository := ⟨InsertionMap.empty⟩

def seed (r : InMemoryJobRepository) (job : Job) : InMemoryJobRepository :=
  ⟨r.jobs.set job.id job⟩

/-- The repository seeded with a list of jobs, one after the other. -/
def seeded (jobs : List Job) : InMemoryJobRepository := jobs.foldl seed empty

def findById (id : String) (r : InMemoryJobRepository) : Option Job := r.jobs.get id

def list (r : InMemoryJobRepository) : List Job := r.jobs.values

def search [LowerCase] (query : JobSearchQuery) (r : InMemoryJobRepository) : List Job :=
  r.jobs.values.filter fun job =>
    let titleMatches := match query.title with
      | none => true
      | some title => includes (toLowerCase job.title) (toLowerCase title)
    let statusMatches := match query.status with
      | none => true
      | some status => job.status = status
    titleMatches && statusMatches

def create (data : CreateJobData) (uuid now : String) (r : InMemoryJobRepository) :
    Job × InMemoryJobRepository :=
  let job : Job :=
    { id := uuid
      title := data.title
      description := data.description
      status := .pending
      retryCount := 0
      createdAt := now
      updatedAt := now }
  (job, ⟨r.jobs.set job.id job⟩)

def listByStatus (status : JobStatus) (limit : ℤ) (r : InMemoryJobRepository) : List Job :=
  slicePrefix (r.jobs.values.filter fun job => job.status = status) limit

def withTransition (id : String) (target : JobStatus) (patch : Option JobPatch) (now : String)
    (r : InMemoryJobRepository) : TransitionResult × InMemoryJobRepository :=
  match r.jobs.get id with
  | none => (.refused .notFound, r)
  | some current =>
    let isFieldOnlyUpdate := decide (target = current.status)
    match if isFieldOnlyUpdate then none else transitionError current target with
    | some error => (.refused error.toReason, r)
    | none =>
      let retryCount := if current.status = .failed ∧ target = .pending then
        current.retryCount + 1 else current.retryCount
      let updated : Job :=
        { current with
          title := (patch.bind (·.title)).getD current.title
          description := (patch.bind (·.description)).getD current.description
          status := target
          retryCount := retryCount
          updatedAt := now }
      (.ok updated (!isFieldOnlyUpdate) current.status, ⟨r.jobs.set id updated⟩)

/-- One turn of the loop in `withBatch`. -/
def batchStep (target : JobStatus) (now : ℕ → String) (s : BatchResult × InMemoryJobRepository)
    (id : String) : BatchResult × InMemoryJobRepository :=
  let (answer, r) := withTransition id target none (now s.1.committed.length) s.2
  (s.1.note id answer, r)

def withBatch (ids : List String) (target : JobStatus) (now : ℕ → String)
    (r : InMemoryJobRepository) : BatchResult × InMemoryJobRepository :=
  ids.foldl (batchStep target now) (⟨[], []⟩, r)

def delete (id : String) (r : InMemoryJobRepository) : DeleteResult × InMemoryJobRepository :=
  match r.jobs.get id with
  | none => (.refused .notFound, r)
  | some current =>
    match deleteError current with
    | some error => (.refused error.toReason, r)
    | none => (.ok, ⟨r.jobs.erase id⟩)

/-- One call of the in-memory repository; it never rejects. -/
def run [LowerCase] (t : Readings) :
    (op : RepoOp) → InMemoryJobRepository → op.Result × InMemoryJobRepository
  | .findById id, r => (r.findById id, r)
  | .list, r => (r.list, r)
  | .search query, r => (r.search query, r)
  | .create data, r => r.create data t.uuid (t.now 0)
  | .listByStatus status limit, r => (r.listByStatus status limit, r)
  | .withTransition id target patch, r => r.withTransition id target patch (t.now 0)
  | .withBatch ids target, r => r.withBatch ids target t.now
  | .delete id, r => r.delete id

end InMemoryJobRepository

/-- A job without the times of the clock. -/
def Job.untimed (job : Job) : Job := { job with createdAt := "", updatedAt := "" }

def BatchResult.untimed (result : BatchResult) : BatchResult :=
  { result with committed := result.committed.map Job.untimed }

/-- An answer without the times of the clock. -/
def RepoOp.untimed : (op : RepoOp) → op.Result → op.Result
  | .findById _, found => found.map Job.untimed
  | .list, jobs | .search _, jobs | .listByStatus _ _, jobs => jobs.map Job.untimed
  | .create _, job => job.untimed
  | .withTransition _ _ _, .ok job transitioned previousStatus =>
    .ok job.untimed transitioned previousStatus
  | .withTransition _ _ _, .refused reason => .refused reason
  | .withBatch _ _, result => result.untimed
  | .delete _, result => result

namespace JsonDbJobRepository

/-- One turn of the loop that runs `withTransition` for each id. -/
def transitionStep [LowerCase] (target : JobStatus) (now : ℕ → String)
    (s : BatchResult × List Job) (id : String) : BatchResult × List Job :=
  let (answer, jobs) := (RepoOp.withTransition id target none).run
    ⟨"", now s.1.committed.length⟩ s.2
  (s.1.note id answer, jobs)

/-- `withTransition` for one id after the other, instead of one batch. -/
def transitionEach [LowerCase] (ids : List String) (target : JobStatus) (now : ℕ → String)
    (jobs : List Job) : BatchResult × List Job :=
  ids.foldl (transitionStep target now) (⟨[], []⟩, jobs)

end JsonDbJobRepository

section Untimed

open JsonDbJobRepository (updatedJob)

variable {jobs : List Job}

@[simp] theorem Job.untimed_id (job : Job) : job.untimed.id = job.id := rfl

theorem untimed_keys (jobs : List Job) :
    (jobs.map Job.untimed).map Job.id = jobs.map Job.id := keys_map Job.untimed_id

theorem distinct_untimed (h : Distinct Job.id jobs) : Distinct Job.id (jobs.map Job.untimed) := by
  rw [Distinct, untimed_keys]
  exact h

theorem stored_untimed (id : String) :
    stored (jobs.map Job.untimed) id = (stored jobs id).map Job.untimed :=
  lookup_map Job.untimed_id

theorem advance_untimed (target : JobStatus) (now : String) (job : Job) :
    (advance target now job).untimed = advance target "" job.untimed := by
  unfold advance
  by_cases h : Admits job target
  · have h' : Admits job.untimed target := h
    rw [if_pos h, if_pos h']
    rfl
  · have h' : ¬ Admits job.untimed target := h
    rw [if_neg h, if_neg h']

theorem commitOf_untimed (target : JobStatus) (now : String) (job : Job) :
    (commitOf target now job).map Job.untimed = commitOf target "" job.untimed := by
  unfold commitOf
  by_cases h : Admits job target
  · have h' : Admits job.untimed target := h
    rw [if_pos h, if_pos h']
    rfl
  · have h' : ¬ Admits job.untimed target := h
    rw [if_neg h, if_neg h']
    rfl

theorem rejectionOf_untimed (target : JobStatus) (id : String) (found : Option Job) :
    rejectionOf target id (found.map Job.untimed) = rejectionOf target id found := by
  cases found <;> rfl

theorem deleteVerdict_untimed (found : Option Job) :
    deleteVerdict (found.map Job.untimed) = deleteVerdict found := by
  cases found <;> rfl

theorem verdict_untimed (id : String) (target : JobStatus) (patch : Option JobPatch)
    (now : String) (found : Option Job) :
    RepoOp.untimed (.withTransition id target patch) (verdict target patch now found) =
      verdict target patch "" (found.map Job.untimed) := by
  cases found with
  | none => rfl
  | some job =>
    show RepoOp.untimed _ (if Admits job target then _ else _) =
      if Admits job.untimed target then _ else _
    by_cases h : Admits job target
    · have h' : Admits job.untimed target := h
      rw [if_pos h, if_pos h']
      rfl
    · have h' : ¬ Admits job.untimed target := h
      rw [if_neg h, if_neg h']
      rfl

/-- A filter that does not look at the times. -/
theorem filter_untimed {keep : Job → Bool} (h : ∀ job : Job, keep job.untimed = keep job)
    (jobs : List Job) :
    (jobs.filter keep).map Job.untimed = (jobs.map Job.untimed).filter keep := by
  rw [List.filter_map]
  exact congrArg _ (List.filter_congr fun job _ => (h job).symm)

theorem slicePrefix_map {α β : Type} (f : α → β) (xs : List α) (stop : ℤ) :
    (slicePrefix xs stop).map f = slicePrefix (xs.map f) stop := by
  unfold slicePrefix
  split <;> simp

variable [LowerCase]

/-- What an operation answers and leaves depends on the times of the clock only in the times of
the clock. -/
theorem run_untimed (h : Distinct Job.id jobs) (stamp : Stamp) (op : RepoOp) :
    op.untimed (op.run stamp jobs).1 = (op.run ⟨stamp.uuid, ""⟩ (jobs.map Job.untimed)).1 ∧
      (op.run stamp jobs).2.map Job.untimed =
        (op.run ⟨stamp.uuid, ""⟩ (jobs.map Job.untimed)).2 := by
  have h' := distinct_untimed h
  cases op with
  | findById id => exact ⟨(stored_untimed id).symm, rfl⟩
  | list => exact ⟨rfl, rfl⟩
  | search query => exact ⟨filter_untimed (fun _ => rfl) jobs, rfl⟩
  | create data =>
    refine ⟨rfl, ?_⟩
    simp [RepoOp.run, RepoOp.body, JsonDbJobRepository.create, Job.untimed,
      JsonDbJobRepository.createdJob]
  | listByStatus status limit =>
    refine ⟨(slicePrefix_map _ _ _).trans ?_, rfl⟩
    exact congrArg (fun xs => slicePrefix xs limit) (filter_untimed (fun _ => rfl) jobs)
  | withTransition id target patch =>
    rw [withTransition_answer, withTransition_answer, withTransition_jobs stamp h,
      withTransition_jobs _ h', verdict_untimed, stored_untimed, List.map_map, List.map_map]
    refine ⟨rfl, List.map_congr_left fun job _ => ?_⟩
    show Job.untimed (if job.id = id ∧ Admits job target then _ else _) =
      if job.untimed.id = id ∧ Admits job.untimed target then _ else _
    by_cases ha : job.id = id ∧ Admits job target
    · have ha' : job.untimed.id = id ∧ Admits job.untimed target := ha
      rw [if_pos ha, if_pos ha']
      rfl
    · have ha' : ¬ (job.untimed.id = id ∧ Admits job.untimed target) := ha
      rw [if_neg ha, if_neg ha']
  | withBatch ids target =>
    rw [withBatch_answer stamp h, withBatch_answer _ h', withBatch_jobs stamp h,
      withBatch_jobs _ h', List.map_map, List.map_map]
    constructor
    · simp only [RepoOp.untimed, BatchResult.untimed, stored_untimed, rejectionOf_untimed,
        List.map_filterMap, Option.bind_map, Option.map_bind]
      simp only [Function.comp_def, commitOf_untimed]
    · refine List.map_congr_left fun job _ => ?_
      by_cases hid : job.id ∈ ids <;> simp [hid, advance_untimed]
  | delete id =>
    rw [delete_answer, delete_answer, delete_jobs, delete_jobs, stored_untimed,
      deleteVerdict_untimed]
    refine ⟨rfl, ?_⟩
    split
    · exact filter_untimed (fun _ => rfl) jobs
    · rfl

end Untimed

section TransitionEach

open JsonDbJobRepository

variable [LowerCase] {jobs : List Job}

omit [LowerCase] in
theorem note_untimed (result : BatchResult) (id : String) (target : JobStatus)
    (answer : TransitionResult) : (result.note id answer).untimed =
      result.untimed.note id (RepoOp.untimed (.withTransition id target none) answer) := by
  cases answer with
  | ok job transitioned previousStatus => simp [BatchResult.note, BatchResult.untimed,
      RepoOp.untimed]
  | refused reason => rfl

omit [LowerCase] in
theorem note_verdict (result : BatchResult) (id : String) (target : JobStatus) (now : String)
    (found : Option Job) : result.note id (verdict target none now found) =
      ⟨result.committed ++ (found.bind (commitOf target now)).toList,
        result.rejected ++ (rejectionOf target id found).toList⟩ := by
  cases found with
  | none => simp [verdict, BatchResult.note, rejectionOf]
  | some job =>
    by_cases h : Admits job target <;>
      simp [verdict, BatchResult.note, rejectionOf, commitOf, h]

theorem transitionStep_spec (h : Distinct Job.id jobs) (target : JobStatus) (now : String)
    (result : BatchResult) (id : String) :
    transitionStep target (fun _ => now) (result, jobs) id =
      (⟨result.committed ++ ((stored jobs id).bind (commitOf target now)).toList,
        result.rejected ++ (rejectionOf target id (stored jobs id)).toList⟩,
        jobs.map fun job => if job.id = id then advance target now job else job) := by
  refine Prod.ext ?_ ?_
  · show result.note id ((RepoOp.withTransition id target none).run ⟨"", now⟩ jobs).1 = _
    rw [withTransition_answer, note_verdict]
  · show ((RepoOp.withTransition id target none).run _ jobs).2 = _
    rw [withTransition_jobs _ h]
    refine List.map_congr_left fun job _ => ?_
    by_cases hid : job.id = id <;> by_cases ha : Admits job target <;> simp [hid, ha, advance]

/-- With one time for all, the turns leave what one batch leaves. -/
theorem foldl_transitionStep (h : Distinct Job.id jobs) (target : JobStatus) (now : String)
    (ids : List String) (result : BatchResult) :
    ids.foldl (transitionStep target fun _ => now) (result, jobs) =
      (⟨result.committed ++ ids.filterMap fun id => (stored jobs id).bind (commitOf target now),
        result.rejected ++ ids.filterMap fun id => rejectionOf target id (stored jobs id)⟩,
        jobs.map fun job => if job.id ∈ ids then advance target now job else job) := by
  induction ids generalizing result jobs with
  | nil => simp
  | cons id ids ih =>
    let step : Job → Job := fun job => if job.id = id then advance target now job else job
    have hkey : ∀ job, (step job).id = job.id := by
      intro job
      by_cases hid : job.id = id <;> simp [step, hid]
    have hdistinct : Distinct Job.id (jobs.map step) := by
      rw [Distinct, keys_map hkey]
      exact h
    -- a later visit finds what the first one left
    have hstored : ∀ id', stored (jobs.map step) id' =
        if id' = id then (stored jobs id').map (advance target now) else stored jobs id' := by
      intro id'
      simp only [stored]
      rw [lookup_map hkey]
      cases hs : lookup Job.id jobs id' with
      | none => simp
      | some job => by_cases hid : id' = id <;> simp [step, lookup_key hs, hid]
    rw [List.foldl_cons, transitionStep_spec h, ih hdistinct]
    refine Prod.ext ?_ ?_
    · simp only [hstored, commitOf_visited, rejectionOf_visited, List.append_assoc]
      cases hc : (stored jobs id).bind (commitOf target now) <;>
        cases hr : rejectionOf target id (stored jobs id) <;> simp [hc, hr]
    · rw [List.map_map]
      refine List.map_congr_left fun job _ => ?_
      by_cases hid : job.id = id <;> by_cases hmem : job.id ∈ ids <;>
        simp_all [step, advance_advance]

theorem transitionStep_untimed (h : Distinct Job.id jobs) (target : JobStatus)
    (now : ℕ → String) (result : BatchResult) (id : String) :
    let s := transitionStep target now (result, jobs) id
    (s.1.untimed, s.2.map Job.untimed) =
      transitionStep target (fun _ => "") (result.untimed, jobs.map Job.untimed) id := by
  obtain ⟨hanswer, hjobs⟩ := run_untimed h ⟨"", now result.committed.length⟩
    (.withTransition id target none)
  refine Prod.ext ?_ hjobs
  exact (note_untimed result id target _).trans (congrArg _ hanswer)

theorem transitionEach_untimed (h : Distinct Job.id jobs) (target : JobStatus)
    (now : ℕ → String) (ids : List String) (result : BatchResult) :
    let s := ids.foldl (transitionStep target now) (result, jobs)
    (s.1.untimed, s.2.map Job.untimed) = ids.foldl (transitionStep target fun _ => "")
      (result.untimed, jobs.map Job.untimed) := by
  induction ids generalizing result jobs with
  | nil => rfl
  | cons id ids ih =>
    have hdistinct : Distinct Job.id (transitionStep target now (result, jobs) id).2 := by
      show Distinct Job.id ((RepoOp.withTransition id target none).run _ jobs).2
      rw [Distinct, keys_run _ h]
      exact h
    have hstep := transitionStep_untimed h target now result id
    exact (ih hdistinct _).trans
      (congrArg (fun s => ids.foldl (transitionStep target fun _ => "") s) hstep)

/-- A batch is one transition after the other, up to the times of the clock. -/
theorem withBatch_eq_transitionEach (h : Distinct Job.id jobs) (ids : List String)
    (target : JobStatus) (stamp : Stamp) (now : ℕ → String) :
    let batch := (RepoOp.withBatch ids target).run stamp jobs
    let each := transitionEach ids target now jobs
    (batch.1.untimed, batch.2.map Job.untimed) = (each.1.untimed, each.2.map Job.untimed) := by
  have h' := distinct_untimed h
  obtain ⟨hanswer, hjobs⟩ := run_untimed h stamp (.withBatch ids target)
  have heach := transitionEach_untimed h target now ids ⟨[], []⟩
  rw [foldl_transitionStep h'] at heach
  refine Eq.trans ?_ heach.symm
  rw [withBatch_answer _ h'] at hanswer
  rw [withBatch_jobs _ h'] at hjobs
  exact Prod.ext hanswer hjobs

end TransitionEach

namespace InMemoryJobRepository

open InsertionMap

variable [LowerCase] {r : InMemoryJobRepository} {jobs : List Job}

omit [LowerCase] in
theorem seeded_indexes (h : Distinct Job.id jobs) : Indexes Job.id (seeded jobs).jobs jobs := by
  induction jobs using List.reverseRecOn with
  | nil => exact Indexes.empty
  | append_singleton jobs job ih =>
    rw [Distinct, List.map_append] at h
    obtain ⟨hjobs, -, hdisjoint⟩ := List.nodup_append.mp h
    rw [seeded, List.foldl_append]
    exact (ih hjobs).set_new rfl fun hmem => hdisjoint _ hmem _ (by simp) rfl

omit [LowerCase] in
theorem withTransition_eq (id : String) (target : JobStatus) (patch : Option JobPatch)
    (now : String) : r.withTransition id target patch now =
      (verdict target patch now (r.jobs.get id), match r.jobs.get id with
        | none => r
        | some job => if Admits job target then
            ⟨r.jobs.set id (JsonDbJobRepository.updatedJob job target patch now)⟩ else r) := by
  unfold withTransition
  cases r.jobs.get id with
  | none => rfl
  | some current =>
    simp only [guard_eq]
    by_cases h : Admits current target
    · by_cases ht : target = current.status
      · subst ht
        simp [verdict, h, JsonDbJobRepository.updatedJob]
      · simp [verdict, h, ht, JsonDbJobRepository.updatedJob]
    · obtain ⟨error, he, hr⟩ := transitionError_of_not_admits h
      simp [verdict, h, he, hr]

theorem withTransition_indexes (h : Indexes Job.id r.jobs jobs) (id : String) (target : JobStatus)
    (patch : Option JobPatch) (stamp : Stamp) :
    let mine := r.withTransition id target patch stamp.now
    let theirs := (RepoOp.withTransition id target patch).run stamp jobs
    mine.1 = theirs.1 ∧ Indexes Job.id mine.2.jobs theirs.2 := by
  dsimp only
  rw [withTransition_eq, h.get_eq, withTransition_answer]
  refine ⟨rfl, ?_⟩
  rw [withTransition_jobs stamp h.distinct]
  have huniq : ∀ job ∈ jobs, job.id = id → lookup Job.id jobs id = some job := by
    rintro job hjob rfl
    exact lookup_of_mem h.distinct hjob
  cases hs : lookup Job.id jobs id with
  | none =>
    have hsame : ∀ job ∈ jobs, job.id ≠ id := fun job hjob hid => by
      simp [huniq job hjob hid] at hs
    rw [List.map_congr_left fun job hjob => if_neg fun hc => hsame job hjob hc.1, List.map_id']
    exact h
  | some current =>
    have hcurrent : ∀ job ∈ jobs, job.id = id → job = current := fun job hjob hid =>
      Option.some.inj ((huniq job hjob hid).symm.trans hs)
    by_cases ha : Admits current target
    · have hid : current.id = id := lookup_key hs
      have hset := h.set_old
        (show (JsonDbJobRepository.updatedJob current target patch stamp.now).id = id from hid)
        (lookup_isSome.mp (by rw [hs]; rfl))
      simp only [ha, ↓reduceIte]
      refine hset.trans (congrArg _ (List.map_congr_left fun job hjob => ?_))
      by_cases hid : job.id = id
      · obtain rfl := hcurrent job hjob hid
        simp [hid, ha]
      · simp [hid]
    · have hsame : ∀ job ∈ jobs, ¬ (job.id = id ∧ Admits job target) := by
        rintro job hjob ⟨hid, ha'⟩
        exact ha (hcurrent job hjob hid ▸ ha')
      rw [List.map_congr_left fun job hjob => if_neg (hsame job hjob), List.map_id']
      simp only [ha, ↓reduceIte]
      exact h

theorem batchStep_indexes {s : BatchResult × InMemoryJobRepository}
    {s' : BatchResult × List Job} (hs : s.1 = s'.1) (h : Indexes Job.id s.2.jobs s'.2)
    (target : JobStatus) (now : ℕ → String) (id : String) :
    let mine := batchStep target now s id
    let theirs := JsonDbJobRepository.transitionStep target now s' id
    mine.1 = theirs.1 ∧ Indexes Job.id mine.2.jobs theirs.2 := by
  obtain ⟨result, r⟩ := s
  obtain ⟨_, jobs⟩ := s'
  obtain rfl : result = _ := hs
  obtain ⟨hanswer, hjobs⟩ := withTransition_indexes h id target none
    ⟨"", now result.committed.length⟩
  exact ⟨congrArg (result.note id) hanswer, hjobs⟩

/-- The loop of the double is the loop of transitions on the list. -/
theorem foldl_batchStep_indexes {s : BatchResult × InMemoryJobRepository}
    {s' : BatchResult × List Job} (hs : s.1 = s'.1) (h : Indexes Job.id s.2.jobs s'.2)
    (target : JobStatus) (now : ℕ → String) (ids : List String) :
    let mine := ids.foldl (batchStep target now) s
    let theirs := ids.foldl (JsonDbJobRepository.transitionStep target now) s'
    mine.1 = theirs.1 ∧ Indexes Job.id mine.2.jobs theirs.2 := by
  induction ids generalizing s s' with
  | nil => exact ⟨hs, h⟩
  | cons id ids ih =>
    obtain ⟨hanswer, hjobs⟩ := batchStep_indexes hs h target now id
    exact ih hanswer hjobs

theorem delete_indexes (h : Indexes Job.id r.jobs jobs) (id : String) (stamp : Stamp) :
    let theirs := (RepoOp.delete id).run stamp jobs
    (r.delete id).1 = theirs.1 ∧ Indexes Job.id (r.delete id).2.jobs theirs.2 := by
  dsimp only
  rw [delete_answer, delete_jobs, stored, ← h.get_eq]
  unfold delete
  cases r.jobs.get id with
  | none => exact ⟨rfl, h⟩
  | some current =>
    by_cases hd : current.status = .processing
    · simp only [deleteError, hd, ↓reduceIte, deleteVerdict, canDelete]
      exact ⟨rfl, h⟩
    · simp only [deleteError, hd, ↓reduceIte, deleteVerdict, canDelete]
      exact ⟨rfl, h.erase id⟩

/-- One call of the double does to its map what the operation does to the array, up to the times
of the clock. -/
theorem run_indexes (h : Indexes Job.id r.jobs jobs) (t : Readings) (now : String) (op : RepoOp)
    (hfresh : op.Fresh ⟨t.uuid, now⟩ (jobs.map Job.id)) :
    let theirs := op.run ⟨t.uuid, now⟩ jobs
    op.untimed (run t op r).1 = op.untimed theirs.1 ∧
      ∃ jobs', Indexes Job.id (run t op r).2.jobs jobs' ∧
        jobs'.map Job.untimed = theirs.2.map Job.untimed := by
  have hvalues := h.values_eq
  -- the double may read another time; what it does then differs only in that time
  have hother : ∀ x : op.Result × List Job, x = op.run ⟨t.uuid, t.now 0⟩ jobs →
      (run t op r).1 = x.1 → Indexes Job.id (run t op r).2.jobs x.2 →
      op.untimed (run t op r).1 = op.untimed (op.run ⟨t.uuid, now⟩ jobs).1 ∧
        ∃ jobs', Indexes Job.id (run t op r).2.jobs jobs' ∧
          jobs'.map Job.untimed = (op.run ⟨t.uuid, now⟩ jobs).2.map Job.untimed := by
    rintro _ rfl hanswer hjobs
    obtain ⟨hanswer', hjobs'⟩ := run_untimed h.distinct ⟨t.uuid, t.now 0⟩ op
    obtain ⟨hanswer'', hjobs''⟩ := run_untimed h.distinct ⟨t.uuid, now⟩ op
    rw [hanswer]
    exact ⟨hanswer'.trans hanswer''.symm, _, hjobs, hjobs'.trans hjobs''.symm⟩
  cases op with
  | findById id => exact ⟨congrArg _ (h.get_eq id), jobs, h, rfl⟩
  | list => exact ⟨congrArg _ hvalues, jobs, h, rfl⟩
  | search query =>
    refine hother _ rfl ?_ h
    show r.search query = _
    rw [search, hvalues]
    rfl
  | create data =>
    refine hother _ rfl rfl ?_
    exact h.set_new rfl (hfresh data rfl)
  | listByStatus status limit =>
    refine hother _ rfl ?_ h
    show r.listByStatus status limit = _
    rw [listByStatus, hvalues]
    rfl
  | withTransition id target patch =>
    obtain ⟨hanswer, hjobs⟩ := withTransition_indexes h id target patch ⟨t.uuid, t.now 0⟩
    exact hother _ rfl hanswer hjobs
  | withBatch ids target =>
    obtain ⟨hanswer, hjobs⟩ := @foldl_batchStep_indexes _ (⟨[], []⟩, r)
      (⟨[], []⟩, jobs) rfl h target t.now ids
    have hbatch := withBatch_eq_transitionEach h.distinct ids target ⟨t.uuid, now⟩ t.now
    obtain ⟨hbatch, hbatchJobs⟩ := Prod.mk.inj hbatch
    exact ⟨(congrArg _ hanswer).trans hbatch.symm, _, hjobs, hbatchJobs.symm⟩
  | delete id =>
    obtain ⟨hanswer, hjobs⟩ := delete_indexes h id ⟨t.uuid, t.now 0⟩
    exact hother _ rfl hanswer hjobs

end InMemoryJobRepository

end JobManager
