import JobManager.Persistence.Operations

/-! The repository as independent jobs: seen through lookups by id, an operation acts on every
id separately. All invariants of the store are read off this description. -/
namespace JobManager

open KeyedList JsonDbJobRepository

/-- The write rule of both transition paths: an equal target skips the guard. -/
def Admits (job : Job) (target : JobStatus) : Prop :=
  target = job.status ∨ canTransition job target = true

instance (job : Job) (target : JobStatus) : Decidable (Admits job target) := by
  unfold Admits
  infer_instance

/-- What a batch makes of one stored job it visits. -/
def advance (target : JobStatus) (now : String) (job : Job) : Job :=
  if Admits job target then batchUpdatedJob job target now else job

def commitOf (target : JobStatus) (now : String) (job : Job) : Option Job :=
  if Admits job target then some (batchUpdatedJob job target now) else none

/-- The reason a refused transition is answered with. -/
def refusal (job : Job) (target : JobStatus) : TransitionFailureReason :=
  ((transitionError job target).map TransitionError.toReason).getD .invalidTransition

def rejectionOf (target : JobStatus) (id : String) : Option Job → Option BatchRejection
  | none => some ⟨id, .notFound⟩
  | some job => if Admits job target then none else some ⟨id, refusal job target⟩

/-- The effect of an operation on what is stored under one id. -/
def RepoOp.effect (stamp : Stamp) (id : String) : RepoOp → Option Job → Option Job
  | .create data, o => o.or (if stamp.uuid = id then some (createdJob data stamp) else none)
  | .withTransition id' target patch, o => if id = id' then
      o.map fun job => if Admits job target then updatedJob job target patch stamp.now else job
    else o
  | .withBatch ids target, o => if id ∈ ids then o.map (advance target stamp.now) else o
  | .delete id', o => if id = id' then o.filter fun job => !canDelete job else o
  | _, o => o

@[simp] theorem batchUpdatedJob_eq (job : Job) (target : JobStatus) (now : String) :
    batchUpdatedJob job target now = updatedJob job target none now := rfl

@[simp] theorem updatedJob_id (job : Job) (target : JobStatus) (patch : Option JobPatch)
    (now : String) : (updatedJob job target patch now).id = job.id := rfl

@[simp] theorem updatedJob_status (job : Job) (target : JobStatus) (patch : Option JobPatch)
    (now : String) : (updatedJob job target patch now).status = target := rfl

@[simp] theorem advance_id (target : JobStatus) (now : String) (job : Job) :
    (advance target now job).id = job.id := by
  unfold advance
  split <;> rfl

theorem admits_advance {job : Job} {target : JobStatus} (now : String) :
    Admits (advance target now job) target ↔ Admits job target := by
  unfold advance
  split
  · next h => exact iff_of_true (.inl rfl) h
  · rfl

theorem guard_eq (job : Job) (target : JobStatus) :
    (if decide (target = job.status) = true then none else transitionError job target) =
      if Admits job target then none else transitionError job target := by
  unfold Admits
  by_cases h : target = job.status
  · simp [h]
  · by_cases hc : canTransition job target = true
    · simp [h, hc, (transitionError_eq_none job target).mpr hc]
    · simp [h, hc]

theorem transitionError_of_not_admits {job : Job} {target : JobStatus}
    (h : ¬ Admits job target) :
    ∃ error, transitionError job target = some error ∧ refusal job target = error.toReason := by
  cases he : transitionError job target with
  | none => exact absurd (.inr ((transitionError_eq_none job target).mp he)) h
  | some error => exact ⟨error, rfl, by simp [refusal, he]⟩

/-- A second visit in the same batch changes nothing. -/
theorem advance_advance (target : JobStatus) (now : String) (job : Job) :
    advance target now (advance target now job) = advance target now job := by
  by_cases h : Admits job target
  · rw [advance, if_pos ((admits_advance now).mpr h), advance, if_pos h]
    have : ¬ (target = .failed ∧ target = .pending) := by rintro ⟨rfl, h⟩; cases h
    simp [updatedJob, this]
  · simp [advance, h]

theorem commitOf_advance (target : JobStatus) (now : String) (job : Job) :
    commitOf target now (advance target now job) = commitOf target now job := by
  by_cases h : Admits job target
  · have h' := (admits_advance now).mpr h
    have := advance_advance target now job
    rw [advance, if_pos h'] at this
    rw [commitOf, if_pos h', this, commitOf, if_pos h, advance, if_pos h]
  · simp [commitOf, advance, h]

theorem rejectionOf_advance (target : JobStatus) (now id : String) (o : Option Job) :
    rejectionOf target id (o.map (advance target now)) = rejectionOf target id o := by
  cases o with
  | none => rfl
  | some job =>
    by_cases h : Admits job target
    · simp [rejectionOf, h, admits_advance]
    · simp [rejectionOf, advance, h]

/-- A visit earlier in the batch does not change what a visit commits. -/
theorem commitOf_visited (target : JobStatus) (now : String) (visited : Prop) [Decidable visited]
    (o : Option Job) : (if visited then o.map (advance target now) else o).bind
      (commitOf target now) = o.bind (commitOf target now) := by
  split
  · simp [Option.bind_map, commitOf_advance]
  · rfl

theorem rejectionOf_visited (target : JobStatus) (now id : String) (visited : Prop)
    [Decidable visited] (o : Option Job) :
    rejectionOf target id (if visited then o.map (advance target now) else o) =
      rejectionOf target id o := by
  split
  · exact rejectionOf_advance target now id o
  · rfl

theorem batchStep_spec (target : JobStatus) (now : String) (s : BatchState) (id : String) :
    let s' := batchStep target now s id
    (∀ id', s'.byId.get id' =
      if id' = id then (s.byId.get id').map (advance target now) else s.byId.get id') ∧
    s'.committed = s.committed ++ ((s.byId.get id).bind (commitOf target now)).toList ∧
    s'.rejected = s.rejected ++ (rejectionOf target id (s.byId.get id)).toList := by
  unfold batchStep
  cases hg : s.byId.get id with
  | none =>
    refine ⟨fun id' => ?_, by simp, by simp [rejectionOf]⟩
    by_cases h : id' = id <;> simp [h, hg]
  | some current =>
    simp only [guard_eq]
    by_cases h : Admits current target
    · simp only [h, ↓reduceIte]
      refine ⟨fun id' => ?_, by simp [commitOf, h], by simp [rejectionOf, h]⟩
      by_cases hid : id' = id <;> simp [hid, hg, advance, h]
    · obtain ⟨error, he, hr⟩ := transitionError_of_not_admits h
      simp only [h, ↓reduceIte, he]
      refine ⟨fun id' => ?_, by simp [commitOf, h], by simp [rejectionOf, h, hr]⟩
      by_cases hid : id' = id <;> simp [hid, hg, advance, h]

/-- The whole batch loop: later visits of an id find what the first one left. -/
theorem foldl_batchStep (target : JobStatus) (now : String) (ids : List String)
    (s : BatchState) :
    let s' := ids.foldl (batchStep target now) s
    (∀ id, s'.byId.get id =
      if id ∈ ids then (s.byId.get id).map (advance target now) else s.byId.get id) ∧
    s'.committed = s.committed ++
      ids.filterMap (fun id => (s.byId.get id).bind (commitOf target now)) ∧
    s'.rejected = s.rejected ++
      ids.filterMap (fun id => rejectionOf target id (s.byId.get id)) := by
  induction ids generalizing s with
  | nil => simp
  | cons id ids ih =>
    obtain ⟨hget, hcom, hrej⟩ := batchStep_spec target now s id
    obtain ⟨ihget, ihcom, ihrej⟩ := ih (batchStep target now s id)
    refine ⟨fun id' => ?_, ?_, ?_⟩
    · rw [List.foldl_cons, ihget, hget]
      by_cases h : id' = id <;> by_cases hm : id' ∈ ids <;>
        simp [h, hm, Option.map_map, Function.comp_def, advance_advance]
    · rw [List.foldl_cons, ihcom, hcom, List.append_assoc]
      simp only [hget, commitOf_visited]
      cases h : (s.byId.get id).bind (commitOf target now) <;> simp [h]
    · rw [List.foldl_cons, ihrej, hrej, List.append_assoc]
      simp only [hget, rejectionOf_visited]
      cases h : rejectionOf target id (s.byId.get id) <;> simp [h]

/-- What `withTransition` answers, from the job it finds. -/
def verdict (target : JobStatus) (patch : Option JobPatch) (now : String) :
    Option Job → TransitionResult
  | none => .refused .notFound
  | some job => if Admits job target then
      .ok (updatedJob job target patch now) (decide (target ≠ job.status)) job.status
    else .refused (refusal job target)

def deleteVerdict : Option Job → DeleteResult
  | none => .refused .notFound
  | some job => if canDelete job then .ok else .refused .forbiddenProcessing

/-- The effect of an operation on the list of ids. -/
def RepoOp.keysEffect (stamp : Stamp) (jobs : List Job) (ids : List String) : RepoOp → List String
  | .create _ => ids ++ [stamp.uuid]
  | .delete id => if deleteVerdict (stored jobs id) = .ok then ids.filter fun id' => id' ≠ id
    else ids
  | _ => ids

section Run

variable [LowerCase] {jobs : List Job} (stamp : Stamp)

omit [LowerCase] in
private theorem getElem?_stored (id : String) :
    jobs[jobs.findIdx fun job => job.id = id]? = stored jobs id := getElem?_findIdx

theorem withTransition_answer (id : String) (target : JobStatus) (patch : Option JobPatch) :
    ((RepoOp.withTransition id target patch).run stamp jobs).1 =
      verdict target patch stamp.now (stored jobs id) := by
  simp only [RepoOp.run, RepoOp.body, withTransition, getElem?_stored, guard_eq]
  cases stored jobs id with
  | none => rfl
  | some current =>
    by_cases h : Admits current target
    · by_cases ht : target = current.status
      · subst ht
        simp [verdict, h]
      · simp [verdict, h, ht]
    · obtain ⟨error, he, hr⟩ := transitionError_of_not_admits h
      simp [verdict, h, he, hr]

theorem withTransition_jobs (h : Distinct Job.id jobs) (id : String) (target : JobStatus)
    (patch : Option JobPatch) :
    ((RepoOp.withTransition id target patch).run stamp jobs).2 = jobs.map fun job =>
      if job.id = id ∧ Admits job target then updatedJob job target patch stamp.now else job := by
  simp only [RepoOp.run, RepoOp.body, withTransition, getElem?_stored, guard_eq]
  cases hs : stored jobs id with
  | none =>
    have hne : ∀ job ∈ jobs, job.id ≠ id := fun job hj he =>
      lookup_eq_none.mp hs (he ▸ List.mem_map_of_mem hj)
    conv_lhs => rw [← List.map_id jobs]
    simp only [Option.getD_none, List.map_id_fun, id_eq]
    conv_lhs => rw [← List.map_id jobs]
    exact List.map_congr_left fun job hj => by simp [hne job hj]
  | some current =>
    have huniq : ∀ job ∈ jobs, job.id = id → job = current := by
      intro job hj he
      rw [stored, ← he, lookup_of_mem h hj] at hs
      exact Option.some.inj hs
    by_cases ha : Admits current target
    · simp only [ha, ↓reduceIte, Option.getD_some, set_findIdx h]
      apply List.map_congr_left
      intro job hj
      by_cases he : job.id = id
      · obtain rfl := huniq job hj he
        simp [he, ha]
      · simp [he]
    · obtain ⟨error, he, -⟩ := transitionError_of_not_admits ha
      simp only [ha, ↓reduceIte, he, Option.getD_none]
      conv_lhs => rw [← List.map_id jobs]
      apply List.map_congr_left
      intro job hj
      by_cases hid : job.id = id
      · obtain rfl := huniq job hj hid
        simp [ha]
      · simp [hid]

omit [LowerCase] in
/-- The map `withBatch` starts from holds the snapshot. -/
theorem get_snapshot (h : Distinct Job.id jobs) (id : String) :
    (InsertionMap.ofEntries (jobs.map fun job => (job.id, job))).get id = stored jobs id := by
  rw [InsertionMap.get_ofEntries, ← List.map_reverse, List.find?_map, Option.map_map]
  simp only [Function.comp_def, Option.map_id']
  exact find?_reverse h

theorem withBatch_answer (h : Distinct Job.id jobs) (ids : List String) (target : JobStatus) :
    ((RepoOp.withBatch ids target).run stamp jobs).1 =
      ⟨ids.filterMap fun id => (stored jobs id).bind (commitOf target stamp.now),
        ids.filterMap fun id => rejectionOf target id (stored jobs id)⟩ := by
  obtain ⟨-, hcom, hrej⟩ := foldl_batchStep target stamp.now ids
    ⟨InsertionMap.ofEntries (jobs.map fun job => (job.id, job)), [], []⟩
  simp only [RepoOp.run, RepoOp.body, withBatch, hcom, hrej, get_snapshot h, List.nil_append]

/-- A batch commits the ids it finds stored in a status that admits the target. -/
theorem withBatch_committed_ids (h : Distinct Job.id jobs) (ids : List String)
    (target : JobStatus) :
    ((RepoOp.withBatch ids target).run stamp jobs).1.committed.map Job.id =
      ids.filter fun id => (stored jobs id).any fun job => Admits job target := by
  rw [withBatch_answer stamp h, List.map_filterMap, ← List.filterMap_eq_filter]
  apply List.filterMap_congr
  intro id _
  cases hs : stored jobs id with
  | none => simp [Option.guard, hs]
  | some job =>
    have hid := lookup_key hs
    by_cases ha : Admits job target <;> simp [commitOf, ha, hid, hs, Option.guard]

theorem withBatch_jobs (h : Distinct Job.id jobs) (ids : List String) (target : JobStatus) :
    ((RepoOp.withBatch ids target).run stamp jobs).2 = jobs.map fun job =>
      if job.id ∈ ids then advance target stamp.now job else job := by
  obtain ⟨hget, -, -⟩ := foldl_batchStep target stamp.now ids
    ⟨InsertionMap.ofEntries (jobs.map fun job => (job.id, job)), [], []⟩
  simp only [RepoOp.run, RepoOp.body, withBatch, Option.getD_some]
  apply List.map_congr_left
  intro job hj
  rw [hget, get_snapshot h, stored, lookup_of_mem h hj]
  split <;> rfl

theorem delete_answer (id : String) :
    ((RepoOp.delete id).run stamp jobs).1 = deleteVerdict (stored jobs id) := by
  simp only [RepoOp.run, RepoOp.body, delete, getElem?_stored]
  cases stored jobs id with
  | none => rfl
  | some current => by_cases h : current.status = .processing <;>
      simp [deleteVerdict, canDelete, deleteError, h, DeleteError.toReason]

theorem delete_jobs (id : String) :
    ((RepoOp.delete id).run stamp jobs).2 =
      if deleteVerdict (stored jobs id) = .ok then jobs.filter fun job => job.id ≠ id
      else jobs := by
  simp only [RepoOp.run, RepoOp.body, delete, getElem?_stored]
  cases stored jobs id with
  | none => rfl
  | some current => by_cases h : current.status = .processing <;>
      simp [deleteVerdict, canDelete, deleteError, h]

/-- Refinement: the array as a whole behaves as one automaton per id. -/
theorem stored_run (h : Distinct Job.id jobs) (op : RepoOp) (id : String) :
    stored (op.run stamp jobs).2 id = op.effect stamp id (stored jobs id) := by
  cases op with
  | create data =>
    exact lookup_append_singleton (createdJob data stamp)
  | withTransition id' target patch =>
    simp only [stored, RepoOp.effect]
    rw [withTransition_jobs stamp h, lookup_map (by intro a; split <;> rfl)]
    cases hs : lookup Job.id jobs id with
    | none => simp
    | some job =>
      have := lookup_key hs
      by_cases hid : id = id' <;> simp [hid, this]
  | withBatch ids target =>
    simp only [stored, RepoOp.effect]
    rw [withBatch_jobs stamp h, lookup_map (by intro a; split <;> simp)]
    cases hs : lookup Job.id jobs id with
    | none => simp
    | some job =>
      have := lookup_key hs
      by_cases hid : id ∈ ids <;> simp [hid, this]
  | delete id' =>
    rw [delete_jobs, RepoOp.effect]
    by_cases hid : id = id'
    · subst hid
      cases hs : stored jobs id with
      | none => simp [deleteVerdict, hs]
      | some job =>
        by_cases hd : canDelete job = true
        · simp only [deleteVerdict, hd, ↓reduceIte]
          rw [stored, lookup_filter_ne, if_pos rfl]
          simp [Option.filter, hd]
        · simp [deleteVerdict, Option.filter, hd, hs]
    · rw [if_neg hid]
      split
      · rw [stored, lookup_filter_ne, if_neg hid]
      · rfl
  | findById _ | list | search _ | listByStatus _ _ => rfl

/-- New ids go to the end; only a delete that answers ok takes one out. -/
theorem keys_run (h : Distinct Job.id jobs) (op : RepoOp) :
    (op.run stamp jobs).2.map Job.id = op.keysEffect stamp jobs (jobs.map Job.id) := by
  cases op with
  | create data => simp [RepoOp.run, RepoOp.body, create, createdJob, RepoOp.keysEffect]
  | withTransition id target patch =>
    rw [withTransition_jobs stamp h]
    exact keys_map (by intro a; split <;> rfl)
  | withBatch ids target =>
    rw [withBatch_jobs stamp h]
    exact keys_map (by intro a; split <;> simp)
  | delete id =>
    rw [delete_jobs, RepoOp.keysEffect]
    split
    · exact keys_filter_ne id
    · rfl
  | findById _ | list | search _ | listByStatus _ _ => rfl

end Run

end JobManager
