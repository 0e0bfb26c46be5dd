import JobManager.Persistence.PerJob

/-! The store under a sequence of operations. Ids drawn by `randomUUID` were never used before. -/
namespace JobManager

open KeyedList JsonDbJobRepository

/-- The job array, with distinct ids, and every id handed out so far. -/
structure Store where
  jobs : List Job
  issued : List String
  distinct : Distinct Job.id jobs
  issued_of_mem : ∀ job ∈ jobs, job.id ∈ issued

/-- `randomUUID` returns an id never used before. -/
def RepoOp.Fresh (op : RepoOp) (stamp : Stamp) (issued : List String) : Prop :=
  ∀ data, op = .create data → stamp.uuid ∉ issued

def RepoOp.issues (op : RepoOp) (stamp : Stamp) : List String :=
  match op with
  | .create _ => [stamp.uuid]
  | _ => []

namespace Store

def ids (s : Store) : List String := s.jobs.map Job.id

def empty : Store := ⟨[], [], List.nodup_nil, by simp⟩

/-- A store whose jobs are the only ids in use. -/
def ofJobs (jobs : List Job) (h : Distinct Job.id jobs) : Store :=
  ⟨jobs, jobs.map Job.id, h, fun _ => List.mem_map_of_mem⟩

def onePending : Store :=
  ofJobs [⟨"1", "title", "text", .pending, 0, "t", "t"⟩] (List.nodup_singleton _)

variable [LowerCase]

theorem keys_distinct (s : Store) (op : RepoOp) (stamp : Stamp)
    (h : op.Fresh stamp s.issued) : Distinct Job.id (op.run stamp s.jobs).2 := by
  rw [Distinct, keys_run stamp s.distinct]
  cases op with
  | create data =>
    refine List.nodup_append.mpr ⟨s.distinct, List.nodup_singleton _, ?_⟩
    rintro id hid _ hu rfl
    obtain ⟨job, hj, rfl⟩ := List.mem_map.mp hid
    exact h data rfl (List.mem_singleton.mp hu ▸ s.issued_of_mem job hj)
  | delete id =>
    simp only [RepoOp.keysEffect]
    split
    · exact s.distinct.filter _
    · exact s.distinct
  | findById _ | list | search _ | listByStatus _ _ | withTransition _ _ _ | withBatch _ _ =>
    exact s.distinct

theorem mem_keys_run (s : Store) (op : RepoOp) (stamp : Stamp) {id : String}
    (h : id ∈ (op.run stamp s.jobs).2.map Job.id) : id ∈ s.ids ∨ id ∈ op.issues stamp := by
  rw [keys_run stamp s.distinct] at h
  cases op with
  | create data => simpa [RepoOp.keysEffect, RepoOp.issues, ids] using h
  | delete id' =>
    simp only [RepoOp.keysEffect] at h
    split at h
    · exact .inl (List.mem_of_mem_filter h)
    · exact .inl h
  | findById _ | list | search _ | listByStatus _ _ | withTransition _ _ _ | withBatch _ _ =>
    exact .inl h

def apply (s : Store) (op : RepoOp) (stamp : Stamp) (h : op.Fresh stamp s.issued) : Store where
  jobs := (op.run stamp s.jobs).2
  issued := s.issued ++ op.issues stamp
  distinct := s.keys_distinct op stamp h
  issued_of_mem job hj := by
    rcases s.mem_keys_run op stamp (List.mem_map_of_mem hj) with hid | hid
    · obtain ⟨job', hj', he⟩ := List.mem_map.mp hid
      exact List.mem_append_left _ (he ▸ s.issued_of_mem job' hj')
    · exact List.mem_append_right _ hid

omit [LowerCase] in
theorem stored_isSome (s : Store) (id : String) : (stored s.jobs id).isSome ↔ id ∈ s.ids :=
  lookup_isSome

omit [LowerCase] in
theorem stored_eq_none (s : Store) (id : String) : stored s.jobs id = none ↔ id ∉ s.ids :=
  lookup_eq_none

omit [LowerCase] in
theorem stored_of_mem (s : Store) {job : Job} (h : job ∈ s.jobs) :
    stored s.jobs job.id = some job := lookup_of_mem s.distinct h

omit [LowerCase] in
theorem ids_subset_issued (s : Store) {id : String} (h : id ∈ s.ids) : id ∈ s.issued := by
  obtain ⟨job, hj, rfl⟩ := List.mem_map.mp h
  exact s.issued_of_mem job hj

theorem stored_apply (s : Store) (op : RepoOp) (stamp : Stamp) (h : op.Fresh stamp s.issued)
    (id : String) :
    stored (s.apply op stamp h).jobs id = op.effect stamp id (stored s.jobs id) :=
  stored_run stamp s.distinct op id

theorem ids_apply (s : Store) (op : RepoOp) (stamp : Stamp) (h : op.Fresh stamp s.issued) :
    (s.apply op stamp h).ids = op.keysEffect stamp s.jobs s.ids := keys_run stamp s.distinct op

/-- An id that was in use and is stored after an operation was stored before it. -/
theorem mem_ids_of_apply (s : Store) (op : RepoOp) (stamp : Stamp)
    (h : op.Fresh stamp s.issued) {id : String} (hid : id ∈ (s.apply op stamp h).ids)
    (hissued : id ∈ s.issued) : id ∈ s.ids := by
  rcases s.mem_keys_run op stamp hid with hs | hnew
  · exact hs
  · cases op with
    | create data =>
      obtain rfl := List.mem_singleton.mp hnew
      exact absurd hissued (h data rfl)
    | findById _ | list | search _ | listByStatus _ _ | withTransition _ _ _ | withBatch _ _
    | delete _ => simp [RepoOp.issues] at hnew

/-- The inversion of one operation on one stored job: what it can leave in its place. -/
theorem apply_cases (s : Store) (op : RepoOp) (stamp : Stamp) (h : op.Fresh stamp s.issued)
    {job : Job} (hjob : stored s.jobs job.id = some job) :
    stored (s.apply op stamp h).jobs job.id = some job ∨
    (∃ target patch, op = .withTransition job.id target patch ∧ Admits job target ∧
      stored (s.apply op stamp h).jobs job.id =
        some (updatedJob job target patch stamp.now)) ∨
    (∃ ids target, op = .withBatch ids target ∧ job.id ∈ ids ∧ Admits job target ∧
      stored (s.apply op stamp h).jobs job.id = some (updatedJob job target none stamp.now)) ∨
    (op = .delete job.id ∧ canDelete job = true ∧
      stored (s.apply op stamp h).jobs job.id = none) := by
  rw [stored_apply, hjob]
  cases op with
  | create data => exact .inl rfl
  | withTransition id target patch =>
    by_cases hid : job.id = id
    · by_cases ha : Admits job target
      · exact .inr (.inl ⟨target, patch, by rw [hid], ha, by simp [RepoOp.effect, hid, ha]⟩)
      · exact .inl (by simp [RepoOp.effect, ha])
    · exact .inl (by simp [RepoOp.effect, hid])
  | withBatch ids target =>
    by_cases hid : job.id ∈ ids
    · by_cases ha : Admits job target
      · exact .inr (.inr (.inl ⟨ids, target, rfl, hid, ha, by
          simp [RepoOp.effect, hid, advance, ha]⟩))
      · exact .inl (by simp [RepoOp.effect, advance, ha])
    · exact .inl (by simp [RepoOp.effect, hid])
  | delete id =>
    by_cases hid : job.id = id
    · by_cases hd : canDelete job = true
      · exact .inr (.inr (.inr ⟨by rw [hid], hd, by
          simp [RepoOp.effect, hid, Option.filter, hd]⟩))
      · exact .inl (by simp [RepoOp.effect, Option.filter, hd])
    · exact .inl (by simp [RepoOp.effect, hid])
  | findById _ | list | search _ | listByStatus _ _ => exact .inl rfl

end Store

end JobManager
