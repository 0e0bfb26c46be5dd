import JobManager.Persistence.Lifecycle

/-! Conservation over runs of the repository: which jobs are stored, in which order, and whose
texts they carry. -/
namespace JobManager

open KeyedList JsonDbJobRepository

/-- The id `create` answered with. -/
def RepoCall.created : RepoCall → Option String
  | ⟨.create _, job⟩ => some job.id
  | _ => none

/-- The id of a `delete` that answered ok. -/
def RepoCall.deleted : RepoCall → Option String
  | ⟨.delete id, .ok⟩ => some id
  | _ => none

/-- The text a creation or a successful patch gives to the job stored under `id`. -/
def RepoCall.supplied (field : TextField) (id : String) : RepoCall → Option String
  | ⟨.create data, job⟩ => if job.id = id then some (data.text field) else none
  | ⟨.withTransition id' _ patch, .ok _ _ _⟩ =>
    if id' = id then patch.bind fun p => p.text field else none
  | _ => none

def createdIds (calls : List RepoCall) : List String := calls.filterMap RepoCall.created

def deletedIds (calls : List RepoCall) : List String := calls.filterMap RepoCall.deleted

/-- The last text supplied for a field, if any call supplied one. -/
def lastSupplied (field : TextField) (id : String) (calls : List RepoCall) : Option String :=
  calls.reverse.findSome? fun call => call.supplied field id

@[simp] theorem createdIds_append_singleton (calls : List RepoCall) (call : RepoCall) :
    createdIds (calls ++ [call]) = createdIds calls ++ call.created.toList := by
  simp only [createdIds, List.filterMap_append]
  cases h : call.created <;> simp [h]

@[simp] theorem deletedIds_append_singleton (calls : List RepoCall) (call : RepoCall) :
    deletedIds (calls ++ [call]) = deletedIds calls ++ call.deleted.toList := by
  simp only [deletedIds, List.filterMap_append]
  cases h : call.deleted <;> simp [h]

theorem lastSupplied_append_singleton (field : TextField) (id : String) (calls : List RepoCall)
    (call : RepoCall) : lastSupplied field id (calls ++ [call]) =
      (call.supplied field id).or (lastSupplied field id calls) := by
  simp only [lastSupplied, List.reverse_append, List.reverse_singleton, List.singleton_append,
    List.findSome?_cons]
  cases call.supplied field id <;> rfl

theorem advance_text (target : JobStatus) (now : String) (job : Job) (field : TextField) :
    (advance target now job).text field = job.text field := by
  unfold advance
  split
  · exact updatedJob_text job target none now field
  · rfl

variable [LowerCase]

namespace Store

theorem created_call (s : Store) (op : RepoOp) (stamp : Stamp) :
    (s.call op stamp).created.toList = op.issues stamp := by
  cases op <;> rfl

theorem deleted_call_delete (s : Store) (id : String) (stamp : Stamp) :
    (s.call (.delete id) stamp).deleted =
      if deleteVerdict (stored s.jobs id) = .ok then some id else none := by
  have hanswer : ((RepoOp.delete id).run stamp s.jobs).1 = _ := delete_answer stamp id
  unfold call RepoCall.deleted
  rw [hanswer]
  cases deleteVerdict (stored s.jobs id) <;> rfl

/-- One operation appends the id it created and takes out the id it deleted. -/
theorem ids_call (s : Store) (op : RepoOp) (stamp : Stamp) (hf : op.Fresh stamp s.issued) :
    (s.apply op stamp hf).ids = (s.ids ++ (s.call op stamp).created.toList).filter
      fun id => id ∉ (s.call op stamp).deleted.toList := by
  rw [ids_apply]
  cases op with
  | create data => simp [RepoOp.keysEffect, call, RepoCall.created, RepoCall.deleted, RepoOp.run,
      RepoOp.body, create, createdJob]
  | delete id =>
    rw [deleted_call_delete, RepoOp.keysEffect]
    split <;> simp [call, RepoCall.created]
  | findById _ | list | search _ | listByStatus _ _ | withTransition _ _ _ | withBatch _ _ =>
    simp [RepoOp.keysEffect, call, RepoCall.created, RepoCall.deleted]

theorem deleted_call_mem (s : Store) (op : RepoOp) (stamp : Stamp) {id : String}
    (h : id ∈ (s.call op stamp).deleted) : id ∈ s.issued := by
  cases op with
  | delete id' =>
    rw [deleted_call_delete] at h
    split at h
    · next hok =>
      obtain rfl := Option.some.inj h
      cases hs : stored s.jobs id' with
      | none => simp [hs, deleteVerdict] at hok
      | some job =>
        exact s.ids_subset_issued ((s.stored_isSome id').mp (by simp [hs]))
    · cases h
  | create _ | findById _ | list | search _ | listByStatus _ _ | withTransition _ _ _
  | withBatch _ _ => cases h

theorem not_deleted_of_processing (s : Store) (op : RepoOp) (stamp : Stamp)
    (hf : op.Fresh stamp s.issued) {job : Job} (hjob : job ∈ s.jobs)
    (hp : job.status = .processing) : job.id ∈ (s.apply op stamp hf).ids := by
  rw [← stored_isSome]
  rcases s.apply_cases op stamp hf (s.stored_of_mem hjob) with h | ⟨_, _, -, -, h⟩ |
    ⟨_, _, -, -, -, h⟩ | ⟨-, hd, -⟩
  · simp [h]
  · simp [h]
  · simp [h]
  · exact absurd hp ((canDelete_iff job).mp hd)

/-- A stored text is the one the last operation supplied, or else the one before it. -/
theorem text_call (s : Store) (op : RepoOp) (stamp : Stamp) (hf : op.Fresh stamp s.issued)
    (field : TextField) {job' : Job} (hjob' : job' ∈ (s.apply op stamp hf).jobs) :
    some (job'.text field) = ((s.call op stamp).supplied field job'.id).or
      ((stored s.jobs job'.id).map fun job => job.text field) := by
  have hs' := (s.apply op stamp hf).stored_of_mem hjob'
  rw [stored_apply] at hs'
  cases op with
  | create data =>
    cases hs : stored s.jobs job'.id with
    | none =>
      simp only [hs, RepoOp.effect, Option.none_or] at hs'
      split at hs'
      · next hid =>
        obtain rfl := Option.some.inj hs'
        simp only [call, RepoCall.supplied, RepoOp.run, RepoOp.body, create, ↓reduceIte]
        cases field <;> rfl
      · cases hs'
    | some job =>
      simp only [hs, RepoOp.effect, Option.some_or] at hs'
      obtain rfl := Option.some.inj hs'
      have hid : job.id ∈ s.issued :=
        s.ids_subset_issued ((s.stored_isSome job.id).mp (by simp [hs]))
      have hne : stamp.uuid ≠ job.id := fun he => hf data rfl (he ▸ hid)
      simp [call, RepoCall.supplied, RepoOp.run, RepoOp.body, create, createdJob, hne]
  | withTransition id target patch =>
    rw [call_withTransition]
    by_cases hid : job'.id = id
    · rw [← hid]
      simp only [RepoOp.effect, hid, ↓reduceIte] at hs'
      rw [← hid] at hs'
      obtain ⟨job, hs, hup⟩ := Option.map_eq_some_iff.mp hs'
      by_cases ha : Admits job target
      · rw [if_pos ha] at hup
        rw [hs, verdict, if_pos ha, ← hup, updatedJob_text]
        simp only [RepoCall.supplied, ↓reduceIte, Option.map_some]
        cases patch.bind fun p => p.text field <;> rfl
      · rw [if_neg ha] at hup
        rw [hs, verdict, if_neg ha, hup]
        rfl
    · rw [RepoOp.effect, if_neg hid] at hs'
      have hsup : RepoCall.supplied field job'.id ⟨.withTransition id target patch,
          verdict target patch stamp.now (stored s.jobs id)⟩ = none := by
        cases verdict target patch stamp.now (stored s.jobs id) with
        | ok job transitioned previous => simp [RepoCall.supplied, Ne.symm hid]
        | refused reason => rfl
      rw [hsup, hs', Option.none_or, Option.map_some]
  | withBatch ids target =>
    simp only [RepoOp.effect] at hs'
    have hsup : (s.call (.withBatch ids target) stamp).supplied field job'.id = none := rfl
    rw [hsup, Option.none_or]
    split at hs'
    · obtain ⟨job, hs, rfl⟩ := Option.map_eq_some_iff.mp hs'
      rw [advance_id] at hs ⊢
      rw [hs, Option.map_some, advance_text]
    · rw [hs', Option.map_some]
  | delete id =>
    have hsup : (s.call (.delete id) stamp).supplied field job'.id = none := rfl
    simp only [RepoOp.effect] at hs'
    split at hs'
    · rw [hsup, Option.none_or, (Option.filter_eq_some_iff.mp hs').1, Option.map_some]
    · rw [hsup, hs', Option.none_or, Option.map_some]
  | findById _ | list | search _ | listByStatus _ _ =>
    change stored s.jobs job'.id = some job' at hs'
    rw [hs']
    rfl

namespace Run

variable {s s' : Store} {calls : List RepoCall}

theorem deletedIds_subset_issued (h : Run s calls s') : deletedIds calls ⊆ s'.issued := by
  induction h with
  | nil => simp [deletedIds]
  | snoc _ op stamp _ ih =>
    rw [deletedIds_append_singleton]
    intro id hid
    rcases List.mem_append.mp hid with hid | hid
    · exact List.mem_append_left _ (ih hid)
    · exact List.mem_append_left _ (deleted_call_mem _ op stamp (by simpa using hid))

theorem ids_eq (h : Run s calls s') : s'.ids = (s.ids ++ createdIds calls).filter
    fun id => id ∉ deletedIds calls := by
  induction h with
  | nil => simp [createdIds, deletedIds]
  | @snoc s' calls hrun op stamp hf ih =>
    rw [ids_call, ih, createdIds_append_singleton, deletedIds_append_singleton,
      ← List.append_assoc, List.filter_append,
      List.filter_append _ (s'.call op stamp).created.toList, List.filter_filter]
    congr 1
    · exact List.filter_congr fun id _ => by simp [Bool.and_comm]
    · refine List.filter_congr fun id hid => ?_
      rw [created_call] at hid
      have hnew : id ∉ deletedIds calls := by
        intro hdel
        cases op with
        | create data =>
          obtain rfl := List.mem_singleton.mp hid
          exact hf data rfl (hrun.deletedIds_subset_issued hdel)
        | findById _ | list | search _ | listByStatus _ _ | withTransition _ _ _ | withBatch _ _
        | delete _ => cases hid
      simp [hnew]

theorem text_eq (h : Run s calls s') (field : TextField) {job' : Job} (hjob' : job' ∈ s'.jobs) :
    some (job'.text field) = (lastSupplied field job'.id calls).or
      ((stored s.jobs job'.id).map fun job => job.text field) := by
  induction h generalizing job' with
  | nil => simp [lastSupplied, s.stored_of_mem hjob']
  | @snoc s' calls hrun op stamp hf ih =>
    rw [lastSupplied_append_singleton, Option.or_assoc, s'.text_call op stamp hf field hjob']
    cases hs : stored s'.jobs job'.id with
    | none =>
      cases hsup : (s'.call op stamp).supplied field job'.id with
      | some text => rfl
      | none =>
        have := s'.text_call op stamp hf field hjob'
        simp [hs, hsup] at this
    | some job =>
      have hid := lookup_key hs
      rw [Option.map_some, ih (lookup_mem hs), hid]

end Run

/-- Conservation of jobs over any run: the ids are the initial ones and the created ones without
the deleted ones, in that order and without repetition; a processing job survives the next
operation; and every text is the last one supplied, or the initial one. -/
theorem conservation {s s' : Store} {calls : List RepoCall} (h : Run s calls s') :
    s'.ids.Nodup ∧
    s'.ids = ((s.ids ++ createdIds calls).filter fun id => id ∉ deletedIds calls) ∧
    (∀ id ∈ deletedIds calls, id ∉ s'.ids) ∧
    (∀ op stamp (hf : op.Fresh stamp s'.issued), ∀ job ∈ s'.jobs, job.status = .processing →
      job.id ∈ (s'.apply op stamp hf).ids) ∧
    ∀ job ∈ s'.jobs, ∀ field, some (job.text field) = (lastSupplied field job.id calls).or
      ((stored s.jobs job.id).map fun job => job.text field) := by
  refine ⟨s'.distinct, h.ids_eq, fun id hid => ?_,
    fun op stamp hf job hj => s'.not_deleted_of_processing op stamp hf hj,
    fun job hj field => h.text_eq field hj⟩
  rw [h.ids_eq]
  simp [hid]

omit [LowerCase] in
theorem conservation_claim :
    letI := LowerCase.ascii
    ∃ (calls : List RepoCall) (s' : Store), Run empty calls s' ∧ calls.length = 2 ∧
      s'.ids = ["1"] := by
  let _ := LowerCase.ascii
  have hcreate := (Run.nil empty).snoc (.create ⟨"title", "text"⟩) ⟨"1", "t"⟩
    fun _ _ => List.not_mem_nil
  have hclaim := hcreate.snoc (.withBatch ["1"] .processing) ⟨"2", "u"⟩ fun _ h => by cases h
  exact ⟨_, _, hclaim, rfl, (conservation hclaim).2.1.trans rfl⟩

end Store

end JobManager
