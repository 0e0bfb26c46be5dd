import JobManager.Persistence.JsonDb
import JobManager.Persistence.Store

/-! What a failed write of the file leaves in memory, and what later operations make of it. -/
namespace JobManager

open KeyedList JsonDbJobRepository

/-- The operation, run on the array, pushes back exactly that array. -/
def RepoOp.Rewrites (stamp : Stamp) (jobs : List Job) : RepoOp → Prop
  | .withTransition id target patch => ∃ job, stored jobs id = some job ∧
      (patch.bind (·.title)).getD job.title = job.title ∧
      (patch.bind (·.description)).getD job.description = job.description ∧
      target = job.status ∧ stamp.now = job.updatedAt
  | .withBatch ids target => (∀ job ∈ jobs, ∀ job' ∈ jobs, job.id = job'.id → job = job') ∧
      ∀ job ∈ jobs, job.id ∈ ids → Admits job target →
        target = job.status ∧ stamp.now = job.updatedAt
  | _ => False

theorem updatedJob_eq_self (job : Job) (target : JobStatus) (patch : Option JobPatch)
    (now : String) : updatedJob job target patch now = job ↔
      (patch.bind (·.title)).getD job.title = job.title ∧
      (patch.bind (·.description)).getD job.description = job.description ∧
      target = job.status ∧ now = job.updatedAt := by
  obtain ⟨id, title, description, status, retryCount, createdAt, updatedAt⟩ := job
  simp only [updatedJob, Job.mk.injEq, true_and]
  constructor
  · rintro ⟨htitle, hdescription, hstatus, -, hnow⟩
    exact ⟨htitle, hdescription, hstatus, hnow⟩
  · rintro ⟨htitle, hdescription, rfl, hnow⟩
    have hretry : ¬ (target = .failed ∧ target = .pending) := by
      rintro ⟨rfl, h⟩
      cases h
    exact ⟨htitle, hdescription, rfl, if_neg hretry, hnow⟩

theorem advance_eq_self (target : JobStatus) (now : String) (job : Job) :
    advance target now job = job ↔
      (Admits job target → target = job.status ∧ now = job.updatedAt) := by
  unfold advance
  split
  · next h => simp [h, updatedJob_eq_self]
  · next h => simp [h]

private theorem set_eq_self {α : Type} {xs : List α} {i : ℕ} {a b : α} (h : xs[i]? = some a) :
    xs.set i b = xs ↔ b = a := by
  obtain ⟨hlt, rfl⟩ := List.getElem?_eq_some_iff.mp h
  constructor
  · intro heq
    have hget : (xs.set i b)[i]? = some b := List.getElem?_set_self hlt
    rw [heq, h] at hget
    exact (Option.some.inj hget).symm
  · rintro rfl
    exact List.set_getElem_self hlt

section Rewrites

variable (stamp : Stamp) {jobs next : List Job}

theorem withTransition_rewrites {id : String} {target : JobStatus} {patch : Option JobPatch}
    (h : (withTransition id target patch stamp jobs).2 = some next) :
    next = jobs ↔ (RepoOp.withTransition id target patch).Rewrites stamp jobs := by
  have hget : jobs[jobs.findIdx fun job => job.id = id]? = stored jobs id := getElem?_findIdx
  simp only [withTransition, hget, guard_eq] at h
  cases hs : stored jobs id with
  | none => simp [hs] at h
  | some current =>
    by_cases ha : Admits current target
    · simp only [hs, ha, ↓reduceIte, Option.some.injEq] at h
      have hset : next = jobs ↔ updatedJob current target patch stamp.now = current := by
        rw [← h]
        exact set_eq_self (hget.trans hs)
      rw [hset, updatedJob_eq_self]
      constructor
      · intro hsame
        exact ⟨current, hs, hsame⟩
      · rintro ⟨job, hjob, hsame⟩
        obtain rfl := Option.some.inj (hs.symm.trans hjob)
        exact hsame
    · obtain ⟨error, he, -⟩ := transitionError_of_not_admits ha
      simp [hs, ha, he] at h

/-- The map of `withBatch` holds the last job stored under each id. -/
theorem exists_snapshot {job : Job} (h : job ∈ jobs) : ∃ last ∈ jobs, last.id = job.id ∧
    (InsertionMap.ofEntries (jobs.map fun job => (job.id, job))).get job.id = some last := by
  have hget : (InsertionMap.ofEntries (jobs.map fun job => (job.id, job))).get job.id =
      jobs.reverse.find? fun a => a.id = job.id := by
    rw [InsertionMap.get_ofEntries, ← List.map_reverse, List.find?_map, Option.map_map]
    simp [Function.comp_def]
  cases hfind : jobs.reverse.find? fun a => a.id = job.id with
  | none =>
    have := List.find?_eq_none.mp hfind job (List.mem_reverse.mpr h)
    simp at this
  | some last =>
    exact ⟨last, List.mem_reverse.mp (List.mem_of_find?_eq_some hfind),
      by simpa using List.find?_some hfind, hget.trans hfind⟩

theorem withBatch_rewrites {ids : List String} {target : JobStatus}
    (h : (withBatch ids target stamp jobs).2 = some next) :
    next = jobs ↔ (RepoOp.withBatch ids target).Rewrites stamp jobs := by
  let byId := InsertionMap.ofEntries (jobs.map fun job => (job.id, job))
  obtain ⟨hget, -, -⟩ := foldl_batchStep target stamp.now ids ⟨byId, [], []⟩
  have hwrite : ∀ {job last : Job}, byId.get job.id = some last →
      ((ids.foldl (batchStep target stamp.now) ⟨byId, [], []⟩).byId.get job.id).getD job =
        if job.id ∈ ids then advance target stamp.now last else last := by
    intro job last hlast
    rw [hget, hlast]
    split <;> rfl
  obtain rfl := Option.some.inj h
  conv_lhs => rhs; rw [← List.map_id jobs]
  rw [List.map_inj_left]
  constructor
  · intro hsame
    -- the last job stored under an id is the only one, as it is written in place of the others
    have hlast : ∀ job ∈ jobs, byId.get job.id = some job := by
      intro job hjob
      obtain ⟨last, hmem, hid, hsnap⟩ := exists_snapshot hjob
      have hjob' := hsame job hjob
      have hlast' := hsame last hmem
      rw [hwrite hsnap] at hjob'
      rw [hwrite (hid ▸ hsnap)] at hlast'
      rw [hid] at hlast'
      exact hsnap.trans (congrArg some (hlast'.symm.trans hjob'))
    refine ⟨fun job hjob job' hjob' hid => ?_, fun job hjob hmem => ?_⟩
    · have := hlast job hjob
      rw [hid, hlast job' hjob'] at this
      exact (Option.some.inj this).symm
    · have := hsame job hjob
      rw [hwrite (hlast job hjob), if_pos hmem] at this
      exact (advance_eq_self target stamp.now job).mp this
  · rintro ⟨huniq, hkeep⟩ job hjob
    obtain ⟨last, hmem, hid, hsnap⟩ := exists_snapshot hjob
    obtain rfl := huniq last hmem job hjob hid
    rw [hwrite hsnap]
    split
    · next hmem' => exact (advance_eq_self target stamp.now last).mpr (hkeep last hmem hmem')
    · rfl

theorem delete_rewrites {id : String} (h : (delete id jobs).2 = some next) : next ≠ jobs := by
  have hget : jobs[jobs.findIdx fun job => job.id = id]? = stored jobs id := getElem?_findIdx
  simp only [delete, hget] at h
  cases hs : stored jobs id with
  | none => simp [hs] at h
  | some current =>
    have hnext : jobs.filter (fun job => job.id ≠ id) = next := by
      cases he : deleteError current with
      | some error => simp [hs, he] at h
      | none => simpa [hs, he] using h
    rw [← hnext, Ne, List.filter_eq_self]
    intro hall
    have := hall current (lookup_mem hs)
    simp [lookup_key hs] at this

/-- What a writing operation pushes is the array it read in these cases only. -/
theorem RepoOp.rewrites_iff [LowerCase] {op : RepoOp} (h : (op.body stamp jobs).2 = some next) :
    next = jobs ↔ op.Rewrites stamp jobs := by
  cases op with
  | withTransition id target patch => exact withTransition_rewrites stamp h
  | withBatch ids target => exact withBatch_rewrites stamp h
  | delete id => exact iff_of_false (delete_rewrites h) fun hfalse => hfalse
  | create data =>
    obtain rfl := Option.some.inj h
    exact iff_of_false (by simp) fun hfalse => hfalse
  | findById _ | list | search _ | listByStatus _ _ => cases h

end Rewrites

/-- The fault, if any, is a failed write of the file. -/
def Fault.isWriteFailure : Option Fault → Bool
  | some (.writeFails _) => true
  | _ => false

theorem Fault.exists_of_isWriteFailure {fault : Option Fault} (h : isWriteFailure fault = true) :
    ∃ thrown, fault = some (.writeFails thrown) := by
  unfold isWriteFailure at h
  split at h
  · exact ⟨_, rfl⟩
  · cases h

/-- Whether the file write of a call fails. -/
def Environment.failsWriting (t : Environment (Option Fault)) : DbCall → Bool
  | .push _ => Fault.isWriteFailure t.push
  | .pushInitial => Fault.isWriteFailure t.pushInitial
  | _ => false

namespace Instance

variable [LowerCase]

/-- A push of the operation rejects because the file write fails. -/
def WriteFails (t : Environment (Option Fault)) (q : Enqueued) (w : Instance JsonFile) : Prop :=
  ∃ e ∈ Async.calls (act saveOnPush t) 0 q q.program w, t.failsWriting e.event.call = true

instance (t : Environment (Option Fault)) (q : Enqueued) (w : Instance JsonFile) :
    Decidable (w.WriteFails t q) := by
  unfold WriteFails
  infer_instance

/-- What later operations show: each result, with the file after it. -/
def observe : List (Enqueued × Environment (Option Fault)) → Instance JsonFile →
    List (((q : Enqueued) × Except Thrown q.Result) × Option (List Job))
  | [], _ => []
  | (q, t) :: later, w =>
    let (r, w') := run saveOnPush t q w
    (⟨q, r⟩, w'.db.file) :: observe later w'

@[simp] theorem observe_nil (w : Instance JsonFile) : w.observe [] = [] := rfl

@[simp] theorem observe_cons (q : Enqueued) (t : Environment (Option Fault))
    (later : List (Enqueued × Environment (Option Fault))) (w : Instance JsonFile) :
    w.observe ((q, t) :: later) =
      (⟨q, (run saveOnPush t q w).1⟩, (run saveOnPush t q w).2.db.file) ::
        (run saveOnPush t q w).2.observe later := rfl

/-- Where the rejected operation is the first one of the instance, the later operations can
initialise `/jobs` in its place. -/
def Steady (w : Instance JsonFile) (later : List (Enqueued × Environment (Option Fault))) : Prop :=
  w.initialized = false → ∀ x ∈ later, x.2.jobsExist = none ∧ x.2.pushInitial = none

omit [LowerCase] in
theorem ready_of_initialized {w : Instance JsonFile} (h : w.initialized = true) : w.ready = w :=
  if_pos h

omit [LowerCase] in
@[simp] theorem ready_initialized (w : Instance JsonFile) : w.ready.initialized = true := by
  unfold ready
  split
  · next h => exact h
  · rfl

theorem run_ready {t : Environment (Option Fault)} (q : Enqueued) (w : Instance JsonFile)
    (h : w.initialized = false → t.jobsExist = none ∧ t.pushInitial = none) :
    run saveOnPush t q w = Async.eval (act saveOnPush t) (task q.op) w.ready := by
  rw [run_eq, Async.eval_bind, eval_ensureInitialized]
  cases hw : w.initialized with
  | true => simp [ready_of_initialized hw]
  | false =>
    obtain ⟨hexist, hpush⟩ := h hw
    simp [hexist, hpush]

/-- Initialising early does not show. -/
theorem observe_ready {w : Instance JsonFile}
    {later : List (Enqueued × Environment (Option Fault))} (h : w.Steady later) :
    w.ready.observe later = w.observe later := by
  cases later with
  | nil => rfl
  | cons x later =>
    obtain ⟨q, t⟩ := x
    have hrun : run saveOnPush t q w.ready = run saveOnPush t q w := by
      rw [run_ready q w.ready (by simp), ready_of_initialized w.ready_initialized]
      exact (run_ready q w fun hw => h hw (q, t) List.mem_cons_self).symm
    rw [observe_cons, observe_cons, hrun]

omit [LowerCase] in
theorem ensureInitialized_failsWriting {t : Environment (Option Fault)} {q : Enqueued}
    {w : Instance JsonFile} {e : Async.Entry DbCall.Answer Thrown Enqueued (Instance JsonFile)}
    (he : e ∈ Async.calls (act saveOnPush t) 0 q ensureInitialized w)
    (hfails : t.failsWriting e.event.call = true) :
    ∃ thrown, w.initialized = false ∧ t.jobsExist = none ∧ w.db.memory = none ∧
      t.pushInitial = some (.writeFails thrown) := by
  obtain ⟨hpush, hinitial⟩ := mem_calls_ensureInitialized he
  have hcall : e.event.call = .pushInitial := by
    unfold Environment.failsWriting at hfails
    split at hfails
    · next next heq => exact absurd heq (hpush next)
    · next heq => exact heq
    · cases hfails
  obtain ⟨hflag, d, hexist, -⟩ := hinitial hcall
  rw [hcall] at hfails
  obtain ⟨thrown, hfault⟩ := Fault.exists_of_isWriteFailure hfails
  cases hfound : t.jobsExist with
  | some fault =>
    rw [hfound] at hexist
    cases hexist
  | none =>
    rw [hfound] at hexist
    obtain ⟨hmemory, -⟩ := Prod.mk.inj hexist
    exact ⟨thrown, hflag, rfl, by simpa using hmemory, hfault⟩

omit [LowerCase] in
theorem commit_failsWriting {α : Type} {t : Environment (Option Fault)} {q : Enqueued}
    {w : Instance JsonFile} {e : Async.Entry DbCall.Answer Thrown Enqueued (Instance JsonFile)}
    {outcome : Outcome α} (he : e ∈ Async.calls (act saveOnPush t) 0 q (commit outcome) w)
    (hfails : t.failsWriting e.event.call = true) :
    ∃ next thrown, outcome.2 = some next ∧ t.push = some (.writeFails thrown) := by
  obtain ⟨answer, _ | next⟩ := outcome
  · cases he
  · have hcall : e.event.call = .push next := by
      rw [commit, Async.calls_bind] at he
      rcases List.mem_append.mp he with he | he
      · rw [List.mem_singleton.mp he]
      · split at he <;> cases he
    rw [hcall, Environment.failsWriting] at hfails
    obtain ⟨thrown, hfault⟩ := Fault.exists_of_isWriteFailure hfails
    exact ⟨next, thrown, rfl, hfault⟩

theorem task_failsWriting {t : Environment (Option Fault)} {q : Enqueued}
    {w : Instance JsonFile} {e : Async.Entry DbCall.Answer Thrown Enqueued (Instance JsonFile)}
    {op : RepoOp} (he : e ∈ Async.calls (act saveOnPush t) 0 q (task op) w)
    (hfails : t.failsWriting e.event.call = true) :
    ∃ jobs next thrown, w.db.memory = some jobs ∧ (op.body t.stamp jobs).2 = some next ∧
      Async.eval (act saveOnPush t) (task op) w = (.error thrown, w.unsaved next) := by
  rw [task, Async.perform_bind, Async.calls_awaiting] at he
  rcases List.mem_cons.mp he with rfl | he
  · cases hfails
  rw [eval_task]
  cases hget : t.getData with
  | some fault => simp [act, saveOnPush, hget] at he
  | none =>
    cases hmemory : w.db.memory with
    | none => simp [act, saveOnPush, hget, hmemory] at he
    | some jobs =>
      have hact : act saveOnPush t .getData w = (.ok jobs, w) := by
        simp [act, saveOnPush, hget, hmemory]
      rw [hact, Async.settled_ok_bind, Async.perform_bind, Async.calls_awaiting] at he
      rcases List.mem_cons.mp he with rfl | he
      · cases hfails
      · obtain ⟨next, thrown, hnext, hpush⟩ := commit_failsWriting he hfails
        refine ⟨jobs, next, thrown, rfl, hnext, ?_⟩
        show Async.eval (act saveOnPush t) (commit _) w = _
        rw [eval_commit, hnext, hpush]

omit [LowerCase] in
theorem ensureInitialized_ok {t : Environment (Option Fault)} {w w' : Instance JsonFile}
    (h : Async.eval (act saveOnPush t) ensureInitialized w = (.ok (), w')) :
    w' = w.ready ∧ (w.initialized = false → w.db.memory = none → t.pushInitial = none) := by
  rw [eval_ensureInitialized] at h
  split at h
  · next hflag =>
    obtain ⟨-, rfl⟩ := Prod.mk.inj h
    exact ⟨(ready_of_initialized hflag).symm, fun hnot => nomatch hnot.symm.trans hflag⟩
  · split at h
    · cases h
    · split at h
      · next hsome =>
        obtain ⟨-, rfl⟩ := Prod.mk.inj h
        exact ⟨rfl, fun _ hnone => by simp [hnone] at hsome⟩
      · split at h
        · next hpush =>
          obtain ⟨-, rfl⟩ := Prod.mk.inj h
          exact ⟨rfl, fun _ _ => hpush⟩
        · cases h
        · cases h

/-- Where the file write of an operation fails: in its own push, or in the push that initialises
an empty database. -/
theorem WriteFails.cases {t : Environment (Option Fault)} {q : Enqueued} {w : Instance JsonFile}
    (h : w.WriteFails t q) :
    (∃ e, w.initialized = false ∧ w.db.memory = none ∧ t.pushInitial = some (.writeFails e) ∧
      run saveOnPush t q w = (.error e, w.unsaved [])) ∨
    (∃ e jobs next, w.ready.db.memory = some jobs ∧ (q.op.body t.stamp jobs).2 = some next ∧
      (w.db.memory = none → t.pushInitial = none) ∧
      run saveOnPush t q w = (.error e, w.ready.unsaved next)) := by
  obtain ⟨e, he, hfails⟩ := h
  let act := act saveOnPush t
  let last := measure q.op.jobId q.enqueuedAt t.startedAt
  have hcalls : Async.calls act 0 q q.program w = ⟨0, q, ⟨.startedAt, .ok t.startedAt⟩, w, w⟩ ::
      Async.calls act 0 q ((ensureInitialized >>= fun _ => task q.op).tryFinally last) w := rfl
  rw [hcalls, Async.calls_tryFinally, Async.calls_bind, List.append_assoc] at he
  rcases List.mem_cons.mp he with rfl | he
  · cases hfails
  rcases List.mem_append.mp he with he | he
  · obtain ⟨thrown, hflag, hexist, hmemory, hpush⟩ := ensureInitialized_failsWriting he hfails
    refine .inl ⟨thrown, hflag, hmemory, hpush, ?_⟩
    rw [run_eq, Async.eval_bind, eval_ensureInitialized]
    simp [hflag, hexist, hmemory, hpush]
  rcases List.mem_append.mp he with he | he
  · split at he
    · next w' heval =>
      obtain ⟨rfl, hinitial⟩ := ensureInitialized_ok heval
      obtain ⟨jobs, next, thrown, hjobs, hnext, htask⟩ := task_failsWriting he hfails
      refine .inr ⟨thrown, jobs, next, hjobs, hnext, fun hmemory => ?_, ?_⟩
      · cases hflag : w.initialized with
        | false => exact hinitial hflag hmemory
        | true =>
          rw [ready_of_initialized hflag, hmemory] at hjobs
          cases hjobs
      · rw [run_eq, Async.eval_bind, heval]
        exact htask
    · cases he
  · have hmeasure := measure_conforms q.op.jobId q.enqueuedAt t.startedAt []
    rcases hmeasure.mem_calls e he with hcall | ⟨event, hcall⟩ <;>
      (rw [hcall] at hfails; cases hfails)

omit [LowerCase] in
theorem unsaved_eq_self {w : Instance JsonFile} {jobs : List Job}
    (h : w.db.memory = some jobs) : w.unsaved jobs = w := by
  obtain ⟨⟨memory, file⟩, initialized⟩ := w
  obtain rfl : memory = some jobs := h
  rfl

omit [LowerCase] in
theorem ready_unsaved (w : Instance JsonFile) (jobs : List Job) :
    (w.ready.unsaved jobs).ready = w.ready.unsaved jobs := ready_of_initialized w.ready_initialized

/-- The request that tells the two runs apart. -/
def readBack : List (Enqueued × Environment (Option Fault)) := [(⟨.list, 0⟩, .quiet)]

omit [LowerCase] in
theorem steady_readBack (w : Instance JsonFile) : w.Steady readBack := by
  rintro - x hx
  obtain rfl := List.mem_singleton.mp hx
  exact ⟨rfl, rfl⟩

omit [LowerCase] in
theorem steady_of_initialized {w : Instance JsonFile} (h : w.initialized = true)
    (later : List (Enqueued × Environment (Option Fault))) : w.Steady later :=
  fun hnot => nomatch hnot.symm.trans h

theorem observe_readBack {w : Instance JsonFile} {jobs : List Job}
    (h : w.ready.db.memory = some jobs) :
    w.observe readBack = [(⟨⟨.list, 0⟩, .ok jobs⟩, w.ready.db.file)] := by
  rw [← observe_ready w.steady_readBack, readBack, observe_cons, observe_nil,
    run_ready _ _ (by simp), ready_of_initialized w.ready_initialized, eval_task, h]
  rfl

/-- The same request where `exists` fails. -/
def unsteadyReadBack : List (Enqueued × Environment (Option Fault)) :=
  [(⟨.list, 0⟩, { Environment.quiet with jobsExist := some (.rejects "read failed") })]

/-- An instance that is not initialised shows a failing `exists`, the other does not call it. -/
theorem observe_unsteady {w w' : Instance JsonFile} (h : w.initialized = false)
    (h' : w'.initialized = true) {jobs : List Job} (hjobs : w'.db.memory = some jobs) :
    w'.observe unsteadyReadBack ≠ w.observe unsteadyReadBack := by
  have hok : w'.observe unsteadyReadBack = [(⟨⟨.list, 0⟩, .ok jobs⟩, w'.db.file)] := by
    rw [unsteadyReadBack, observe_cons, observe_nil, run_ready _ _ (by simp [h']),
      ready_of_initialized h', eval_task, hjobs]
    rfl
  have herror : w.observe unsteadyReadBack =
      [(⟨⟨.list, 0⟩, .error "read failed"⟩, w.db.file)] := by
    rw [unsteadyReadBack, observe_cons, observe_nil, run_eq, Async.eval_bind,
      eval_ensureInitialized, h]
    rfl
  rw [hok, herror]
  simp

end Instance

open Instance

section

variable [LowerCase] {stored : Option (List Job)} {initialized : Bool}
  {t : Environment (Option Fault)} {q : Enqueued}

/-- Later operations that can initialise `/jobs` themselves see no trace exactly if it was not the
initial push that failed and the array to be written is the one already stored. -/
theorem steady_traceless_iff (hfails : (onFile stored initialized).WriteFails t q) :
    (∀ later, (onFile stored initialized).Steady later →
      (run saveOnPush t q (onFile stored initialized)).2.observe later =
        (onFile stored initialized).observe later) ↔
    (stored.isSome ∨ t.pushInitial = none) ∧ q.op.Rewrites t.stamp (stored.getD []) := by
  rcases hfails.cases with ⟨e, hflag, hmemory, hpush, hrun⟩ |
    ⟨e, jobs, next, hjobs, hnext, hinit, hrun⟩
  · obtain rfl : stored = none := hmemory
    obtain rfl : initialized = false := hflag
    rw [hrun]
    constructor
    · intro hsame
      have := hsame readBack (steady_readBack _)
      rw [observe_readBack rfl, observe_readBack rfl] at this
      simp [ready, unsaved, onFile] at this
    · rintro ⟨hsome | hnone, -⟩
      · cases hsome
      · cases hpush.symm.trans hnone
  · have hread : stored.getD [] = jobs := by
      have := (onFile stored initialized).ready_jobs
      rw [Instance.jobs, hjobs] at this
      exact this.symm
    have hinitial : stored.isSome ∨ t.pushInitial = none := by
      cases stored with
      | none => exact .inr (hinit rfl)
      | some jobs => exact .inl rfl
    rw [hread, hrun, ← q.op.rewrites_iff t.stamp hnext]
    constructor
    · intro hsame
      have hunsaved : ((onFile stored initialized).ready.unsaved next).ready.db.memory =
          some next := by
        rw [ready_unsaved]
        rfl
      have hlist := hsame readBack (steady_readBack _)
      rw [observe_readBack hunsaved, observe_readBack hjobs] at hlist
      refine ⟨hinitial, ?_⟩
      simpa using congrArg (fun x => x.map Prod.fst) hlist
    · rintro ⟨-, rfl⟩ later hlater
      rw [unsaved_eq_self hjobs]
      exact observe_ready hlater

/-- An operation that fails in its own push has initialised the instance all the same. -/
theorem initialized_of_traceless (hfails : (onFile stored initialized).WriteFails t q)
    (hsteady : stored.isSome ∨ t.pushInitial = none)
    (hsame : (run saveOnPush t q (onFile stored initialized)).2.observe unsteadyReadBack =
      (onFile stored initialized).observe unsteadyReadBack) : initialized = true := by
  rcases hfails.cases with ⟨e, -, hmemory, hpush, -⟩ | ⟨e, jobs, next, -, -, -, hrun⟩
  · obtain rfl : stored = none := hmemory
    rcases hsteady with hsome | hnone
    · cases hsome
    · cases hpush.symm.trans hnone
  · by_contra hflag
    rw [hrun] at hsame
    have hready : ((onFile stored initialized).ready.unsaved next).initialized = true :=
      ready_initialized _
    exact observe_unsteady (Bool.eq_false_of_not_eq_true hflag) hready rfl hsame

/-- A failed write of the file leaves no trace exactly if the instance was initialised and the array
to be written is the one already stored; the former is not asked for where the later operations can
initialise `/jobs` themselves. -/
theorem failedWrite_traceless (hfails : (onFile stored initialized).WriteFails t q) :
    ((∀ later, (run saveOnPush t q (onFile stored initialized)).2.observe later =
        (onFile stored initialized).observe later) ↔
      initialized = true ∧ q.op.Rewrites t.stamp (stored.getD [])) ∧
    ((∀ later, (onFile stored initialized).Steady later →
        (run saveOnPush t q (onFile stored initialized)).2.observe later =
          (onFile stored initialized).observe later) ↔
      (stored.isSome ∨ t.pushInitial = none) ∧ q.op.Rewrites t.stamp (stored.getD [])) := by
  have hsteady := steady_traceless_iff hfails
  refine ⟨⟨fun hsame => ?_, ?_⟩, hsteady⟩
  · obtain ⟨hinitial, hrewrites⟩ := hsteady.mp fun later _ => hsame later
    exact ⟨initialized_of_traceless hfails hinitial (hsame _), hrewrites⟩
  · rintro ⟨rfl, hrewrites⟩ later
    have hsome : stored.isSome := by
      rcases hfails.cases with ⟨_, hflag, -⟩ | ⟨_, jobs, _, hjobs, -⟩
      · cases hflag
      · rw [ready_of_initialized rfl] at hjobs
        exact Option.isSome_iff_exists.mpr ⟨jobs, hjobs⟩
    exact hsteady.mpr ⟨.inl hsome, hrewrites⟩ later (steady_of_initialized rfl later)

end

/-- The environment of a claim whose file write fails. -/
def failedClaim : Environment (Option Fault) :=
  { Environment.quiet with push := some (.writeFails "ENOSPC") }

theorem failedWrite_traceless_claim :
    letI := LowerCase.ascii
    ¬ ∀ later, (run saveOnPush failedClaim ⟨.withBatch ["1"] .processing, 0⟩
        (onFile (some Store.onePending.jobs) true)).2.observe later =
      (onFile (some Store.onePending.jobs) true).observe later := by
  let _ := LowerCase.ascii
  have hfails : (onFile (some Store.onePending.jobs) true).WriteFails failedClaim
      ⟨.withBatch ["1"] .processing, 0⟩ := by decide +kernel
  rw [(failedWrite_traceless hfails).1]
  rintro ⟨-, -, hkept⟩
  have := hkept ⟨"1", "title", "text", .pending, 0, "t", "t"⟩ (by decide) (by decide) (by decide)
  cases this.1

/-- The status a `findById` was answered with. -/
def foundStatus : ((q : Enqueued) × Except Thrown q.Result) → Option JobStatus
  | ⟨⟨.findById _, _⟩, .ok job⟩ => job.map Job.status
  | _ => none

/-- The job of the rejected claim is answered as `processing`, while the file keeps it pending. -/
theorem not_failedWrite_traceless :
    letI := LowerCase.ascii
    ¬ ∀ (jobs : List Job) (t : Environment (Option Fault)) (q : Enqueued),
      (onFile (some jobs) true).WriteFails t q → ∀ later,
        (run saveOnPush t q (onFile (some jobs) true)).2.observe later =
          (onFile (some jobs) true).observe later := by
  let _ := LowerCase.ascii
  intro hclaim
  have hsame := hclaim Store.onePending.jobs failedClaim ⟨.withBatch ["1"] .processing, 0⟩
    (by decide +kernel) [(⟨.findById "1", 0⟩, .quiet)]
  have hstatus := congrArg (fun x => x.map fun y => foundStatus y.1) hsame
  have hafter : ((run saveOnPush failedClaim ⟨.withBatch ["1"] .processing, 0⟩
      (onFile (some Store.onePending.jobs) true)).2.observe
        [(⟨.findById "1", 0⟩, .quiet)]).map (fun y => foundStatus y.1) = [some .processing] := by
    decide +kernel
  have hwithout : ((onFile (some Store.onePending.jobs) true).observe
      [(⟨.findById "1", 0⟩, .quiet)]).map (fun y => foundStatus y.1) = [some .pending] := by
    decide +kernel
  rw [hafter, hwithout] at hstatus
  cases hstatus

end JobManager
