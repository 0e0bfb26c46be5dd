import JobManager.Application.Ports
import JobManager.Async.Linearization
import JobManager.Persistence.Operations

/-! The repository over node-json-db: what an operation does between the moment the queue starts
it and the moment it settles. -/
namespace JobManager

/-- The calls of node-json-db on `/jobs`. An `F` decides how one call goes, `D` is the state. -/
structure JsonDB (F D : Type) where
  jobsExist : F → D → Except Thrown Bool × D
  getData : F → D → Except Thrown (List Job) × D
  push : F → List Job → D → Except Thrown Unit × D

/-- What the body of an operation calls or reads. `pushInitial` is the push of `[]` in
`ensureInitialized`; `startedAt` and `endedAt` are the two readings of `Date.now()`. -/
inductive DbCall where
  | startedAt
  | readInitialized
  | jobsExist
  | pushInitial
  | setInitialized
  | getData
  | stamp
  | push (jobs : List Job)
  | endedAt
  | log (event : LogEvent)
  deriving DecidableEq, Repr

abbrev DbCall.Answer : DbCall → Type
  | .startedAt | .endedAt => ℤ
  | .readInitialized | .jobsExist => Bool
  | .getData => List Job
  | .stamp => Stamp
  | .pushInitial | .setInitialized | .push _ | .log _ => Unit

abbrev DbProgram (α : Type) := Async DbCall DbCall.Answer Thrown α

namespace JsonDbJobRepository

def ensureInitialized : DbProgram Unit := do
  let initialized ← Async.perform DbCall.readInitialized
  if initialized then pure ()
  else
    let found ← Async.perform DbCall.jobsExist
    if found then Async.perform DbCall.setInitialized
    else
      Async.perform DbCall.pushInitial
      Async.perform DbCall.setInitialized

/-- A logger that throws is ignored; without a logger nothing is logged. -/
def emitLockEvent (jobId : String) (waitMs holdMs : ℤ) : DbProgram Unit :=
  (Async.perform (DbCall.log (.lock ⟨.info, .http, "lock section measured"⟩ jobId waitMs
    holdMs))).tryCatch fun _ => pure ()

/-- The `finally` block of `enqueue`. -/
def measure (jobId : Option String) (enqueuedAt startedAt : ℤ) : DbProgram Unit :=
  match jobId with
  | none => pure ()
  | some jobId => do
    let endedAt ← Async.perform DbCall.endedAt
    emitLockEvent jobId (startedAt - enqueuedAt) (endedAt - startedAt)

/-- The function `enqueue` chains to the queue. -/
def criticalSection {α : Type} (task : DbProgram α) (jobId : Option String) (enqueuedAt : ℤ) :
    DbProgram α := do
  let startedAt ← Async.perform DbCall.startedAt
  (ensureInitialized >>= fun _ => task).tryFinally (measure jobId enqueuedAt startedAt)

/-- Push what an operation writes, if anything, and answer. -/
def commit {α : Type} : Outcome α → DbProgram α
  | (answer, none) => pure answer
  | (answer, some nextJobs) => do
    Async.perform (DbCall.push nextJobs)
    pure answer

/-- The task every operation enqueues. -/
def task [LowerCase] (op : RepoOp) : DbProgram op.Result := do
  let jobs ← Async.perform DbCall.getData
  let stamp ← Async.perform DbCall.stamp
  commit (op.body stamp jobs)

/-- Measuring reads the clock and logs. -/
theorem measure_conforms (jobId : Option String) (enqueuedAt startedAt : ℤ)
    (h : List (Async.Event DbCall.Answer Thrown)) :
    Async.Conforms (fun _ c => c = .endedAt ∨ ∃ event, c = .log event) (fun _ _ => True)
      (measure jobId enqueuedAt startedAt) h := by
  cases jobId with
  | none => trivial
  | some jobId =>
    refine ⟨.inl rfl, fun x => ?_⟩
    cases x with
    | error e => trivial
    | ok endedAt =>
      refine ⟨.inr ⟨_, rfl⟩, fun x => ?_⟩
      cases x <;> trivial

end JsonDbJobRepository

/-- The operations measured per job. -/
def RepoOp.jobId : RepoOp → Option String
  | .withTransition id _ _ | .delete id => some id
  | _ => none

/-- One call of a repository method, with `Date.now()` at the call. -/
structure Enqueued where
  op : RepoOp
  enqueuedAt : ℤ
  deriving DecidableEq, Repr

abbrev Enqueued.Result (q : Enqueued) : Type := q.op.Result

def Enqueued.program [LowerCase] (q : Enqueued) : DbProgram q.Result :=
  JsonDbJobRepository.criticalSection (JsonDbJobRepository.task q.op) q.op.jobId q.enqueuedAt

/-- What the environment decides about one operation. -/
structure Environment (F : Type) where
  startedAt : ℤ
  endedAt : ℤ
  stamp : Stamp
  jobsExist : F
  pushInitial : F
  getData : F
  push : F
  log : Option Thrown

/-- The repository instance: the database and the field `initialized`. -/
structure Instance (D : Type) where
  db : D
  initialized : Bool
  deriving DecidableEq, Repr

namespace Instance

variable {F D : Type}

/-- One call in an environment. -/
def act (db : JsonDB F D) (t : Environment F) :
    (c : DbCall) → Instance D → Except Thrown c.Answer × Instance D
  | .startedAt, w => (.ok t.startedAt, w)
  | .endedAt, w => (.ok t.endedAt, w)
  | .stamp, w => (.ok t.stamp, w)
  | .readInitialized, w => (.ok w.initialized, w)
  | .setInitialized, w => (.ok (), { w with initialized := true })
  | .jobsExist, w =>
    let (r, d) := db.jobsExist t.jobsExist w.db
    (r, { w with db := d })
  | .pushInitial, w =>
    let (r, d) := db.push t.pushInitial [] w.db
    (r, { w with db := d })
  | .getData, w =>
    let (r, d) := db.getData t.getData w.db
    (r, { w with db := d })
  | .push jobs, w =>
    let (r, d) := db.push t.push jobs w.db
    (r, { w with db := d })
  | .log _, w => (match t.log with
      | none => .ok ()
      | some e => .error e, w)

/-- Run one operation to its end. -/
def run [LowerCase] (db : JsonDB F D) (t : Environment F) (q : Enqueued) (w : Instance D) :
    Except Thrown q.Result × Instance D := Async.eval (act db t) q.program w

/-- The one push `ensureInitialized` can make comes after an `exists` that found nothing. -/
theorem mem_calls_ensureInitialized {db : JsonDB F D} {t : Environment F} {i : ℕ} {q : Enqueued}
    {w : Instance D} {e : Async.Entry DbCall.Answer Thrown Enqueued (Instance D)}
    (he : e ∈ Async.calls (act db t) i q JsonDbJobRepository.ensureInitialized w) :
    (∀ jobs, e.event.call ≠ .push jobs) ∧ (e.event.call = .pushInitial →
      w.initialized = false ∧ ∃ d, db.jobsExist t.jobsExist w.db = (.ok false, d) ∧
        e.before = ⟨d, false⟩) := by
  rw [JsonDbJobRepository.ensureInitialized, Async.perform_bind, Async.calls_awaiting] at he
  rcases List.mem_cons.mp he with rfl | he
  · exact ⟨nofun, nofun⟩
  cases hflag : w.initialized with
  | true => simp [act, hflag] at he
  | false =>
    have hact : act db t .readInitialized w = (.ok false, w) := by rw [← hflag]; rfl
    rw [hact, Async.settled_ok_bind, if_neg (by simp), Async.perform_bind,
      Async.calls_awaiting] at he
    rcases List.mem_cons.mp he with rfl | he
    · exact ⟨nofun, nofun⟩
    obtain ⟨⟨r, d⟩, hexist⟩ : ∃ x, db.jobsExist t.jobsExist w.db = x := ⟨_, rfl⟩
    have hact' : act db t .jobsExist w = (r, ⟨d, false⟩) := by simp [act, hexist, hflag]
    rw [hact'] at he
    match r with
    | .error _ => simp at he
    | .ok true =>
      obtain rfl : e = _ := by simpa using he
      exact ⟨nofun, nofun⟩
    | .ok false =>
      rw [Async.settled_ok_bind, if_neg (by simp), Async.calls_bind] at he
      rcases List.mem_append.mp he with he | he
      · obtain rfl := List.mem_singleton.mp he
        exact ⟨nofun, fun _ => ⟨rfl, d, hexist, rfl⟩⟩
      · split at he
        · obtain rfl := List.mem_singleton.mp he
          exact ⟨nofun, nofun⟩
        · cases he

/-- Measuring neither fails nor touches the store. -/
theorem eval_measure (db : JsonDB F D) (t : Environment F) (jobId : Option String)
    (enqueuedAt startedAt : ℤ) (w : Instance D) :
    Async.eval (act db t) (JsonDbJobRepository.measure jobId enqueuedAt startedAt) w =
      (.ok (), w) := by
  cases jobId with
  | none => rfl
  | some jobId =>
    cases hlog : t.log <;>
      simp [JsonDbJobRepository.measure, JsonDbJobRepository.emitLockEvent, Async.perform_bind,
        Async.eval_tryCatch, act, hlog]

theorem run_eq [LowerCase] (db : JsonDB F D) (t : Environment F) (q : Enqueued)
    (w : Instance D) : run db t q w = Async.eval (act db t)
      (JsonDbJobRepository.ensureInitialized >>= fun _ => JsonDbJobRepository.task q.op) w := by
  show Async.eval (act db t) (Async.tryFinally _ (JsonDbJobRepository.measure _ _ _)) w = _
  rw [Async.eval_tryFinally, eval_measure]

end Instance

/-- How a call of node-json-db fails: before it has done anything, or in writing the file. -/
inductive Fault where
  | rejects (error : Thrown)
  | writeFails (error : Thrown)
  deriving DecidableEq, Repr

def Fault.error : Fault → Thrown
  | .rejects e | .writeFails e => e

/-- `/jobs` in the tree in memory and in the file; none where the path is missing. -/
structure JsonFile where
  memory : Option (List Job)
  file : Option (List Job)
  deriving DecidableEq, Repr

/-- node-json-db with `saveOnPush`: reads answer from memory, and a push sets the memory and then
writes the file. -/
def saveOnPush : JsonDB (Option Fault) JsonFile where
  jobsExist
    | none, d => (.ok d.memory.isSome, d)
    | some fault, d => (.error fault.error, d)
  getData
    | none, d => (match d.memory with
        | some jobs => .ok jobs
        | none => .error "Can't find dataPath: /jobs", d)
    | some fault, d => (.error fault.error, d)
  push
    | none, jobs, _ => (.ok (), ⟨some jobs, some jobs⟩)
    | some (.rejects e), _, d => (.error e, d)
    | some (.writeFails e), jobs, d => (.error e, { d with memory := some jobs })

/-- Nothing fails. -/
def Environment.quiet : Environment (Option Fault) where
  startedAt := 0
  endedAt := 0
  stamp := ⟨"2", "u"⟩
  jobsExist := none
  pushInitial := none
  getData := none
  push := none
  log := none

/-- An instance on a file that holds the jobs. -/
def Instance.onFile (jobs : Option (List Job)) (initialized : Bool) : Instance JsonFile :=
  ⟨⟨jobs, jobs⟩, initialized⟩

namespace Instance

/-- The array the next operation reads. -/
def jobs (w : Instance JsonFile) : List Job := w.db.memory.getD []

/-- The instance after `ensureInitialized` has succeeded. -/
def ready (w : Instance JsonFile) : Instance JsonFile :=
  if w.initialized then w
  else ⟨⟨some w.jobs, if w.db.memory.isSome then w.db.file else some []⟩, true⟩

/-- The instance after a push whose file write fails. -/
def unsaved (w : Instance JsonFile) (jobs : List Job) : Instance JsonFile :=
  { w with db := { w.db with memory := some jobs } }

/-- The instance after a push. -/
def saved (w : Instance JsonFile) (jobs : List Job) : Instance JsonFile :=
  { w with db := ⟨some jobs, some jobs⟩ }

variable (t : Environment (Option Fault)) (w : Instance JsonFile)

theorem eval_ensureInitialized :
    Async.eval (act saveOnPush t) JsonDbJobRepository.ensureInitialized w =
      if w.initialized then (.ok (), w) else match t.jobsExist with
        | some fault => (.error fault.error, w)
        | none => if w.db.memory.isSome then (.ok (), w.ready) else match t.pushInitial with
          | none => (.ok (), w.ready)
          | some (.rejects e) => (.error e, w)
          | some (.writeFails e) => (.error e, w.unsaved []) := by
  obtain ⟨⟨memory, file⟩, _ | _⟩ := w
  · cases hexist : t.jobsExist with
    | some fault =>
      simp [JsonDbJobRepository.ensureInitialized, Async.perform_bind, act, saveOnPush, hexist]
    | none =>
      cases memory with
      | some jobs =>
        simp [JsonDbJobRepository.ensureInitialized, Async.perform_bind, act, saveOnPush, hexist,
          ready, Instance.jobs]
      | none =>
        match hpush : t.pushInitial with
        | none | some (.rejects e) | some (.writeFails e) =>
          simp [JsonDbJobRepository.ensureInitialized, Async.perform_bind, act, saveOnPush, hexist,
            hpush, ready, unsaved, Instance.jobs]
  · simp [JsonDbJobRepository.ensureInitialized, Async.perform_bind, act]

theorem eval_commit {α : Type} (outcome : Outcome α) :
    Async.eval (act saveOnPush t) (JsonDbJobRepository.commit outcome) w =
      match outcome.2, t.push with
      | none, _ => (.ok outcome.1, w)
      | some next, none => (.ok outcome.1, w.saved next)
      | some _, some (.rejects e) => (.error e, w)
      | some next, some (.writeFails e) => (.error e, w.unsaved next) := by
  obtain ⟨answer, _ | next⟩ := outcome
  · rfl
  · match hpush : t.push with
    | none | some (.rejects e) | some (.writeFails e) =>
      simp [JsonDbJobRepository.commit, Async.perform_bind, act, saveOnPush, hpush, saved, unsaved]

theorem eval_task [LowerCase] (op : RepoOp) :
    Async.eval (act saveOnPush t) (JsonDbJobRepository.task op) w =
      match t.getData, w.db.memory with
      | some fault, _ => (.error fault.error, w)
      | none, none => (.error "Can't find dataPath: /jobs", w)
      | none, some jobs =>
        Async.eval (act saveOnPush t) (JsonDbJobRepository.commit (op.body t.stamp jobs)) w := by
  match hget : t.getData, hmemory : w.db.memory with
  | some fault, _ | none, none | none, some jobs =>
    simp [JsonDbJobRepository.task, Async.perform_bind, act, saveOnPush, hget, hmemory]

@[simp] theorem ready_jobs : w.ready.jobs = w.jobs := by
  unfold ready
  split <;> rfl

theorem ensureInitialized_atomic (hinitial : ∀ e, t.pushInitial ≠ some (.writeFails e)) :
    let x := Async.eval (act saveOnPush t) JsonDbJobRepository.ensureInitialized w
    (∃ e, x = (.error e, w)) ∨ ∃ w', x = (.ok (), w') ∧ w'.jobs = w.jobs := by
  rw [eval_ensureInitialized]
  split
  · exact .inr ⟨w, rfl, rfl⟩
  · split
    · exact .inl ⟨_, rfl⟩
    · split
      · exact .inr ⟨w.ready, rfl, w.ready_jobs⟩
      · split
        · exact .inr ⟨w.ready, rfl, w.ready_jobs⟩
        · exact .inl ⟨_, rfl⟩
        · next e heq => exact absurd heq (hinitial e)

theorem task_atomic [LowerCase] (hpush : ∀ e, t.push ≠ some (.writeFails e)) (op : RepoOp) :
    let x := Async.eval (act saveOnPush t) (JsonDbJobRepository.task op) w
    (∃ e, x = (.error e, w)) ∨
      ∃ w', x = (.ok (op.run t.stamp w.jobs).1, w') ∧ w'.jobs = (op.run t.stamp w.jobs).2 := by
  rw [eval_task]
  split
  · exact .inl ⟨_, rfl⟩
  · exact .inl ⟨_, rfl⟩
  · next jobs _ hmemory =>
    have hjobs : w.jobs = jobs := by rw [Instance.jobs, hmemory, Option.getD_some]
    rw [eval_commit, hjobs]
    split
    · next heq => exact .inr ⟨w, rfl, by rw [RepoOp.run, heq, hjobs, Option.getD_none]⟩
    · next next heq _ => exact .inr ⟨w.saved next, rfl, by rw [RepoOp.run, heq]; rfl⟩
    · exact .inl ⟨_, rfl⟩
    · next e _ heq => exact absurd heq (hpush e)

/-- Unless a file write fails, an operation is rejected without a trace or is the atomic step on
the array that the use cases are written against. -/
theorem run_atomic [LowerCase] (hpush : ∀ e, t.push ≠ some (.writeFails e))
    (hinitial : ∀ e, t.pushInitial ≠ some (.writeFails e)) (q : Enqueued) :
    (∃ e w', run saveOnPush t q w = (.error e, w') ∧ w'.jobs = w.jobs) ∨
    ∃ w', run saveOnPush t q w = (.ok (q.op.run t.stamp w.jobs).1, w') ∧
      w'.jobs = (q.op.run t.stamp w.jobs).2 := by
  rw [run_eq, Async.eval_bind]
  rcases ensureInitialized_atomic t w hinitial with ⟨e, he⟩ | ⟨w', he, hjobs⟩
  · exact .inl ⟨e, w, by rw [he], rfl⟩
  · rw [he]
    rcases task_atomic t w' hpush q.op with ⟨e, he⟩ | ⟨w'', he, hjobs'⟩
    · exact .inl ⟨e, w', he, hjobs⟩
    · rw [hjobs] at he hjobs'
      exact .inr ⟨w'', he, hjobs'⟩

/-- An instance that believes `/jobs` is there is right. -/
def Sound (w : Instance JsonFile) : Prop := w.initialized = true → w.db.memory.isSome = true

theorem ready_memory (h : w.Sound) : w.ready.db.memory = some w.jobs := by
  obtain ⟨⟨memory, file⟩, _ | _⟩ := w
  · rfl
  · obtain ⟨jobs, rfl⟩ := Option.isSome_iff_exists.mp (h rfl)
    rfl

/-- Where node-json-db answers all calls, an operation is the atomic step on the array. -/
theorem run_answered [LowerCase] (hexist : t.jobsExist = none) (hinitial : t.pushInitial = none)
    (hget : t.getData = none) (hpush : t.push = none) (h : w.Sound) (q : Enqueued) :
    ∃ w', run saveOnPush t q w = (.ok (q.op.run t.stamp w.jobs).1, w') ∧
      w'.jobs = (q.op.run t.stamp w.jobs).2 ∧ w'.Sound := by
  have hready : Async.eval (act saveOnPush t) JsonDbJobRepository.ensureInitialized w =
      (.ok (), w.ready) := by
    rw [eval_ensureInitialized, hexist, hinitial]
    cases hflag : w.initialized with
    | true => simp [ready, hflag]
    | false => simp
  rw [run_eq, Async.eval_bind, hready]
  simp only [eval_task, hget, ready_memory w h, eval_commit, hpush]
  cases hbody : (q.op.body t.stamp w.jobs).2 with
  | none =>
    refine ⟨w.ready, rfl, ?_, fun _ => by rw [ready_memory w h]; rfl⟩
    rw [ready_jobs, RepoOp.run, hbody, Option.getD_none]
  | some next => exact ⟨w.ready.saved next, rfl, by rw [RepoOp.run, hbody]; rfl, fun _ => rfl⟩

/-- `list`, called by itself. -/
def listed [LowerCase] : Except Thrown (List Job) := (run saveOnPush .quiet ⟨.list, 0⟩ w).1

theorem listed_eq [LowerCase] (h : w.Sound) : w.listed = .ok w.jobs := by
  obtain ⟨w', hrun, -, -⟩ := run_answered .quiet w rfl rfl rfl rfl h ⟨.list, 0⟩
  rw [listed, hrun]
  rfl

end Instance

end JobManager
