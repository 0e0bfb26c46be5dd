import JobManager.Collections.InsertionMap
import JobManager.Collections.KeyedList
import JobManager.Persistence.Port

/-! What each repository operation computes from the job array it reads: its answer, and the
array it pushes, if any. -/
namespace JobManager

/-- `String.prototype.toLowerCase`; the Unicode case tables are a parameter of the model. -/
class LowerCase where
  toLowerCase : String → String

export LowerCase (toLowerCase)

/-- Lower case on ASCII letters, where all versions of the tables agree. -/
abbrev LowerCase.ascii : LowerCase := ⟨String.toLower⟩

/-- `String.prototype.includes`. -/
def includes (text part : String) : Bool := decide (part.toList <:+: text.toList)

/-- `Array.prototype.slice(0, end)`. -/
def slicePrefix {α : Type} (xs : List α) (stop : ℤ) : List α :=
  if stop < 0 then xs.take (xs.length - stop.natAbs) else xs.take stop.toNat

/-- What `randomUUID()` and `new Date().toISOString()` give during one operation. -/
structure Stamp where
  uuid : String
  now : String
  deriving DecidableEq, Repr

/-- The answer of an operation with the array it pushes; `none` where it writes nothing. -/
abbrev Outcome (α : Type) := α × Option (List Job)

/-- The job stored under an id, `jobs.find((job) => job.id === id)`. -/
abbrev stored (jobs : List Job) (id : String) : Option Job := KeyedList.lookup Job.id jobs id

namespace JsonDbJobRepository

def findById (id : String) (jobs : List Job) : Outcome (Option Job) := (stored jobs id, none)

def list (jobs : List Job) : Outcome (List Job) := (jobs, none)

def search [LowerCase] (query : JobSearchQuery) (jobs : List Job) : Outcome (List Job) :=
  (jobs.filter fun job =>
    let titleMatches := match query.title with
      | none => true
      | some title => includes (toLowerCase job.title) (toLowerCase title)
    let statusMatches := match query.status with
      | none => true
      | some status => job.status = status
    titleMatches && statusMatches, none)

def createdJob (data : CreateJobData) (stamp : Stamp) : Job where
  id := stamp.uuid
  title := data.title
  description := data.description
  status := .pending
  retryCount := 0
  createdAt := stamp.now
  updatedAt := stamp.now

def create (data : CreateJobData) (stamp : Stamp) (jobs : List Job) : Outcome Job :=
  let job := createdJob data stamp
  (job, some (jobs ++ [job]))

def listByStatus (status : JobStatus) (limit : ℤ) (jobs : List Job) : Outcome (List Job) :=
  (slicePrefix (jobs.filter fun job => job.status = status) limit, none)

/-- `patch?.title ?? current.title` and the same for the description, with the retry count. -/
def updatedJob (current : Job) (target : JobStatus) (patch : Option JobPatch) (now : String) :
    Job :=
  { current with
    title := (patch.bind (·.title)).getD current.title
    description := (patch.bind (·.description)).getD current.description
    status := target
    retryCount := if current.status = .failed ∧ target = .pending then current.retryCount + 1
      else current.retryCount
    updatedAt := now }

def withTransition (id : String) (target : JobStatus) (patch : Option JobPatch) (stamp : Stamp)
    (jobs : List Job) : Outcome TransitionResult :=
  let index := jobs.findIdx fun job => job.id = id
  match jobs[index]? with
  | none => (.refused .notFound, none)  -- `index === -1`
  | some current =>
    let isFieldOnlyUpdate := decide (target = current.status)
    match if isFieldOnlyUpdate then none else transitionError current target with
    | some error => (.refused error.toReason, none)
    | none =>
      let updated := updatedJob current target patch stamp.now
      (.ok updated (!isFieldOnlyUpdate) current.status, some (jobs.set index updated))

/-- The locals of the loop in `withBatch`. -/
structure BatchState where
  byId : InsertionMap String Job
  committed : List Job
  rejected : List BatchRejection

def batchUpdatedJob (current : Job) (target : JobStatus) (now : String) : Job :=
  { current with
    status := target
    retryCount := if current.status = .failed ∧ target = .pending then current.retryCount + 1
      else current.retryCount
    updatedAt := now }

def batchStep (target : JobStatus) (now : String) (s : BatchState) (id : String) : BatchState :=
  match s.byId.get id with
  | none => { s with rejected := s.rejected ++ [⟨id, .notFound⟩] }
  | some current =>
    let isFieldOnlyUpdate := decide (target = current.status)
    match if isFieldOnlyUpdate then none else transitionError current target with
    | some error => { s with rejected := s.rejected ++ [⟨id, error.toReason⟩] }
    | none =>
      let updated := batchUpdatedJob current target now
      { s with byId := s.byId.set id updated, committed := s.committed ++ [updated] }

/-- The array is rebuilt from the map; `byId.get` never misses an id of the snapshot. -/
def withBatch (ids : List String) (target : JobStatus) (stamp : Stamp) (jobs : List Job) :
    Outcome BatchResult :=
  let byId := InsertionMap.ofEntries (jobs.map fun job => (job.id, job))
  let final := ids.foldl (batchStep target stamp.now) ⟨byId, [], []⟩
  (⟨final.committed, final.rejected⟩, some (jobs.map fun job => (final.byId.get job.id).getD job))

def delete (id : String) (jobs : List Job) : Outcome DeleteResult :=
  let index := jobs.findIdx fun job => job.id = id
  match jobs[index]? with
  | none => (.refused .notFound, none)
  | some current =>
    match deleteError current with
    | some error => (.refused error.toReason, none)
    | none => (.ok, some (jobs.filter fun job => job.id ≠ id))

end JsonDbJobRepository

/-- The body every operation runs between `getData` and `push`. -/
def RepoOp.body [LowerCase] (stamp : Stamp) : (op : RepoOp) → List Job → Outcome op.Result
  | .findById id => JsonDbJobRepository.findById id
  | .list => JsonDbJobRepository.list
  | .search query => JsonDbJobRepository.search query
  | .create data => JsonDbJobRepository.create data stamp
  | .listByStatus status limit => JsonDbJobRepository.listByStatus status limit
  | .withTransition id target patch => JsonDbJobRepository.withTransition id target patch stamp
  | .withBatch ids target => JsonDbJobRepository.withBatch ids target stamp
  | .delete id => JsonDbJobRepository.delete id

/-- An operation as one atomic step on the array. -/
def RepoOp.run [LowerCase] (stamp : Stamp) (op : RepoOp) (jobs : List Job) :
    op.Result × List Job :=
  ((op.body stamp jobs).1, (op.body stamp jobs).2.getD jobs)

end JobManager
