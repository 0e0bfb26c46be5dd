import JobManager.Domain.Job

/-! A job as the HTTP answers show it. -/
namespace JobManager

structure JobResponse where
  id : String
  title : String
  description : String
  status : JobStatus
  createdAt : String
  updatedAt : String
  deriving DecidableEq, Repr

def toJobResponse (job : Job) : JobResponse :=
  ⟨job.id, job.title, job.description, job.status, job.createdAt, job.updatedAt⟩

end JobManager
