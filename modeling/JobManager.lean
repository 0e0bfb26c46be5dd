import JobManager.Persistence.Conservation
import JobManager.Persistence.Refinement
import JobManager.Persistence.FailedWrite
import JobManager.Persistence.Agreement
import JobManager.Persistence.CrashConsistency
import JobManager.System.Exclusivity
import JobManager.System.Separation
import JobManager.System.Bounded
import JobManager.System.Recovery
import JobManager.System.BarePatch
import JobManager.System.LogSoundness
import JobManager.System.Retries
import JobManager.System.JobTypes
import JobManager.Adapters.Admission
import JobManager.NewsDigest.Delivery
import JobManager.NewsDigest.Decoding
import JobManager.NewsDigest.Feed
import JobManager.NewsDigest.Layout
import JobManager.NewsDigest.Pipeline
import JobManager.Logging.Records
import JobManager.Adapters.HttpExceptionFilter
import JobManager.Adapters.PatchJobDto
import JobManager.AdminUi.UseJobs
import JobManager.Adapters.TickExclusion
import JobManager.System.Lifespan
import JobManager.System.Waiting
import JobManager.System.Redelivery
import JobManager.System.SlackContent
import JobManager.System.WellFormed
import JobManager.System.AdminView
