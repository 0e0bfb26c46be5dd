import JobManager.Application.UseCases

/-! The scheduler adapter: one tick. -/
namespace JobManager.JobSchedulerAdapter

def logTick (message tickId : String) (phase : TickPhase) (durationMs : Option ℚ) :
    Program Unit :=
  log (.tick ⟨.info, .scheduler, message⟩ tickId phase durationMs)

/-- The traced part of a tick. -/
def runTick (tickId : String) (startedAt : ℤ) : Program Unit :=
  Async.tryFinally (do
    let _ ← ProcessPendingJobsUseCase.execute
    let endedAt ← Async.perform Effect.dateNow
    logTick "tick ended" tickId .ended (some (endedAt - startedAt : ℤ)))
    (Async.perform Effect.endTick)

def tick (skipGuardEnabled : Bool) : Program Unit := do
  let tickId ← Async.perform Effect.randomUUID
  let skip ← Async.perform (Effect.beginTick skipGuardEnabled)
  if skip then logTick "tick skipped: previous tick still running" tickId .skipped none
  else do
    let startedAt ← Async.perform Effect.dateNow
    logTick "tick started" tickId .start none
    runTick tickId startedAt

end JobManager.JobSchedulerAdapter
