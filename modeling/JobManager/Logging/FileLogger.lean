import JobManager.Application.UseCases
import JobManager.Collections.InsertionMap
import JobManager.Text.Json

/-! The logger that writes one JSON line per event. -/
namespace JobManager

def LogLevel.text : LogLevel → String
  | .info => "info"
  | .error => "error"

def LogSource.text : LogSource → String
  | .http => "http"
  | .scheduler => "scheduler"

def TickPhase.text : TickPhase → String
  | .start => "start"
  | .ended => "end"
  | .skipped => "skipped"

def Actor.text : Actor → String
  | .api => "api"
  | .scheduler => "scheduler"

def JobProcessOutcome.text : JobProcessOutcome → String
  | .completed => "completed"
  | .failed => "failed"

def BaseLogEvent.entries (base : BaseLogEvent) : List (String × Json ℚ) :=
  [("level", .string base.level.text), ("source", .string base.source.text),
    ("message", .string base.message)]

/-- `Object.entries(event)`; a field that is `undefined` is not printed, so it has no entry. -/
def LogEvent.entries : LogEvent → List (String × Json ℚ)
  | .httpRequest base method path statusCode latencyMs errorCode =>
    ("type", .string "http_request") :: base.entries ++
      [("method", .string method), ("path", .string path), ("statusCode", .number statusCode),
        ("latencyMs", .number latencyMs)] ++
      errorCode.toList.map fun code => ("errorCode", .string code)
  | .tick base tickId phase durationMs =>
    ("type", .string "tick") :: base.entries ++
      [("tickId", .string tickId), ("phase", .string phase.text)] ++
      durationMs.toList.map fun ms => ("durationMs", .number ms)
  | .batch base batchSize succeeded failed =>
    ("type", .string "batch") :: base.entries ++
      [("batchSize", .number batchSize), ("succeeded", .number succeeded),
        ("failed", .number failed)]
  | .transition base jobId fromStatus toStatus actor =>
    ("type", .string "transition") :: base.entries ++
      [("jobId", .string jobId), ("from", .string (PatchJobUseCase.statusName fromStatus)),
        ("to", .string (PatchJobUseCase.statusName toStatus)), ("actor", .string actor.text)]
  | .lock base jobId waitMs holdMs =>
    ("type", .string "lock") :: base.entries ++
      [("jobId", .string jobId), ("waitMs", .number waitMs), ("holdMs", .number holdMs)]
  | .error base errorCode =>
    ("type", .string "error") :: base.entries ++ [("errorCode", .string errorCode)]
  | .delete base jobId =>
    ("type", .string "delete") :: base.entries ++ [("jobId", .string jobId)]
  | .digest base outcome digestDurationMs articleCount groupCount model =>
    ("type", .string "digest") :: base.entries ++
      [("outcome", .string outcome.text), ("digestDurationMs", .number digestDurationMs),
        ("articleCount", .number articleCount), ("groupCount", .number groupCount),
        ("model", .string model)]

/-- What a call reads from the clock and from the active span, or the fresh id without a span. -/
structure TraceContext where
  timestamp : String
  traceId : String
  spanId : Option String
  deriving DecidableEq, Repr

def TraceContext.entries (context : TraceContext) : List (String × Json ℚ) :=
  [("timestamp", .string context.timestamp), ("traceId", .string context.traceId)] ++
    context.spanId.toList.map fun id => ("spanId", .string id)

namespace FileLoggerAdapter

/-- A later entry of the object literal replaces an earlier one with its name. -/
def record (context : TraceContext) (event : LogEvent) : InsertionMap String (Json ℚ) :=
  let fields := event.entries.filter fun entry => entry.1 ≠ "type"
  InsertionMap.ofEntries (context.entries ++ fields)

/-- `stringify` is `JSON.stringify`; `write` appends to the text, or throws. -/
def log (stringify : Json ℚ → String) (write : String → String → Except Thrown String)
    (context : TraceContext) (event : LogEvent) (written : String) : String :=
  match write written (stringify (.object (record context event).entries) ++ "\n") with
  | .ok written => written
  | .error _ => written

end FileLoggerAdapter

end JobManager
