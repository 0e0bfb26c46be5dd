import JobManager.Logging.FileLogger
import JobManager.Text.Scan

/-! The events of a log can be read back from its lines, without their kind. -/
namespace JobManager

open Text Regex KeyedList FileLoggerAdapter

section Reading

def asText : Option (Json ℚ) → Option String
  | some (.string s) => some s
  | _ => none

def asNumber : Option (Json ℚ) → Option ℚ
  | some (.number n) => some n
  | _ => none

/-- The value with the given text. -/
def ofText {α : Type} (values : List α) (text : α → String) (field : Option (Json ℚ)) : Option α :=
  (asText field).bind fun s => values.find? fun a => text a = s

def readBase (get : String → Option (Json ℚ)) : Option BaseLogEvent := do
  let level ← ofText [.info, .error] LogLevel.text (get "level")
  let source ← ofText [.http, .scheduler] LogSource.text (get "source")
  let message ← asText (get "message")
  return ⟨level, source, message⟩

def readStatus (field : Option (Json ℚ)) : Option JobStatus :=
  ofText [.pending, .processing, .completed, .failed] PatchJobUseCase.statusName field

/-- The event with these fields; its kind is told by the fields that it has. -/
def readEvent (get : String → Option (Json ℚ)) : Option LogEvent := do
  let base ← readBase get
  if (get "method").isSome then
    return .httpRequest base (← asText (get "method")) (← asText (get "path"))
      (← asNumber (get "statusCode")) (← asNumber (get "latencyMs")) (asText (get "errorCode"))
  else if (get "tickId").isSome then
    return .tick base (← asText (get "tickId"))
      (← ofText [.start, .ended, .skipped] TickPhase.text (get "phase"))
      (asNumber (get "durationMs"))
  else if (get "batchSize").isSome then
    return .batch base (← asNumber (get "batchSize")) (← asNumber (get "succeeded"))
      (← asNumber (get "failed"))
  else if (get "actor").isSome then
    return .transition base (← asText (get "jobId")) (← readStatus (get "from"))
      (← readStatus (get "to")) (← ofText [.api, .scheduler] Actor.text (get "actor"))
  else if (get "waitMs").isSome then
    return .lock base (← asText (get "jobId")) (← asNumber (get "waitMs"))
      (← asNumber (get "holdMs"))
  else if (get "outcome").isSome then
    return .digest base (← ofText [.completed, .failed] JobProcessOutcome.text (get "outcome"))
      (← asNumber (get "digestDurationMs")) (← asNumber (get "articleCount"))
      (← asNumber (get "groupCount")) (← asText (get "model"))
  else if (get "errorCode").isSome then return .error base (← asText (get "errorCode"))
  else return .delete base (← asText (get "jobId"))

/-- The names of the fields that the logger adds. -/
def contextNames : List String := ["timestamp", "traceId", "spanId"]

/-- The event of a record, read without the fields that the logger adds. -/
def readRecord (v : Json ℚ) : Option LogEvent :=
  readEvent fun name => if name ∈ contextNames then none else v.property name

end Reading

variable {context context' : TraceContext} {event event' : LogEvent}

def recordValue (context : TraceContext) (event : LogEvent) : Json ℚ :=
  .object (record context event).entries

/-- The fields of an event that are written. -/
def LogEvent.fields (event : LogEvent) : List (String × Json ℚ) :=
  event.entries.filter fun entry => entry.1 ≠ "type"

theorem nodup_names (context : TraceContext) (event : LogEvent) :
    ((context.entries ++ event.fields).map Prod.fst).Nodup := by
  obtain ⟨timestamp, traceId, spanId⟩ := context
  cases event with
  | httpRequest base method path statusCode latencyMs errorCode =>
    cases spanId <;> cases errorCode <;>
      simp [TraceContext.entries, LogEvent.fields, LogEvent.entries, BaseLogEvent.entries]
  | tick base tickId phase durationMs =>
    cases spanId <;> cases durationMs <;>
      simp [TraceContext.entries, LogEvent.fields, LogEvent.entries, BaseLogEvent.entries]
  | batch | transition | lock | error | delete | digest =>
    cases spanId <;>
      simp [TraceContext.entries, LogEvent.fields, LogEvent.entries, BaseLogEvent.entries]

/-- No field of the event replaces one of the logger's, nor the other way. -/
theorem record_entries (context : TraceContext) (event : LogEvent) :
    (record context event).entries = context.entries ++ event.fields :=
  InsertionMap.entries_ofEntries (nodup_names context event)

/-- `event.name`, for a written field. -/
def LogEvent.field (event : LogEvent) (name : String) : Option (Json ℚ) :=
  (lookup Prod.fst event.fields name).map Prod.snd

theorem property_recordValue (context : TraceContext) (event : LogEvent) (name : String) :
    (recordValue context event).property name =
      (lookup Prod.fst (context.entries ++ event.fields) name).map Prod.snd := by
  have hget := InsertionMap.get_ofEntries (context.entries ++ event.fields) name
  rw [InsertionMap.get, InsertionMap.entries_ofEntries (nodup_names context event)] at hget
  rw [recordValue, record_entries]
  exact hget.symm

theorem property_of_mem {entry : String × Json ℚ} (h : entry ∈ context.entries ++ event.fields) :
    (recordValue context event).property entry.1 = some entry.2 := by
  rw [property_recordValue, lookup_of_mem (nodup_names context event) h]
  rfl

theorem field_context (event : LogEvent) {name : String} (hname : name ∈ contextNames) :
    event.field name = none := by
  have hnodup := nodup_names ⟨"", "", some ""⟩ event
  rw [List.map_append, List.nodup_append] at hnodup
  rw [LogEvent.field, lookup_eq_none.mpr fun hmem => hnodup.2.2 name hname name hmem rfl]
  rfl

theorem lookup_context {name : String} (hname : name ∉ contextNames) (context : TraceContext) :
    lookup Prod.fst context.entries name = none := by
  rw [lookup_eq_none]
  intro hmem
  apply hname
  obtain ⟨timestamp, traceId, spanId⟩ := context
  cases spanId with
  | none => exact List.mem_append_left ["spanId"] hmem
  | some id => exact hmem

theorem property_context (context : TraceContext) (event : LogEvent) :
    (recordValue context event).property "timestamp" = some (.string context.timestamp) ∧
      (recordValue context event).property "traceId" = some (.string context.traceId) ∧
      (recordValue context event).property "spanId" = context.spanId.map .string := by
  have htimestamp : ("timestamp", .string context.timestamp) ∈ context.entries ++ event.fields := by
    simp [TraceContext.entries]
  have htraceId : ("traceId", .string context.traceId) ∈ context.entries ++ event.fields := by
    simp [TraceContext.entries]
  refine ⟨property_of_mem htimestamp, property_of_mem htraceId, ?_⟩
  cases hspan : context.spanId with
  | some id =>
    have hspanId : ("spanId", .string id) ∈ context.entries ++ event.fields := by
      simp [TraceContext.entries, hspan]
    exact property_of_mem hspanId
  | none =>
    have hcontext : lookup Prod.fst context.entries "spanId" = none := by
      simp [TraceContext.entries, hspan, lookup]
    have hfields : event.field "spanId" = none := field_context event (by simp [contextNames])
    rw [property_recordValue, lookup, List.find?_append, ← lookup, hcontext, Option.none_or]
    exact hfields

/-- Without the fields that the logger adds a record has the fields of its event. -/
theorem readRecord_recordValue (context : TraceContext) (event : LogEvent) :
    readRecord (recordValue context event) = readEvent event.field := by
  rw [readRecord]
  congr 1
  funext name
  split
  · next hname => exact (field_context event hname).symm
  · next hname =>
    rw [property_recordValue, LogEvent.field, lookup, List.find?_append, ← lookup,
      lookup_context hname, Option.none_or, lookup]

def LogEvent.base : LogEvent → BaseLogEvent
  | .httpRequest base .. | .tick base .. | .batch base .. | .transition base .. | .lock base ..
  | .error base .. | .delete base .. | .digest base .. => base

theorem field_base (event : LogEvent) :
    event.field "level" = some (.string event.base.level.text) ∧
      event.field "source" = some (.string event.base.source.text) ∧
      event.field "message" = some (.string event.base.message) := by
  cases event <;> exact ⟨rfl, rfl, rfl⟩

/-- Every kind of event has the common fields. -/
theorem readBase_field (event : LogEvent) : readBase event.field = some event.base := by
  obtain ⟨hlevel, hsource, hmessage⟩ := field_base event
  rw [readBase, hlevel, hsource, hmessage]
  obtain ⟨level, source, message⟩ := event.base
  cases level <;> cases source <;> rfl

/-- The fields tell the kinds apart. -/
theorem readEvent_field (event : LogEvent) : readEvent event.field = some event := by
  rw [readEvent, readBase_field]
  cases event with
  | httpRequest base method path statusCode latencyMs errorCode => cases errorCode <;> rfl
  | tick base tickId phase durationMs => cases phase <;> cases durationMs <;> rfl
  | transition base jobId fromStatus toStatus actor =>
    cases fromStatus <;> cases toStatus <;> cases actor <;> rfl
  | digest base outcome digestDurationMs articleCount groupCount model => cases outcome <;> rfl
  | batch | lock | error | delete => rfl

/-- Records that agree but for the fields of the logger are of one event. -/
theorem event_eq_of_property_eq (h : ∀ name, name ∉ contextNames →
    (recordValue context event).property name = (recordValue context' event').property name) :
    event = event' := by
  have hrecords : readRecord (recordValue context event) =
      readRecord (recordValue context' event') := by
    rw [readRecord, readRecord]
    congr 1
    funext name
    split
    · rfl
    · next hname => exact h name hname
  rw [readRecord_recordValue, readRecord_recordValue, readEvent_field, readEvent_field] at hrecords
  exact Option.some.inj hrecords

section Lines

variable {stringify : Json ℚ → String} {write : String → String → Except Thrown String}

/-- The text after a sequence of calls. -/
def logAll (stringify : Json ℚ → String) (write : String → String → Except Thrown String)
    (calls : List (TraceContext × LogEvent)) (written : String) : String :=
  calls.foldl (fun written call => FileLoggerAdapter.log stringify write call.1 call.2 written)
    written

def line (stringify : Json ℚ → String) (call : TraceContext × LogEvent) : String :=
  stringify (recordValue call.1 call.2)

/-- What is assumed of the lines holds of `JSON.stringify`. -/
theorem newline_notMem_line [NumberToString ℚ]
    (hnumber : ∀ q : ℚ, '\n' ∉ (numberToString q).toList) (call : TraceContext × LogEvent) :
    '\n' ∉ (line Json.stringify call).toList :=
  Json.newline_notMem_stringify hnumber _

theorem logAll_eq (hwrite : ∀ written chunk, write written chunk = .ok (written ++ chunk))
    (calls : List (TraceContext × LogEvent)) (written : String) :
    logAll stringify write calls written =
      written ++ String.intercalate "\n" (calls.map (line stringify) ++ [""]) := by
  induction calls generalizing written with
  | nil => simp [logAll]
  | cons call calls ih =>
    have hstep : FileLoggerAdapter.log stringify write call.1 call.2 written =
        written ++ (line stringify call ++ "\n") := by
      rw [FileLoggerAdapter.log, hwrite]
      rfl
    rw [logAll, List.foldl_cons, ← logAll, hstep, ih, List.map_cons, List.cons_append,
      String.intercalate_cons_of_ne_nil (by simp), String.append_assoc]

theorem splitText_logAll (hwrite : ∀ written chunk, write written chunk = .ok (written ++ chunk))
    {calls : List (TraceContext × LogEvent)}
    (hline : ∀ call ∈ calls, '\n' ∉ (line stringify call).toList) :
    splitText "\n" (logAll stringify write calls "") = calls.map (line stringify) ++ [""] := by
  rw [logAll_eq hwrite, String.empty_append]
  apply splitText_intercalate (by decide) (by simp)
  intro piece hpiece
  rw [show "\n".toList = ['\n'] by simp]
  apply clashes_of_head
  intro c hc
  have hnot : '\n' ∉ piece.toList := by
    rcases List.mem_append.mp hpiece with hpiece | hpiece
    · obtain ⟨call, hcall, rfl⟩ := List.mem_map.mp hpiece
      exact hline call hcall
    · rw [List.mem_singleton.mp hpiece]
      decide
  simpa using ne_of_mem_of_not_mem hc hnot

/-- The log is one line for each event, and each line gives back its event. -/
theorem logAll_decodable {parse : String → Except Thrown (Json ℚ)}
    (calls : List (TraceContext × LogEvent))
    (hwrite : ∀ written chunk, write written chunk = .ok (written ++ chunk))
    (hline : ∀ call ∈ calls, '\n' ∉ (line stringify call).toList)
    (hparse : ∀ call ∈ calls,
      parse (line stringify call) = .ok (recordValue call.1 call.2)) :
    (∃ lines, splitText "\n" (logAll stringify write calls "") = lines ++ [""] ∧
      List.Forall₂ (fun line (call : TraceContext × LogEvent) => ∃ v, parse line = .ok v ∧
        v.property "timestamp" = some (.string call.1.timestamp) ∧
        v.property "traceId" = some (.string call.1.traceId) ∧
        v.property "spanId" = call.1.spanId.map .string ∧
        (∀ field ∈ call.2.fields, v.property field.1 = some field.2) ∧
        readRecord v = some call.2) lines calls) ∧
    ∀ context context' event event', (∀ name, name ∉ contextNames →
      (recordValue context event).property name = (recordValue context' event').property name) →
      event = event' := by
  refine ⟨⟨calls.map (line stringify), splitText_logAll hwrite hline, ?_⟩,
    fun context context' event event' => event_eq_of_property_eq⟩
  rw [List.forall₂_map_left_iff]
  apply List.forall₂_same.mpr
  intro call hcall
  obtain ⟨htimestamp, htraceId, hspanId⟩ := property_context call.1 call.2
  refine ⟨recordValue call.1 call.2, hparse call hcall, htimestamp, htraceId, hspanId, ?_, ?_⟩
  · intro field hfield
    exact property_of_mem (List.mem_append_right _ hfield)
  · rw [readRecord_recordValue, readEvent_field]

/-- An error without a span. -/
def errorCall : TraceContext × LogEvent :=
  (⟨"2026-07-19T00:00:00.000Z", "0af7651916cd43dd8448eb211c80319c", none⟩,
    .error ⟨.error, .http, "two\n\"lines\""⟩ "INTERNAL")

/-- The end of a tick. -/
def tickCall : TraceContext × LogEvent :=
  (⟨"2026-07-19T00:00:01.000Z", "0af7651916cd43dd8448eb211c80319d", some "b7ad6b7169203331"⟩,
    .tick ⟨.info, .scheduler, "tick ended"⟩ "t1" .ended (some 12))

/-- `JSON.stringify`, where the numbers are integers below `10 ^ 21`. -/
def stringifyIntegers : Json ℚ → String :=
  letI : NumberToString ℚ := ⟨fun q => toString q.num⟩
  Json.stringify

/-- `JSON.parse` of the lines of these calls. -/
def parseWritten (calls : List (TraceContext × LogEvent)) (text : String) :
    Except Thrown (Json ℚ) :=
  match calls.find? fun call => line stringifyIntegers call = text with
  | some call => .ok (recordValue call.1 call.2)
  | none => .error "SyntaxError"

theorem logAll_decodable_errorThenTick :
    let calls := [errorCall, tickCall]
    ∃ lines, splitText "\n" (logAll stringifyIntegers (fun written chunk => .ok (written ++ chunk))
      calls "") = lines ++ [""] ∧
      List.Forall₂ (fun line (call : TraceContext × LogEvent) =>
        ∃ v, parseWritten calls line = .ok v ∧ readRecord v = some call.2) lines calls := by
  intro calls
  have hne : line stringifyIntegers errorCall ≠ line stringifyIntegers tickCall := by decide +kernel
  have hline : ∀ call, '\n' ∉ (line stringifyIntegers call).toList :=
    @newline_notMem_line ⟨fun q => toString q.num⟩ fun q => Json.newline_notMem_toString_int q.num
  have hparse : ∀ call ∈ calls, parseWritten calls (line stringifyIntegers call) =
      .ok (recordValue call.1 call.2) := by
    intro call hcall
    rcases List.mem_pair.mp hcall with rfl | rfl
    · simp [parseWritten, calls]
    · simp [parseWritten, calls, hne]
  obtain ⟨⟨lines, hsplit, hlines⟩, -⟩ := @logAll_decodable stringifyIntegers
    (fun written chunk => .ok (written ++ chunk)) (parseWritten calls) calls (fun _ _ => rfl)
    (fun call _ => hline call) hparse
  refine ⟨lines, hsplit, hlines.imp ?_⟩
  rintro line call ⟨v, hv, -, -, -, -, hread⟩
  exact ⟨v, hv, hread⟩

end Lines

end JobManager
