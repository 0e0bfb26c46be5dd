import JobManager.Async.Conforms
import JobManager.NewsDigest.Processor

/-! The calls one run of the processor can make, with the result they lead to. -/
namespace JobManager

open Async

abbrev DigestEvent := Async.Event DigestCall.Answer Thrown

/-- The clock, the timers and the logger do not throw. -/
def DigestEvent.Regular : DigestEvent → Prop
  | ⟨.dateNow, .error _⟩ | ⟨.setTimeout _, .error _⟩ | ⟨.clearTimeout, .error _⟩
  | ⟨.log _, .error _⟩ => False
  | _ => True

namespace NewsDigestJobProcessor

variable (deps : NewsDigestJobProcessorDeps) (job : Job)

/-- The log lines, if there is a logger. -/
def logged (events : List LogEvent) : List DigestEvent :=
  if deps.logger then events.map fun event => ⟨.log event, .ok ()⟩ else []

/-- What comes before the `try` block. -/
def opening (startedAt : ℤ) : List DigestEvent :=
  [⟨.wasDelivered job.id, .ok false⟩, ⟨.dateNow, .ok startedAt⟩,
    ⟨.setTimeout deps.timeoutMs, .ok ()⟩]

/-- The `try` block up to the mark. -/
def sending (articles : List NewsArticle) (groups : List DigestGroup) : List DigestEvent :=
  [⟨.fetchTodayArticles, .ok articles⟩, ⟨.buildGroupedDigest articles, .ok groups⟩,
    ⟨.notify (formatDigestMessage job.title groups), .ok ()⟩, ⟨.markDelivered job.id, .ok ()⟩]

/-- A digest log with its look at the clock, further log lines, and the `finally` block. -/
def closing (outcome : JobProcessOutcome) (startedAt endedAt : ℤ) (counts : Counts)
    (more : List LogEvent) : List DigestEvent :=
  ⟨.dateNow, .ok endedAt⟩ ::
    logged deps (digestEvent deps outcome (endedAt - startedAt) counts :: more) ++
    [⟨.clearTimeout, .ok ()⟩]

/-- The calls of a `try` block that throws, with the counts it has assigned. -/
inductive Attempt : List DigestEvent → Counts → Prop where
  | fetchFails (e : Thrown) : Attempt [⟨.fetchTodayArticles, .error e⟩] ⟨0, 0⟩
  | noArticles : Attempt [⟨.fetchTodayArticles, .ok []⟩] ⟨0, 0⟩
  | buildFails (articles : List NewsArticle) (e : Thrown) :
      Attempt [⟨.fetchTodayArticles, .ok articles⟩, ⟨.buildGroupedDigest articles, .error e⟩]
        ⟨articles.length, 0⟩
  | noGroups (articles : List NewsArticle) :
      Attempt [⟨.fetchTodayArticles, .ok articles⟩, ⟨.buildGroupedDigest articles, .ok []⟩]
        ⟨articles.length, 0⟩
  | notifyFails (articles : List NewsArticle) (groups : List DigestGroup) (e : Thrown) :
      Attempt [⟨.fetchTodayArticles, .ok articles⟩, ⟨.buildGroupedDigest articles, .ok groups⟩,
        ⟨.notify (formatDigestMessage job.title groups), .error e⟩]
        ⟨articles.length, groups.length⟩
  | markFails (articles : List NewsArticle) (groups : List DigestGroup) (e : Thrown) :
      Attempt [⟨.fetchTodayArticles, .ok articles⟩, ⟨.buildGroupedDigest articles, .ok groups⟩,
        ⟨.notify (formatDigestMessage job.title groups), .ok ()⟩,
        ⟨.markDelivered job.id, .error e⟩] ⟨articles.length, groups.length⟩

/-- The result of a run with its calls. -/
inductive Report : Except Thrown JobProcessOutcome → List DigestEvent → Prop where
  | ledgerFails (e : Thrown) : Report (.error e) [⟨.wasDelivered job.id, .error e⟩]
  | known : Report (.ok .completed) [⟨.wasDelivered job.id, .ok true⟩]
  | sent (startedAt endedAt : ℤ) (articles : List NewsArticle) (groups : List DigestGroup)
      (harticles : articles ≠ []) (hgroups : groups ≠ []) :
      Report (.ok .completed) (opening deps job startedAt ++ sending job articles groups ++
        closing deps .completed startedAt endedAt ⟨articles.length, groups.length⟩ [])
  | failed (startedAt endedAt : ℤ) {attempt : List DigestEvent} {counts : Counts}
      (hattempt : Attempt job attempt counts) :
      Report (.ok .failed) (opening deps job startedAt ++ attempt ++
        closing deps .failed startedAt endedAt counts [errorEvent job])

/-- A run reports, if the clock, the timers and the logger do not throw. -/
def Reports (r : Except Thrown JobProcessOutcome) (h : List DigestEvent) : Prop :=
  (∀ event ∈ h, event.Regular) → Report deps job r h

variable {deps job} {h : List DigestEvent}

/-- A call that does not throw, as long as the calls are regular. -/
theorem regular_call {c : DigestCall}
    {k : Except Thrown c.Answer → DigestProgram JobProcessOutcome}
    (hc : ∀ e, ¬ DigestEvent.Regular ⟨c, .error e⟩)
    (hk : ∀ a, Conforms (fun _ _ => True) (Reports deps job) (k (.ok a)) (h ++ [⟨c, .ok a⟩])) :
    Conforms (fun _ _ => True) (Reports deps job) (.awaiting c k) h := by
  refine ⟨trivial, fun x => ?_⟩
  cases x with
  | ok a => exact hk a
  | error e =>
    apply Conforms.of_extension
    intro r h' hextends hregular
    have hmem : ⟨c, .error e⟩ ∈ h' :=
      hextends.subset (List.mem_append_right _ (List.mem_singleton_self _))
    exact absurd (hregular _ hmem) (hc e)

/-- The `catch` and `finally` blocks. -/
theorem fail_reports {attempt : List DigestEvent} {counts : Counts} {startedAt : ℤ}
    (hattempt : Attempt job attempt counts) :
    Conforms (fun _ _ => True) (Reports deps job)
      ((fail deps job startedAt counts).tryFinally (Async.perform DigestCall.clearTimeout))
      (opening deps job startedAt ++ attempt) := by
  apply regular_call fun _ => id
  intro endedAt
  have hreport := @Report.failed deps job startedAt endedAt attempt counts hattempt
  obtain ⟨timeoutMs, model, logger⟩ := deps
  cases logger with
  | false =>
    apply regular_call fun _ => id
    intro _ _
    simpa [closing, logged] using hreport
  | true =>
    apply regular_call fun _ => id
    intro _
    apply regular_call fun _ => id
    intro _
    apply regular_call fun _ => id
    intro _ _
    simpa [closing, logged] using hreport

/-- The end of a `try` block that has sent the message. -/
theorem sent_reports {articles : List NewsArticle} {groups : List DigestGroup} {startedAt : ℤ}
    (harticles : articles ≠ []) (hgroups : groups ≠ []) :
    Conforms (fun _ _ => True) (Reports deps job)
      (Async.tryFinally (do
          let (result, counts) ← (do
            attempt (emitDigestLog deps .completed startedAt ⟨articles.length, groups.length⟩)
            pure JobProcessOutcome.completed : TryBlock JobProcessOutcome).run.run
              ⟨articles.length, groups.length⟩
          match result with
          | .ok outcome => pure outcome
          | .error _ => fail deps job startedAt counts)
        (Async.perform DigestCall.clearTimeout))
      (opening deps job startedAt ++ sending job articles groups) := by
  apply regular_call fun _ => id
  intro endedAt
  have hreport := @Report.sent deps job startedAt endedAt articles groups harticles hgroups
  obtain ⟨timeoutMs, model, logger⟩ := deps
  cases logger with
  | false =>
    apply regular_call fun _ => id
    intro _ _
    simpa [closing, logged] using hreport
  | true =>
    apply regular_call fun _ => id
    intro _
    apply regular_call fun _ => id
    intro _ _
    simpa [closing, logged] using hreport

/-- Every run of the processor reports. -/
theorem process_reports :
    Conforms (fun _ _ => True) (Reports deps job) (process deps job) [] := by
  refine ⟨trivial, fun delivered => ?_⟩
  cases delivered with
  | error e => exact fun _ => .ledgerFails e
  | ok delivered =>
    cases delivered with
    | true => exact fun _ => .known
    | false =>
      apply regular_call fun _ => id
      intro startedAt
      apply regular_call fun _ => id
      intro _
      refine ⟨trivial, fun fetched => ?_⟩
      cases fetched with
      | error e => exact fail_reports (.fetchFails e)
      | ok articles =>
        cases articles with
        | nil => exact fail_reports .noArticles
        | cons article articles =>
          refine ⟨trivial, fun built => ?_⟩
          cases built with
          | error e => exact fail_reports (.buildFails (article :: articles) e)
          | ok groups =>
            cases groups with
            | nil => exact fail_reports (.noGroups (article :: articles))
            | cons group groups =>
              refine ⟨trivial, fun notified => ?_⟩
              cases notified with
              | error e =>
                exact fail_reports (.notifyFails (article :: articles) (group :: groups) e)
              | ok _ =>
                refine ⟨trivial, fun marked => ?_⟩
                cases marked with
                | error e =>
                  exact fail_reports (.markFails (article :: articles) (group :: groups) e)
                | ok _ =>
                  exact sent_reports (List.cons_ne_nil article articles)
                    (List.cons_ne_nil group groups)

end NewsDigestJobProcessor

end JobManager
