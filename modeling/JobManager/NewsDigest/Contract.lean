import JobManager.Async.Sequential
import JobManager.NewsDigest.Report

/-! The processor among collaborators that may do anything. -/
namespace JobManager

open Async

/-- What is beyond the process, over a state of its own. The logger and the clock do not throw. -/
structure Network (S : Type) where
  fetchTodayArticles : S → Except Thrown (List NewsArticle) × S
  buildGroupedDigest : List NewsArticle → S → Except Thrown (List DigestGroup) × S
  notify : String → S → Except Thrown Unit × S
  log : LogEvent → S → S
  dateNow : S → ℤ × S

structure Collaborators (S : Type) extends Network S where
  wasDelivered : String → S → Except Thrown Bool × S
  markDelivered : String → S → Except Thrown Unit × S

/-- The state of the collaborators beside the timer of the processor. -/
structure DigestWorld (S : Type) where
  collaborators : S
  timer : Option ℕ

namespace Collaborators

variable {S : Type} (k : Collaborators S)

/-- A collaborator answers and leaves the timer alone. -/
def ask {α : Type} (answer : S → Except Thrown α × S) (w : DigestWorld S) :
    Except Thrown α × DigestWorld S :=
  ((answer w.collaborators).1, { w with collaborators := (answer w.collaborators).2 })

def act : (c : DigestCall) → DigestWorld S → Except Thrown c.Answer × DigestWorld S
  | .wasDelivered key, w => ask (k.wasDelivered key) w
  | .markDelivered key, w => ask (k.markDelivered key) w
  | .fetchTodayArticles, w => ask k.fetchTodayArticles w
  | .buildGroupedDigest articles, w => ask (k.buildGroupedDigest articles) w
  | .notify text, w => ask (k.notify text) w
  | .log event, w => ask (fun s => (.ok (), k.log event s)) w
  | .dateNow, w => ask (fun s => (.ok (k.dateNow s).1, (k.dateNow s).2)) w
  | .setTimeout timeoutMs, w => (.ok (), { w with timer := some timeoutMs })
  | .clearTimeout, w => (.ok (), { w with timer := none })

theorem act_regular (c : DigestCall) (w : DigestWorld S) :
    DigestEvent.Regular ⟨c, (k.act c w).1⟩ := by
  cases c <;> trivial

end Collaborators

namespace NewsDigestJobProcessor

variable {S : Type} (k : Collaborators S) (deps : NewsDigestJobProcessorDeps) (job : Job)

/-- The calls of a run, in order. -/
def events (w : DigestWorld S) : List DigestEvent :=
  (calls k.act 0 job (process deps job) w).map Entry.event

/-- A run reports whatever its collaborators do. -/
theorem eval_report (w : DigestWorld S) :
    Report deps job (eval k.act (process deps job) w).1 (events k deps job w) := by
  refine process_reports.eval_post 0 job w fun event hevent => ?_
  rw [List.nil_append, List.mem_map] at hevent
  obtain ⟨e, he, rfl⟩ := hevent
  obtain ⟨c, w', rfl⟩ := exists_of_mem_calls he
  exact k.act_regular c w'

variable {k deps job}

/-- The `finally` block is reached whenever the timer was set. -/
theorem eval_timer {w : DigestWorld S} (hw : w.timer = none) :
    (eval k.act (process deps job) w).2.timer = none := by
  rw [process, eval_bind, eval_perform]
  cases hlookup : k.act (.wasDelivered (deriveDeliveryKey job)) w with | mk answer w' =>
  have hw' : w'.timer = none := (congrArg (·.2.timer) hlookup).symm.trans hw
  cases answer with
  | error e => exact hw'
  | ok delivered =>
    cases delivered with
    | true => exact hw'
    | false =>
      change (eval k.act (tryFinally _ _) _).2.timer = none
      rw [eval_tryFinally_state]
      rfl

/-- The lookup before the `try` block is the only call whose exception leaves `process`. -/
theorem eval_isOk (w : DigestWorld S) :
    (∃ outcome, (eval k.act (process deps job) w).1 = .ok outcome) ↔
      ∃ delivered, (k.wasDelivered job.id w.collaborators).1 = .ok delivered := by
  have hreport := eval_report k deps job w
  have hfirst : (events k deps job w).head? =
      some ⟨.wasDelivered job.id, (k.wasDelivered job.id w.collaborators).1⟩ := rfl
  generalize (eval k.act (process deps job) w).1 = result at hreport
  generalize events k deps job w = es at hreport hfirst
  generalize (k.wasDelivered job.id w.collaborators).1 = answer at hfirst
  cases hreport with
  | ledgerFails e =>
    obtain rfl : .error e = answer := by simpa using hfirst
    simp
  | known =>
    obtain rfl : .ok true = answer := by simpa using hfirst
    simp
  | sent =>
    obtain rfl : .ok false = answer := by simpa [opening] using hfirst
    simp
  | failed =>
    obtain rfl : .ok false = answer := by simpa [opening] using hfirst
    simp

/-- `process` resolves and clears its timer exactly if the ledger answers the lookup of the key. -/
theorem process_resolves_iff (S : Type) (k : Collaborators S) (s : S)
    (deps : NewsDigestJobProcessorDeps) (job : Job) :
    ((∃ outcome, (eval k.act (process deps job) ⟨s, none⟩).1 = .ok outcome) ∧
        (eval k.act (process deps job) ⟨s, none⟩).2.timer = none) ↔
      ∃ delivered, (k.wasDelivered job.id s).1 = .ok delivered := by
  constructor
  · rintro ⟨hok, -⟩
    exact (eval_isOk ⟨s, none⟩).mp hok
  · intro hlookup
    exact ⟨(eval_isOk ⟨s, none⟩).mpr hlookup, eval_timer rfl⟩

/-- A ledger that cannot be read; the other collaborators have nothing to say. -/
def unreadableLedger : Collaborators Unit where
  wasDelivered _ s := (.error "ledger unavailable", s)
  markDelivered _ s := (.error "ledger unavailable", s)
  fetchTodayArticles s := (.ok [], s)
  buildGroupedDigest _ s := (.ok [], s)
  notify _ s := (.ok (), s)
  log _ s := s
  dateNow s := (0, s)

/-- The exception of an unreadable ledger leaves `process`. -/
theorem process_rejects :
    ¬ ∀ (S : Type) (k : Collaborators S) (s : S) (deps : NewsDigestJobProcessorDeps) (job : Job),
      (∃ outcome, (eval k.act (process deps job) ⟨s, none⟩).1 = .ok outcome) ∧
        (eval k.act (process deps job) ⟨s, none⟩).2.timer = none := by
  intro hcontract
  obtain ⟨⟨outcome, houtcome⟩, -⟩ := hcontract Unit unreadableLedger () ⟨10000, "gemini", true⟩
    ⟨"job-1", "news-digest", "", .processing, 0, "", ""⟩
  cases houtcome

end NewsDigestJobProcessor

end JobManager
