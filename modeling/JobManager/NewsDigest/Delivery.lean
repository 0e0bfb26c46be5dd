import JobManager.Collections.InsertionSet
import JobManager.NewsDigest.Contract

/-! At most one message for each job: the processor with the ledger in memory. -/
namespace JobManager

open Async NewsDigestJobProcessor

structure InMemoryDeliveryLedger where
  delivered : InsertionSet String

/-- The message has gone out. -/
def DigestEvent.isDelivery : DigestEvent → Bool
  | ⟨.notify _, .ok _⟩ => true
  | _ => false

def DigestEvent.logEvent? : DigestEvent → Option LogEvent
  | ⟨.log event, _⟩ => some event
  | _ => none

namespace InMemoryDeliveryLedger

def wasDelivered (ledger : InMemoryDeliveryLedger) (key : String) : Bool :=
  ledger.delivered.has key

def markDelivered (ledger : InMemoryDeliveryLedger) (key : String) : InMemoryDeliveryLedger :=
  ⟨ledger.delivered.add key⟩

/-- `new InMemoryDeliveryLedger()`. -/
def empty : InMemoryDeliveryLedger := ⟨.empty⟩

@[simp] theorem wasDelivered_markDelivered (ledger : InMemoryDeliveryLedger) (key key' : String) :
    (ledger.markDelivered key).wasDelivered key' =
      (decide (key' = key) || ledger.wasDelivered key') :=
  ledger.delivered.has_add key key'

variable {S α : Type}

/-- What answers from beyond the process leaves the ledger alone. -/
def beside (answer : S → α × S) (s : InMemoryDeliveryLedger × S) :
    α × InMemoryDeliveryLedger × S :=
  ((answer s.2).1, s.1, (answer s.2).2)

def collaborators (network : Network S) : Collaborators (InMemoryDeliveryLedger × S) where
  wasDelivered key s := (.ok (s.1.wasDelivered key), s)
  markDelivered key s := (.ok (), s.1.markDelivered key, s.2)
  fetchTodayArticles := beside network.fetchTodayArticles
  buildGroupedDigest articles := beside (network.buildGroupedDigest articles)
  notify text := beside (network.notify text)
  log event s := (s.1, network.log event s.2)
  dateNow := beside network.dateNow

/-- The ledger after an event. -/
def record (ledger : InMemoryDeliveryLedger) : DigestEvent → InMemoryDeliveryLedger
  | ⟨.markDelivered key, .ok _⟩ => ledger.markDelivered key
  | _ => ledger

/-- Each call changes the ledger as its event records. -/
theorem act_record (network : Network S) (c : DigestCall)
    (w : DigestWorld (InMemoryDeliveryLedger × S)) :
    ((collaborators network).act c w).2.collaborators.1 =
      w.collaborators.1.record ⟨c, ((collaborators network).act c w).1⟩ := by
  cases c <;> rfl

end InMemoryDeliveryLedger

namespace NewsDigestJobProcessor

open InMemoryDeliveryLedger (collaborators)

variable {S : Type} {network : Network S} {deps : NewsDigestJobProcessorDeps} {job : Job}

/-- What one run of the processor does, between the ledger before it and the ledger after it. -/
inductive Call (deps : NewsDigestJobProcessorDeps) (job : Job) :
    InMemoryDeliveryLedger → JobProcessOutcome → List DigestEvent → InMemoryDeliveryLedger → Prop
  | known {ledger : InMemoryDeliveryLedger} (hledger : ledger.wasDelivered job.id = true) :
      Call deps job ledger .completed [⟨.wasDelivered job.id, .ok true⟩] ledger
  | sent {ledger : InMemoryDeliveryLedger} (hledger : ledger.wasDelivered job.id = false)
      (startedAt endedAt : ℤ) (articles : List NewsArticle) (groups : List DigestGroup)
      (harticles : articles ≠ []) (hgroups : groups ≠ []) :
      Call deps job ledger .completed (opening deps job startedAt ++ sending job articles groups ++
        closing deps .completed startedAt endedAt ⟨articles.length, groups.length⟩ [])
        (ledger.markDelivered job.id)
  | failed {ledger : InMemoryDeliveryLedger} (hledger : ledger.wasDelivered job.id = false)
      (startedAt endedAt : ℤ) (counts : Counts) {attempt : List DigestEvent}
      (hattempt : ∀ event ∈ attempt, event.isDelivery = false ∧ event.logEvent? = none) :
      Call deps job ledger .failed (opening deps job startedAt ++ attempt ++
        closing deps .failed startedAt endedAt counts [errorEvent job]) ledger

@[simp] theorem foldl_record_logged (events : List LogEvent) (ledger : InMemoryDeliveryLedger) :
    (logged deps events).foldl InMemoryDeliveryLedger.record ledger = ledger := by
  unfold logged
  split
  · induction events with
    | nil => rfl
    | cons event events ih => exact ih
  · rfl

@[simp] theorem countP_isDelivery_closing (outcome : JobProcessOutcome) (startedAt endedAt : ℤ)
    (counts : Counts) (more : List LogEvent) :
    (closing deps outcome startedAt endedAt counts more).countP (·.isDelivery) = 0 := by
  have hlogged : ∀ events, (logged deps events).countP (·.isDelivery) = 0 := by
    intro events
    unfold logged
    split <;> simp [DigestEvent.isDelivery]
  rw [closing, List.countP_append, List.countP_cons, hlogged]
  rfl

@[simp] theorem filterMap_logEvent_closing (outcome : JobProcessOutcome) (startedAt endedAt : ℤ)
    (counts : Counts) (more : List LogEvent) :
    (closing deps outcome startedAt endedAt counts more).filterMap (·.logEvent?) =
      if deps.logger then digestEvent deps outcome (endedAt - startedAt) counts :: more
      else [] := by
  unfold closing logged
  split <;> simp [List.filterMap_map, DigestEvent.logEvent?]

/-- The calls of a `try` block that throws neither send, unless the mark throws, nor log. -/
theorem Attempt.quiet {attempt : List DigestEvent} {counts : Counts}
    (hattempt : Attempt job attempt counts)
    (hmark : ∀ key e, ⟨.markDelivered key, .error e⟩ ∉ attempt) :
    (∀ event ∈ attempt, event.isDelivery = false ∧ event.logEvent? = none) ∧
      ∀ ledger : InMemoryDeliveryLedger, attempt.foldl .record ledger = ledger := by
  cases hattempt with
  | markFails articles groups e => exact absurd (by simp) (hmark job.id e)
  | fetchFails | noArticles | buildFails | noGroups | notifyFails =>
    exact ⟨by simp [DigestEvent.isDelivery, DigestEvent.logEvent?], fun _ => rfl⟩

theorem Report.call {ledger : InMemoryDeliveryLedger} {result : Except Thrown JobProcessOutcome}
    {es : List DigestEvent} (hreport : Report deps job result es)
    (hlookup : es.head? = some ⟨.wasDelivered job.id, .ok (ledger.wasDelivered job.id)⟩)
    (hmark : ∀ key e, ⟨.markDelivered key, .error e⟩ ∉ es) :
    ∃ outcome, result = .ok outcome ∧
      Call deps job ledger outcome es (es.foldl .record ledger) := by
  cases hreport with
  | ledgerFails e => simp at hlookup
  | known =>
    have hledger : ledger.wasDelivered job.id = true := by simpa using hlookup.symm
    exact ⟨.completed, rfl, .known hledger⟩
  | sent startedAt endedAt articles groups harticles hgroups =>
    have hledger : ledger.wasDelivered job.id = false := by simpa [opening] using hlookup.symm
    refine ⟨.completed, rfl, ?_⟩
    have hcall := @Call.sent deps job ledger hledger startedAt endedAt articles groups
      harticles hgroups
    simpa [opening, sending, closing, InMemoryDeliveryLedger.record] using hcall
  | @failed startedAt endedAt attempt counts hattempt =>
    have hledger : ledger.wasDelivered job.id = false := by simpa [opening] using hlookup.symm
    refine ⟨.failed, rfl, ?_⟩
    obtain ⟨hquiet, hrecord⟩ := hattempt.quiet fun key e hmem => hmark key e (by simp [hmem])
    have hcall := @Call.failed deps job ledger hledger startedAt endedAt counts attempt hquiet
    simpa [opening, closing, InMemoryDeliveryLedger.record, hrecord] using hcall

/-- Every run of the processor is a call. -/
theorem process_call (w : DigestWorld (InMemoryDeliveryLedger × S)) :
    ∃ outcome, (eval (collaborators network).act (process deps job) w).1 = .ok outcome ∧
      Call deps job w.collaborators.1 outcome (events (collaborators network) deps job w)
        (eval (collaborators network).act (process deps job) w).2.collaborators.1 := by
  have hledger := eval_foldl (p := process deps job) (fun w => w.collaborators.1)
    (InMemoryDeliveryLedger.act_record network) 0 job w
  rw [hledger]
  refine (eval_report (collaborators network) deps job w).call rfl fun key e hmem => ?_
  obtain ⟨entry, hentry, hevent⟩ := List.mem_map.mp hmem
  obtain ⟨c, w', rfl⟩ := exists_of_mem_calls hentry
  cases c <;> cases hevent

namespace Call

variable {before after : InMemoryDeliveryLedger} {outcome : JobProcessOutcome}
  {es : List DigestEvent}

theorem completed_iff (hcall : Call deps job before outcome es after) :
    outcome = .completed ↔ after.wasDelivered job.id = true := by
  cases hcall with
  | known hledger => simp [hledger]
  | sent => simp
  | failed hledger => simp [hledger]

/-- Each message that goes out is a new key of the ledger. -/
theorem deliveries (hcall : Call deps job before outcome es after) (key : String) :
    (if after.wasDelivered key then 1 else 0) = (if before.wasDelivered key then 1 else 0) +
      if job.id = key then es.countP (·.isDelivery) else 0 := by
  cases hcall with
  | known => simp [DigestEvent.isDelivery]
  | sent hledger =>
    rw [List.countP_append, List.countP_append, countP_isDelivery_closing]
    by_cases hkey : job.id = key
    · subst hkey
      simp only [hledger]
      simp [opening, sending, DigestEvent.isDelivery]
    · simp [hkey, Ne.symm hkey]
  | failed hledger startedAt endedAt counts hattempt =>
    have hquiet := List.countP_eq_zero.mpr fun e he => Bool.eq_false_iff.mp (hattempt e he).1
    rw [List.countP_append, List.countP_append, countP_isDelivery_closing, hquiet]
    simp [opening, DigestEvent.isDelivery]

theorem mono (hcall : Call deps job before outcome es after) {key : String}
    (hkey : before.wasDelivered key = true) : after.wasDelivered key = true := by
  cases hcall with
  | sent => simp [hkey]
  | known | failed => exact hkey

theorem enters (hcall : Call deps job before outcome es after) {key : String}
    (hbefore : before.wasDelivered key = false) (hafter : after.wasDelivered key = true) :
    key = job.id ∧ ∃ articles groups, articles ≠ [] ∧ groups ≠ [] ∧
      sending job articles groups <:+: es := by
  cases hcall with
  | sent hledger startedAt endedAt articles groups harticles hgroups =>
    refine ⟨by simpa [hbefore] using hafter, articles, groups, harticles, hgroups, ?_⟩
    exact List.infix_append _ _ _
  | known | failed =>
    rw [hbefore] at hafter
    cases hafter

theorem of_known (hcall : Call deps job before outcome es after)
    (hknown : before.wasDelivered job.id = true) :
    outcome = .completed ∧ es = [⟨.wasDelivered job.id, .ok true⟩] := by
  cases hcall with
  | known => exact ⟨rfl, rfl⟩
  | sent hledger | failed hledger =>
    rw [hknown] at hledger
    cases hledger

theorem of_failed (hcall : Call deps job before .failed es after) :
    after = before ∧ ∃ digestDurationMs counts, es.filterMap (·.logEvent?) =
      if deps.logger then [digestEvent deps .failed digestDurationMs counts, errorEvent job]
      else [] := by
  cases hcall with
  | failed hledger startedAt endedAt counts hattempt =>
    have hquiet := List.filterMap_eq_nil_iff.mpr fun e he => (hattempt e he).2
    refine ⟨rfl, endedAt - startedAt, counts, ?_⟩
    rw [List.filterMap_append, List.filterMap_append, filterMap_logEvent_closing, hquiet]
    rfl

end Call

/-- The calls of the processor with one ledger. -/
abbrev DeliveryRun (S : Type) :=
  Execution DigestCall.Answer Thrown (fun _ : Job => JobProcessOutcome)
    (DigestWorld (InMemoryDeliveryLedger × S))

namespace DeliveryRun

/-- One call after the other; `network i` is what the call with number `i` finds. -/
def run (network : ℕ → Network S) (deps : NewsDigestJobProcessorDeps) (s : S) (jobs : List Job) :
    DeliveryRun S :=
  sequential (process deps) (fun network : Network S => (collaborators network).act) network
    ⟨(.empty, s), none⟩ jobs

def ledger (x : DeliveryRun S) : InMemoryDeliveryLedger := x.state.collaborators.1

/-- The events of the call with number `i`. -/
def eventsOf (x : DeliveryRun S) (i : ℕ) : List DigestEvent :=
  (x.trace.filter (·.fiber = i)).map Entry.event

/-- How often a message went out for jobs with this id. -/
def deliveries (x : DeliveryRun S) (id : String) : ℕ :=
  x.trace.countP fun e => e.request.id = id ∧ DigestEvent.isDelivery e.event

variable (networks : ℕ → Network S) (s : S) {jobs : List Job}

theorem run_call {i : ℕ} (hjob : jobs[i]? = some job) :
    ∃ outcome, (run networks deps s jobs).results[i]? = some ⟨job, .ok outcome⟩ ∧
      Call deps job (run networks deps s (jobs.take i)).ledger outcome
        ((run networks deps s jobs).eventsOf i)
        (run networks deps s (jobs.take (i + 1))).ledger := by
  obtain ⟨outcome, hresult, hcall⟩ := @process_call S (networks i) deps job
    (run networks deps s (jobs.take i)).state
  refine ⟨outcome, ?_, ?_⟩
  · rw [run, sequential_results _ _ _ _ hjob]
    exact congrArg (fun r => some (Sigma.mk job r)) hresult
  · have hevents : (run networks deps s jobs).eventsOf i =
        events (collaborators (networks i)) deps job (run networks deps s (jobs.take i)).state := by
      rw [eventsOf, run, sequential_calls _ _ _ _ hjob]
      exact map_event_calls i 0 job job _
    have hledger : (run networks deps s (jobs.take (i + 1))).ledger =
        (eval (collaborators (networks i)).act (process deps job)
          (run networks deps s (jobs.take i)).state).2.collaborators.1 := by
      rw [ledger, run, sequential_state_succ _ _ _ _ hjob, run]
    rw [hevents, hledger]
    exact hcall

/-- The messages of one call go out for its own job. -/
theorem countP_calls (network : Network S) (i : ℕ) (id : String)
    (w : DigestWorld (InMemoryDeliveryLedger × S)) :
    (calls (collaborators network).act i job (process deps job) w).countP
        (fun e => e.request.id = id ∧ DigestEvent.isDelivery e.event) =
      if job.id = id then (events (collaborators network) deps job w).countP (·.isDelivery)
      else 0 := by
  have hown : ∀ e ∈ calls (collaborators network).act i job (process deps job) w,
      e.request = job := by
    intro e he
    obtain ⟨c, w', rfl⟩ := exists_of_mem_calls he
    rfl
  rw [events, map_event_calls 0 i job job]
  split
  · next hid =>
    rw [List.countP_map]
    refine List.countP_congr fun e he => ?_
    simp [hown e he, hid]
  · next hid =>
    rw [List.countP_eq_zero]
    intro e he
    simp [hown e he, hid]

/-- Every key of the ledger stands for one message, every other key for none. -/
theorem deliveries_run (id : String) : (run networks deps s jobs).deliveries id =
    if (run networks deps s jobs).ledger.wasDelivered id then 1 else 0 := by
  induction jobs using List.reverseRecOn with
  | nil => rfl
  | append_singleton jobs job ih =>
    obtain ⟨outcome, -, hcall⟩ := @process_call S (networks jobs.length) deps job
      (run networks deps s jobs).state
    have hnext : run networks deps s (jobs ++ [job]) =
        (run networks deps s jobs).next (process deps)
          (fun network : Network S => (collaborators network).act) networks job :=
      sequential_append_singleton _ _ _ _ jobs job
    have hlength : (run networks deps s jobs).results.length = jobs.length :=
      length_sequential _ _ _ _ jobs
    rw [hnext, deliveries, ledger, Execution.next, hlength]
    dsimp only
    rw [List.countP_append, countP_calls, ← deliveries, ih]
    exact (hcall.deliveries id).symm

/-- What the ledger holds, it holds in every later state. -/
theorem ledger_mono {id : String} {i j : ℕ} (hij : i ≤ j)
    (hid : (run networks deps s (jobs.take i)).ledger.wasDelivered id = true) :
    (run networks deps s (jobs.take j)).ledger.wasDelivered id = true := by
  induction j, hij using Nat.le_induction with
  | base => exact hid
  | succ j hij ih =>
    cases hjob : jobs[j]? with
    | none =>
      rw [List.getElem?_eq_none_iff] at hjob
      rwa [List.take_of_length_le (Nat.le_succ_of_le hjob), ← List.take_of_length_le hjob]
    | some job =>
      obtain ⟨outcome, -, hcall⟩ := run_call networks s hjob
      exact hcall.mono ih

end DeliveryRun

/-- What a call with this outcome and these events may do to the ledger. -/
structure DeliversOnce (deps : NewsDigestJobProcessorDeps) (job : Job)
    (before : InMemoryDeliveryLedger) (outcome : JobProcessOutcome) (es : List DigestEvent)
    (after : InMemoryDeliveryLedger) : Prop where
  completed_iff : outcome = .completed ↔ after.wasDelivered job.id = true
  enters : ∀ id, before.wasDelivered id = false → after.wasDelivered id = true →
    id = job.id ∧ ∃ articles groups, articles ≠ [] ∧ groups ≠ [] ∧
      sending job articles groups <:+: es
  failed : outcome = .failed → after = before ∧ ∃ digestDurationMs counts,
    es.filterMap (·.logEvent?) =
      if deps.logger then [digestEvent deps .failed digestDurationMs counts, errorEvent job] else []

theorem Call.deliversOnce {before after : InMemoryDeliveryLedger} {outcome : JobProcessOutcome}
    {es : List DigestEvent} (hcall : Call deps job before outcome es after) :
    DeliversOnce deps job before outcome es after where
  completed_iff := hcall.completed_iff
  enters _ hbefore hafter := hcall.enters hbefore hafter
  failed houtcome := by
    subst houtcome
    exact hcall.of_failed

/-- At most one message goes out for each job, whatever the network does to each call. -/
theorem delivered_at_most_once (S : Type) (networks : ℕ → Network S) (s : S)
    (deps : NewsDigestJobProcessorDeps) (jobs : List Job) :
    (∀ id, (DeliveryRun.run networks deps s jobs).deliveries id ≤ 1) ∧
      ∀ i job, jobs[i]? = some job → ∃ outcome,
        (DeliveryRun.run networks deps s jobs).results[i]? = some ⟨job, .ok outcome⟩ ∧
        DeliversOnce deps job (DeliveryRun.run networks deps s (jobs.take i)).ledger outcome
          ((DeliveryRun.run networks deps s jobs).eventsOf i)
          (DeliveryRun.run networks deps s (jobs.take (i + 1))).ledger ∧
        ∀ j ≤ i, (DeliveryRun.run networks deps s (jobs.take j)).ledger.wasDelivered job.id = true →
          outcome = .completed ∧ (DeliveryRun.run networks deps s jobs).eventsOf i =
            [⟨.wasDelivered job.id, .ok true⟩] := by
  refine ⟨fun id => ?_, fun i job hjob => ?_⟩
  · rw [DeliveryRun.deliveries_run]
    split <;> omega
  · obtain ⟨outcome, hresult, hcall⟩ := DeliveryRun.run_call networks s hjob
    refine ⟨outcome, hresult, hcall.deliversOnce, fun j hj hknown => ?_⟩
    exact hcall.of_known (DeliveryRun.ledger_mono networks s hj hknown)

end NewsDigestJobProcessor

end JobManager
