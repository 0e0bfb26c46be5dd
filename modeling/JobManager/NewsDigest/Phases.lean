import JobManager.Adapters.JobProcessor
import JobManager.NewsDigest.Contract

/-! Where a run of the processor stands with its message: it asks the ledger before it sends, and
marks right after it has sent. -/
namespace JobManager

open Async

/-- Not concerned with a message, about to send one that the ledger does not know, or has sent one
that the ledger does not know yet. -/
inductive Phase where
  | idle
  | looked (key : String)
  | sent (key : String)
  deriving DecidableEq, Repr

namespace Phase

def after : Phase → DigestEvent → Phase
  | _, ⟨.wasDelivered key, .ok false⟩ => looked key
  | looked key, ⟨.notify _, .ok _⟩ => sent key
  | _, ⟨.markDelivered _, _⟩ => idle
  | v, _ => v

def IsSent (v : Phase) : Prop := ∃ key, v = sent key

/-- The calls that are made in a phase by a processor at work on a job. -/
def Allows (v : Phase) (job : Job) : DigestCall → Prop
  | .wasDelivered key => key = job.id ∧ ¬ v.IsSent
  | .notify _ => v = looked job.id
  | .markDelivered key => v = sent key
  | _ => ¬ v.IsSent

end Phase

/-- The message for the job is known to be out. -/
def Known (job : Job) (h : List DigestEvent) : Prop :=
  ⟨.wasDelivered job.id, .ok true⟩ ∈ h ∨ ⟨.markDelivered job.id, .ok ()⟩ ∈ h

/-- The phase after a history that began in another phase. -/
def phaseFrom (v : Phase) (h : List DigestEvent) : Phase := h.foldl Phase.after v

@[simp] theorem phaseFrom_nil (v : Phase) : phaseFrom v [] = v := rfl

@[simp] theorem phaseFrom_snoc (v : Phase) (h : List DigestEvent) (event : DigestEvent) :
    phaseFrom v (h ++ [event]) = (phaseFrom v h).after event := by simp [phaseFrom]

/-- Only the ledger and the notifier lead on; all else goes back to `idle` or stays. -/
theorem Phase.after_cases (v : Phase) (event : DigestEvent) :
    v.after event = v ∨ v.after event = .idle ∨
    (∃ key, event = ⟨.wasDelivered key, .ok false⟩ ∧ v.after event = .looked key) ∨
    ∃ key text, event = ⟨.notify text, .ok ()⟩ ∧ v = .looked key ∧ v.after event = .sent key := by
  unfold Phase.after
  split
  · exact .inr (.inr (.inl ⟨_, rfl, rfl⟩))
  · exact .inr (.inr (.inr ⟨_, _, rfl, rfl, rfl⟩))
  · exact .inr (.inl rfl)
  · exact .inl rfl

/-- Whoever is about to send has asked the ledger, and whoever is about to mark has sent. -/
theorem phaseFrom_idle (h : List DigestEvent) :
    (∀ key, phaseFrom .idle h = .looked key → ⟨.wasDelivered key, .ok false⟩ ∈ h) ∧
    ∀ key, phaseFrom .idle h = .sent key → ∃ text, ⟨.notify text, .ok ()⟩ ∈ h := by
  induction h using List.reverseRecOn with
  | nil => simp
  | append_singleton h event ih =>
    rw [phaseFrom_snoc]
    rcases (phaseFrom .idle h).after_cases event with
      heq | heq | ⟨key, rfl, heq⟩ | ⟨key, text, rfl, -, heq⟩ <;> rw [heq]
    · exact ⟨fun key hkey => List.mem_append_left _ (ih.1 key hkey), fun key hkey =>
        (ih.2 key hkey).imp fun _ => List.mem_append_left _⟩
    · simp
    · refine ⟨fun key' hkey => ?_, by simp⟩
      cases hkey
      exact List.mem_append_right _ (List.mem_singleton_self _)
    · exact ⟨by simp, fun _ _ => ⟨text, List.mem_append_right _ (List.mem_singleton_self _)⟩⟩

/-- Nothing is marked that has not been sent. -/
def MarksSent (h : List DigestEvent) : Prop :=
  ∀ key x, ⟨.markDelivered key, x⟩ ∈ h → ∃ text, ⟨.notify text, .ok ()⟩ ∈ h

/-- The message is the digest of what has been fetched and built. -/
def Composed (job : Job) (text : String) (h : List DigestEvent) : Prop :=
  ∃ articles groups, articles ≠ [] ∧ groups ≠ [] ∧ text = formatDigestMessage job.title groups ∧
    ⟨.fetchTodayArticles, .ok articles⟩ ∈ h ∧ ⟨.buildGroupedDigest articles, .ok groups⟩ ∈ h

/-- The calls of a processor at work on a job, which was in another phase before. -/
def WorkCall (v : Phase) (job : Job) (h : List DigestEvent) (c : DigestCall) : Prop :=
  (phaseFrom v h).Allows job c ∧ ∀ text, c = .notify text → Composed job text h

namespace NewsDigestJobProcessor

/-- What is known of a run of the processor. -/
def Ends (v : Phase) (job : Job) (r : Except Thrown JobProcessOutcome) (h : List DigestEvent) :
    Prop := ¬ (phaseFrom v h).IsSent ∧ (r = .ok .completed → Known job h)

abbrev Proceeds (v : Phase) (job : Job)
    (post : Except Thrown JobProcessOutcome → List DigestEvent → Prop)
    (p : DigestProgram JobProcessOutcome) (h : List DigestEvent) : Prop :=
  Conforms (WorkCall v job) post p h

variable {v : Phase} {deps : NewsDigestJobProcessorDeps} {job : Job} {h : List DigestEvent}

/-- Calls that have nothing to do with the message. -/
def Aside : DigestCall → Prop
  | .log _ | .dateNow | .clearTimeout => True
  | _ => False

theorem Aside.phase {c : DigestCall} (hc : Aside c) (v : Phase) (x : Except Thrown c.Answer) :
    v.after ⟨c, x⟩ = v := by
  cases c with
  | log event | dateNow | clearTimeout => cases v <;> rfl
  | wasDelivered _ | markDelivered _ | fetchTodayArticles | buildGroupedDigest _ | notify _
  | setTimeout _ => exact hc.elim

theorem Aside.workCall {c : DigestCall} (hc : Aside c) (hv : ¬ (phaseFrom v h).IsSent) (job : Job) :
    WorkCall v job h c := by
  cases c with
  | log event | dateNow | clearTimeout => exact ⟨hv, nofun⟩
  | wasDelivered _ | markDelivered _ | fetchTodayArticles | buildGroupedDigest _ | notify _
  | setTimeout _ => exact hc.elim

/-- What is aside neither changes the phase nor what is known, and the `finally` block is aside. -/
theorem proceeds_aside {p : DigestProgram JobProcessOutcome}
    (hp : Conforms (fun _ c => Aside c) (fun r _ => r = .ok .completed → Known job h) p h)
    (hv : ¬ (phaseFrom v h).IsSent) :
    Proceeds v job (Ends v job) (p.tryFinally (Async.perform DigestCall.clearTimeout)) h := by
  have hfinally : Conforms (fun _ c => Aside c) (fun r _ => r = .ok .completed → Known job h)
      (p.tryFinally (Async.perform DigestCall.clearTimeout)) h := by
    refine hp.tryFinally fun r h' hr => ⟨trivial, fun x => ?_⟩
    cases x with
    | error e => exact nofun
    | ok _ => exact hr
  have hkeep : ∀ (h' : List DigestEvent) (c : DigestCall) x,
      ¬ (phaseFrom v h').IsSent ∧ h <+: h' → Aside c →
        ¬ (phaseFrom v (h' ++ [⟨c, x⟩])).IsSent ∧ h <+: h' ++ [⟨c, x⟩] := by
    rintro h' c x ⟨hv, hprefix⟩ hc
    rw [phaseFrom_snoc, hc.phase]
    exact ⟨hv, hprefix.trans (List.prefix_append _ _)⟩
  refine (hfinally.frame ⟨hv, List.prefix_refl h⟩ hkeep).mono
    (fun h' c ⟨hc, hv, _⟩ => hc.workCall hv job) fun r h' ⟨hr, hv, hprefix⟩ => ⟨hv, fun hok => ?_⟩
  exact (hr hok).imp (fun hmem => hprefix.subset hmem) fun hmem => hprefix.subset hmem

theorem log_aside {P : Prop} (event : LogEvent) (hP : P) :
    Conforms (fun _ c => Aside c) (fun _ _ => P) (log deps event) h := by
  unfold log
  split
  · exact ⟨trivial, fun _ => hP⟩
  · exact hP

theorem fail_aside {P : Prop} (startedAt : ℤ) (counts : Counts) :
    Conforms (fun _ c => Aside c) (fun r _ => r = .ok .completed → P)
      (fail deps job startedAt counts) h := by
  refine ⟨trivial, fun x => ?_⟩
  cases x with
  | error e => exact nofun
  | ok endedAt =>
    refine (log_aside _ trivial).bind (fun _ h' _ => ?_) fun e h' _ => nofun
    exact (log_aside _ trivial).bind (fun _ h'' _ => nofun) fun e h'' _ => nofun

/-- The `catch` and `finally` blocks. -/
theorem fail_proceeds {startedAt : ℤ} {counts : Counts} (hv : ¬ (phaseFrom v h).IsSent) :
    Proceeds v job (Ends v job)
      ((fail deps job startedAt counts).tryFinally (Async.perform DigestCall.clearTimeout)) h :=
  proceeds_aside (fail_aside startedAt counts) hv

/-- The end of a `try` block that has marked the message. -/
theorem sent_proceeds {startedAt : ℤ} {counts : Counts} (hv : ¬ (phaseFrom v h).IsSent)
    (hknown : Known job h) : Proceeds v job (Ends v job)
      (Async.tryFinally (do
          let (result, counts) ← (do
            attempt (emitDigestLog deps .completed startedAt counts)
            pure JobProcessOutcome.completed : TryBlock JobProcessOutcome).run.run counts
          match result with
          | .ok outcome => pure outcome
          | .error _ => fail deps job startedAt counts)
        (Async.perform DigestCall.clearTimeout)) h := by
  refine proceeds_aside ⟨trivial, fun x => ?_⟩ hv
  cases x with
  | error e => exact fail_aside startedAt counts
  | ok endedAt =>
    obtain ⟨timeoutMs, model, logger⟩ := deps
    cases logger with
    | false => exact fun _ => hknown
    | true =>
      refine ⟨trivial, fun y => ?_⟩
      cases y with
      | error e => exact fail_aside startedAt counts
      | ok _ => exact fun _ => hknown

/-- Every run of the processor asks, sends and marks in this order. -/
theorem process_proceeds (hv : ¬ v.IsSent) :
    Proceeds v job (Ends v job) (process deps job) [] := by
  refine ⟨⟨⟨rfl, hv⟩, nofun⟩, fun delivered => ?_⟩
  cases delivered with
  | error e => exact ⟨by cases v <;> exact hv, nofun⟩
  | ok delivered =>
    cases delivered with
    | true => exact ⟨by cases v <;> exact hv, fun _ => .inl (List.mem_singleton_self _)⟩
    | false =>
      have hlooked : ¬ (Phase.looked job.id).IsSent := nofun
      refine ⟨⟨hlooked, nofun⟩, fun startedAt => ?_⟩
      cases startedAt with
      | error e => exact ⟨hlooked, nofun⟩
      | ok startedAt =>
        refine ⟨⟨hlooked, nofun⟩, fun timer => ?_⟩
        cases timer with
        | error e => exact ⟨hlooked, nofun⟩
        | ok _ =>
          refine ⟨⟨hlooked, nofun⟩, fun fetched => ?_⟩
          cases fetched with
          | error e => exact fail_proceeds hlooked
          | ok articles =>
            cases articles with
            | nil => exact fail_proceeds hlooked
            | cons article articles =>
              refine ⟨⟨hlooked, nofun⟩, fun built => ?_⟩
              cases built with
              | error e => exact fail_proceeds hlooked
              | ok groups =>
                cases groups with
                | nil => exact fail_proceeds hlooked
                | cons group groups =>
                  refine ⟨⟨rfl, fun text htext => ?_⟩, fun notified => ?_⟩
                  · cases htext
                    exact ⟨article :: articles, group :: groups, List.cons_ne_nil _ _,
                      List.cons_ne_nil _ _, rfl, by simp, by simp⟩
                  cases notified with
                  | error e => exact fail_proceeds hlooked
                  | ok _ =>
                    have hidle : ¬ Phase.idle.IsSent := nofun
                    refine ⟨⟨rfl, nofun⟩, fun marked => ?_⟩
                    cases marked with
                    | error e => exact fail_proceeds hidle
                    | ok _ =>
                      refine sent_proceeds ?_ (.inr ?_)
                      · exact hidle
                      · exact List.mem_append_right _ (List.mem_singleton_self _)

/-- A run on its own that completes has been told of a message, or has sent one. -/
theorem process_sends (deps : NewsDigestJobProcessorDeps) (job : Job) :
    Conforms (WorkCall .idle job)
      (fun r h => r = .ok .completed → ⟨.wasDelivered job.id, .ok true⟩ ∈ h ∨
        ∃ text, ⟨.notify text, .ok ()⟩ ∈ h)
      (process deps job) [] := by
  have hidle : ¬ Phase.idle.IsSent := by simp [Phase.IsSent]
  have hproceeds : Proceeds .idle job (Ends .idle job) (process deps job) [] :=
    process_proceeds hidle
  have hkeep : ∀ h (c : DigestCall) x, MarksSent h → WorkCall .idle job h c →
      MarksSent (h ++ [⟨c, x⟩]) := by
    intro h c x hmarks hc key y hmem
    rcases List.mem_append.mp hmem with hmem | hmem
    · exact (hmarks key y hmem).imp fun _ hnotified => List.mem_append_left _ hnotified
    · cases List.mem_singleton.mp hmem
      exact ((phaseFrom_idle h).2 key hc.1).imp fun _ => List.mem_append_left _
  have hnone : MarksSent [] := by simp [MarksSent]
  refine (hproceeds.frame hnone hkeep).mono (fun _ _ hc => hc.1) ?_
  rintro r h ⟨⟨-, hends⟩, hmarks⟩ hr
  exact (hends hr).imp_right (hmarks job.id _)

end NewsDigestJobProcessor

/-- Whatever the delegation, a run proceeds, and one of the news processor that completes knows that
the message is out. -/
theorem JobProcessor.process_proceeds (processor : JobProcessor) {v : Phase} (hv : ¬ v.IsSent)
    (job : Job) : Conforms
      (fun h c => WorkCall v job h c ∧ (processor.route job).isNewsDigest = true)
      (fun r h => ¬ (phaseFrom v h).IsSent ∧
        (r = .ok .completed → (processor.route job).isNewsDigest = true → Known job h))
      (processor.process job) [] := by
  induction processor with
  | default decide => exact ⟨hv, fun _ hnews => by cases hnews⟩
  | newsDigest newsSource builder notifier deps =>
    exact (NewsDigestJobProcessor.process_proceeds hv).mono (fun _ _ hc => ⟨hc, rfl⟩)
      fun r h hr => ⟨hr.1, fun hok _ => hr.2 hok⟩
  | dispatching matchesJob matched fallback ihmatched ihfallback =>
    unfold process route
    split
    · exact ihmatched
    · exact ihfallback
  | tracing delegate ih => exact ih

end JobManager
