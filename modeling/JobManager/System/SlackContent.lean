import JobManager.NewsDigest.WebhookSlackNotifier
import JobManager.System.Deliveries

/-! What is posted to Slack, over all runs of the application. -/
namespace JobManager

open Async

/-- Whoever is about to send a message has asked the ledger. -/
theorem asked_of_looked {h : List AppEvent} {key : String} (hphase : phase h = .looked key) :
    ∃ job, ⟨.digest job (.wasDelivered key), .ok false⟩ ∈ h := by
  induction h using List.reverseRecOn with
  | nil => cases hphase
  | append_singleton h event ih =>
    have hkeep : phase h = .looked key →
        ∃ job, ⟨.digest job (.wasDelivered key), .ok false⟩ ∈ h ++ [event] :=
      fun hphase => (ih hphase).imp fun _ hmem => List.mem_append_left _ hmem
    rw [phase_snoc] at hphase
    obtain ⟨c, x⟩ := event
    cases c with
    | effect c =>
      rcases (phase h).afterCall_effect c x with heq | heq <;> rw [heq] at hphase
      · exact hkeep hphase
      · cases hphase
    | digest job c =>
      change (phase h).after ⟨c, x⟩ = .looked key at hphase
      rcases (phase h).after_cases ⟨c, x⟩ with
        heq | heq | ⟨key', hevent, heq⟩ | ⟨_, _, -, -, heq⟩ <;> rw [heq] at hphase
      · exact hkeep hphase
      · cases hphase
      · cases hphase
        cases hevent
        exact ⟨job, List.mem_append_right _ List.mem_cons_self⟩
      · cases hphase

theorem call_of_delivers {id : String} {event : AppEvent} (h : AppEvent.delivers id event = true) :
    ∃ job text, job.id = id ∧ event.call = .digest job (.notify text) := by
  unfold AppEvent.delivers at h
  split at h
  case h_1 job text _ => exact ⟨job, text, of_decide_eq_true h, rfl⟩
  case h_2 => cases h

section

variable [LowerCase] [ClassValidator ℚ] [Http.ValidationMessages] {processor : JobProcessor}
  {supportedJobTypes : SupportedJobTypes} {allowed : ServiceRequest → Prop} {s : Store} {p : App}

/-- In every run, with the overrun guard or without it, a message is sent only for a job that the
same tick has claimed and that is routed to the news processor, after the ledger has said that there
has been none; it is the digest of what has been fetched and built for the job, and what is posted
has no angle bracket, so that a headline cannot bring in a mention or a link of its own. -/
theorem slack_message_is_digest
    (h : App.Reachable processor supportedJobTypes allowed s p)
    {before after : List AppEntry} {e : AppEntry} (htrace : p.trace = before ++ e :: after)
    {job : Job} {text : String} (he : e.event.call = .digest job (.notify text)) :
    (processor.route job).isNewsDigest = true ∧ ClaimedIn job (history e.fiber before) ∧
      (∃ job', ⟨.digest job' (.wasDelivered job.id), .ok false⟩ ∈ history e.fiber before) ∧
      ComposedIn job text (history e.fiber before) ∧
      ∀ notifier : WebhookSlackNotifier, Conforms
        (fun _ c => ∃ init, c = .fetch notifier.webhookUrl init ∧ '<' ∉ init.body.toList ∧
          '>' ∉ init.body.toList)
        (fun _ _ => True) (notifier.notify text) [] := by
  have hp := Pool.Reachable.conforming h fun q _ => app_conforms supportedJobTypes q
  have hocc := hp.valid.occurs htrace
  have hwork : AtWork processor job (history e.fiber before) (.notify text) := by
    have hguar := hocc.guar
    rw [he] at hguar
    exact hguar
  have hcomposed := hwork.composed text rfl
  refine ⟨hwork.routed, hwork.claimed, asked_of_looked hwork.allowed, hcomposed,
    fun notifier => (notifier.notify_conforms text).mono (fun _ c hc => ⟨_, hc.2, ?_⟩)
      fun _ _ _ => trivial⟩
  obtain ⟨articles, groups, -, -, rfl, -, -⟩ := hcomposed
  have hescapes := formatDigestMessage_escapes job.title groups
  exact ⟨WebhookSlackNotifier.requestInit_notMem (.inl rfl) hescapes.lt,
    WebhookSlackNotifier.requestInit_notMem (.inr rfl) hescapes.gt⟩

omit [LowerCase] [ClassValidator ℚ] [Http.ValidationMessages] in
theorem slack_message_is_digest_tick :
    letI := LowerCase.ascii
    letI := ClassValidator.codePoints ℚ
    letI : Http.ValidationMessages := ⟨fun _ _ => []⟩
    ∃ p, App.Reachable digestProcessor ⟨fun _ => true, []⟩ (fun _ => True) Store.onePending p ∧
      ∃ before e after job text, p.trace = before ++ e :: after ∧
        e.event.call = .digest job (.notify text) ∧
        ComposedIn job text (history e.fiber before) := by
  let _ := LowerCase.ascii
  let _ := ClassValidator.codePoints ℚ
  let _ : Http.ValidationMessages := ⟨fun _ _ => []⟩
  obtain ⟨p, hp, e, he, hdelivers⟩ : ∃ p, App.Reachable digestProcessor ⟨fun _ => true, []⟩
      (fun _ => True) Store.onePending p ∧ ∃ e ∈ p.trace, AppEvent.delivers "1" e.event = true :=
    Async.Pool.exists_reachable digestTick _ _ (by decide +kernel)
  obtain ⟨before, after, htrace⟩ := List.append_of_mem he
  obtain ⟨job, text, -, hcall⟩ := call_of_delivers hdelivers
  exact ⟨p, hp, before, e, after, job, text, htrace, hcall,
    (slack_message_is_digest hp htrace hcall).2.2.2.1⟩

end

end JobManager
