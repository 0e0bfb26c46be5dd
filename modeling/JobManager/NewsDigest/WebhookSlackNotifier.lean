import JobManager.Async.Conforms
import JobManager.NewsDigest.DigestMessage
import JobManager.NewsDigest.GeminiNewsDigestBuilder

/-! The notifier that posts a message to a Slack webhook. -/
namespace JobManager

/-- What the notifier asks of the network; an abort is a rejection of the call in flight. -/
inductive SlackCall where
  | fetch (url : String) (init : RequestInit)
  deriving DecidableEq, Repr

abbrev SlackCall.Answer : SlackCall → Type
  | .fetch _ _ => FetchResponse

namespace WebhookSlackNotifier

def requestInit (text : String) : RequestInit where
  method := "POST"
  headers := [("content-type", "application/json")]
  body := Json.stringify (N := ℕ) (.object [("text", .string text)])

def notify (notifier : WebhookSlackNotifier) (text : String) :
    Async SlackCall SlackCall.Answer Thrown Unit := do
  let res ← Async.perform (.fetch notifier.webhookUrl (requestInit text))
  if !res.ok then .settled (.error s!"Slack 알림 전송 실패: HTTP {res.status}")
  else pure ()

/-- What is posted has an angle bracket only where the message has one. -/
theorem requestInit_notMem {text : String} {x : Char} (hx : x = '<' ∨ x = '>')
    (htext : x ∉ text.toList) : x ∉ (requestInit text).body.toList := by
  have hquote : x ∉ (Json.quote text).toList := fun hmem => by
    rcases Json.mem_quote hmem with hmem | hmem
    · exact htext hmem
    · rcases hx with rfl | rfl <;> exact absurd hmem (by decide)
  have hbefore : x ∉ ("\x7b" ++ (Json.quote "text" ++ ":")).toList := by
    rcases hx with rfl | rfl <;> decide
  have hafter : x ∉ "\x7d".toList := by
    rcases hx with rfl | rfl <;> decide
  simp only [requestInit, Json.stringify, Json.stringifyFields, String.intercalate_singleton,
    String.toList_append, List.mem_append, not_or] at hbefore hafter ⊢
  exact ⟨⟨hbefore.1, hbefore.2, hquote⟩, hafter⟩

/-- One post, and no error only if it has been accepted. -/
theorem notify_conforms (notifier : WebhookSlackNotifier) (text : String) :
    Async.Conforms (fun h c => h = [] ∧ c = .fetch notifier.webhookUrl (requestInit text))
      (fun r h => ∃ x, h = [⟨.fetch notifier.webhookUrl (requestInit text), x⟩] ∧
        (r = .ok () ↔ ∃ res, x = .ok res ∧ res.ok = true))
      (notifier.notify text) [] := by
  refine ⟨⟨rfl, rfl⟩, fun x => ?_⟩
  rcases x with e | ⟨ok, status⟩
  · exact ⟨_, rfl, nofun, nofun⟩
  · cases ok with
    | false => exact ⟨_, rfl, nofun, fun ⟨_, hres, hok⟩ => by cases hres; cases hok⟩
    | true => exact ⟨_, rfl, fun _ => ⟨_, rfl, rfl⟩, fun _ => rfl⟩

end WebhookSlackNotifier

end JobManager
