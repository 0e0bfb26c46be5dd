import JobManager.Persistence.Operations
import JobManager.Text.Whitespace

/-! The settings of the news digest, read from the environment variables. -/
namespace JobManager

open Text

/-- The double nearest to a natural number, ties to even; `none` where that is infinite. -/
def toDouble (n : ℕ) : Option ℕ :=
  let shift := Nat.size n - 53
  let quotient := n / 2 ^ shift
  let remainder := n % 2 ^ shift
  let up := 2 ^ shift < 2 * remainder ∨ (2 ^ shift = 2 * remainder ∧ quotient % 2 = 1)
  let rounded := (if up then quotient + 1 else quotient) * 2 ^ shift
  if rounded < 2 ^ 1024 then some rounded else none

/-- `Number.parseInt(text, 10)` of a trimmed text: a sign and the digits it begins with. The answer
is `none` where it is not finite: `NaN` without a digit, or infinite. -/
def parseInt (text : String) : Option ℤ :=
  let (sign, rest) : ℤ × List Char := match text.toList with
    | '-' :: rest => (-1, rest)
    | '+' :: rest => (1, rest)
    | rest => (1, rest)
  let digits := rest.takeWhile Char.isDigit
  if digits = [] then none
  else (toDouble (digits.foldl (fun n c => 10 * n + (c.toNat - '0'.toNat)) 0)).map (sign * ·)

structure NewsDigestConfig where
  enabled : Bool
  jobTitle : String
  newsFeedUrl : String
  maxHeadlines : ℕ
  geminiApiKey : String
  geminiModel : String
  slackWebhookUrl : String
  timeoutMs : ℕ
  deriving DecidableEq, Repr

def defaultNewsDigestJobTitle : String := "news-digest"

def defaultNewsFeedUrl : String := "https://news.google.com/rss?hl=ko&gl=KR&ceid=KR:ko"

def defaultGeminiModel : String := "gemini-flash-lite-latest"

def defaultNewsDigestTimeoutMs : ℕ := 10000

def defaultMaxHeadlines : ℕ := 15

/-- `(env.NAME ?? '').trim()`. -/
def envText (env : String → Option String) (name : String) : String :=
  trim ((env name).getD "")

/-- `text || fallback`. -/
def orDefault (text fallback : String) : String := if text = "" then fallback else text

/-- A finite and positive number, or else the default. -/
def positiveOr (number : Option ℤ) (fallback : ℕ) : ℕ :=
  match number with
  | some n => if 0 < n then n.toNat else fallback
  | none => fallback

def readNewsDigestConfig [LowerCase] (env : String → Option String) : NewsDigestConfig :=
  let geminiApiKey := envText env "GEMINI_API_KEY"
  let slackWebhookUrl := envText env "SLACK_WEBHOOK_URL"
  let flag := toLowerCase (envText env "NEWS_DIGEST_ENABLED") = "true"
  let timeoutRaw := parseInt (envText env "NEWS_DIGEST_TIMEOUT_MS")
  let maxHeadlinesRaw := parseInt (envText env "NEWS_DIGEST_MAX_HEADLINES")
  { enabled := flag ∧ 0 < geminiApiKey.length ∧ 0 < slackWebhookUrl.length
    jobTitle := orDefault (envText env "NEWS_DIGEST_JOB_TITLE") defaultNewsDigestJobTitle
    newsFeedUrl := orDefault (envText env "NEWS_FEED_URL") defaultNewsFeedUrl
    maxHeadlines := positiveOr maxHeadlinesRaw defaultMaxHeadlines
    geminiApiKey := geminiApiKey
    geminiModel := orDefault (envText env "GEMINI_MODEL") defaultGeminiModel
    slackWebhookUrl := slackWebhookUrl
    timeoutMs := positiveOr timeoutRaw defaultNewsDigestTimeoutMs }

/-- What every setting that was read satisfies; the secrets are there if the digest is enabled. -/
structure NewsDigestConfig.Normal (config : NewsDigestConfig) : Prop where
  texts : ∀ text ∈ [config.jobTitle, config.newsFeedUrl, config.geminiModel],
    Trimmed text ∧ text ≠ ""
  secrets : ∀ secret ∈ [config.geminiApiKey, config.slackWebhookUrl],
    Trimmed secret ∧ (config.enabled = true → secret ≠ "")
  numbers : 0 < config.maxHeadlines ∧ 0 < config.timeoutMs

theorem orDefault_trimmed {text fallback : String} (htext : Trimmed text)
    (hfallback : Trimmed fallback ∧ fallback ≠ "") :
    Trimmed (orDefault text fallback) ∧ orDefault text fallback ≠ "" := by
  unfold orDefault
  split
  · exact hfallback
  · next hne => exact ⟨htext, hne⟩

theorem positiveOr_pos {fallback : ℕ} (number : Option ℤ) (h : 0 < fallback) :
    0 < positiveOr number fallback := by
  unfold positiveOr
  split
  · split
    · omega
    · exact h
  · exact h

theorem defaults_trimmed : ∀ text ∈ [defaultNewsDigestJobTitle, defaultNewsFeedUrl,
    defaultGeminiModel], Trimmed text ∧ text ≠ "" := by decide +kernel

theorem readNewsDigestConfig_normal [LowerCase] (env : String → Option String) :
    (readNewsDigestConfig env).Normal := by
  have htrimmed : ∀ name, Trimmed (envText env name) := fun name => trimmed_trim _
  have hdefault := defaults_trimmed
  simp only [List.forall_mem_cons, List.not_mem_nil, false_implies, implies_true, and_true]
    at hdefault
  obtain ⟨htitle, hfeed, hmodel⟩ := hdefault
  constructor
  · simp only [readNewsDigestConfig, List.forall_mem_cons, List.not_mem_nil, false_implies,
      implies_true, and_true]
    exact ⟨orDefault_trimmed (htrimmed _) htitle, orDefault_trimmed (htrimmed _) hfeed,
      orDefault_trimmed (htrimmed _) hmodel⟩
  · simp only [readNewsDigestConfig, List.forall_mem_cons, List.not_mem_nil, false_implies,
      implies_true, and_true, decide_eq_true_eq]
    exact ⟨⟨htrimmed _, fun h => length_pos_iff.mp h.2.1⟩, htrimmed _,
      fun h => length_pos_iff.mp h.2.2⟩
  · simp only [readNewsDigestConfig]
    exact ⟨positiveOr_pos _ (by decide), positiveOr_pos _ (by decide)⟩

end JobManager
