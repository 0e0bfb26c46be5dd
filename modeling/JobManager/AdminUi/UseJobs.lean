import JobManager.AdminUi.JobDetailDialog
import JobManager.Text.Whitespace

/-! The hook that keeps the list of the admin page, with the responses in any order. -/
namespace JobManager

open Text

structure JobListEnvelope where
  items : List JobResponse
  count : ℚ
  deriving DecidableEq, Repr

/-- The request that fetches a list; an absent parameter is left out of the query string. -/
inductive ListCall where
  | listJobs
  | search (title : Option String) (status : Option JobStatus)
  deriving DecidableEq, Repr

/-- No status is the option for all of them. -/
def searchJobs (title : String) (status : Option JobStatus) : ListCall :=
  let title := trim title
  if title = "" ∧ status = none then .listJobs
  else .search (if title = "" then none else some title) status

namespace UseJobs

/-- What `paramsRef` holds. -/
structure Params where
  titleQuery : String
  statusFilter : Option JobStatus
  deriving DecidableEq, Repr

structure ListRequest where
  params : Params
  call : ListCall
  deriving DecidableEq, Repr

/-- The error of a failed request is its message, if what was thrown is an `Error`. -/
abbrev Answer := Except (Option String) JobListEnvelope

/-- The hook between two events. Its requests are numbered as they are issued; the numbers of those
that are in flight and the response that came last are kept beside what the code keeps. -/
structure State where
  params : Params
  jobs : List JobResponse
  count : ℚ
  loading : Bool
  error : Option String
  polling : Bool
  issued : List ListRequest
  inFlight : List ℕ
  lastResponse : Option (ℕ × Answer)

inductive Event where
  | render (params : Params)
  | poll
  | visibilityChange (hidden : Bool)
  | refresh
  | response (number : ℕ) (answer : Answer)

def request (params : Params) : ListRequest where
  params := params
  call := if trim params.titleQuery ≠ "" ∨ params.statusFilter.isSome then
      searchJobs params.titleQuery params.statusFilter
    else .listJobs

/-- `fetchJobs` up to its `await`. -/
def fetchJobs (s : State) : State :=
  { s with
    issued := s.issued ++ [request s.params]
    inFlight := s.inFlight ++ [s.issued.length] }

/-- The rest of `fetchJobs`. -/
def settle (s : State) (answer : Answer) : State :=
  match answer with
  | .ok envelope =>
    { s with jobs := envelope.items, count := envelope.count, error := none, loading := false }
  | .error message =>
    { s with error := some (message.getD "Failed to load jobs"), loading := false }

/-- A render with other parameters runs the effect that fetches them. -/
def step (s : State) : Event → Option State
  | .render params =>
    if params = s.params then some s else some (fetchJobs { s with params, loading := true })
  | .poll => if s.polling then some (fetchJobs s) else none
  | .visibilityChange hidden =>
    if hidden then some { s with polling := false } else some { fetchJobs s with polling := true }
  | .refresh => some (fetchJobs { s with loading := true })
  | .response number answer =>
    if number ∈ s.inFlight then
      some { settle s answer with
        inFlight := s.inFlight.erase number
        lastResponse := some (number, answer) }
    else none

def mount (params : Params) (hidden : Bool) : State :=
  fetchJobs {
    params, jobs := [], count := 0, loading := true, error := none, polling := !hidden
    issued := [], inFlight := [], lastResponse := none }

/-- A run, with the state before each of its events. -/
inductive Run (s₀ : State) : List (State × Event) → State → Prop where
  | nil : Run s₀ [] s₀
  | snoc {steps : List (State × Event)} {s s' : State} (h : Run s₀ steps s) (event : Event)
      (hstep : step s event = some s') : Run s₀ (steps ++ [(s, event)]) s'

/-- With no request in flight and a success as the last response, the list shown is that response,
and its request was issued with the current parameters. -/
def AnswersCurrent (s : State) : Prop :=
  s.inFlight = [] → ∀ number envelope, s.lastResponse = some (number, .ok envelope) →
    s.issued[number]? = some (request s.params) ∧
      s.jobs = envelope.items ∧ s.count = envelope.count

/-- A successful response that leaves no request in flight is that of a request like the one issued
last. -/
def InOrder (s : State) : Event → Prop
  | .response number (.ok _) => s.inFlight = [number] → s.issued[number]? = s.issued.getLast?
  | _ => True

/-- The request issued last asks for the current parameters: every change of them is fetched. -/
def Fetched (s : State) : Prop := s.issued.getLast? = some (request s.params)

variable {s s' s₀ : State} {event : Event}

theorem fetched_mount (params : Params) (hidden : Bool) : Fetched (mount params hidden) := rfl

/-- While a request is in flight nothing is asked of the list. -/
theorem answersCurrent_of_inFlight (h : s.inFlight ≠ []) : AnswersCurrent s :=
  fun hnone => absurd hnone h

theorem inFlight_fetchJobs (s : State) : (fetchJobs s).inFlight ≠ [] := by
  unfold fetchJobs
  exact List.append_ne_nil_of_right_ne_nil _ (List.cons_ne_nil _ _)

/-- What an event does: nothing to the list and the requests, a fetch with the parameters it leaves,
or the settling of a request. -/
inductive StepCases (s : State) (event : Event) (s' : State) : Prop where
  | quiet (params : s'.params = s.params) (jobs : s'.jobs = s.jobs) (count : s'.count = s.count)
      (issued : s'.issued = s.issued) (inFlight : s'.inFlight = s.inFlight)
      (last : s'.lastResponse = s.lastResponse) (inOrder : InOrder s event)
  | fetches (issued : s'.issued = s.issued ++ [request s'.params]) (inFlight : s'.inFlight ≠ [])
      (inOrder : InOrder s event)
  | settles (number : ℕ) (answer : Answer) (isResponse : event = .response number answer)
      (mem : number ∈ s.inFlight) (eq : s' = { settle s answer with
        inFlight := s.inFlight.erase number, lastResponse := some (number, answer) })

theorem step_cases (h : step s event = some s') : StepCases s event s' := by
  cases event with
  | render params =>
    simp only [step] at h
    by_cases hsame : params = s.params
    · rw [if_pos hsame] at h
      cases h
      exact .quiet rfl rfl rfl rfl rfl rfl trivial
    · rw [if_neg hsame] at h
      cases h
      exact .fetches rfl (inFlight_fetchJobs _) trivial
  | poll =>
    simp only [step] at h
    by_cases hpolling : s.polling
    · rw [if_pos hpolling] at h
      cases h
      exact .fetches rfl (inFlight_fetchJobs _) trivial
    · rw [if_neg hpolling] at h
      cases h
  | visibilityChange hidden =>
    cases hidden with
    | true =>
      cases h
      exact .quiet rfl rfl rfl rfl rfl rfl trivial
    | false =>
      cases h
      exact .fetches rfl (inFlight_fetchJobs s) trivial
  | refresh =>
    cases h
    exact .fetches rfl (inFlight_fetchJobs _) trivial
  | response number answer =>
    simp only [step] at h
    by_cases hflight : number ∈ s.inFlight
    · rw [if_pos hflight] at h
      exact .settles number answer rfl hflight (Option.some.inj h).symm
    · rw [if_neg hflight] at h
      cases h

theorem settle_fetched (hfetched : Fetched s) (answer : Answer) : Fetched (settle s answer) := by
  cases answer with
  | ok envelope => exact hfetched
  | error message => exact hfetched

theorem step_fetched (hfetched : Fetched s) (h : step s event = some s') : Fetched s' := by
  cases step_cases h with
  | quiet params _ _ issued _ _ _ =>
    unfold Fetched
    rw [issued, params]
    exact hfetched
  | fetches issued _ _ =>
    unfold Fetched
    rw [issued]
    exact List.getLast?_concat
  | settles number answer _ _ eq =>
    subst eq
    exact settle_fetched hfetched answer

/-- The step that goes wrong is the one that is out of order. -/
theorem answersCurrent_step (hfetched : Fetched s) (hcurrent : AnswersCurrent s)
    (h : step s event = some s') : AnswersCurrent s' ↔ InOrder s event := by
  cases step_cases h with
  | quiet params jobs count issued inFlight last inOrder =>
    apply iff_of_true _ inOrder
    unfold AnswersCurrent
    rw [params, jobs, count, issued, inFlight, last]
    exact hcurrent
  | fetches _ inFlight inOrder =>
    exact iff_of_true (answersCurrent_of_inFlight inFlight) inOrder
  | settles number answer isResponse mem eq =>
    subst eq isResponse
    cases answer with
    | error message =>
      apply iff_of_true _ trivial
      intro _ number' envelope' hlast
      cases hlast
    | ok envelope =>
      have hlast : s.inFlight.erase number = [] ↔ s.inFlight = [number] := by
        rw [List.erase_eq_nil_iff]
        apply or_iff_right
        rintro hnil
        rw [hnil] at mem
        cases mem
      show _ ↔ (s.inFlight = [number] → s.issued[number]? = s.issued.getLast?)
      rw [hfetched, ← hlast]
      constructor
      · intro hafter halone
        exact (hafter halone number envelope rfl).1
      · intro hinOrder halone number' envelope' heq
        cases heq
        exact ⟨hinOrder halone, rfl, rfl⟩

theorem run_fetched {steps : List (State × Event)} (hfetched : Fetched s₀)
    (h : Run s₀ steps s) : Fetched s := by
  induction h with
  | nil => exact hfetched
  | snoc h event hstep ih => exact step_fetched ih hstep

/-- The list answers the current query throughout a run exactly if no response of a request with
other parameters than the one issued last comes in as the last of those in flight. -/
theorem answersCurrent_iff {params : Params} {hidden : Bool} {steps : List (State × Event)}
    (h : Run (mount params hidden) steps s) :
    (AnswersCurrent s ∧ ∀ x ∈ steps, AnswersCurrent x.1) ↔ ∀ x ∈ steps, InOrder x.1 x.2 := by
  induction h with
  | nil =>
    constructor
    · intro _ x hx
      cases hx
    · intro _
      refine ⟨answersCurrent_of_inFlight (inFlight_fetchJobs _), fun x hx => ?_⟩
      cases hx
  | @snoc steps s s' hrun event hstep ih =>
    have hfetched := run_fetched (fetched_mount params hidden) hrun
    simp only [List.forall_mem_append, List.forall_mem_singleton]
    constructor
    · rintro ⟨hafter, hsteps, hbefore⟩
      exact ⟨ih.mp ⟨hbefore, hsteps⟩, (answersCurrent_step hfetched hbefore hstep).mp hafter⟩
    · rintro ⟨hsteps, hlast⟩
      obtain ⟨hbefore, hsteps⟩ := ih.mpr hsteps
      exact ⟨(answersCurrent_step hfetched hbefore hstep).mpr hlast, hsteps, hbefore⟩

def noJobs : JobListEnvelope := ⟨[], 0⟩

theorem answersCurrent_iff_first :
    let s₀ := mount ⟨"a", none⟩ false
    let answer : Event := .response 0 (.ok noJobs)
    ∃ s, step s₀ answer = some s ∧
      ((AnswersCurrent s ∧ ∀ x ∈ [(s₀, answer)], AnswersCurrent x.1) ↔
        ∀ x ∈ [(s₀, answer)], InOrder x.1 x.2) :=
  ⟨_, rfl, answersCurrent_iff (.snoc .nil _ rfl)⟩

/-- The response to the query `"a"` comes after the one to `"b"`, and is shown. -/
theorem not_answersCurrent :
    ∃ steps s, Run (mount ⟨"a", none⟩ false) steps s ∧
      steps.map Prod.snd =
        [.render ⟨"b", none⟩, .response 1 (.ok noJobs), .response 0 (.ok noJobs)] ∧
      ¬ AnswersCurrent s := by
  refine ⟨_, _, .snoc (.snoc (.snoc .nil (.render ⟨"b", none⟩) rfl)
    (.response 1 (.ok noJobs)) rfl) (.response 0 (.ok noJobs)) rfl, rfl, fun hcurrent => ?_⟩
  have hrequest := (hcurrent rfl 0 noJobs rfl).1
  revert hrequest
  decide

end UseJobs

end JobManager
