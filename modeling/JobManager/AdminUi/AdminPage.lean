import JobManager.AdminUi.ApiClient

/-! The admin page: its search box with the delayed title, the list under it, and what its buttons
ask for and report. -/
namespace JobManager

open Text Http

/-- The page between two events. The timer holds the title that it will set when it goes off. -/
structure AdminPage where
  titleInput : String
  statusFilter : Option JobStatus
  timer : Option String
  debouncedTitle : String
  list : UseJobs.State

namespace AdminPage

inductive Event where
  | changeTitle (title : String)
  | changeStatus (status : Option JobStatus)
  | timeout
  | list (event : UseJobs.Event)

/-- `useJobs` with the parameters of this render. -/
def render (page : AdminPage) : Option AdminPage :=
  (UseJobs.step page.list (.render ⟨page.debouncedTitle, page.statusFilter⟩)).map
    fun list => { page with list }

/-- Another title starts the timer anew; only the page renders. -/
def step (page : AdminPage) : Event → Option AdminPage
  | .changeTitle title =>
    if title = page.titleInput then some page
    else render { page with titleInput := title, timer := some title }
  | .changeStatus status => render { page with statusFilter := status }
  | .timeout =>
    match page.timer with
    | some title => render { page with timer := none, debouncedTitle := title }
    | none => none
  | .list (.render _) => none
  | .list event => (UseJobs.step page.list event).map fun list => { page with list }

def mount (hidden : Bool) : AdminPage where
  titleInput := ""
  statusFilter := none
  timer := some ""
  debouncedTitle := ""
  list := UseJobs.mount ⟨"", none⟩ hidden

/-- A run, with the page before each of its events. -/
inductive Run (page₀ : AdminPage) : List (AdminPage × Event) → AdminPage → Prop where
  | nil : Run page₀ [] page₀
  | snoc {steps : List (AdminPage × Event)} {page page' : AdminPage} (h : Run page₀ steps page)
      (event : Event) (hstep : step page event = some page') :
      Run page₀ (steps ++ [(page, event)]) page'

/-- The responses to the list come in order. -/
def InOrder (page : AdminPage) : Event → Prop
  | .list event => UseJobs.InOrder page.list event
  | _ => True

/-- What holds between two events: the timer holds what is in the box, without it the list is after
what is in the box, and as long as the responses come in order the list answers its parameters. -/
structure Steady (page : AdminPage) : Prop where
  waiting : ∀ title ∈ page.timer, title = page.titleInput
  debounced : page.timer = none → page.debouncedTitle = page.titleInput
  params : page.list.params = ⟨page.debouncedTitle, page.statusFilter⟩
  fetched : UseJobs.Fetched page.list
  current : UseJobs.AnswersCurrent page.list

variable {page page' : AdminPage} {event : Event}

theorem steady_mount (hidden : Bool) : Steady (mount hidden) where
  waiting title htitle := (Option.mem_some_iff.mp htitle).symm
  debounced htimer := by cases htimer
  params := rfl
  fetched := UseJobs.fetched_mount _ _
  current := UseJobs.answersCurrent_of_inFlight (UseJobs.inFlight_fetchJobs _)

/-- A render leaves the list after what the page is after. -/
theorem render_steady (h : render page = some page')
    (hwaiting : ∀ title ∈ page.timer, title = page.titleInput)
    (hdebounced : page.timer = none → page.debouncedTitle = page.titleInput)
    (hfetched : UseJobs.Fetched page.list) (hcurrent : UseJobs.AnswersCurrent page.list) :
    Steady page' := by
  obtain ⟨list, hlist, rfl⟩ := Option.map_eq_some_iff.mp h
  refine ⟨hwaiting, hdebounced, ?_, UseJobs.step_fetched hfetched hlist,
    (UseJobs.answersCurrent_step hfetched hcurrent hlist).mpr trivial⟩
  simp only [UseJobs.step] at hlist
  split at hlist
  · next hsame =>
    obtain rfl := Option.some.inj hlist
    exact hsame.symm
  · obtain rfl := Option.some.inj hlist
    rfl

theorem list_params {s s' : UseJobs.State} {event : UseJobs.Event}
    (h : UseJobs.step s event = some s') (hrender : ∀ params, event ≠ .render params) :
    s'.params = s.params := by
  cases event with
  | render params => exact absurd rfl (hrender params)
  | poll =>
    simp only [UseJobs.step] at h
    split at h
    · obtain rfl := Option.some.inj h
      rfl
    · cases h
  | visibilityChange hidden => cases hidden <;> (obtain rfl := Option.some.inj h; rfl)
  | refresh =>
    obtain rfl := Option.some.inj h
    rfl
  | response number answer =>
    simp only [UseJobs.step] at h
    split at h
    · obtain rfl := Option.some.inj h
      cases answer <;> rfl
    · cases h

theorem step_steady (hsteady : Steady page) (hinOrder : InOrder page event)
    (h : step page event = some page') : Steady page' := by
  cases event with
  | changeTitle title =>
    simp only [step] at h
    split at h
    · obtain rfl := Option.some.inj h
      exact hsteady
    · exact render_steady h (fun _ htitle => (Option.mem_some_iff.mp htitle).symm)
        (fun htimer => by cases htimer) hsteady.fetched hsteady.current
  | changeStatus status =>
    simp only [step] at h
    exact render_steady h hsteady.waiting hsteady.debounced hsteady.fetched hsteady.current
  | timeout =>
    simp only [step] at h
    split at h
    · next title htimer =>
      exact render_steady h (fun _ htitle => by cases htitle)
        (fun _ => hsteady.waiting title htimer) hsteady.fetched hsteady.current
    · cases h
  | list event =>
    have hrender : ∀ params, event ≠ .render params := by
      rintro params rfl
      cases h
    have hstep : (UseJobs.step page.list event).map (fun list => { page with list }) =
        some page' := by
      cases event <;> first | exact h | exact absurd rfl (hrender _)
    obtain ⟨list, hlist, rfl⟩ := Option.map_eq_some_iff.mp hstep
    exact ⟨hsteady.waiting, hsteady.debounced, (list_params hlist hrender).trans hsteady.params,
      UseJobs.step_fetched hsteady.fetched hlist,
      (UseJobs.answersCurrent_step hsteady.fetched hsteady.current hlist).mpr hinOrder⟩

theorem run_steady {hidden : Bool} {steps : List (AdminPage × Event)}
    (h : Run (mount hidden) steps page) (hinOrder : ∀ x ∈ steps, InOrder x.1 x.2) :
    Steady page := by
  induction h with
  | nil => exact steady_mount hidden
  | snoc h event hstep ih =>
    rw [List.forall_mem_append, List.forall_mem_singleton] at hinOrder
    exact step_steady (ih hinOrder.1) hinOrder.2 hstep

end AdminPage

end JobManager
