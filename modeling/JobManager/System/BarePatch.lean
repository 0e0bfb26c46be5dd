import JobManager.Persistence.Lifecycle
import JobManager.System.Trace

/-! A PATCH without status between its read and its transition. -/
namespace JobManager

open KeyedList Async JsonDbJobRepository

def PatchJobInput.patch (input : PatchJobInput) : JobPatch := ⟨input.title, input.description⟩

/-- A finished PATCH without status: `e` is its transition, `current` the job it read before and
`job` the one stored when the transition runs. -/
structure BarePatch (p : System) (input : PatchJobInput) (result : TransitionResult)
    (before : List Entry) (e : Entry) (current job : Job) : Prop where
  status : input.status = none
  fiber : p.fibers[e.fiber]? = some ⟨.patchJob input, .settled (.ok result)⟩
  trace : ∃ after, p.trace = before ++ e :: after
  call : ∃ id target patch, e.event.call = .repository (.withTransition id target patch)
  read : (⟨.repository (.findById input.id), .ok (some current)⟩ : Call) ∈ history e.fiber before
  stored : stored e.before.store.jobs input.id = some job

/-- The PATCH is answered ok and the stored job carries the fields it supplied. -/
def Applied (input : PatchJobInput) (result : TransitionResult) (e : Entry) : Prop :=
  ∃ job' transitioned previousStatus, result = .ok job' transitioned previousStatus ∧
    stored e.after.store.jobs input.id = some job' ∧
    ∀ field text, input.patch.text field = some text → job'.text field = text

/-- The title-only PATCH of the interrupted run. -/
def titlePatch : PatchJobInput := ⟨"1", some "new title", none, none⟩

/-- The PATCH has come back with INVALID_TRANSITION. -/
def Refused (p : System) : Bool :=
  match p.fibers with
  | Fiber.mk (.patchJob input) (.settled (.ok result)) :: _ =>
    input = titlePatch ∧ result = .refused .invalidTransition
  | _ => false

theorem fiber_of_refused {p : System} (h : Refused p = true) :
    p.fibers[0]? = some ⟨.patchJob titlePatch, .settled (.ok (.refused .invalidTransition))⟩ := by
  unfold Refused at h
  split at h
  · next heq =>
    obtain ⟨rfl, rfl⟩ := of_decide_eq_true h
    rw [heq]
    rfl
  · cases h

variable [LowerCase]

theorem BarePatch.event {supportedJobTypes : SupportedJobTypes} {s : Store} {p : System}
    (h : System.Reachable supportedJobTypes (fun _ => True) s p) {input : PatchJobInput}
    {result : TransitionResult} {before : List Entry} {e : Entry} {current job : Job}
    (hpatch : BarePatch p input result before e current job) :
    System.Occurs (fun _ => True) s before e ∧
    e.event = ⟨.repository (.withTransition input.id current.status (some input.patch)),
      .ok result⟩ := by
  obtain ⟨after, htrace⟩ := hpatch.trace
  have hconf := h.conforming
  have hocc := hconf.valid.occurs htrace
  have he : e ∈ p.trace := by
    rw [htrace]
    simp
  obtain ⟨f, hf, hq⟩ := hconf.entries e he
  rw [hpatch.fiber] at hf
  obtain rfl := Option.some.inj hf
  have hpost := hconf.fibers e.fiber _ hpatch.fiber
  obtain ⟨id, target, patch, hcall⟩ := hpatch.call
  have hcalls := hocc.guar
  rw [← hq, hcall] at hcalls
  obtain ⟨rfl, rfl, current', hhistory, htarget⟩ := hcalls
  have hread := hpatch.read
  rw [hhistory] at hread
  simp only [List.mem_singleton, Event.mk.injEq, heq_eq_eq, true_and, Except.ok.injEq,
    Option.some.injEq] at hread
  subst hread
  rw [if_neg (by rw [hpatch.status]; exact fun h => by cases h)] at htarget
  subst htarget
  refine ⟨hocc, ?_⟩
  have hmem := mem_history he
  generalize e.event = event at hcall hmem
  obtain ⟨call, answer⟩ := event
  subst hcall
  exact congrArg (Event.mk _) (hpost _ _ _ answer hmem)

omit [LowerCase] in
/-- The job is claimed after the PATCH has read it as pending. -/
theorem interruptedPatch_run :
    letI := LowerCase.ascii
    ∃ p, System.Reachable ⟨fun _ => true, []⟩ (fun _ => True) Store.onePending p ∧
      ∃ before e current job,
        BarePatch p titlePatch (.refused .invalidTransition) before e current job := by
  let _ := LowerCase.ascii
  have hrun : ∃ p, System.Reachable ⟨fun _ => true, []⟩ (fun _ => True) Store.onePending p ∧
      Refused p = true ∧ ∃ e ∈ p.trace, e.fiber = 0 ∧
        e.event.call = .repository (.withTransition "1" .pending (some titlePatch.patch)) ∧
        (stored e.before.store.jobs "1").isSome :=
    System.exists_reachable _ _ _
      [.start (.patchJob titlePatch), .start .processPendingJobs, .resume 0 .quiet,
        .resume 1 .quiet, .resume 1 .quiet, .resume 0 .quiet]
      _ (by decide +kernel)
  obtain ⟨p, hp, hrefused, e, he, hi, hcall, hjob⟩ := hrun
  obtain ⟨job, hjob⟩ := Option.isSome_iff_exists.mp hjob
  obtain ⟨before, after, htrace⟩ := List.append_of_mem he
  have hcalls := (hp.conforming.valid.occurs htrace).guar
  rw [hcall] at hcalls
  obtain ⟨input, hq, -, -, current, hhistory, -⟩ := hcalls.withTransition
  obtain ⟨f, hf, hreq⟩ := hp.conforming.entries e he
  rw [hi, fiber_of_refused hrefused] at hf
  obtain rfl := Option.some.inj hf
  rw [hq] at hreq
  cases hreq
  refine ⟨p, hp, before, e, current, job, rfl, hi ▸ fiber_of_refused hrefused, ⟨after, htrace⟩,
    ⟨_, _, _, hcall⟩, ?_, hjob⟩
  rw [hhistory]
  exact List.mem_singleton_self _

/-- A PATCH without status is applied exactly if the status it read is still the current one or an
allowed transition from it. -/
theorem barePatch_applied {supportedJobTypes : SupportedJobTypes} {s : Store} {p : System}
    (h : System.Reachable supportedJobTypes (fun _ => True) s p) {input : PatchJobInput}
    {result : TransitionResult} {before : List Entry} {e : Entry} {current job : Job}
    (hpatch : BarePatch p input result before e current job) :
    Applied input result e ↔
      job.status = current.status ∨ canTransition job current.status = true := by
  obtain ⟨hocc, hevent⟩ := hpatch.event h
  obtain ⟨stamp, hf, hresult, hafter⟩ := System.Occurs.applies hocc hevent
  rw [withTransition_answer, hpatch.stored, verdict] at hresult
  have hadmits : Admits job current.status ↔
      job.status = current.status ∨ canTransition job current.status = true := by
    rw [Admits, eq_comm]
  rw [← hadmits]
  constructor
  · rintro ⟨job', transitioned, previousStatus, rfl, -, -⟩
    by_contra ha
    rw [if_neg ha] at hresult
    cases hresult
  · intro ha
    rw [if_pos ha] at hresult
    refine ⟨_, _, _, hresult, ?_, fun field text htext => ?_⟩
    · rw [hafter, Store.stored_apply, hpatch.stored]
      simp [RepoOp.effect, ha]
    · rw [updatedJob_text]
      simp [htext]

omit [LowerCase] in
theorem barePatch_applied_interrupted :
    letI := LowerCase.ascii
    ∃ p, System.Reachable ⟨fun _ => true, []⟩ (fun _ => True) Store.onePending p ∧
      ∃ before e current job,
        BarePatch p titlePatch (.refused .invalidTransition) before e current job ∧
        ¬ (job.status = current.status ∨ canTransition job current.status = true) := by
  let _ := LowerCase.ascii
  obtain ⟨p, hp, before, e, current, job, hpatch⟩ := interruptedPatch_run
  refine ⟨p, hp, before, e, current, job, hpatch, fun hcurrent => ?_⟩
  obtain ⟨_, _, _, hok, -⟩ := (barePatch_applied hp hpatch).mpr hcurrent
  cases hok

omit [LowerCase] in
theorem not_barePatch_applied :
    letI := LowerCase.ascii
    ¬ ∀ p, System.Reachable ⟨fun _ => true, []⟩ (fun _ => True) Store.onePending p →
      ∀ input result before e current job, BarePatch p input result before e current job →
        Applied input result e := by
  let _ := LowerCase.ascii
  intro happlied
  obtain ⟨p, hp, before, e, current, job, hpatch⟩ := interruptedPatch_run
  obtain ⟨_, _, _, hok, -⟩ := happlied p hp _ _ _ _ _ _ hpatch
  cases hok

end JobManager
