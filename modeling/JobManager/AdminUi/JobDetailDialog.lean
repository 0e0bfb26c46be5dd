import JobManager.Adapters.JobResponse
import JobManager.Adapters.PatchJobDto

/-! The detail dialogs of the admin page, whose saves are PATCH requests of the running system. -/
namespace JobManager

open KeyedList Async JsonDbJobRepository

def JobResponse.text (job : JobResponse) : TextField → String
  | .title => job.title
  | .description => job.description

/-- An open dialog: the job it was opened on and what its two inputs hold. -/
structure JobDetailDialog where
  job : JobResponse
  title : String
  description : String
  deriving DecidableEq, Repr

namespace JobDetailDialog

/-- The dialog as it opens. -/
def ofJob (job : JobResponse) : JobDetailDialog := ⟨job, job.title, job.description⟩

def text (d : JobDetailDialog) : TextField → String
  | .title => d.title
  | .description => d.description

/-- The user has changed a field. -/
def Changed (d : JobDetailDialog) (field : TextField) : Prop := d.text field ≠ d.job.text field

def dirty (d : JobDetailDialog) : Bool := d.title ≠ d.job.title || d.description ≠ d.job.description

/-- The body of `patchJob(job.id, ...)`; the button is disabled unless something has changed. -/
def handleSave (d : JobDetailDialog) : Option (Json ℚ) :=
  if d.dirty then
    some (.object [("title", .string d.title), ("description", .string d.description)])
  else none

/-- The body names both fields, whichever of them has changed. -/
theorem patchInput_handleSave {d : JobDetailDialog} {body : Json ℚ} (h : body ∈ d.handleSave) :
    JobsController.patchInput d.job.id body =
      ⟨d.job.id, some d.title, some d.description, none⟩ := by
  unfold handleSave at h
  split at h
  · cases h
    rfl
  · cases h

end JobDetailDialog

/-- The id and the patch of a transition that was answered ok. -/
def Call.applied : Call → Option (String × JobPatch)
  | ⟨.repository (.withTransition id _ (some patch)), .ok (.ok _ _ _)⟩ => some (id, patch)
  | _ => none

/-- A run in which some of the requests, by number, are the saves of dialogs: each was opened on the
job as it was stored before, when its PATCH began or earlier. -/
structure Saves (p : System) (dialogs : ℕ → Option JobDetailDialog) : Prop where
  request : ∀ e ∈ p.trace, ∀ d ∈ dialogs e.fiber, ∃ body ∈ d.handleSave,
    e.request = .patchJob (JobsController.patchInput d.job.id body)
  opened : ∀ before e after, p.trace = before ++ e :: after → ∀ d ∈ dialogs e.fiber,
    ∃ e' ∈ before ++ [e], ∃ job ∈ stored (Entry.before e').store.jobs d.job.id,
      toJobResponse job = d.job

section Fields

variable (dialogs : ℕ → Option JobDetailDialog) (id : String) (field : TextField)

/-- The step edits a field of the job: a dialog whose user has changed it, or another client. -/
def Entry.Edits (e : Entry) : Prop :=
  ∃ patch, Call.applied e.event = some (id, patch) ∧ (patch.text field).isSome ∧
    ∀ d ∈ dialogs e.fiber, d.Changed field

/-- If the step saves a dialog whose user has left the field alone, the dialog shows the text that
is stored. -/
def Entry.UpToDate (e : Entry) : Prop :=
  ∀ d ∈ dialogs e.fiber, ¬ d.Changed field → ∀ patch, Call.applied e.event = some (id, patch) →
    ∀ job ∈ stored e.before.store.jobs id, d.job.text field = job.text field

/-- The save of a dialog whose user has changed this field alone is carried out, and nobody edits
the field in what follows. -/
structure SavedLast (p : System) (d : JobDetailDialog) (after : List Entry) : Prop where
  saved : ∃ before e patch, p.trace = before ++ e :: after ∧ d ∈ dialogs e.fiber ∧
    Call.applied e.event = some (id, patch)
  changed : ∀ other, d.Changed other ↔ other = field
  last : ∀ e ∈ after, ¬ Entry.Edits dialogs id field e

end Fields

theorem Call.applied_eq_some {c : Call} {id : String} {patch : JobPatch}
    (h : c.applied = some (id, patch)) : ∃ target job transitioned previousStatus,
      c = ⟨.repository (.withTransition id target (some patch)),
        .ok (.ok job transitioned previousStatus)⟩ := by
  unfold Call.applied at h
  split at h
  · cases h
    exact ⟨_, _, _, _, rfl⟩
  · cases h

variable [LowerCase] {allowed : Request → Prop} {s : Store} {before : List Entry} {e : Entry}
  {dialogs : ℕ → Option JobDetailDialog} {id : String} {field : TextField} {patch : JobPatch}

/-- A text changes only where a transition that supplies it is carried out. -/
theorem System.Occurs.text_cases (h : System.Occurs allowed s before e) {job job' : Job}
    (hjob : stored e.before.store.jobs id = some job)
    (hjob' : stored e.after.store.jobs id = some job') (field : TextField) :
    job'.text field = job.text field ∨
      ∃ patch, Call.applied e.event = some (id, patch) ∧
        patch.text field = some (job'.text field) := by
  obtain rfl := lookup_key hjob
  cases h.effect with
  | silent hsame =>
    rw [hsame, hjob] at hjob'
    cases hjob'
    exact .inl rfl
  | applies op stamp hf he hafter =>
    rw [hafter] at hjob'
    rcases e.before.store.apply_cases op stamp hf hjob with hsame | ⟨target, patch, rfl, ha, hup⟩ |
      ⟨ids, target, rfl, -, ha, hup⟩ | ⟨-, -, hdel⟩
    · cases hsame.symm.trans hjob'
      exact .inl rfl
    · cases hup.symm.trans hjob'
      rw [updatedJob_text]
      cases hsupplied : patch.bind fun p => p.text field with
      | none => exact .inl rfl
      | some text =>
        obtain ⟨patch, rfl, htext⟩ := Option.bind_eq_some_iff.mp hsupplied
        right
        refine ⟨patch, ?_, htext⟩
        rw [he, withTransition_answer, hjob, verdict, if_pos ha]
        rfl
    · cases hup.symm.trans hjob'
      rw [updatedJob_text]
      exact .inl rfl
    · cases hdel.symm.trans hjob'

/-- A transition that is carried out meets a stored job and leaves the texts it supplies. -/
theorem System.Occurs.of_applied (h : System.Occurs allowed s before e)
    (happlied : Call.applied e.event = some (id, patch)) :
    id ∈ e.after.store.issued ∧ ∃ job, stored e.after.store.jobs id = some job ∧
      ∀ field text, patch.text field = some text → job.text field = text := by
  obtain ⟨target, result, transitioned, previousStatus, he⟩ := Call.applied_eq_some happlied
  obtain ⟨stamp, hf, hanswer, hafter⟩ := h.applies he
  rw [withTransition_answer] at hanswer
  cases hstored : stored e.before.store.jobs id with
  | none =>
    rw [hstored] at hanswer
    cases hanswer
  | some job =>
    rw [hstored, verdict] at hanswer
    by_cases ha : Admits job target
    · constructor
      · apply h.issued_subset
        rw [← lookup_key hstored]
        exact e.before.store.issued_of_mem job (lookup_mem hstored)
      · refine ⟨updatedJob job target (some patch) stamp.now, ?_, fun field text htext => ?_⟩
        · rw [hafter, Store.stored_apply, hstored]
          simp [RepoOp.effect, ha]
        · rw [updatedJob_text, Option.bind_some, htext]
          rfl
    · rw [if_neg ha] at hanswer
      cases hanswer

/-- The transition that saves a dialog writes what the dialog shows. -/
theorem System.Occurs.text_of_dialog (h : System.Occurs allowed s before e)
    {d : JobDetailDialog} (hrequest : ∃ body ∈ d.handleSave,
      e.request = .patchJob (JobsController.patchInput d.job.id body))
    (happlied : Call.applied e.event = some (id, patch)) :
    patch.text field = some (d.text field) := by
  obtain ⟨target, result, transitioned, previousStatus, he⟩ := Call.applied_eq_some happlied
  obtain ⟨body, hbody, hrequest⟩ := hrequest
  rw [JobDetailDialog.patchInput_handleSave hbody] at hrequest
  have hcalls := h.guar
  rw [he, hrequest] at hcalls
  obtain ⟨-, hpatch, -⟩ := hcalls
  cases hpatch
  cases field with
  | title => rfl
  | description => rfl

/-- A step that does not edit the field keeps the text exactly if it is up to date. -/
theorem System.Occurs.text_kept_iff (h : System.Occurs allowed s before e)
    (hrequest : ∀ d ∈ dialogs e.fiber, ∃ body ∈ d.handleSave,
      e.request = .patchJob (JobsController.patchInput d.job.id body))
    (hedits : ¬ e.Edits dialogs id field) :
    (∀ job job', stored e.before.store.jobs id = some job →
      stored e.after.store.jobs id = some job' → job'.text field = job.text field) ↔
    e.UpToDate dialogs id field := by
  constructor
  · intro hkept d hd hchanged patch happlied job hjob
    obtain ⟨-, job', hjob', htext⟩ := h.of_applied happlied
    have hsnapshot : d.text field = d.job.text field := not_not.mp hchanged
    calc d.job.text field = d.text field := hsnapshot.symm
      _ = job'.text field :=
        (htext field _ (h.text_of_dialog (hrequest d hd) happlied)).symm
      _ = job.text field := hkept job job' hjob hjob'
  · intro hfresh job job' hjob hjob'
    rcases h.text_cases hjob hjob' field with hsame | ⟨patch, happlied, htext⟩
    · exact hsame
    · have hdialog : ∃ d ∈ dialogs e.fiber, ¬ d.Changed field := by
        by_contra hnone
        push Not at hnone
        exact hedits ⟨patch, happlied, by rw [htext]; rfl, hnone⟩
      obtain ⟨d, hd, hchanged⟩ := hdialog
      have hshown : patch.text field = some (d.text field) :=
        h.text_of_dialog (hrequest d hd) happlied
      have hsnapshot : d.text field = d.job.text field := not_not.mp hchanged
      calc job'.text field = d.text field := Option.some.inj (htext.symm.trans hshown)
        _ = d.job.text field := hsnapshot
        _ = job.text field := hfresh d hd hchanged patch happlied job hjob

/-- From the save on, every state of the run has the text of the dialog. -/
theorem System.Valid.text_survives {trace : List Entry} {w : World}
    (h : System.Valid allowed s trace w)
    (hrequest : ∀ e ∈ trace, ∀ d ∈ dialogs (Entry.fiber e), ∃ body ∈ d.handleSave,
      e.request = .patchJob (JobsController.patchInput d.job.id body))
    {after : List Entry} (htrace : trace = before ++ e :: after) {d : JobDetailDialog}
    (hd : d ∈ dialogs e.fiber) (happlied : Call.applied e.event = some (id, patch))
    (hedits : ∀ e ∈ after, ¬ Entry.Edits dialogs id field e)
    (hfresh : ∀ e ∈ after, Entry.UpToDate dialogs id field e) :
    id ∈ w.store.issued ∧ ∀ job ∈ stored w.store.jobs id, job.text field = d.text field := by
  induction h using System.Valid.induction generalizing after with
  | nil => simp at htrace
  | snoc trace e' hocc ih =>
    have hlast : e' ∈ trace ++ [e'] := List.mem_append_right _ (List.mem_singleton_self _)
    rcases List.eq_nil_or_concat after with rfl | ⟨after, e'', rfl⟩
    · obtain ⟨rfl, heq⟩ := List.append_inj' htrace rfl
      cases heq
      obtain ⟨hissued, job', hjob', htext⟩ := hocc.of_applied happlied
      refine ⟨hissued, fun job hjob => ?_⟩
      obtain rfl := Option.some.inj (hjob'.symm.trans hjob)
      exact htext field _ (hocc.text_of_dialog (hrequest _ hlast d hd) happlied)
    · rw [List.concat_eq_append, ← List.cons_append, ← List.append_assoc] at htrace
      obtain ⟨rfl, heq⟩ := List.append_inj' htrace rfl
      cases heq
      obtain ⟨hissued, htext⟩ := ih (fun e he => hrequest e (List.mem_append_left _ he)) rfl
        (fun e he => hedits e (by simp [he])) fun e he => hfresh e (by simp [he])
      refine ⟨hocc.issued_subset hissued, fun job' hjob' => ?_⟩
      cases hjob : stored e'.before.store.jobs id with
      | none => exact absurd hissued (hocc.appears hjob hjob').1
      | some job =>
        have hkept := (hocc.text_kept_iff (hrequest _ hlast) (hedits _ (by simp))).mpr
          (hfresh _ (by simp))
        rw [hkept job job' hjob hjob']
        exact htext job hjob

/-- An edited title and an edited description both survive if every later save that leaves one of
them alone is that of a dialog which shows the text that is stored. -/
theorem edits_survive {supportedJobTypes : SupportedJobTypes} {p : System}
    (h : System.Reachable supportedJobTypes allowed s p) (hsaves : Saves p dialogs)
    {a b : JobDetailDialog} {afterA afterB : List Entry}
    (ha : SavedLast dialogs id .title p a afterA)
    (hb : SavedLast dialogs id .description p b afterB)
    (hfreshA : ∀ e ∈ afterA, Entry.UpToDate dialogs id .title e)
    (hfreshB : ∀ e ∈ afterB, Entry.UpToDate dialogs id .description e) :
    ∀ job ∈ stored p.state.store.jobs id,
      job.title = a.title ∧ job.description = b.description := by
  have hvalid := h.conforming.valid
  obtain ⟨beforeA, ea, patchA, htraceA, hda, happliedA⟩ := ha.saved
  obtain ⟨beforeB, eb, patchB, htraceB, hdb, happliedB⟩ := hb.saved
  intro job hjob
  constructor
  · exact (System.Valid.text_survives hvalid hsaves.request htraceA hda happliedA ha.last
      hfreshA).2 job hjob
  · exact (System.Valid.text_survives hvalid hsaves.request htraceB hdb happliedB hb.last
      hfreshB).2 job hjob

section Runs

/-- The job before the first save, and what the first save makes of it. -/
def opened : JobResponse := ⟨"1", "title", "text", .pending, "t", "t"⟩
def retitled : JobResponse := ⟨"1", "new title", "text", .pending, "t", "u"⟩

/-- One dialog changes the title, another one the description. -/
def titleDialog : JobDetailDialog := { JobDetailDialog.ofJob opened with title := "new title" }

def descriptionDialog (job : JobResponse) : JobDetailDialog :=
  { JobDetailDialog.ofJob job with description := "new text" }

def twoDialogs (job : JobResponse) : ℕ → Option JobDetailDialog
  | 0 => some titleDialog
  | 1 => some (descriptionDialog job)
  | _ => none

def saveRequest (d : JobDetailDialog) : Request :=
  .patchJob ⟨d.job.id, some d.title, some d.description, none⟩

/-- What there is to know of a step: its request, the patch it carries out, and the job it meets. -/
structure StepSummary where
  fiber : ℕ
  request : Request
  applied : Option (String × JobPatch)
  stored : Option JobResponse
  deriving DecidableEq

def Entry.summary (e : Entry) : StepSummary :=
  ⟨e.fiber, e.request, Call.applied e.event,
    (JobManager.stored e.before.store.jobs "1").map toJobResponse⟩

/-- The two saves one after the other, the second dialog showing `job`. -/
def twoSaves (job : JobResponse) : List StepSummary :=
  [⟨0, saveRequest titleDialog, none, some opened⟩,
    ⟨0, saveRequest titleDialog, some ("1", ⟨some "new title", some "text"⟩), some opened⟩,
    ⟨1, saveRequest (descriptionDialog job), none, some retitled⟩,
    ⟨1, saveRequest (descriptionDialog job), some ("1", ⟨some job.title, some "new text"⟩),
      some retitled⟩]

omit [LowerCase] in
theorem exists_twoSaves_retitled :
    letI := LowerCase.ascii
    ∃ p, System.Reachable ⟨fun _ => true, []⟩ (fun _ => True) Store.onePending p ∧
      p.trace.map Entry.summary = twoSaves retitled := by
  let _ := LowerCase.ascii
  exact System.exists_reachable _ _ _
    [.start (saveRequest titleDialog), .resume 0 .quiet, .resume 0 .quiet,
      .start (saveRequest (descriptionDialog retitled)), .resume 1 .quiet, .resume 1 .quiet]
    _ (by decide +kernel)

omit [LowerCase] in
theorem exists_twoSaves_opened :
    letI := LowerCase.ascii
    ∃ p, System.Reachable ⟨fun _ => true, []⟩ (fun _ => True) Store.onePending p ∧
      p.trace.map Entry.summary = twoSaves opened ∧
      stored p.state.store.jobs "1" = some ⟨"1", "title", "new text", .pending, 0, "t", "u"⟩ := by
  let _ := LowerCase.ascii
  exact System.exists_reachable _ _ _
    [.start (saveRequest titleDialog), .resume 0 .quiet, .resume 0 .quiet,
      .start (saveRequest (descriptionDialog opened)), .resume 1 .quiet, .resume 1 .quiet]
    _ (by decide +kernel)

omit [LowerCase] in
theorem request_of_saveRequest {e : Entry} {d : JobDetailDialog} (hdirty : d.dirty = true)
    (h : e.request = saveRequest d) : ∃ body ∈ d.handleSave,
      e.request = .patchJob (JobsController.patchInput d.job.id body) := by
  refine ⟨.object [("title", .string d.title), ("description", .string d.description)],
    if_pos hdirty, ?_⟩
  rw [h]
  rfl

omit [LowerCase] in
theorem changed_titleDialog (field : TextField) : titleDialog.Changed field ↔ field = .title := by
  cases field <;> simp [JobDetailDialog.Changed, JobDetailDialog.text, JobResponse.text,
    titleDialog, JobDetailDialog.ofJob, opened]

omit [LowerCase] in
theorem changed_descriptionDialog {job : JobResponse} (hjob : job.description = "text")
    (field : TextField) : (descriptionDialog job).Changed field ↔ field = .description := by
  cases field <;> simp [JobDetailDialog.Changed, JobDetailDialog.text, JobResponse.text,
    descriptionDialog, JobDetailDialog.ofJob, hjob]

/-- The four steps of the two saves. -/
structure TwoSaves (job : JobResponse) (e₀ e₁ e₂ e₃ : Entry) : Prop where
  reads : e₀.summary = ⟨0, saveRequest titleDialog, none, some opened⟩
  writes : e₁.summary = ⟨0, saveRequest titleDialog,
    some ("1", ⟨some "new title", some "text"⟩), some opened⟩
  readsAgain : e₂.summary = ⟨1, saveRequest (descriptionDialog job), none, some retitled⟩
  writesAgain : e₃.summary = ⟨1, saveRequest (descriptionDialog job),
    some ("1", ⟨some job.title, some "new text"⟩), some retitled⟩

omit [LowerCase] in
theorem exists_steps {trace : List Entry} {job : JobResponse}
    (h : trace.map Entry.summary = twoSaves job) :
    ∃ e₀ e₁ e₂ e₃, trace = [e₀, e₁, e₂, e₃] ∧ TwoSaves job e₀ e₁ e₂ e₃ := by
  obtain ⟨e₀, trace₀, rfl, h₀, htrace₀⟩ := List.map_eq_cons_iff.mp h
  obtain ⟨e₁, trace₁, rfl, h₁, htrace₁⟩ := List.map_eq_cons_iff.mp htrace₀
  obtain ⟨e₂, trace₂, rfl, h₂, htrace₂⟩ := List.map_eq_cons_iff.mp htrace₁
  obtain ⟨e₃, trace₃, rfl, h₃, htrace₃⟩ := List.map_eq_cons_iff.mp htrace₂
  obtain rfl := List.map_eq_nil_iff.mp htrace₃
  exact ⟨e₀, e₁, e₂, e₃, rfl, h₀, h₁, h₂, h₃⟩

omit [LowerCase] in
theorem Entry.of_summary {e : Entry} {fiber : ℕ} {request : Request}
    {applied : Option (String × JobPatch)} {job : JobResponse}
    (h : e.summary = ⟨fiber, request, applied, some job⟩) :
    e.fiber = fiber ∧ e.request = request ∧ Call.applied e.event = applied ∧
      ∃ found ∈ stored e.before.store.jobs "1", toJobResponse found = job :=
  ⟨congrArg StepSummary.fiber h, congrArg StepSummary.request h, congrArg StepSummary.applied h,
    Option.map_eq_some_iff.mp (congrArg StepSummary.stored h)⟩

namespace TwoSaves

variable {p : System} {job : JobResponse} {e₀ e₁ e₂ e₃ : Entry}

omit [LowerCase] in
/-- The first two steps are those of the title's dialog, which shows the job they meet, and the last
two those of the other one. -/
theorem step (h : TwoSaves job e₀ e₁ e₂ e₃) {e : Entry} (he : e ∈ [e₀, e₁, e₂, e₃]) :
    (e.fiber = 0 ∧ e.request = saveRequest titleDialog ∧
      ∃ found ∈ stored e.before.store.jobs "1", toJobResponse found = opened) ∨
    (e.fiber = 1 ∧ e.request = saveRequest (descriptionDialog job) ∧
      ∃ found ∈ stored e.before.store.jobs "1", toJobResponse found = retitled) := by
  simp only [List.mem_cons, List.not_mem_nil, or_false] at he
  rcases he with rfl | rfl | rfl | rfl
  · obtain ⟨hfiber, hrequest, -, hfound⟩ := e.of_summary h.reads
    exact .inl ⟨hfiber, hrequest, hfound⟩
  · obtain ⟨hfiber, hrequest, -, hfound⟩ := e.of_summary h.writes
    exact .inl ⟨hfiber, hrequest, hfound⟩
  · obtain ⟨hfiber, hrequest, -, hfound⟩ := e.of_summary h.readsAgain
    exact .inr ⟨hfiber, hrequest, hfound⟩
  · obtain ⟨hfiber, hrequest, -, hfound⟩ := e.of_summary h.writesAgain
    exact .inr ⟨hfiber, hrequest, hfound⟩

omit [LowerCase] in
theorem saves (h : TwoSaves job e₀ e₁ e₂ e₃) (htrace : p.trace = [e₀, e₁, e₂, e₃])
    (hjob : job = opened ∨ job = retitled) : Saves p (twoDialogs job) := by
  have hid : job.id = "1" := by rcases hjob with rfl | rfl <;> rfl
  have hdirty : (descriptionDialog job).dirty = true := by rcases hjob with rfl | rfl <;> decide
  constructor
  · intro e he d hd
    rw [htrace] at he
    rcases h.step he with ⟨hfiber, hrequest, -⟩ | ⟨hfiber, hrequest, -⟩
    · rw [hfiber] at hd
      cases hd
      exact request_of_saveRequest (by decide) hrequest
    · rw [hfiber] at hd
      cases hd
      exact request_of_saveRequest hdirty hrequest
  · intro before e after hsplit d hd
    rw [htrace] at hsplit
    have he : e ∈ [e₀, e₁, e₂, e₃] := by
      rw [hsplit]
      simp
    have hfirst : e₀ ∈ before ++ [e] := by
      cases before with
      | nil =>
        obtain ⟨rfl, -⟩ := List.cons.inj hsplit
        exact List.mem_singleton_self _
      | cons e' before =>
        obtain ⟨rfl, -⟩ := List.cons.inj hsplit
        exact List.mem_cons_self
    obtain ⟨-, -, -, found, hfound, heq⟩ := e₀.of_summary h.reads
    rcases h.step he with ⟨hfiber, -, -⟩ | ⟨hfiber, -, found', hfound', heq'⟩
    · rw [hfiber] at hd
      cases hd
      exact ⟨e₀, hfirst, found, hfound, heq⟩
    · rw [hfiber] at hd
      cases hd
      show ∃ e' ∈ before ++ [e], ∃ found ∈ stored e'.before.store.jobs job.id,
        toJobResponse found = job
      rw [hid]
      rcases hjob with rfl | rfl
      · exact ⟨e₀, hfirst, found, hfound, heq⟩
      · exact ⟨e, by simp, found', hfound', heq'⟩

omit [LowerCase] in
theorem savedLast_title (h : TwoSaves job e₀ e₁ e₂ e₃) (htrace : p.trace = [e₀, e₁, e₂, e₃])
    (hjob : job.description = "text") :
    SavedLast (twoDialogs job) "1" .title p titleDialog [e₂, e₃] := by
  obtain ⟨hfiber, -, happlied, -⟩ := e₁.of_summary h.writes
  constructor
  · refine ⟨[e₀], e₁, _, htrace, ?_, happlied⟩
    rw [hfiber]
    rfl
  · exact changed_titleDialog
  · rintro e he ⟨patch, happlied', -, hchanged⟩
    simp only [List.mem_cons, List.not_mem_nil, or_false] at he
    rcases he with rfl | rfl
    · rw [(e.of_summary h.readsAgain).2.2.1] at happlied'
      cases happlied'
    · rw [(e.of_summary h.writesAgain).1] at hchanged
      have htitle := (changed_descriptionDialog hjob .title).mp (hchanged _ rfl)
      cases htitle

omit [LowerCase] in
theorem savedLast_description (h : TwoSaves job e₀ e₁ e₂ e₃)
    (htrace : p.trace = [e₀, e₁, e₂, e₃]) (hjob : job.description = "text") :
    SavedLast (twoDialogs job) "1" .description p (descriptionDialog job) [] := by
  obtain ⟨hfiber, -, happlied, -⟩ := e₃.of_summary h.writesAgain
  constructor
  · refine ⟨[e₀, e₁, e₂], e₃, _, htrace, ?_, happlied⟩
    rw [hfiber]
    rfl
  · exact changed_descriptionDialog hjob
  · intro e he
    cases he

omit [LowerCase] in
/-- The second dialog shows the new title when it is saved. -/
theorem upToDate (h : TwoSaves retitled e₀ e₁ e₂ e₃) :
    ∀ e ∈ [e₂, e₃], Entry.UpToDate (twoDialogs retitled) "1" .title e := by
  intro e he d hd _ patch _ found hfound
  have hstep : e.fiber = 1 ∧ ∃ found ∈ stored e.before.store.jobs "1",
      toJobResponse found = retitled := by
    simp only [List.mem_cons, List.not_mem_nil, or_false] at he
    rcases he with rfl | rfl
    · obtain ⟨hfiber, -, -, hfound⟩ := e.of_summary h.readsAgain
      exact ⟨hfiber, hfound⟩
    · obtain ⟨hfiber, -, -, hfound⟩ := e.of_summary h.writesAgain
      exact ⟨hfiber, hfound⟩
  obtain ⟨hfiber, found', hfound', heq⟩ := hstep
  rw [hfiber] at hd
  cases hd
  cases Option.some.inj (hfound.symm.trans hfound')
  exact congrArg JobResponse.title heq.symm

end TwoSaves

omit [LowerCase] in
theorem edits_survive_reopened :
    letI := LowerCase.ascii
    ∃ p, System.Reachable ⟨fun _ => true, []⟩ (fun _ => True) Store.onePending p ∧
      ∀ job ∈ stored p.state.store.jobs "1",
        job.title = "new title" ∧ job.description = "new text" := by
  let _ := LowerCase.ascii
  obtain ⟨p, hp, hsummary⟩ := exists_twoSaves_retitled
  obtain ⟨e₀, e₁, e₂, e₃, htrace, h⟩ := exists_steps hsummary
  exact ⟨p, hp, edits_survive hp (h.saves htrace (.inr rfl)) (h.savedLast_title htrace rfl)
    (h.savedLast_description htrace rfl) h.upToDate fun e he => nomatch he⟩

omit [LowerCase] in
/-- Two dialogs opened on the same job: the save of the description puts the old title back. -/
theorem not_edits_survive :
    letI := LowerCase.ascii
    ∃ p, System.Reachable ⟨fun _ => true, []⟩ (fun _ => True) Store.onePending p ∧
      ∃ dialogs a b afterA afterB job, Saves p dialogs ∧
        SavedLast dialogs "1" .title p a afterA ∧ SavedLast dialogs "1" .description p b afterB ∧
        stored p.state.store.jobs "1" = some job ∧ job.title ≠ a.title := by
  let _ := LowerCase.ascii
  obtain ⟨p, hp, hsummary, hjob⟩ := exists_twoSaves_opened
  obtain ⟨e₀, e₁, e₂, e₃, htrace, h⟩ := exists_steps hsummary
  exact ⟨p, hp, _, _, _, _, _, _, h.saves htrace (.inl rfl), h.savedLast_title htrace rfl,
    h.savedLast_description htrace rfl, hjob, by simp [titleDialog]⟩

end Runs

end JobManager
