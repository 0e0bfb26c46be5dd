import JobManager.System.BarePatch
import JobManager.System.LogSoundness

/-! Concurrent PATCH requests that all ask for a retry of the same job. -/
namespace JobManager

open KeyedList Async JsonDbJobRepository

/-- A PATCH of the job that asks for `'pending'`. -/
def Request.Retries (id : String) : Request → Prop
  | patchJob input => input.id = id ∧ input.status = some .pending
  | _ => False

instance (id : String) : DecidablePred (Request.Retries id)
  | .patchJob input => inferInstanceAs (Decidable (input.id = id ∧ input.status = some .pending))
  | .createJob _ | .getJob _ | .getJobs | .searchJobs _ | .deleteJob _ | .tick _
  | .processPendingJobs => .isFalse fun h => h

theorem Request.Retries.patchJob {id : String} {q : Request} (h : q.Retries id) :
    ∃ input, q = .patchJob input ∧ input.id = id ∧ input.status = some .pending := by
  cases q with
  | patchJob input => exact ⟨input, rfl, h⟩
  | createJob _ | getJob _ | getJobs | searchJobs _ | deleteJob _ | tick _
  | processPendingJobs => exact h.elim

/-- The answer of a call that is a transition. -/
def Call.verdict : Call → List TransitionResult
  | ⟨.repository (.withTransition _ _ _), .ok result⟩ => [result]
  | _ => []

/-- The change a PATCH reports for its result. -/
def TransitionResult.changes : TransitionResult → List StatusChange
  | .ok job true previousStatus => [⟨job.id, previousStatus, job.status⟩]
  | _ => []

def TransitionResult.transitioned : TransitionResult → Bool
  | .ok _ transitioned _ => transitioned
  | .refused _ => false

/-- The text for a field that a committed PATCH supplies. -/
def Entry.supplied (field : TextField) (e : Entry) : Option String :=
  match e.request, Call.verdict e.event with
  | .patchJob input, [.ok _ _ _] => input.patch.text field
  | _, _ => none

def lastCommitted (field : TextField) (trace : List Entry) : Option String :=
  (trace.filterMap (Entry.supplied field)).getLast?

def Entry.repositoryFails (e : Entry) : Bool :=
  match e.event with
  | ⟨.repository _, .error _⟩ => true
  | _ => false

/-- What a PATCH has come back with. -/
def patchResult : Async.Fiber Effect.Answer Thrown Request.Reply → Option TransitionResult
  | ⟨.patchJob _, .settled (.ok result)⟩ => some result
  | _ => none

/-- What a finished PATCH knows, unless some call failed or the job was not there: it has had one
verdict, which is its result, and it has reported what that changes. -/
def PatchOutcome (r : Except Thrown TransitionResult) (h : List Call) : Prop :=
  (∃ op thrown, (⟨.repository op, .error thrown⟩ : Call) ∈ h) ∨
  (∃ id, (⟨.repository (.findById id), .ok none⟩ : Call) ∈ h) ∨
  ∃ result, r = .ok result ∧ h.flatMap Call.verdict = [result] ∧ emitted h = result.changes

def Request.Outcome : (q : Request) → Except Thrown q.Reply → List Call → Prop
  | patchJob _, r, h => PatchOutcome r h
  | _, _, _ => True

theorem Request.patchJob_outcome (input : PatchJobInput) :
    Conforms (fun _ _ => True) PatchOutcome (PatchJobUseCase.execute input) [] := by
  refine ⟨trivial, fun x => ?_⟩
  cases x with
  | error thrown => exact .inl ⟨_, thrown, List.mem_singleton_self _⟩
  | ok current =>
    cases current with
    | none => exact .inr (.inl ⟨_, List.mem_singleton_self _⟩)
    | some current =>
      refine ⟨trivial, fun y => ?_⟩
      cases y with
      | error thrown => exact .inl ⟨_, thrown, List.mem_append_right _ (List.mem_singleton_self _)⟩
      | ok result =>
        cases result with
        | refused reason => exact .inr (.inr ⟨_, rfl, rfl, rfl⟩)
        | ok job transitioned previousStatus =>
          cases transitioned with
          | false => exact .inr (.inr ⟨_, rfl, rfl, rfl⟩)
          | true =>
            refine ⟨trivial, fun z => ?_⟩
            cases z <;> exact .inr (.inr ⟨_, rfl, rfl, rfl⟩)

theorem Request.outcome (supportedJobTypes : SupportedJobTypes) {q : Request} {id : String}
    (hq : q.Retries id) :
    Conforms (fun _ _ => True) q.Outcome (q.program supportedJobTypes) [] := by
  obtain ⟨input, rfl, -⟩ := hq.patchJob
  exact patchJob_outcome input

/-- The verdicts on retries of a failed job, in the order of the commits, with the job they leave:
the first one moves it, the others find it moved. -/
inductive Collapse (job : Job) : List TransitionResult → Job → Prop where
  | none : Collapse job [] job
  | first (job' : Job) (hid : job'.id = job.id) (hstatus : job'.status = .pending)
      (hretry : job'.retryCount = job.retryCount + 1) :
      Collapse job [.ok job' true .failed] job'
  | again {verdicts : List TransitionResult} {job' : Job} (job'' : Job)
      (h : Collapse job verdicts job') (hne : verdicts ≠ []) (hid : job''.id = job'.id)
      (hstatus : job''.status = .pending) (hretry : job''.retryCount = job'.retryCount) :
      Collapse job (verdicts ++ [.ok job'' false .pending]) job''

namespace Collapse

variable {job job' : Job} {verdicts : List TransitionResult}

theorem cases_nil (h : Collapse job verdicts job') : verdicts = [] ∧ job' = job ∨
    verdicts ≠ [] ∧ job'.id = job.id ∧ job'.status = .pending ∧
      job'.retryCount = job.retryCount + 1 := by
  induction h with
  | none => exact .inl ⟨rfl, rfl⟩
  | first job' hid hstatus hretry => exact .inr ⟨by simp, hid, hstatus, hretry⟩
  | again job'' h hne hid hstatus hretry ih =>
    obtain ⟨-, hid', -, hretry'⟩ := ih.resolve_left fun h => hne h.1
    exact .inr ⟨by simp, hid.trans hid', hstatus, hretry.trans hretry'⟩

theorem ok (h : Collapse job verdicts job') : ∀ result ∈ verdicts,
    ∃ job'' transitioned previousStatus, result = .ok job'' transitioned previousStatus := by
  induction h with
  | none => simp
  | first job' hid hstatus hretry => simp
  | again job'' h hne hid hstatus hretry ih =>
    intro result hresult
    rcases List.mem_append.mp hresult with hresult | hresult
    · exact ih result hresult
    · exact ⟨_, _, _, List.mem_singleton.mp hresult⟩

/-- One verdict carries the transition, and it is reported once. -/
theorem once (h : Collapse job verdicts job') (hne : verdicts ≠ []) :
    (∃ job'', verdicts.filter TransitionResult.transitioned = [.ok job'' true .failed]) ∧
      verdicts.flatMap TransitionResult.changes = [⟨job.id, .failed, .pending⟩] := by
  induction h with
  | none => exact absurd rfl hne
  | first job' hid hstatus hretry =>
    refine ⟨⟨job', rfl⟩, ?_⟩
    simp [TransitionResult.changes, hid, hstatus]
  | again job'' h hne' hid hstatus hretry ih =>
    obtain ⟨⟨first, hfilter⟩, hchanges⟩ := ih hne'
    refine ⟨⟨first, ?_⟩, ?_⟩
    · rw [List.filter_append, hfilter]
      rfl
    · rw [List.flatMap_append, hchanges]
      rfl

end Collapse

theorem lastCommitted_append_singleton (field : TextField) (trace : List Entry) (e : Entry) :
    lastCommitted field (trace ++ [e]) = (e.supplied field).or (lastCommitted field trace) := by
  rw [lastCommitted, List.filterMap_append]
  cases h : e.supplied field <;> simp [h, lastCommitted]

variable [LowerCase] {s : Store} {before : List Entry} {e : Entry} {id : String}

/-- A call of a retry is a transition to `pending` decided on the stored job, or it leaves the job
as it is. -/
theorem System.Occurs.retry (h : System.Occurs (Request.Retries id) s before e)
    (hanswered : e.repositoryFails = false) :
    (Call.verdict e.event = [] ∧
      stored e.after.store.jobs id = stored e.before.store.jobs id) ∨
    ∃ input now, e.request = .patchJob input ∧
      Call.verdict e.event =
        [verdict .pending (some input.patch) now (stored e.before.store.jobs id)] ∧
      stored e.after.store.jobs id = (stored e.before.store.jobs id).map fun job =>
        if Admits job .pending then updatedJob job .pending (some input.patch) now else job := by
  obtain ⟨input, hrequest, rfl, hstatus⟩ := h.allowed.patchJob
  have hcalls := h.guar
  rw [hrequest] at hcalls
  cases hevent : e.event with
  | mk c x =>
    rw [hevent] at hcalls
    cases c with
    | repository op =>
      cases x with
      | error thrown =>
        rw [Entry.repositoryFails, hevent] at hanswered
        cases hanswered
      | ok r =>
        obtain ⟨stamp, hf, hr, hafter⟩ := h.applies hevent
        cases op with
        | findById id => exact .inl ⟨rfl, by rw [hafter, Store.stored_apply]; rfl⟩
        | withTransition id target patch =>
          obtain ⟨rfl, rfl, current, -, htarget⟩ := hcalls
          rw [if_pos hstatus] at htarget
          subst htarget
          rw [withTransition_answer] at hr
          refine .inr ⟨input, stamp.now, hrequest, ?_, ?_⟩
          · rw [hr]
            rfl
          · rw [hafter, Store.stored_apply]
            simp [RepoOp.effect, PatchJobInput.patch]
        | list | search _ | create _ | listByStatus _ _ | withBatch _ _ | delete _ =>
          exact hcalls.elim
    | log event =>
      obtain ⟨t, hact⟩ := h.act
      refine .inl ⟨rfl, ?_⟩
      rw [World.act_store hact fun op hop => by rw [hevent] at hop; cases hop]
    | process _ | beginTick _ | endTick | randomUUID | dateNow => exact hcalls.elim

theorem System.Occurs.retry_read (h : System.Occurs (Request.Retries id) s before e)
    {id' : String} {r : Option Job}
    (he : e.event = ⟨.repository (.findById id'), .ok r⟩) :
    r = stored e.before.store.jobs id := by
  obtain ⟨input, hrequest, rfl, -⟩ := h.allowed.patchJob
  have hcalls := h.guar
  obtain ⟨stamp, hf, hr, -⟩ := h.applies he
  rw [hrequest, he] at hcalls
  rw [hr, hcalls.1]
  rfl

/-- What the commits of a run have made of a failed job that may be retried. -/
theorem System.Valid.collapse {trace : List Entry} {w : World} {job : Job}
    (h : System.Valid (Request.Retries job.id) s trace w)
    (hanswered : ∀ e ∈ trace, Entry.repositoryFails e = false)
    (hjob : stored s.jobs job.id = some job) (hfailed : job.status = .failed)
    (hlt : job.retryCount < maxRetryCount) :
    ∃ job', stored w.store.jobs job.id = some job' ∧
      Collapse job (trace.flatMap fun e => Call.verdict e.event) job' ∧
      ∀ field, job'.text field = (lastCommitted field trace).getD (job.text field) := by
  induction h using System.Valid.induction with
  | nil => exact ⟨job, hjob, .none, fun _ => rfl⟩
  | snoc trace e hocc ih =>
    obtain ⟨current, hcurrent, hcollapse, htext⟩ :=
      ih fun e he => hanswered e (List.mem_append_left _ he)
    have hverdicts : ((trace ++ [e]).flatMap fun e => Call.verdict e.event) =
        (trace.flatMap fun e => Call.verdict e.event) ++ Call.verdict e.event := by simp
    rw [hverdicts]
    simp only [lastCommitted_append_singleton]
    rcases hocc.retry (hanswered e (List.mem_append_right _ (List.mem_singleton_self e))) with
      ⟨hverdict, hsame⟩ | ⟨input, now, hrequest, hverdict, hafter⟩
    · have hsupplied : ∀ field, Entry.supplied field e = none := by
        intro field
        rw [Entry.supplied, hverdict]
        cases (Entry.request e) <;> rfl
      refine ⟨current, hsame.trans hcurrent, ?_, fun field => ?_⟩
      · rwa [hverdict, List.append_nil]
      · rw [hsupplied, Option.none_or, htext]
    · have hadmits : Admits current .pending := by
        rcases hcollapse.cases_nil with ⟨-, rfl⟩ | ⟨-, -, hpending, -⟩
        · refine .inr ((canTransition_iff current .pending).mpr ⟨?_, fun _ => hlt⟩)
          simp [hfailed, jobTransitions]
        · exact .inl hpending.symm
      have hid := lookup_key hcurrent
      rw [hcurrent, verdict, if_pos hadmits] at hverdict
      rw [hcurrent, Option.map_some, if_pos hadmits] at hafter
      have hsupplied : ∀ field, Entry.supplied field e = input.patch.text field := by
        intro field
        rw [Entry.supplied, hrequest, hverdict]
      refine ⟨_, hafter, ?_, fun field => ?_⟩
      · rw [hverdict]
        rcases hcollapse.cases_nil with ⟨hnil, rfl⟩ | ⟨hne, -, hpending, -⟩
        · rw [hnil, hfailed]
          exact .first _ rfl rfl (by simp [updatedJob, hfailed])
        · rw [hpending]
          exact hcollapse.again _ hne rfl rfl (by simp [updatedJob, hpending])
      · rw [hsupplied, updatedJob_text, Option.bind_some, htext]
        cases input.patch.text field <;> rfl

/-- Retries beyond the limit are refused and leave the job. -/
theorem System.Valid.refused {trace : List Entry} {w : World} {job : Job}
    (h : System.Valid (Request.Retries job.id) s trace w)
    (hanswered : ∀ e ∈ trace, Entry.repositoryFails e = false)
    (hjob : stored s.jobs job.id = some job) (hfailed : job.status = .failed)
    (hle : maxRetryCount ≤ job.retryCount) :
    stored w.store.jobs job.id = some job ∧
      ∀ result ∈ trace.flatMap fun e => Call.verdict e.event,
        result = .refused .retryLimitExceeded := by
  induction h using System.Valid.induction with
  | nil => exact ⟨hjob, by simp⟩
  | snoc trace e hocc ih =>
    obtain ⟨hcurrent, hresults⟩ := ih fun e he => hanswered e (List.mem_append_left _ he)
    rw [List.flatMap_append, List.flatMap_singleton]
    rcases hocc.retry (hanswered e (List.mem_append_right _ (List.mem_singleton_self e))) with
      ⟨hverdict, hsame⟩ | ⟨input, now, -, hverdict, hafter⟩
    · rw [hverdict, List.append_nil]
      exact ⟨hsame.trans hcurrent, hresults⟩
    · have hrefused : ¬ Admits job .pending := by
        rintro (hstatus | hcan)
        · rw [hfailed] at hstatus
          cases hstatus
        · exact absurd ((canTransition_pending hcan).2) (by omega)
      have hreason : refusal job .pending = .retryLimitExceeded := by
        simp [refusal, transitionError, hfailed, jobTransitions, hle, TransitionError.toReason]
      rw [hcurrent, verdict, if_neg hrefused, hreason] at hverdict
      rw [hcurrent, Option.map_some, if_neg hrefused] at hafter
      refine ⟨hafter, fun result hresult => ?_⟩
      rcases List.mem_append.mp hresult with hresult | hresult
      · exact hresults result hresult
      · rw [hverdict] at hresult
        exact List.mem_singleton.mp hresult

theorem System.Valid.retries_stored {trace : List Entry} {w : World} {job : Job}
    (h : System.Valid (Request.Retries job.id) s trace w)
    (hanswered : ∀ e ∈ trace, Entry.repositoryFails e = false)
    (hjob : stored s.jobs job.id = some job) (hfailed : job.status = .failed) :
    stored w.store.jobs job.id ≠ none := by
  rcases Nat.lt_or_ge job.retryCount maxRetryCount with hlt | hle
  · obtain ⟨job', hjob', -⟩ := h.collapse hanswered hjob hfailed hlt
    rw [hjob']
    exact Option.some_ne_none job'
  · rw [(h.refused hanswered hjob hfailed hle).1]
    exact Option.some_ne_none job

/-- A settled retry has come back with the one verdict it has had. -/
theorem System.Reachable.retry_result {supportedJobTypes : SupportedJobTypes} {p : System}
    {job : Job} (h : System.Reachable supportedJobTypes (Request.Retries job.id) s p)
    (hanswered : ∀ e ∈ p.trace, Entry.repositoryFails e = false)
    (hsettled : ∀ f ∈ p.fibers, f.code.isSettled = true)
    (hjob : stored s.jobs job.id = some job) (hfailed : job.status = .failed)
    {i : ℕ} {f : Async.Fiber Effect.Answer Thrown Request.Reply} (hi : p.fibers[i]? = some f) :
    ∃ result, patchResult f = some result ∧
      (history i p.trace).flatMap Call.verdict = [result] ∧
      emitted (history i p.trace) = result.changes := by
  have hconf := h.conforming
  have houtcomes : Pool.Conforming (Request.Retries job.id) World.act (fun _ _ _ => True)
      Request.Outcome ⟨s, false⟩ p :=
    Pool.Reachable.conforming h fun q hq => q.outcome supportedJobTypes hq
  have hf := List.mem_of_getElem? hi
  have hq := hconf.requests f hf
  have hpost := houtcomes.fibers i f hi
  obtain ⟨q, code⟩ := f
  obtain ⟨input, rfl, -⟩ := Request.Retries.patchJob hq
  cases code with
  | awaiting c k => cases hsettled _ hf
  | settled r =>
    rcases hpost with ⟨op, thrown, hcall⟩ | ⟨id, hcall⟩ | ⟨result, rfl, hverdict, hemitted⟩
    · obtain ⟨e, he, -, hevent⟩ := mem_of_mem_history hcall
      have hfails := hanswered e he
      rw [Entry.repositoryFails, hevent] at hfails
      cases hfails
    · obtain ⟨e, he, -, hevent⟩ := mem_of_mem_history hcall
      obtain ⟨before, after, htrace⟩ := List.append_of_mem he
      have hocc := hconf.valid.occurs htrace
      have hstored := System.Valid.retries_stored hocc.valid
        (fun e he => hanswered e (htrace ▸ List.mem_append_left _ he)) hjob hfailed
      exact absurd (System.Occurs.retry_read hocc hevent).symm hstored
    · exact ⟨result, rfl, hverdict, hemitted⟩

/-- Concurrent retries of a failed job collapse to one. Below the limit every request succeeds, the
job ends as `pending` with one more retry and the texts committed last, and one result and one event
carry the transition; at the limit every request is refused and the job stays as it was. -/
theorem retries_collapse {supportedJobTypes : SupportedJobTypes} {p : System} {job : Job}
    (h : System.Reachable supportedJobTypes (Request.Retries job.id) s p)
    (hanswered : ∀ e ∈ p.trace, Entry.repositoryFails e = false)
    (hsettled : ∀ f ∈ p.fibers, f.code.isSettled = true) (hne : p.fibers ≠ [])
    (hjob : stored s.jobs job.id = some job) (hfailed : job.status = .failed) :
    (job.retryCount < maxRetryCount →
      (∀ f ∈ p.fibers, ∃ job' transitioned previousStatus,
        patchResult f = some (.ok job' transitioned previousStatus)) ∧
      (∃ job', stored p.state.store.jobs job.id = some job' ∧ job'.status = .pending ∧
        job'.retryCount = job.retryCount + 1 ∧
        ∀ field, job'.text field = (lastCommitted field p.trace).getD (job.text field)) ∧
      (∃ job', (p.fibers.filterMap patchResult).filter TransitionResult.transitioned =
        [.ok job' true .failed]) ∧
      p.trace.flatMap Entry.emitted = [⟨job.id, .failed, .pending⟩]) ∧
    (maxRetryCount ≤ job.retryCount →
      (∀ f ∈ p.fibers, patchResult f = some (.refused .retryLimitExceeded)) ∧
      stored p.state.store.jobs job.id = some job) := by
  have hconf := h.conforming
  have hresult := fun (i : ℕ) f (hi : p.fibers[i]? = some f) =>
    h.retry_result hanswered hsettled hjob hfailed hi
  let results := p.fibers.filterMap patchResult
  have hresults : results = p.fibers.flatMap fun f => (patchResult f).toList :=
    List.filterMap_eq_flatMap_toList _ _
  have hverdicts : (p.trace.flatMap fun e => Call.verdict e.event).Perm results := by
    rw [hresults]
    refine hconf.perm_flatMap Call.verdict _ fun i f hi => ?_
    obtain ⟨result, hsome, hverdict, -⟩ := hresult i f hi
    rw [hverdict, hsome, Option.toList_some]
  have hevents : (p.trace.flatMap Entry.emitted).Perm
      (results.flatMap TransitionResult.changes) := by
    rw [hresults, List.flatMap_assoc]
    refine hconf.perm_flatMap (fun c => c.call.emitted) _ fun i f hi => ?_
    obtain ⟨result, hsome, -, hemitted⟩ := hresult i f hi
    rw [hsome, Option.toList_some, List.flatMap_singleton]
    exact hemitted
  have hfiber : ∀ f ∈ p.fibers, ∃ result, patchResult f = some result ∧
      result ∈ p.trace.flatMap fun e => Call.verdict e.event := by
    intro f hf
    obtain ⟨i, hi⟩ := List.getElem?_of_mem hf
    obtain ⟨result, hsome, -⟩ := hresult i f hi
    exact ⟨result, hsome, hverdicts.symm.subset (List.mem_filterMap.mpr ⟨f, hf, hsome⟩)⟩
  refine ⟨fun hlt => ?_, fun hle => ?_⟩
  · obtain ⟨job', hjob', hcollapse, htext⟩ :=
      System.Valid.collapse hconf.valid hanswered hjob hfailed hlt
    have hsome : (p.trace.flatMap fun e => Call.verdict e.event) ≠ [] := by
      obtain ⟨f, hf⟩ := List.exists_mem_of_ne_nil _ hne
      obtain ⟨result, -, hmem⟩ := hfiber f hf
      exact List.ne_nil_of_mem hmem
    obtain ⟨⟨first, hfirst⟩, hchanges⟩ := hcollapse.once hsome
    obtain ⟨-, -, hstatus, hretry⟩ := hcollapse.cases_nil.resolve_left fun h => hsome h.1
    refine ⟨fun f hf => ?_, ⟨job', hjob', hstatus, hretry, htext⟩, ⟨first, ?_⟩, ?_⟩
    · obtain ⟨result, hresult, hmem⟩ := hfiber f hf
      obtain ⟨job'', transitioned, previousStatus, rfl⟩ := hcollapse.ok result hmem
      exact ⟨job'', transitioned, previousStatus, hresult⟩
    · refine List.perm_singleton.mp ?_
      rw [← hfirst]
      exact hverdicts.symm.filter _
    · refine List.perm_singleton.mp (hevents.trans ?_)
      rw [← hchanges]
      exact hverdicts.symm.flatMap_right _
  · obtain ⟨hstored, hrefused⟩ := System.Valid.refused hconf.valid hanswered hjob hfailed hle
    refine ⟨fun f hf => ?_, hstored⟩
    obtain ⟨result, hresult, hmem⟩ := hfiber f hf
    rw [hresult, hrefused result hmem]

def Store.oneFailed : Store :=
  ofJobs [⟨"1", "title", "text", .failed, 0, "t", "t"⟩] (List.nodup_singleton _)

omit [LowerCase] in
/-- Two retries read the job before either commits; the second to commit brings a title. -/
theorem retries_collapse_two :
    letI := LowerCase.ascii
    ∃ p, System.Reachable ⟨fun _ => true, []⟩ (Request.Retries "1") Store.oneFailed p ∧
      p.fibers.length = 2 ∧ lastCommitted .title p.trace = some "new title" ∧
      p.trace.flatMap Entry.emitted = [⟨"1", .failed, .pending⟩] := by
  let _ := LowerCase.ascii
  obtain ⟨p, hp, hlength, htitle, hanswered, hsettled⟩ := System.exists_reachable
    ⟨fun _ => true, []⟩ (Request.Retries "1") Store.oneFailed
    [.start (.patchJob ⟨"1", some "new title", none, some .pending⟩),
      .start (.patchJob ⟨"1", none, some "new text", some .pending⟩), .resume 0 .quiet,
      .resume 1 .quiet, .resume 1 .quiet, .resume 0 .quiet, .resume 1 .quiet]
    (fun p => p.fibers.length = 2 ∧ lastCommitted .title p.trace = some "new title" ∧
      (∀ e ∈ p.trace, Entry.repositoryFails e = false) ∧ ∀ f ∈ p.fibers, f.code.isSettled = true)
    (by decide +kernel)
  have hne : p.fibers ≠ [] := by
    intro hnil
    rw [hnil] at hlength
    cases hlength
  let job : Job := ⟨"1", "title", "text", .failed, 0, "t", "t"⟩
  have hcollapse := @retries_collapse _ Store.oneFailed _ p job hp hanswered hsettled hne rfl rfl
  exact ⟨p, hp, hlength, htitle, (hcollapse.1 (by decide)).2.2.2⟩

end JobManager
