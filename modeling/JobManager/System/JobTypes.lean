import JobManager.Adapters.JobsController

/-! Which titles the stored jobs have: POST admits implemented job types only, PATCH writes any
title. -/
namespace JobManager

open KeyedList Async JsonDbJobRepository

/-- Every stored title is that of an implemented job type. -/
def Implemented (types : AllowListJobTypes) (s : Store) : Prop :=
  ∀ job ∈ s.jobs, types.isSupported job.title = true

instance (types : AllowListJobTypes) (s : Store) : Decidable (Implemented types s) :=
  inferInstanceAs (Decidable (∀ job ∈ s.jobs, types.isSupported job.title = true))

/-- What the DTOs let through, and the ticks. -/
def Request.Accepted [ClassValidator ℚ] : Request → Prop
  | createJob input => ∃ body, ValidationPipe.accepts Http.createJobDto body = true ∧
    Http.createInput (.object body) = input
  | searchJobs query => ∃ fields, ValidationPipe.accepts Http.searchQueryDto fields = true ∧
    Http.searchInput (.object fields) = query
  | patchJob input => ∃ body, ValidationPipe.accepts (N := ℚ) patchJobDto body = true ∧
    JobsController.patchInput input.id (.object body) = input
  | getJob _ | getJobs | deleteJob _ | tick _ => True
  | processPendingJobs => False

/-- An answered transition that has a patch: the id, the target and the patch. -/
def Call.patched : Call → Option (String × JobStatus × JobPatch)
  | ⟨.repository (.withTransition id target (some patch)), .ok _⟩ => some (id, target, patch)
  | _ => none

/-- A PATCH that is carried out supplies a title that is no implemented job type. -/
def Entry.Mistitles (types : AllowListJobTypes) (e : Entry) : Prop :=
  ∃ call ∈ Call.patched e.event,
    (∃ title ∈ call.2.2.title, types.isSupported title = false) ∧
      ∃ job ∈ stored e.before.store.jobs call.1, Admits job call.2.1

instance (types : AllowListJobTypes) (e : Entry) : Decidable (e.Mistitles types) := by
  unfold Entry.Mistitles
  infer_instance

theorem Call.patched_eq_some {c : Call} {id : String} {target : JobStatus} {patch : JobPatch}
    (h : c.patched = some (id, target, patch)) :
    ∃ result, c = ⟨.repository (.withTransition id target (some patch)), .ok result⟩ := by
  unfold Call.patched at h
  split at h
  · next result =>
    cases h
    exact ⟨result, rfl⟩
  · cases h

/-- Jobs are created with an implemented title only. -/
def CreatesImplemented (types : AllowListJobTypes) (c : Effect) : Prop :=
  ∀ data, c = .repository (.create data) → types.isSupported data.title = true

theorem Request.createsImplemented (types : AllowListJobTypes) (q : Request) :
    Conforms (fun _ => CreatesImplemented types) (fun _ _ => True)
      (q.program types.toSupportedJobTypes) [] := by
  by_cases hq : ∃ input, q = .createJob input
  · obtain ⟨input, rfl⟩ := hq
    change Conforms _ _ (CreateJobUseCase.execute types.toSupportedJobTypes input) []
    unfold CreateJobUseCase.execute
    split
    · trivial
    · next h =>
      refine ⟨?_, fun x => by cases x <;> trivial⟩
      rintro data hdata
      cases hdata
      simpa [AllowListJobTypes.toSupportedJobTypes] using h
  · refine (q.conforms types.toSupportedJobTypes).mono ?_ fun _ _ _ => trivial
    rintro h c hc data rfl
    exact absurd ⟨data, hc.create⟩ hq

variable [LowerCase] {allowed : Request → Prop} {s : Store} {before : List Entry} {e : Entry}
  {types : AllowListJobTypes}

/-- One step leaves implemented titles only, unless it mistitles a job. -/
theorem System.Occurs.implemented (h : System.Occurs allowed s before e)
    (hcreate : CreatesImplemented types e.event.call) (hpatch : ¬ e.Mistitles types)
    (hbefore : Implemented types e.before.store) : Implemented types e.after.store := by
  intro job' hjob'
  have hafter' := e.after.store.stored_of_mem hjob'
  cases h.effect with
  | silent hsame => exact hbefore job' (hsame ▸ hjob')
  | applies op stamp hf he hafter =>
    rw [hafter] at hafter'
    rw [he] at hcreate
    cases hjob : stored e.before.store.jobs job'.id with
    | none =>
      rw [Store.stored_apply, hjob] at hafter'
      cases op with
      | create data =>
        simp only [RepoOp.effect, Option.none_or] at hafter'
        split at hafter'
        · obtain rfl := Option.some.inj hafter'
          exact hcreate data rfl
        · cases hafter'
      | findById _ | list | search _ | listByStatus _ _ | withTransition _ _ _ | withBatch _ _
      | delete _ => simp [RepoOp.effect] at hafter'
    | some job =>
      have hid := lookup_key hjob
      rw [← hid] at hjob hafter'
      have htitle := hbefore job (lookup_mem hjob)
      rcases e.before.store.apply_cases op stamp hf hjob with hsame |
        ⟨target, patch, rfl, ha, hup⟩ | ⟨ids, target, rfl, -, ha, hup⟩ | ⟨-, -, hdel⟩
      · obtain rfl := Option.some.inj (hsame.symm.trans hafter')
        exact htitle
      · obtain rfl := Option.some.inj (hup.symm.trans hafter')
        cases hsupplied : patch.bind JobPatch.title with
        | none => simpa [updatedJob, hsupplied] using htitle
        | some title =>
          obtain ⟨patch, rfl, hsome⟩ := Option.bind_eq_some_iff.mp hsupplied
          have hnew : types.isSupported title = true := by
            by_contra hnot
            refine hpatch ⟨(job.id, target, patch), ?_,
              ⟨title, hsome, Bool.eq_false_iff.mpr hnot⟩, job, hjob, ha⟩
            rw [he]
            rfl
          simpa [updatedJob, hsome] using hnew
      · obtain rfl := Option.some.inj (hup.symm.trans hafter')
        exact htitle
      · cases hdel.symm.trans hafter'

theorem System.Occurs.not_implemented (h : System.Occurs allowed s before e)
    (hpatch : e.Mistitles types) : ¬ Implemented types e.after.store := by
  obtain ⟨⟨id, target, patch⟩, hcall, ⟨title, htitle, hnot⟩, job, hjob, ha⟩ := hpatch
  obtain ⟨result, he⟩ := Call.patched_eq_some hcall
  have hjob : stored e.before.store.jobs id = some job := hjob
  have ha : Admits job target := ha
  have htitle : patch.title = some title := htitle
  obtain ⟨stamp, hf, -, hafter⟩ := h.applies he
  have hup : stored e.after.store.jobs id =
      some (updatedJob job target (some patch) stamp.now) := by
    rw [hafter, Store.stored_apply, hjob]
    simp [RepoOp.effect, ha]
  intro himplemented
  have hnew := himplemented _ (lookup_mem hup)
  simp [updatedJob, htitle, hnot] at hnew

/-- A run without such a PATCH passes through stores of implemented titles only. -/
theorem System.Valid.implemented {trace : List Entry} {w : World}
    (h : System.Valid allowed s trace w)
    (hcreate : ∀ e ∈ trace, CreatesImplemented types e.event.call)
    (hpatch : ∀ e ∈ trace, ¬ Entry.Mistitles types e) (hs : Implemented types s) :
    Implemented types w.store ∧ ∀ e ∈ trace, Implemented types (Entry.before e).store := by
  induction h using System.Valid.induction with
  | nil => exact ⟨hs, by simp⟩
  | snoc trace e hocc ih =>
    have hlast := List.mem_append_right trace (List.mem_singleton_self e)
    obtain ⟨hbefore, htrace⟩ := ih (fun e he => hcreate e (List.mem_append_left _ he))
      fun e he => hpatch e (List.mem_append_left _ he)
    refine ⟨hocc.implemented (hcreate e hlast) (hpatch e hlast) hbefore, fun e' he' => ?_⟩
    rcases List.mem_append.mp he' with he' | he'
    · exact htrace e' he'
    · obtain rfl := List.mem_singleton.mp he'
      exact hbefore

/-- From the empty store, every state of a run holds implemented titles only, exactly when no PATCH
of the run mistitles a job; whatever is requested. -/
theorem titles_implemented {p : System}
    (h : System.Reachable types.toSupportedJobTypes allowed Store.empty p) :
    (Implemented types p.state.store ∧ ∀ e ∈ p.trace, Implemented types (Entry.before e).store) ↔
      ∀ e ∈ p.trace, ¬ Entry.Mistitles types e := by
  have hvalid := h.conforming.valid
  have hcreates : Pool.Conforming allowed World.act
      (fun _ _ => CreatesImplemented types) (fun _ _ _ => True) ⟨Store.empty, false⟩ p :=
    Pool.Reachable.conforming h fun q _ => q.createsImplemented types
  constructor
  · rintro ⟨hfinal, hbefore⟩ e he hpatch
    obtain ⟨before, hocc⟩ := hvalid.mem he
    refine System.Occurs.not_implemented hocc hpatch ?_
    rcases hvalid.after_mem he with hafter | ⟨e', he', hafter⟩
    · exact hafter ▸ hfinal
    · exact hafter ▸ hbefore e' he'
  · intro hpatch
    have hempty : Implemented types Store.empty := fun job hjob => absurd hjob List.not_mem_nil
    refine System.Valid.implemented hvalid (fun e he => ?_) hpatch hempty
    obtain ⟨before, hocc⟩ := hcreates.valid.mem he
    exact hocc.guar

/-- A run of some accepted requests by an explicit schedule. -/
theorem exists_accepted_run [ClassValidator ℚ] (types : AllowListJobTypes) (requests : List Request)
    (haccepted : ∀ q ∈ requests, q.Accepted) (moves : List (Pool.Move Request Choice))
    (P : System → Prop) [DecidablePred P]
    (h : (Pool.exec (Request.program types.toSupportedJobTypes) (· ∈ requests) World.act moves
      (Pool.start ⟨Store.empty, false⟩)).any (fun p => P p) = true) :
    ∃ p, System.Reachable types.toSupportedJobTypes Request.Accepted Store.empty p ∧ P p := by
  obtain ⟨p, hp, hP⟩ := Pool.exists_reachable moves _ P h
  exact ⟨p, Pool.Reachable.mono haccepted hp, hP⟩

omit [LowerCase] in
theorem accepted_newsDigest :
    letI := ClassValidator.codePoints ℚ
    Request.Accepted (.createJob ⟨"news-digest", "text"⟩) := by
  let _ := ClassValidator.codePoints ℚ
  exact ⟨[("title", .string "news-digest"), ("description", .string "text")], by decide, rfl⟩

omit [LowerCase] in
/-- A job is created, gets a new description and is claimed by a tick. -/
theorem titles_implemented_claimed :
    letI := LowerCase.ascii
    letI := ClassValidator.codePoints ℚ
    ∃ p, System.Reachable (AllowListJobTypes.ofTitles ["news-digest"]).toSupportedJobTypes
        Request.Accepted Store.empty p ∧
      p.state.store.jobs = [⟨"2", "news-digest", "new text", .processing, 0, "u", "u"⟩] ∧
      Implemented (.ofTitles ["news-digest"]) p.state.store := by
  let _ := LowerCase.ascii
  let _ := ClassValidator.codePoints ℚ
  have haccepted : ∀ q ∈ [.createJob ⟨"news-digest", "text"⟩,
      .patchJob ⟨"2", none, some "new text", none⟩, .tick true], Request.Accepted q := by
    rw [List.forall_mem_cons, List.forall_mem_cons, List.forall_mem_singleton]
    exact ⟨accepted_newsDigest, ⟨[("description", .string "new text")], by decide, rfl⟩, trivial⟩
  obtain ⟨p, hp, hjobs, hpatch⟩ := exists_accepted_run (.ofTitles ["news-digest"]) _ haccepted
    ([.start (.createJob ⟨"news-digest", "text"⟩), .resume 0 .quiet,
      .start (.patchJob ⟨"2", none, some "new text", none⟩), .resume 1 .quiet, .resume 1 .quiet,
      .start (.tick true)] ++ List.replicate 6 (.resume 2 .quiet))
    (fun p =>
      p.state.store.jobs = [⟨"2", "news-digest", "new text", .processing, 0, "u", "u"⟩] ∧
      ∀ e ∈ p.trace, ¬ Entry.Mistitles (.ofTitles ["news-digest"]) e) (by decide +kernel)
  exact ⟨p, hp, hjobs, ((titles_implemented hp).mpr hpatch).1⟩

omit [LowerCase] in
/-- A PATCH renames the job to a type that nothing implements. -/
theorem not_titles_implemented :
    letI := LowerCase.ascii
    letI := ClassValidator.codePoints ℚ
    ¬ ∀ (types : AllowListJobTypes) (p : System),
      System.Reachable types.toSupportedJobTypes Request.Accepted Store.empty p →
      Implemented types p.state.store := by
  let _ := LowerCase.ascii
  let _ := ClassValidator.codePoints ℚ
  intro himplemented
  have haccepted : ∀ q ∈ [.createJob ⟨"news-digest", "text"⟩,
      .patchJob ⟨"2", some "other", none, none⟩], Request.Accepted q := by
    rw [List.forall_mem_cons, List.forall_mem_singleton]
    exact ⟨accepted_newsDigest, ⟨[("title", .string "other")], by decide, rfl⟩⟩
  obtain ⟨p, hp, hnot⟩ := exists_accepted_run (.ofTitles ["news-digest"]) _ haccepted
    [.start (.createJob ⟨"news-digest", "text"⟩), .resume 0 .quiet,
      .start (.patchJob ⟨"2", some "other", none, none⟩), .resume 1 .quiet, .resume 1 .quiet]
    (fun p => ¬ Implemented (.ofTitles ["news-digest"]) p.state.store) (by decide +kernel)
  exact hnot (himplemented _ p hp)

end JobManager
