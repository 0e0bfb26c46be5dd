import JobManager.System.SchedulerRun

/-! What a later run of the scheduler use case does about the jobs an interrupted one has left. -/
namespace JobManager

open KeyedList Async JsonDbJobRepository

/-- One run of the use case that has the store for itself and finishes without a failing call. -/
structure Undisturbed [LowerCase] (supportedJobTypes : SupportedJobTypes) (s : Store)
    (p : System) : Prop where
  reachable : System.Reachable supportedJobTypes (fun q => q = .processPendingJobs) s p
  fibers : ∃ r, p.fibers = [⟨.processPendingJobs, .settled r⟩]
  ok : ¬ Failing (history 0 p.trace)

variable [LowerCase] {allowed : Request → Prop} {s : Store} {trace : List Entry} {w : World}

/-- A run that is alone, step by step. -/
theorem System.Valid.alone_induction (h : System.Valid allowed s trace w) {n : ℕ}
    (hrun : ∀ e ∈ trace, e.fiber = n ∧ e.request = .processPendingJobs)
    (P : Progress → Store → Prop) (hstart : P {} s)
    (hstep : ∀ before e v, System.Occurs allowed s before e → Owns v e.before.store →
      v.Allows e.event.call → P v e.before.store → P (v.after e.event) e.after.store) :
    P (progressOf n trace) w.store := by
  induction h using System.Valid.induction with
  | nil => exact hstart
  | snoc trace e hocc ih =>
    obtain ⟨rfl, hreq⟩ := hrun e (List.mem_append_right _ (List.mem_singleton_self _))
    have hrun' : ∀ e' ∈ trace, e'.fiber = e.fiber ∧ e'.request = .processPendingJobs :=
      fun e' he' => hrun e' (List.mem_append_left _ he')
    have howns : Owns (progressOf e.fiber trace) e.before.store :=
      System.Valid.owns hocc.valid fun e' he' =>
        ⟨fun _ => (hrun' e' he').2, fun hne => absurd (hrun' e' he').1 hne⟩
    have hallows := hocc.guar
    rw [hreq] at hallows
    rw [progressOf, history_append, history_singleton, if_pos rfl, progress_snoc]
    exact hstep trace e _ hocc howns hallows (ih hrun')

/-- Left alone, a run changes only what it claims. -/
theorem System.Valid.unclaimed (h : System.Valid allowed s trace w) {n : ℕ}
    (hrun : ∀ e ∈ trace, e.fiber = n ∧ e.request = .processPendingJobs) (id : String)
    (hid : ∀ job ∈ (progressOf n trace).claims, job.id ≠ id) :
    stored w.store.jobs id = stored s.jobs id := by
  refine h.alone_induction hrun (fun v s' => (∀ job ∈ v.claims, job.id ≠ id) →
    stored s'.jobs id = stored s.jobs id) (fun _ => rfl) ?_ hid
  intro before e v hocc howns hallows ih hid
  rw [Progress.claims_after] at hid
  rw [← ih fun job hjob => hid job (List.mem_append_left _ hjob)]
  by_contra hne
  obtain ⟨job, hjob, rfl⟩ := howns.changed hocc hallows hne
  rw [Progress.claims_after] at hjob
  exact hid job hjob rfl

/-- A run does not pick up what is already `processing`. -/
theorem System.Valid.stays_processing (h : System.Valid allowed s trace w) {n : ℕ}
    (hrun : ∀ e ∈ trace, e.fiber = n ∧ e.request = .processPendingJobs) {job : Job}
    (hjob : stored s.jobs job.id = some job) (hstatus : job.status = .processing) :
    stored w.store.jobs job.id = some job := by
  refine (h.alone_induction hrun (fun v s' => stored s'.jobs job.id = some job ∧
    ∀ job' ∈ v.claims, job'.id ≠ job.id) ⟨hjob, fun _ h => (nomatch h)⟩ ?_).1
  rintro before e v hocc howns hallows ⟨hs, hnot⟩
  have hnot' : ∀ job' ∈ (v.after e.event).claims, job'.id ≠ job.id := by
    intro job' hjob' hid
    rw [Progress.claims_after] at hjob'
    rcases List.mem_append.mp hjob' with hold | hnew
    · exact hnot job' hold hid
    · by_cases he : ∃ ids result, e.event = ⟨.repository (.withBatch ids .processing), .ok result⟩
      · obtain ⟨ids, result, he⟩ := he
        rw [he] at hallows
        obtain ⟨_, -, -, hmoves⟩ := howns.claimed hocc he hallows
        have hpending := (hmoves job' (claims_eq he ▸ hnew)).1
        rw [hid, hs] at hpending
        simp [hstatus] at hpending
      · have hnone := claims_eq_nil fun ids result h => he ⟨ids, result, h⟩
        rw [Entry.claims] at hnone
        rw [hnone] at hnew
        cases hnew
  refine ⟨?_, hnot'⟩
  by_contra hne
  obtain ⟨job', hjob', hid⟩ := howns.changed hocc hallows (hs ▸ hne)
  exact hnot' job' hjob' hid

namespace Undisturbed

variable {supportedJobTypes : SupportedJobTypes} {p : System}

theorem entries (h : Undisturbed supportedJobTypes s p) :
    ∀ e ∈ p.trace, e.fiber = 0 ∧ e.request = .processPendingJobs := by
  intro e he
  obtain ⟨r, hfibers⟩ := h.fibers
  obtain ⟨f, hf, hreq⟩ := h.reachable.conforming.entries e he
  rw [hfibers, List.getElem?_singleton] at hf
  split at hf
  · next h0 =>
    obtain rfl := Option.some.inj hf
    exact ⟨h0, hreq.symm⟩
  · cases hf

/-- What an undisturbed run leaves in `processing` was there before it. -/
theorem processing_iff (h : Undisturbed supportedJobTypes s p) (id : String) :
    (stored p.state.store.jobs id).map Job.status = some .processing ↔
      (stored s.jobs id).map Job.status = some .processing := by
  have hvalid := h.reachable.conforming.valid
  constructor
  · intro hprocessing
    by_cases hid : ∃ job ∈ (progressOf 0 p.trace).claims, job.id = id
    · -- a claimed job was committed in the end
      obtain ⟨job, hjob, rfl⟩ := hid
      obtain ⟨job', hjob', hstatus⟩ := Option.map_eq_some_iff.mp hprocessing
      have howns : Owns (progressOf 0 p.trace) p.state.store :=
        System.Valid.owns hvalid fun e he =>
          ⟨fun _ => (h.entries e he).2, fun hne => absurd (h.entries e he).1 hne⟩
      obtain ⟨r, hfibers⟩ := h.fibers
      have hpost := h.reachable.conforming.fibers 0 ⟨.processPendingJobs, .settled r⟩
        (by rw [hfibers]; rfl)
      cases r with
      | error e => exact absurd hpost h.ok
      | ok result =>
        have hcount := (howns.report hpost).1 job hjob
        have hdone : job.id ∈ (progressOf 0 p.trace).done :=
          List.count_pos_iff.mp (by omega)
        exact absurd hstatus (howns.released job.id hdone job' hjob')
    · rw [← System.Valid.unclaimed hvalid h.entries id fun job hjob he => hid ⟨job, hjob, he⟩]
      exact hprocessing
  · intro hprocessing
    obtain ⟨job, hjob, hstatus⟩ := Option.map_eq_some_iff.mp hprocessing
    obtain rfl := lookup_key hjob
    rw [System.Valid.stays_processing hvalid h.entries hjob hstatus, Option.map_some, hstatus]

end Undisturbed

/-- A later run leaves none of the jobs of an interrupted run in `processing` exactly if the
interrupted run had already committed all of them. -/
theorem interrupted_recovers {supportedJobTypes : SupportedJobTypes} {p p' : System} {n : ℕ}
    (h : System.Reachable supportedJobTypes Request.SchedulerOrApi s p)
    (hsolo : ∀ i f, p.fibers[i]? = some f → (f.request = .processPendingJobs ↔ i = n))
    (h' : Undisturbed supportedJobTypes p.state.store p') :
    (∀ job ∈ (progressOf n p.trace).claims,
      (stored p'.state.store.jobs job.id).map Job.status ≠ some .processing) ↔
    ∀ job ∈ (progressOf n p.trace).claims, job.id ∈ (progressOf n p.trace).done := by
  have howns : Owns (progressOf n p.trace) p.state.store :=
    System.Valid.owns h.conforming.valid (h.solo (fun _ hq => hq) hsolo)
  refine forall₂_congr fun job hjob => ?_
  rw [Ne, h'.processing_iff]
  constructor
  · intro hne
    by_contra hdone
    rw [howns.owned job hjob hdone, Option.map_some, howns.processing job hjob] at hne
    exact hne rfl
  · intro hdone hprocessing
    obtain ⟨job', hjob', hstatus⟩ := Option.map_eq_some_iff.mp hprocessing
    exact howns.released job.id hdone job' hjob' hstatus

/-- The jobs that are neither completed nor failed. -/
def Store.unfinished (s : Store) : List Job :=
  s.jobs.filter fun job => job.status ≠ .completed ∧ job.status ≠ .failed

/-- A single run of the use case that has come to its end. -/
def Ended (p : System) : Bool :=
  match p.fibers with
  | [Fiber.mk .processPendingJobs (.settled _)] => true
  | _ => false

omit [LowerCase] in
theorem fibers_of_ended {p : System} (h : Ended p = true) :
    ∃ r, p.fibers = [⟨.processPendingJobs, .settled r⟩] := by
  unfold Ended at h
  split at h
  · next r heq => exact ⟨r, heq⟩
  · cases h

omit [LowerCase] in
/-- A run that stops right after its claim, and the run after it. -/
theorem interrupted_run :
    letI := LowerCase.ascii
    ∃ p, System.Reachable ⟨fun _ => true, []⟩ Request.SchedulerOrApi Store.onePending p ∧
      (∀ i f, p.fibers[i]? = some f → (f.request = .processPendingJobs ↔ i = 0)) ∧
      p.state.store.unfinished.length ≤ 10 ∧
      ∃ p', Undisturbed ⟨fun _ => true, []⟩ p.state.store p' ∧
        ∃ job ∈ (progressOf 0 p.trace).claims,
          (stored p'.state.store.jobs job.id).map Job.status = some .processing := by
  let _ := LowerCase.ascii
  have hrun : ∃ p, System.Reachable ⟨fun _ => true, []⟩ Request.SchedulerOrApi Store.onePending p ∧
      (p.fibers.map Fiber.request = [.processPendingJobs] ∧
        (progressOf 0 p.trace).claims.map Job.id = ["1"]) ∧
      p.state.store.unfinished.length ≤ 10 ∧
      (Pool.exec (Request.program ⟨fun _ => true, []⟩) (fun q => q = .processPendingJobs) World.act
        [.start .processPendingJobs, .resume 0 .quiet, .resume 0 .quiet]
        (Pool.start ⟨p.state.store, false⟩)).any (fun p' => (Ended p' = true ∧
          ¬ Failing (history 0 p'.trace)) ∧
          (stored p'.state.store.jobs "1").map Job.status = some .processing) = true :=
    System.exists_reachable _ _ _
      [.start .processPendingJobs, .resume 0 .quiet, .resume 0 .quiet] _ (by decide +kernel)
  obtain ⟨p, hp, ⟨hfibers, hclaims⟩, hunfinished, hnext⟩ := hrun
  obtain ⟨p', hp', ⟨hended, hok⟩, hstatus⟩ := System.exists_reachable _ _ _ _ _ hnext
  refine ⟨p, hp, fun i f hf => ?_, hunfinished, p', ⟨hp', fibers_of_ended hended, hok⟩, ?_⟩
  · have hreq : (p.fibers.map Fiber.request)[i]? = some f.request := by
      rw [List.getElem?_map, hf, Option.map_some]
    rw [hfibers] at hreq
    match i with
    | 0 => exact iff_of_true (Option.some.inj hreq).symm rfl
    | i + 1 => cases hreq
  · obtain ⟨job, hjob, hid⟩ := List.mem_map.mp (hclaims ▸ List.mem_singleton_self "1")
    exact ⟨job, hjob, hid ▸ hstatus⟩

omit [LowerCase] in
theorem interrupted_recovers_claim :
    letI := LowerCase.ascii
    ∃ p, System.Reachable ⟨fun _ => true, []⟩ Request.SchedulerOrApi Store.onePending p ∧
      ∃ job ∈ (progressOf 0 p.trace).claims, job.id ∉ (progressOf 0 p.trace).done := by
  let _ := LowerCase.ascii
  obtain ⟨p, hp, hsolo, -, p', hp', job, hjob, hstatus⟩ := interrupted_run
  refine ⟨p, hp, ?_⟩
  by_contra hdone
  have hall : ∀ job ∈ (progressOf 0 p.trace).claims, job.id ∈ (progressOf 0 p.trace).done :=
    fun job hjob => by_contra fun h => hdone ⟨job, hjob, h⟩
  exact (interrupted_recovers hp hsolo hp').mpr hall job hjob hstatus

omit [LowerCase] in
theorem not_interrupted_recovers :
    letI := LowerCase.ascii
    ¬ ∀ p, System.Reachable ⟨fun _ => true, []⟩ Request.SchedulerOrApi Store.onePending p →
      (∀ i f, p.fibers[i]? = some f → (f.request = .processPendingJobs ↔ i = 0)) →
      p.state.store.unfinished.length ≤ 10 →
      ∀ p', Undisturbed ⟨fun _ => true, []⟩ p.state.store p' →
        ∀ job ∈ (progressOf 0 p.trace).claims,
          (stored p'.state.store.jobs job.id).map Job.status ≠ some .processing := by
  let _ := LowerCase.ascii
  intro hrecovers
  obtain ⟨p, hp, hsolo, hunfinished, p', hp', job, hjob, hstatus⟩ := interrupted_run
  exact hrecovers p hp hsolo hunfinished p' hp' job hjob hstatus

end JobManager
