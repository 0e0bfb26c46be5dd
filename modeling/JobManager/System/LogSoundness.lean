import JobManager.System.TransitionLog

/-! Soundness of the transition log: how the events of a trace are matched with the status
changes that were committed. -/
namespace JobManager

open KeyedList Async JsonDbJobRepository

/-- The status changes an entry commits. -/
def Entry.changes (e : Entry) : List StatusChange :=
  e.before.store.jobs.filterMap fun job =>
    (stored e.after.store.jobs job.id).bind fun job' =>
      if job'.status = job.status then none else some ⟨job.id, job.status, job'.status⟩

/-- The transition event an entry emits. -/
def Entry.emitted (e : Entry) : List StatusChange := e.event.call.emitted

/-- Every event so far has a committed change of its own, of the same job and with the same two
statuses. -/
def Matched (trace : List Entry) : Prop :=
  (trace.flatMap Entry.emitted).Subperm (trace.flatMap Entry.changes)

/-- An answered commit that names a job which is already stored in the target status. -/
def Entry.Recommits (e : Entry) : Prop :=
  match e.event with
  | ⟨.repository (.withBatch ids target), .ok _⟩ => (target = .completed ∨ target = .failed) ∧
      ∃ id ∈ ids, (stored e.before.store.jobs id).map Job.status = some target
  | _ => False

instance (e : Entry) : Decidable e.Recommits := by
  unfold Entry.Recommits
  split <;> infer_instance

/-- PATCH requests and runs of the scheduler use case. -/
def Request.PatchOrExecute : Request → Prop
  | .patchJob _ | .processPendingJobs => True
  | _ => False

instance : DecidablePred Request.PatchOrExecute
  | .patchJob _ | .processPendingJobs => .isTrue trivial
  | .createJob _ | .getJob _ | .getJobs | .searchJobs _ | .deleteJob _ | .tick _ => .isFalse id

variable [LowerCase] {allowed : Request → Prop} {s : Store} {before : List Entry} {e : Entry}

omit [LowerCase] in
theorem Entry.mem_changes {job job' : Job}
    (hjob : stored e.before.store.jobs job.id = some job)
    (hjob' : stored e.after.store.jobs job.id = some job') (hne : job'.status ≠ job.status) :
    ⟨job.id, job.status, job'.status⟩ ∈ e.changes := by
  refine List.mem_filterMap.mpr ⟨job, lookup_mem hjob, ?_⟩
  rw [hjob']
  simp [hne]

/-- A transition that reports a change has committed it. -/
theorem System.Occurs.transition_change (h : System.Occurs allowed s before e) {id : String}
    {target : JobStatus} {patch : Option JobPatch} {job : Job} {previousStatus : JobStatus}
    (he : e.event = ⟨.repository (.withTransition id target patch),
      .ok (.ok job true previousStatus)⟩) :
    ⟨job.id, previousStatus, job.status⟩ ∈ e.changes := by
  obtain ⟨stamp, hf, hr, hafter⟩ := h.applies he
  rw [withTransition_answer] at hr
  cases hs : stored e.before.store.jobs id with
  | none =>
    rw [hs] at hr
    cases hr
  | some current =>
    rw [hs, verdict] at hr
    split at hr
    · next ha =>
      injection hr with hjob hne hprevious
      subst hjob hprevious
      obtain rfl := lookup_key hs
      have hne : target ≠ current.status := of_decide_eq_true hne.symm
      refine Entry.mem_changes hs ?_ hne
      rw [hafter, Store.stored_apply, hs]
      simp [RepoOp.effect, ha]
    · cases hr

omit [LowerCase] in
/-- Only `processing` leads to the two outcomes. -/
theorem from_processing {job : Job} {target : JobStatus} (h : canTransition job target = true)
    (htarget : target = .completed ∨ target = .failed) : job.status = .processing := by
  have hedge := ((canTransition_iff job target).mp h).1
  rcases htarget with rfl | rfl <;> cases hs : job.status <;>
    simp [hs, jobTransitions] at hedge ⊢

/-- A commit that names no job twice over has changed every job it answers with. -/
theorem System.Occurs.commit_changes (h : System.Occurs allowed s before e) {ids : List String}
    {target : JobStatus} {result : BatchResult}
    (he : e.event = ⟨.repository (.withBatch ids target), .ok result⟩)
    (htarget : target = .completed ∨ target = .failed) (hre : ¬ e.Recommits) :
    (changesTo target result.committed).Subperm e.changes := by
  have hnodup : (result.committed.map Job.id).Nodup := by
    rw [h.committed_ids he]
    exact (h.commit_nodup he htarget).filter _
  refine List.Nodup.subperm ?_ fun change hchange => ?_
  · refine List.Nodup.of_map StatusChange.jobId ?_
    rw [changesTo, List.map_map]
    exact hnodup
  · obtain ⟨job, hmem, rfl⟩ := List.mem_map.mp hchange
    obtain ⟨hid, hstatus, hafter⟩ := h.committed_stored he hmem
    have hany : job.id ∈ result.committed.map Job.id := List.mem_map_of_mem hmem
    rw [h.committed_ids he, List.mem_filter] at hany
    obtain ⟨job₀, hjob₀, ha⟩ := (Option.any_eq_true _ _).mp hany.2
    have ha : Admits job₀ target := of_decide_eq_true ha
    have hkey : job₀.id = job.id := lookup_key hjob₀
    rw [← hkey] at hjob₀ hafter hid ⊢
    have hne : job₀.status ≠ target := by
      intro heq
      refine hre ?_
      rw [Entry.Recommits, he]
      exact ⟨htarget, job₀.id, hid, by rw [hjob₀, Option.map_some, heq]⟩
    have hfrom := from_processing (ha.resolve_left fun heq => hne heq.symm) htarget
    have hmem' := Entry.mem_changes hjob₀ hafter (hstatus ▸ hne.symm)
    rwa [hfrom, hstatus] at hmem'

/-- What an answer makes reportable has been committed. -/
theorem System.Occurs.reportable_changes (h : System.Occurs allowed s before e)
    (hre : ¬ e.Recommits) : (Call.reportable e.event).Subperm e.changes := by
  unfold Call.reportable
  split
  · next he => exact List.singleton_subperm_iff.mpr (h.transition_change he)
  · next he => exact h.commit_changes he (.inl rfl) hre
  · next he => exact h.commit_changes he (.inr rfl) hre
  · exact List.nil_subperm

/-- Every caller keeps to the log, in every interleaving. -/
theorem logSound_history {trace : List Entry} {w : World}
    (h : Async.Valid allowed World.act (fun _ => Reports) ⟨s, false⟩ trace w) (i : ℕ) :
    LogSound (history i trace) := by
  induction h with
  | nil => exact List.prefix_refl _
  | @snoc trace e hvalid hq t hact hguar ih =>
    rw [history_append, history_singleton]
    split
    · next hi => exact hi ▸ hguar.snoc e.event.answer
    · rwa [List.append_nil]

/-- In every run in which no commit names a job that already has the status to be committed, every
transition event has a committed change of its own. -/
theorem log_matched {supportedJobTypes : SupportedJobTypes} {p : System}
    (h : System.Reachable supportedJobTypes allowed s p)
    (hre : ∀ e ∈ p.trace, ¬ Entry.Recommits e) : Matched p.trace := by
  have hvalid := h.conforming.valid
  have hreports : Pool.Conforming allowed World.act (fun _ => Reports) (fun _ _ _ => True)
      ⟨s, false⟩ p := Pool.Reachable.conforming h fun q _ => q.reports supportedJobTypes
  refine List.subperm_ext_iff.mpr fun change _ => ?_
  calc (p.trace.flatMap Entry.emitted).count change
      ≤ (p.trace.flatMap fun e => Call.reportable e.event).count change :=
        count_flatMap_history_le (fun c : Call => c.call.emitted) Call.reportable change fun i =>
          (logSound_history hreports.valid i).sublist.count_le change
    _ ≤ (p.trace.flatMap Entry.changes).count change := by
        rw [List.count_flatMap, List.count_flatMap]
        refine List.sum_le_sum fun e he => ?_
        obtain ⟨_, hocc⟩ := hvalid.mem he
        exact (System.Occurs.reportable_changes hocc (hre e he)).count_le change

omit [LowerCase] in
/-- A run fails the job, and a PATCH retries it. -/
theorem log_matched_retry :
    letI := LowerCase.ascii
    ∃ p, System.Reachable ⟨fun _ => true, []⟩ Request.PatchOrExecute Store.onePending p ∧
      p.trace.flatMap Entry.emitted = [⟨"1", .processing, .failed⟩, ⟨"1", .failed, .pending⟩] ∧
      Matched p.trace := by
  let _ := LowerCase.ascii
  obtain ⟨p, hp, hemitted, hre⟩ := System.exists_reachable ⟨fun _ => true, []⟩
    Request.PatchOrExecute Store.onePending
    ([.start .processPendingJobs, .start (.patchJob ⟨"1", none, none, some .pending⟩)] ++
      List.replicate 5 (.resume 0 { Choice.quiet with outcome := .failed }) ++
      List.replicate 3 (.resume 1 .quiet))
    (fun p => p.trace.flatMap Entry.emitted =
        [⟨"1", .processing, .failed⟩, ⟨"1", .failed, .pending⟩] ∧
      ∀ e ∈ p.trace, ¬ Entry.Recommits e) (by decide +kernel)
  exact ⟨p, hp, hemitted, log_matched hp hre⟩

omit [LowerCase] in
/-- Two runs claim the job, process it and commit it as completed. The second commit is the
equal-status shortcut, but both runs report it. -/
theorem not_log_matched :
    letI := LowerCase.ascii
    ¬ ∀ p, System.Reachable ⟨fun _ => true, []⟩ Request.PatchOrExecute Store.onePending p →
      Matched p.trace := by
  let _ := LowerCase.ascii
  intro hmatched
  obtain ⟨p, hp, hemitted, hchanges⟩ := System.exists_reachable ⟨fun _ => true, []⟩
    Request.PatchOrExecute Store.onePending
    ([.start .processPendingJobs, .start .processPendingJobs] ++
      (List.replicate 5 [.resume 0 .quiet, .resume 1 .quiet]).flatten)
    (fun p => (p.trace.flatMap Entry.emitted).count ⟨"1", .processing, .completed⟩ = 2 ∧
      (p.trace.flatMap Entry.changes).count ⟨"1", .processing, .completed⟩ = 1) (by decide +kernel)
  have hle := (hmatched p hp).count_le ⟨"1", .processing, .completed⟩
  omega

end JobManager
