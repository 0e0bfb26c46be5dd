import JobManager.System.Trace

/-! Claims and processor calls over a trace. -/
namespace JobManager

open KeyedList Async JsonDbJobRepository

namespace Progress

theorem listings_after (v : Progress) (c : Call) :
    (v.after c).listings = v.listings ++ (after {} c).listings := by
  unfold after
  split <;> simp

theorem claimBatches_after (v : Progress) (c : Call) :
    (v.after c).claimBatches = v.claimBatches ++ (after {} c).claimBatches := by
  unfold after
  split <;> simp

theorem claims_after (v : Progress) (c : Call) :
    (v.after c).claims = v.claims ++ (after {} c).claims := by
  unfold after
  split <;> simp [claims]

theorem processed_after (v : Progress) (c : Call) :
    (v.after c).processed = v.processed ++ (after {} c).processed := by
  unfold after
  split <;> simp

end Progress

/-- The jobs an entry claims. -/
def Entry.claims (e : Entry) : List Job := (Progress.after {} e.event).claims

/-- The job an entry hands to the processor, if it is a processor call. -/
def Entry.processed (e : Entry) : List Job :=
  (Progress.after {} e.event).processed.map Prod.fst

def claimCount (id : String) (trace : List Entry) : ℕ :=
  (trace.flatMap fun e => e.claims.map Job.id).count id

def processCount (id : String) (trace : List Entry) : ℕ :=
  (trace.flatMap fun e => e.processed.map Job.id).count id

theorem claims_progress (h : List Call) :
    (progress h).claims = h.flatMap fun c => (Progress.after {} c).claims := by
  induction h using List.reverseRecOn with
  | nil => rfl
  | append_singleton h c ih => rw [progress_snoc, Progress.claims_after, ih]; simp

theorem processed_progress (h : List Call) :
    (progress h).processed = h.flatMap fun c => (Progress.after {} c).processed := by
  induction h using List.reverseRecOn with
  | nil => rfl
  | append_singleton h c ih => rw [progress_snoc, Progress.processed_after, ih]; simp

theorem listings_append (h h' : List Call) :
    (progress (h ++ h')).listings = (progress h).listings ++ (progress h').listings := by
  induction h' using List.reverseRecOn with
  | nil => simp
  | append_singleton h' c ih =>
    rw [← List.append_assoc, progress_snoc, progress_snoc, Progress.listings_after, ih,
      Progress.listings_after (progress h'), List.append_assoc]

theorem mem_claimBatches {h : List Call} {jobs : List Job}
    (hm : jobs ∈ (progress h).claimBatches) : ∃ ids result,
      (⟨.repository (.withBatch ids .processing), .ok result⟩ : Call) ∈ h ∧
        result.committed = jobs := by
  induction h using List.reverseRecOn with
  | nil => simp at hm
  | append_singleton h c ih =>
    rw [progress_snoc] at hm
    by_cases hold : jobs ∈ (progress h).claimBatches
    · obtain ⟨ids, result, hc, hjobs⟩ := ih hold
      exact ⟨ids, result, List.mem_append_left _ hc, hjobs⟩
    · unfold Progress.after at hm
      split at hm <;> simp only [List.mem_append, List.mem_singleton, hold, false_or] at hm
      subst hm
      exact ⟨_, _, List.mem_append_right _ (List.mem_singleton_self _), rfl⟩

theorem claims_eq {e : Entry} {ids : List String} {result : BatchResult}
    (he : e.event = ⟨.repository (.withBatch ids .processing), .ok result⟩) :
    e.claims = result.committed := by
  rw [Entry.claims, he]
  exact List.flatten_singleton

theorem claims_eq_nil {e : Entry} (he : ∀ ids result,
    e.event ≠ ⟨.repository (.withBatch ids .processing), .ok result⟩) : e.claims = [] := by
  unfold Entry.claims Progress.after
  split <;> first | rfl | exact absurd ‹_› (he _ _)

variable [LowerCase] {allowed : Request → Prop} {s : Store} {trace : List Entry} {w : World}
  {before : List Entry} {e : Entry}

/-- The ids of a claim were listed together, so they are distinct. -/
theorem System.Occurs.claim_nodup (h : System.Occurs allowed s before e) {ids : List String}
    {result : BatchResult}
    (he : e.event = ⟨.repository (.withBatch ids .processing), .ok result⟩) : ids.Nodup := by
  have hcalls := h.guar
  rw [he] at hcalls
  obtain ⟨candidates, -, rfl, hprogress⟩ := hcalls.withBatch.2
  have hlisted : candidates ∈ (progress (history e.fiber before)).listings := by
    rw [hprogress]
    exact List.mem_singleton_self _
  obtain ⟨e', -, -, rfl⟩ := System.Valid.listing h.valid hlisted
  have hsub : ((e'.before.store.jobs.filter fun job => job.status = .pending).take 10).Sublist
      e'.before.store.jobs := (List.take_sublist _ _).trans List.filter_sublist
  exact e'.before.store.distinct.sublist (hsub.map Job.id)

/-- A batch commits the ids it names whose stored status admits the target. -/
theorem System.Occurs.committed_ids (h : System.Occurs allowed s before e) {ids : List String}
    {target : JobStatus} {result : BatchResult}
    (he : e.event = ⟨.repository (.withBatch ids target), .ok result⟩) :
    result.committed.map Job.id = ids.filter fun id =>
      (stored e.before.store.jobs id).any fun job => Admits job target := by
  obtain ⟨stamp, hf, hr, -⟩ := h.applies he
  rw [hr]
  exact withBatch_committed_ids stamp e.before.store.distinct ids target

/-- The jobs a batch answers with are those it has stored. -/
theorem System.Occurs.committed_stored (h : System.Occurs allowed s before e) {ids : List String}
    {target : JobStatus} {result : BatchResult}
    (he : e.event = ⟨.repository (.withBatch ids target), .ok result⟩) {job : Job}
    (hjob : job ∈ result.committed) :
    job.id ∈ ids ∧ job.status = target ∧ stored e.after.store.jobs job.id = some job := by
  obtain ⟨stamp, hf, hr, hafter⟩ := h.applies he
  rw [hr, withBatch_answer stamp e.before.store.distinct] at hjob
  obtain ⟨id, hid, hcommit⟩ := List.mem_filterMap.mp hjob
  obtain ⟨job₀, hs, hcommit⟩ := Option.bind_eq_some_iff.mp hcommit
  unfold commitOf at hcommit
  split at hcommit
  · next ha =>
    obtain rfl := Option.some.inj hcommit
    obtain rfl := lookup_key hs
    refine ⟨hid, rfl, ?_⟩
    rw [hafter, Store.stored_apply]
    change RepoOp.effect stamp job₀.id _ (stored e.before.store.jobs job₀.id) = _
    rw [hs]
    simp [RepoOp.effect, hid, advance, ha]
  · cases hcommit

/-- Nothing but the ids it names changes in a batch. -/
theorem System.Occurs.batch_stored (h : System.Occurs allowed s before e) {ids : List String}
    {target : JobStatus} {result : BatchResult}
    (he : e.event = ⟨.repository (.withBatch ids target), .ok result⟩) {id : String}
    (hid : id ∉ ids) :
    stored e.after.store.jobs id = stored e.before.store.jobs id := by
  obtain ⟨stamp, hf, -, hafter⟩ := h.applies he
  rw [hafter, Store.stored_apply, RepoOp.effect, if_neg hid]

/-- A claimed id is one the batch named and found in `pending` or already in `processing`. -/
theorem System.Occurs.claims_ids (h : System.Occurs allowed s before e) {ids : List String}
    {result : BatchResult}
    (he : e.event = ⟨.repository (.withBatch ids .processing), .ok result⟩) :
    e.claims.map Job.id = ids.filter fun id =>
      (stored e.before.store.jobs id).any fun job => Admits job .processing := by
  rw [claims_eq he, h.committed_ids he]

/-- A claim leaves its claimed ids in `processing` and every other id as it was. -/
theorem System.Occurs.claim_stored (h : System.Occurs allowed s before e) {ids : List String}
    {result : BatchResult}
    (he : e.event = ⟨.repository (.withBatch ids .processing), .ok result⟩) (id : String) :
    if id ∈ e.claims.map Job.id then
      (stored e.after.store.jobs id).map Job.status = some .processing
    else stored e.after.store.jobs id = stored e.before.store.jobs id := by
  obtain ⟨stamp, hf, -, hafter⟩ := h.applies he
  rw [h.claims_ids he, hafter, Store.stored_apply, RepoOp.effect]
  by_cases hid : id ∈ ids
  · cases hs : stored e.before.store.jobs id with
    | none => simp [hid, hs]
    | some job => by_cases ha : Admits job .processing <;> simp [hid, hs, ha, advance]
  · simp [hid]

/-- The ids a fiber has claimed are distinct. -/
theorem System.Valid.claims_nodup (h : System.Valid allowed s trace w) (i : ℕ) :
    ((progress (history i trace)).claims.map Job.id).Nodup := by
  induction h using System.Valid.induction with
  | nil => exact List.nodup_nil
  | snoc trace e hocc ih =>
    rw [history_append, history_singleton]
    split
    · next hi =>
      rw [progress_snoc, Progress.claims_after, List.map_append]
      by_cases he : ∃ ids result,
          e.event = ⟨.repository (.withBatch ids .processing), .ok result⟩
      · obtain ⟨ids, result, he⟩ := he
        have hcalls := hocc.guar
        rw [he, hi] at hcalls
        obtain ⟨candidates, -, -, hprogress⟩ := hcalls.withBatch.2
        have hids := hocc.claims_ids he
        rw [hprogress]
        show ((Entry.claims e).map Job.id).Nodup
        rw [hids]
        exact (hocc.claim_nodup he).filter _
      · have hnil : Entry.claims e = [] :=
          claims_eq_nil fun ids result h => he ⟨ids, result, h⟩
        rw [show (Progress.after {} e.event).claims = [] from hnil]
        simpa using ih
    · simpa using ih

/-- So are the ids of a commit. -/
theorem System.Occurs.commit_nodup (h : System.Occurs allowed s before e) {ids : List String}
    {target : JobStatus} {result : BatchResult}
    (he : e.event = ⟨.repository (.withBatch ids target), .ok result⟩)
    (htarget : target = .completed ∨ target = .failed) : ids.Nodup := by
  let v := progress (history e.fiber before)
  have hcalls := h.guar
  rw [he] at hcalls
  have hallows := hcalls.withBatch.2
  obtain ⟨outcome, hfinished, hids⟩ : ∃ outcome, v.Finished ∧ ids = v.outcomeIds outcome := by
    rcases htarget with rfl | rfl
    · exact ⟨.completed, hallows.1, hallows.2.1⟩
    · exact ⟨.failed, hallows.1, hallows.2.1⟩
  have hprocessed : v.processed.map (fun p => p.1.id) = v.claims.map Job.id := by
    rw [← hfinished, List.map_map]
    rfl
  have hnodup : (v.claims.map Job.id).Nodup := System.Valid.claims_nodup h.valid e.fiber
  rw [← hprocessed] at hnodup
  rw [hids]
  exact hnodup.sublist (List.filter_sublist.map _)

/-- A fiber hands its claimed jobs to the processor in order, each once. -/
theorem System.Valid.processed_prefix (h : System.Valid allowed s trace w) (i : ℕ) :
    (progress (history i trace)).processed.map Prod.fst <+:
      (progress (history i trace)).claims := by
  induction h using System.Valid.induction with
  | nil => simp
  | snoc trace e hocc ih =>
    rw [history_append, history_singleton]
    split
    · next hi =>
      rw [progress_snoc, Progress.claims_after, Progress.processed_after, List.map_append]
      by_cases hp : ∃ job, e.event.call = .process job
      · obtain ⟨job, hjob⟩ := hp
        have hcalls := hocc.guar
        rw [hjob] at hcalls
        obtain ⟨rest, hrest, -⟩ := hcalls.process.2
        subst hi
        have hafter : (Progress.after {} e.event).processed.map Prod.fst = [job] := by
          obtain ⟨i, q, ⟨call, answer⟩, _, _⟩ := e
          subst hjob
          cases answer <;> rfl
        rw [hafter, hrest]
        exact ⟨rest ++ (Progress.after {} e.event).claims, by simp⟩
      · have hafter : (Progress.after {} e.event).processed = [] := by
          unfold Progress.after
          split <;> simp_all
        rw [hafter, List.map_nil, List.append_nil]
        exact ih.trans (List.prefix_append _ _)
    · simpa using ih

/-- No job goes through the processor more often than it was claimed. -/
theorem System.Valid.processCount_le (h : System.Valid allowed s trace w) (id : String) :
    processCount id trace ≤ claimCount id trace := by
  refine count_flatMap_history_le
    (fun c => ((Progress.after {} c).processed.map Prod.fst).map Job.id)
    (fun c => (Progress.after {} c).claims.map Job.id) id fun i => ?_
  rw [← List.map_flatMap, ← List.map_flatMap, ← List.map_flatMap, ← processed_progress,
    ← claims_progress]
  exact ((h.processed_prefix i).map Job.id).sublist.count_le id

end JobManager
