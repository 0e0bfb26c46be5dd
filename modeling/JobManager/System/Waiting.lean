import JobManager.Async.Ranking
import JobManager.System.Bounded

/-! How long a pending job waits for its claim when ticks are guarded. Jobs are listed in the
order they are stored, so only the jobs stored ahead of it can be claimed in its place. -/
namespace JobManager

open KeyedList Async JsonDbJobRepository

/-- How often a job can still be claimed. -/
def Job.credit (job : Job) : ℕ :=
  (maxRetryCount - job.retryCount) + if job.status = .pending then 1 else 0

def Store.credit (s : Store) (id : String) : ℕ := ((stored s.jobs id).map Job.credit).getD 0

/-- The ids stored ahead of a job. -/
def Store.ahead (s : Store) (id : String) : List String := s.ids.takeWhile fun id' => id' ≠ id

def World.Pending (w : World) (id : String) : Prop :=
  (stored w.store.jobs id).map Job.status = some .pending

instance (w : World) (id : String) : Decidable (w.Pending id) := by
  unfold World.Pending
  infer_instance

theorem World.Pending.mem_ids {w : World} {id : String} (h : w.Pending id) : id ∈ w.store.ids := by
  obtain ⟨job, hjob, -⟩ := Option.map_eq_some_iff.mp h
  exact (w.store.stored_isSome id).mp (by simp [hjob])

def Entry.isClaim (e : Entry) : Bool :=
  match e.event with
  | ⟨.repository (.withBatch _ .processing), .ok _⟩ => true
  | _ => false

/-- The answered claims of a stretch of the trace. -/
def answeredClaims (segment : List Entry) : ℕ := segment.countP Entry.isClaim

@[simp] theorem answeredClaims_snoc (segment : List Entry) (e : Entry) :
    answeredClaims (segment ++ [e]) = answeredClaims segment + if e.isClaim then 1 else 0 := by
  simp [answeredClaims, List.countP_append, List.countP_singleton]

theorem Entry.isClaim_iff (e : Entry) : e.isClaim = true ↔
    ∃ ids result, e.event = ⟨.repository (.withBatch ids .processing), .ok result⟩ := by
  unfold isClaim
  split
  · next ids result he => exact iff_of_true rfl ⟨ids, result, he⟩
  · next hne => exact iff_of_false (by simp) fun ⟨ids, result, he⟩ => hne ids result he

theorem Job.credit_le (job : Job) : job.credit ≤ 4 := by
  unfold credit maxRetryCount
  split <;> omega

theorem Store.credit_le (s : Store) (id : String) : s.credit id ≤ 4 := by
  unfold credit
  cases stored s.jobs id with
  | none => exact Nat.zero_le 4
  | some job => exact job.credit_le

/-- A retry takes one from the count and gives one back to the status. -/
theorem JobStep.credit_le {call : RepoCall} {job job' : Job} (h : JobStep call job job') :
    job'.credit ≤ job.credit := by
  have hstatus := h.status
  have hretry := h.retry
  have hcount := h.retryCount
  unfold Job.credit
  cases hs : job.status <;> cases hs' : job'.status <;>
    simp [hs, hs', jobTransitions] at hstatus hretry hcount ⊢ <;> omega

theorem JobStep.credit_lt {call : RepoCall} {job job' : Job} (h : JobStep call job job')
    (hpending : job.status = .pending) (hleft : job'.status ≠ .pending) :
    job'.credit < job.credit := by
  have hcount := h.retryCount
  simp only [Job.credit, hpending, hleft, ↓reduceIte] at hcount ⊢
  simp only [reduceCtorEq, false_and, or_false] at hcount
  omega

/-- The listing either reaches a pending job or is filled up by jobs stored ahead of it. -/
theorem Store.listing_ahead (s : Store) {id : String}
    (hpending : (stored s.jobs id).map Job.status = some .pending) (n : ℕ) :
    let candidates := (s.jobs.filter fun job => job.status = .pending).take n
    id ∈ candidates.map Job.id ∨ candidates.length = n ∧ candidates.map Job.id ⊆ s.ahead id := by
  obtain ⟨job, hjob, hstatus⟩ := Option.map_eq_some_iff.mp hpending
  obtain rfl := lookup_key hjob
  obtain ⟨first, rest, hsplit⟩ := List.append_of_mem (lookup_mem hjob)
  have hahead : s.ahead job.id = first.map Job.id := by
    have hdistinct : (s.jobs.map Job.id).Nodup := s.distinct
    rw [hsplit, List.map_append, List.map_cons] at hdistinct
    rw [ahead, ids, hsplit, List.map_append, List.map_cons, List.takeWhile_append_of_pos]
    · simp
    · intro id hid
      simpa using (List.nodup_append.mp hdistinct).2.2 id hid job.id List.mem_cons_self
  have hfilter : (s.jobs.filter fun job => job.status = .pending) =
      (first.filter fun job => job.status = .pending) ++
        job :: rest.filter fun job => job.status = .pending := by
    rw [hsplit, List.filter_append, List.filter_cons_of_pos (by simpa using hstatus)]
  simp only [hfilter, hahead]
  by_cases hn : n ≤ (first.filter fun job => job.status = .pending).length
  · rw [List.take_append_of_le_length hn]
    refine .inr ⟨List.length_take_of_le hn, ?_⟩
    exact ((List.take_sublist _ _).trans List.filter_sublist).map Job.id |>.subset
  · refine .inl (List.mem_map_of_mem ?_)
    rw [List.take_append]
    refine List.mem_append_right _ ?_
    obtain ⟨k, hk⟩ := Nat.exists_eq_add_of_lt (Nat.lt_of_not_le hn)
    rw [hk, show ∀ a : ℕ, a + k + 1 - a = k + 1 by omega, List.take_succ_cons]
    exact List.mem_cons_self

variable [LowerCase] {s : Store} {trace : List Entry} {e : Entry}

section

variable {allowed : Request → Prop} (h : System.Occurs allowed s trace e) {id : String}

include h

theorem System.Occurs.credit_le (hissued : id ∈ e.before.store.issued) :
    e.after.store.credit id ≤ e.before.store.credit id := by
  unfold Store.credit
  cases hjob' : stored e.after.store.jobs id with
  | none => exact Nat.zero_le _
  | some job' =>
    cases hjob : stored e.before.store.jobs id with
    | none => exact absurd hissued (h.appears hjob hjob').1
    | some job =>
      obtain ⟨call, hstep⟩ := h.jobStep hjob hjob'
      exact hstep.credit_le

/-- A job that leaves `pending` has one claim less ahead of it. -/
theorem System.Occurs.credit_lt (hpending : e.before.Pending id) (hleft : ¬ e.after.Pending id) :
    e.after.store.credit id < e.before.store.credit id := by
  obtain ⟨job, hjob, hstatus⟩ := Option.map_eq_some_iff.mp hpending
  unfold Store.credit
  rw [hjob]
  cases hjob' : stored e.after.store.jobs id with
  | none => simp [Job.credit, hstatus]
  | some job' =>
    obtain ⟨call, hstep⟩ := h.jobStep hjob hjob'
    exact hstep.credit_lt hstatus fun hs => hleft (by simp [World.Pending, hjob', hs])

/-- A claim does not leave a job it names `pending`. -/
theorem System.Occurs.not_pending {names : List String} {result : BatchResult}
    (he : e.event = ⟨.repository (.withBatch names .processing), .ok result⟩) (hid : id ∈ names)
    (hpending : e.before.Pending id) : ¬ e.after.Pending id := by
  obtain ⟨job, hjob, hstatus⟩ := Option.map_eq_some_iff.mp hpending
  have hclaimed : id ∈ (Entry.claims e).map Job.id := by
    rw [h.claims_ids he, List.mem_filter, hjob]
    refine ⟨hid, decide_eq_true (.inr ?_)⟩
    exact (canTransition_iff job .processing).mpr (by simp [hstatus, jobTransitions])
  have hafter := h.claim_stored he id
  rw [if_pos hclaimed] at hafter
  simp [World.Pending, hafter]

/-- New jobs go to the end and the others keep their order. -/
theorem System.Occurs.ahead_subset (hid : id ∈ e.before.store.ids)
    (hid' : id ∈ e.after.store.ids) : e.after.store.ahead id ⊆ e.before.store.ahead id := by
  cases h.effect with
  | silent hsame => rw [hsame]; exact List.Subset.refl _
  | applies op stamp hf he hafter =>
    unfold Store.ahead
    rw [hafter, Store.ids_apply] at hid' ⊢
    cases op with
    | create data =>
      rw [RepoOp.keysEffect, takeWhile_ne_append hid]
      exact List.Subset.refl _
    | delete id' =>
      simp only [RepoOp.keysEffect] at hid' ⊢
      split at hid'
      · rw [if_pos ‹_›]
        exact (takeWhile_ne_filter e.before.store.ids (List.mem_filter.mp hid').2).subset
      · rw [if_neg ‹_›]
        exact List.Subset.refl _
    | findById _ | list | search _ | listByStatus _ _ | withTransition _ _ _ | withBatch _ _ =>
      exact List.Subset.refl _

end

/-- What the jobs of a set can still be claimed. -/
def Store.creditOf (s : Store) (ids : Finset String) : ℕ := ∑ id ∈ ids, s.credit id

omit [LowerCase] in
/-- A measure that falls on some of the ids and rises on none. -/
theorem sum_add_length_le {ids : Finset String} {f g : String → ℕ} {falling : List String}
    (hfalling : ∀ id ∈ falling, id ∈ ids ∧ f id < g id) (hnodup : falling.Nodup)
    (hle : ∀ id ∈ ids, f id ≤ g id) : ∑ id ∈ ids, f id + falling.length ≤ ∑ id ∈ ids, g id := by
  classical
  have hcard : falling.length = ∑ id ∈ ids, if id ∈ falling.toFinset then 1 else 0 := by
    rw [Finset.sum_ite_mem, Finset.inter_eq_right.mpr, Finset.sum_const, smul_eq_mul, mul_one,
      List.toFinset_card_of_nodup hnodup]
    exact fun id hid => (hfalling id (List.mem_toFinset.mp hid)).1
  rw [hcard, ← Finset.sum_add_distrib]
  refine Finset.sum_le_sum fun id hid => ?_
  split
  · next hmem => exact (hfalling id (List.mem_toFinset.mp hmem)).2
  · exact hle id hid

/-- A listing that has not been claimed yet, seen later: unless it reaches the waiting job, its ten
candidates are stored ahead of it, and those no longer pending have lost credit since. -/
structure Listed (ids : Finset String) (candidates : List Job) (bound : ℕ) (w : World) : Prop where
  length : candidates.length = 10
  nodup : (candidates.map Job.id).Nodup
  ahead : ∀ job ∈ candidates, job.id ∈ ids
  credit : ∃ credit : String → ℕ, ∑ id ∈ ids, credit id ≤ bound ∧
    (∀ id ∈ ids, w.store.credit id ≤ credit id) ∧
    ∀ job ∈ candidates, w.Pending job.id ∨ w.store.credit job.id < credit job.id

/-- The invariant of the wait of a job, from a state in which `ids` are stored ahead of it on:
every claim is paid with ten credits of them, but for one claim listed before. -/
structure Waiting (id : String) (ids : Finset String) (start : ℕ) (before segment : List Entry)
    (w : World) : Prop where
  issued : ∀ a ∈ ids, a ∈ w.store.issued
  ahead : ∀ a ∈ w.store.ahead id, a ∈ ids
  total : 10 * answeredClaims segment + w.store.creditOf ids ≤ start + 10
  carried : ∀ i, InsideTick (history i (before ++ segment)) →
    (progress (history i before)).listings ≠ [] →
    (progress (history i (before ++ segment))).claimBatches = [] →
    10 * answeredClaims segment + w.store.creditOf ids ≤ start
  listed : ∀ i, InsideTick (history i (before ++ segment)) →
    (progress (history i (before ++ segment))).claimBatches = [] →
    ∀ candidates ∈ (progress (history i segment)).listings, id ∈ candidates.map Job.id ∨
      10 * answeredClaims segment ≤ start + 10 ∧
        Listed ids candidates (start + 10 - 10 * answeredClaims segment) w

theorem Listed.step {allowed : Request → Prop} {ids : Finset String} {candidates : List Job}
    {bound : ℕ} (hl : Listed ids candidates bound e.before)
    (h : System.Occurs allowed s trace e) (hissued : ∀ a ∈ ids, a ∈ e.before.store.issued) :
    Listed ids candidates bound e.after := by
  obtain ⟨credit, hsum, hle, hcandidates⟩ := hl.credit
  have hfall := fun id hid => h.credit_le (hissued id hid)
  refine ⟨hl.length, hl.nodup, hl.ahead, credit, hsum,
    fun id hid => (hfall id hid).trans (hle id hid), fun job hjob => ?_⟩
  by_cases hafter : e.after.Pending job.id
  · exact .inl hafter
  · refine .inr ?_
    rcases hcandidates job hjob with hpending | hlt
    · exact (h.credit_lt hpending hafter).trans_le (hle _ (hl.ahead job hjob))
    · exact (hfall _ (hl.ahead job hjob)).trans_lt hlt

/-- A tick that has listed was inside before the entry. -/
theorem System.Occurs.inside_before (h : System.Occurs Request.Guarded s trace e) {i : ℕ}
    (hin : InsideTick (history i (trace ++ [e])))
    (hlistings : (progress (history i trace)).listings ≠ []) : InsideTick (history i trace) := by
  rw [history_append, history_singleton] at hin
  split at hin
  · next hi =>
    subst hi
    rcases hin.of_snoc.2 with hin | ⟨g, hbegin⟩
    · exact hin
    · have hcalls := h.guar
      rw [hbegin] at hcalls
      obtain ⟨x, hhistory⟩ := hcalls.beginTick.2
      rw [hhistory] at hlistings
      cases x <;> simp [progress, Progress.after] at hlistings
  · rwa [List.append_nil] at hin

omit [LowerCase] in
theorem claimBatches_before {i : ℕ}
    (hbatches : (progress (history i (trace ++ [e]))).claimBatches = []) :
    (progress (history i trace)).claimBatches = [] := by
  rw [history_append, history_singleton] at hbatches
  split at hbatches
  · rw [progress_snoc, Progress.claimBatches_after] at hbatches
    exact (List.append_eq_nil_iff.mp hbatches).1
  · rwa [List.append_nil] at hbatches

section

variable {id : String} {ids : Finset String} {start : ℕ} {before segment : List Entry}
  (hw : Waiting id ids start before segment e.before)
  (h : System.Occurs Request.Guarded s (before ++ segment) e)
  (hbefore : e.before.Pending id) (hafter : e.after.Pending id)

include hw h

theorem Waiting.creditOf_le : e.after.store.creditOf ids ≤ e.before.store.creditOf ids :=
  Finset.sum_le_sum fun a ha => h.credit_le (hw.issued a ha)

include hbefore hafter

/-- A claim that leaves the job waiting has its ten jobs from ahead of it, unless its tick listed
before the stretch. -/
theorem Waiting.pays {names : List String} {result : BatchResult}
    (he : e.event = ⟨.repository (.withBatch names .processing), .ok result⟩) :
    10 * (answeredClaims segment + 1) + e.after.store.creditOf ids ≤ start + 10 := by
  have hcalls := h.guar
  rw [he] at hcalls
  have hinside := hcalls.inside h.allowed
  obtain ⟨candidates, -, rfl, hprogress⟩ := hcalls.withBatch.2
  have hlistings := listings_append (history e.fiber before) (history e.fiber segment)
  rw [← history_append, hprogress] at hlistings
  by_cases hcarried : (progress (history e.fiber before)).listings = []
  · rw [hcarried, List.nil_append] at hlistings
    have hreach : id ∉ candidates.map Job.id := fun hid => h.not_pending he hid hbefore hafter
    obtain ⟨hle, hlisted⟩ := (hw.listed e.fiber hinside
      (congrArg Progress.claimBatches hprogress) candidates
      (by simp [← hlistings])).resolve_left hreach
    obtain ⟨credit, hsum, hcredit, hcandidates⟩ := hlisted.credit
    have hfall := fun a ha => h.credit_le (hw.issued a ha)
    have hpaid : e.after.store.creditOf ids + (candidates.map Job.id).length ≤
        ∑ a ∈ ids, credit a := by
      refine sum_add_length_le (fun a ha => ?_) hlisted.nodup
        fun a ha => (hfall a ha).trans (hcredit a ha)
      obtain ⟨job, hjob, rfl⟩ := List.mem_map.mp ha
      have hmem := hlisted.ahead job hjob
      refine ⟨hmem, ?_⟩
      rcases hcandidates job hjob with hpending | hlt
      · exact (h.credit_lt hpending (h.not_pending he ha hpending)).trans_le (hcredit _ hmem)
      · exact (hfall _ hmem).trans_lt hlt
    rw [List.length_map, hlisted.length] at hpaid
    omega
  · have hpaid := hw.carried e.fiber hinside hcarried (congrArg Progress.claimBatches hprogress)
    have := hw.creditOf_le h
    omega

/-- The claim is the last one its tick makes, and no other tick is inside. -/
theorem Waiting.claim {names : List String} {result : BatchResult}
    (he : e.event = ⟨.repository (.withBatch names .processing), .ok result⟩) :
    Waiting id ids start before (segment ++ [e]) e.after := by
  have hcalls := h.guar
  rw [he] at hcalls
  have hinside : InsideTick (history e.fiber (before ++ (segment ++ [e]))) := by
    rw [← List.append_assoc, history_append, history_singleton, if_pos rfl, he]
    exact (hcalls.inside h.allowed).snoc (by simp)
  have hclaimed : ∀ i, InsideTick (history i (before ++ (segment ++ [e]))) →
      (progress (history i (before ++ (segment ++ [e])))).claimBatches ≠ [] := by
    intro i hin
    have hexclusion := (System.Valid.tick_exclusion (Async.Occurs.snoc h)).2
    rw [List.append_assoc] at hexclusion
    obtain rfl := hexclusion i e.fiber hin hinside
    rw [← List.append_assoc, history_append, history_singleton, if_pos rfl, progress_snoc,
      Progress.claimBatches_after, he]
    simp [Progress.after]
  refine ⟨fun a ha => h.issued_subset (hw.issued a ha), fun a ha => hw.ahead a
    (h.ahead_subset hbefore.mem_ids hafter.mem_ids ha), ?_,
    fun i hin _ hbatches => absurd hbatches (hclaimed i hin),
    fun i hin hbatches => absurd hbatches (hclaimed i hin)⟩
  rw [answeredClaims_snoc, if_pos ((Entry.isClaim_iff e).mpr ⟨names, result, he⟩)]
  exact hw.pays h hbefore hafter he

omit hafter in
/-- The first ten pending jobs reach the waiting one, or else are stored ahead of it. -/
theorem Waiting.listing :
    let candidates := (e.before.store.jobs.filter fun job => job.status = .pending).take 10
    id ∈ candidates.map Job.id ∨ 10 * answeredClaims segment ≤ start + 10 ∧
      Listed ids candidates (start + 10 - 10 * answeredClaims segment) e.after := by
  intro candidates
  refine (e.before.store.listing_ahead hbefore 10).imp_right fun hlisting => ?_
  obtain ⟨hlength, hsubset⟩ := hlisting
  have htotal := hw.total
  have hsub : candidates.Sublist e.before.store.jobs :=
    (List.take_sublist _ _).trans List.filter_sublist
  have hnow : Listed ids candidates (start + 10 - 10 * answeredClaims segment) e.before := by
    refine ⟨hlength, e.before.store.distinct.sublist (hsub.map Job.id), fun job hjob =>
      hw.ahead _ (hsubset (List.mem_map_of_mem hjob)), e.before.store.credit, ?_,
      fun _ _ => le_rfl, fun job hjob => .inl ?_⟩
    · change e.before.store.creditOf ids ≤ _
      omega
    · rw [World.Pending, e.before.store.stored_of_mem (hsub.subset hjob), Option.map_some]
      simpa using (List.mem_filter.mp (List.mem_of_mem_take hjob)).2
  exact ⟨by omega, hnow.step h hw.issued⟩

theorem Waiting.other
    (he : ∀ names result, e.event ≠ ⟨.repository (.withBatch names .processing), .ok result⟩) :
    Waiting id ids start before (segment ++ [e]) e.after := by
  have hcount : answeredClaims (segment ++ [e]) = answeredClaims segment := by
    rw [answeredClaims_snoc, if_neg, Nat.add_zero]
    intro hclaim
    obtain ⟨names, result, h⟩ := (Entry.isClaim_iff e).mp hclaim
    exact he names result h
  have hcredit := hw.creditOf_le h
  refine ⟨fun a ha => h.issued_subset (hw.issued a ha), fun a ha => hw.ahead a
    (h.ahead_subset hbefore.mem_ids hafter.mem_ids ha), ?_, fun i hin hlistings hb => ?_,
    fun i hin hb candidates hmem => ?_⟩
  · have htotal := hw.total
    rw [hcount]
    omega
  · rw [← List.append_assoc] at hin hb
    have hlistings' : (progress (history i (before ++ segment))).listings ≠ [] := by
      rw [history_append, listings_append]
      exact fun hnil => hlistings (List.append_eq_nil_iff.mp hnil).1
    have := hw.carried i (h.inside_before hin hlistings') hlistings (claimBatches_before hb)
    rw [hcount]
    omega
  · rw [hcount]
    rw [← List.append_assoc] at hin hb
    have hcandidates : candidates ∈ (progress (history i segment)).listings ∨
        candidates ∈ (progress [e.event]).listings := by
      rw [history_append, history_singleton] at hmem
      split at hmem
      · rw [progress_snoc, Progress.listings_after] at hmem
        exact List.mem_append.mp hmem
      · rw [List.append_nil] at hmem
        exact .inl hmem
    rcases hcandidates with hmem | hmem
    · have hlistings : (progress (history i (before ++ segment))).listings ≠ [] := by
        rw [history_append, listings_append]
        exact List.ne_nil_of_mem (List.mem_append_right _ hmem)
      exact (hw.listed i (h.inside_before hin hlistings) (claimBatches_before hb) candidates
        hmem).imp_right (And.imp_right fun hlisted => hlisted.step h hw.issued)
    · -- the listing just made
      obtain ⟨status, limit, hevent⟩ := mem_listings hmem
      obtain rfl := h.listed (List.mem_singleton.mp hevent).symm
      exact hw.listing h hbefore

end

/-- No job starves under the overrun guard: while a job stays `pending`, every ten claims take up
four attempts of the jobs stored ahead of it, whatever else is created, patched or deleted. -/
theorem bounded_waiting {supportedJobTypes : SupportedJobTypes} {p₀ p : System} {id : String}
    {segment : List Entry}
    (h₀ : System.Reachable supportedJobTypes Request.Guarded s p₀)
    (h : Pool.Reachable (Request.program supportedJobTypes) Request.Guarded World.act p₀ p)
    (hsegment : p.trace = p₀.trace ++ segment)
    (hwaits : ∀ e ∈ segment, e.before.Pending id ∧ e.after.Pending id) :
    10 * answeredClaims segment ≤ 4 * (p₀.state.store.ahead id).length + 10 := by
  have hvalid := (System.Reachable.conforming (h₀.trans h)).valid
  rw [hsegment] at hvalid
  let ids := (p₀.state.store.ahead id).toFinset
  have hstart : p₀.state.store.creditOf ids ≤ 4 * (p₀.state.store.ahead id).length := by
    have hcard := Finset.sum_le_card_nsmul ids p₀.state.store.credit 4
      fun a _ => p₀.state.store.credit_le a
    have hlength : ids.card ≤ (p₀.state.store.ahead id).length := List.toFinset_card_le _
    change p₀.state.store.creditOf ids ≤ ids.card * 4 at hcard
    omega
  have hwaiting : Waiting id ids (p₀.state.store.creditOf ids) p₀.trace segment p.state := by
    revert hwaits
    refine (System.Reachable.conforming h₀).valid.segment_induction (motive := fun w segment =>
      (∀ e ∈ segment, World.Pending (Entry.before e) id ∧ World.Pending (Entry.after e) id) →
        Waiting id ids (p₀.state.store.creditOf ids) p₀.trace segment w) ?_ ?_ hvalid
    · intro _
      refine ⟨fun a ha => ?_, fun a ha => List.mem_toFinset.mpr ha, by simp [answeredClaims],
        fun _ _ _ _ => by simp [answeredClaims], by simp⟩
      exact p₀.state.store.ids_subset_issued
        ((List.takeWhile_sublist _).subset (List.mem_toFinset.mp ha))
    · intro segment e hocc ih hwaits
      obtain ⟨hbefore, hafter⟩ := hwaits e (List.mem_append_right _ (List.mem_singleton_self _))
      have hw := ih fun e' he' => hwaits e' (List.mem_append_left _ he')
      by_cases he : ∃ names result,
          e.event = ⟨.repository (.withBatch names .processing), .ok result⟩
      · obtain ⟨names, result, he⟩ := he
        exact hw.claim hocc hbefore hafter he
      · exact hw.other hocc hbefore hafter fun names result h => he ⟨names, result, h⟩
  have := hwaiting.total
  omega

omit [LowerCase] in
/-- The eleventh job waits out one claim. -/
theorem bounded_waiting_tick :
    letI := LowerCase.ascii
    ∃ s p, System.Reachable ⟨fun _ => true, []⟩ Request.Guarded s p ∧ (s.ahead "10").length = 10 ∧
      answeredClaims p.trace = 1 ∧
      10 * answeredClaims p.trace ≤ 4 * (s.ahead "10").length + 10 := by
  let _ := LowerCase.ascii
  let s : Store := Store.ofJobs ((List.range 11).map fun n =>
    ⟨toString n, "title", "text", .pending, 0, "t", "t"⟩) (by unfold Distinct; decide +kernel)
  have hrun : ∃ p, System.Reachable ⟨fun _ => true, []⟩ Request.Guarded s p ∧
      (answeredClaims p.trace = 1 ∧ ∀ e ∈ p.trace,
        World.Pending (Entry.before e) "10" ∧ World.Pending (Entry.after e) "10") :=
    System.exists_reachable _ _ _
      [.start (.tick true), .resume 0 .quiet, .resume 0 .quiet, .resume 0 .quiet,
        .resume 0 .quiet, .resume 0 .quiet, .resume 0 .quiet]
      _ (by decide +kernel)
  obtain ⟨p, hp, hcount, hwaits⟩ := hrun
  exact ⟨s, p, hp, by decide +kernel, hcount,
    bounded_waiting .refl hp (List.nil_append p.trace).symm hwaits⟩

end JobManager
