import JobManager.Persistence.Lifecycle
import JobManager.System.Protocol

/-! Traces of the running system: every entry is a call of its request's protocol, and its effect
on the store is that of one atomic operation. -/
namespace JobManager

open KeyedList Async

namespace Request

/-- The two ways the scheduler use case is run. -/
def IsScheduler : Request → Prop
  | tick _ | processPendingJobs => True
  | _ => False

theorem Calls.withTransition {q : Request} {h : List Call} {id : String} {target : JobStatus}
    {patch : Option JobPatch} (hq : q.Calls h (.repository (.withTransition id target patch))) :
    ∃ input, q = .patchJob input ∧
      PatchCall input h (.repository (.withTransition id target patch)) := by
  cases q with
  | patchJob input => exact ⟨input, rfl, hq⟩
  | deleteJob id => rcases hq with hq | ⟨_, hq⟩ <;> cases hq
  | tick _ => exact hq.1.elim
  | processPendingJobs => exact hq.elim
  | createJob _ | getJob _ | getJobs | searchJobs _ => cases hq

theorem Calls.create {q : Request} {h : List Call} {data : CreateJobData}
    (hq : q.Calls h (.repository (.create data))) : q = .createJob data := by
  cases q with
  | createJob input => cases hq; rfl
  | deleteJob id => rcases hq with hq | ⟨_, hq⟩ <;> cases hq
  | tick _ => exact hq.1.elim
  | patchJob _ | processPendingJobs => exact hq.elim
  | getJob _ | getJobs | searchJobs _ => cases hq

/-- Calls that only the scheduler use case makes. -/
def SchedulerCall : Effect → Prop
  | .repository (.listByStatus _ _) | .repository (.withBatch _ _) | .process _ => True
  | _ => False

theorem Calls.schedulerCall {q : Request} {h : List Call} {c : Effect} (hq : q.Calls h c)
    (hc : SchedulerCall c) : q.IsScheduler ∧ (progress h).Allows c := by
  cases q with
  | processPendingJobs => exact ⟨trivial, hq⟩
  | tick _ =>
    cases c with
    | repository _ | process _ => exact ⟨trivial, hq.1⟩
    | log _ | beginTick _ | endTick | randomUUID | dateNow => exact hc.elim
  | patchJob input =>
    cases c with
    | repository op => cases op <;> first | exact hc.elim | exact hq.elim
    | process _ => exact hq.elim
    | log _ | beginTick _ | endTick | randomUUID | dateNow => exact hc.elim
  | deleteJob id => rcases hq with rfl | ⟨_, rfl⟩ <;> exact hc.elim
  | createJob _ | getJob _ | getJobs | searchJobs _ =>
    cases hq
    exact hc.elim

theorem Calls.withBatch {q : Request} {h : List Call} {ids : List String} {target : JobStatus}
    (hq : q.Calls h (.repository (.withBatch ids target))) :
    q.IsScheduler ∧ (progress h).Allows (.repository (.withBatch ids target)) :=
  hq.schedulerCall trivial

theorem Calls.process {q : Request} {h : List Call} {job : Job} (hq : q.Calls h (.process job)) :
    q.IsScheduler ∧ (progress h).Allows (.process job) := hq.schedulerCall trivial

theorem Calls.listByStatus {q : Request} {h : List Call} {status : JobStatus} {limit : ℤ}
    (hq : q.Calls h (.repository (.listByStatus status limit))) :
    q.IsScheduler ∧ (progress h).Allows (.repository (.listByStatus status limit)) :=
  hq.schedulerCall trivial

theorem Calls.beginTick {q : Request} {h : List Call} {skipGuardEnabled : Bool}
    (hq : q.Calls h (.beginTick skipGuardEnabled)) :
    q = .tick skipGuardEnabled ∧ ∃ x, h = [⟨.randomUUID, x⟩] := by
  cases q with
  | tick skipGuardEnabled' => exact ⟨congrArg Request.tick hq.1.symm, hq.2⟩
  | deleteJob id => rcases hq with hq | ⟨_, hq⟩ <;> cases hq
  | patchJob _ | processPendingJobs => exact hq.elim
  | createJob _ | getJob _ | getJobs | searchJobs _ => cases hq

theorem Calls.endTick {q : Request} {h : List Call} (hq : q.Calls h .endTick) : InsideTick h := by
  cases q with
  | tick _ => exact hq
  | deleteJob id => rcases hq with hq | ⟨_, hq⟩ <;> cases hq
  | patchJob _ | processPendingJobs => exact hq.elim
  | createJob _ | getJob _ | getJobs | searchJobs _ => cases hq

end Request

/-- Batches go to `processing` and to the two outcomes, never back to `pending`. -/
theorem Progress.Allows.target {v : Progress} {ids : List String} {target : JobStatus}
    (h : v.Allows (.repository (.withBatch ids target))) : target ≠ .pending := by
  rintro rfl
  exact h

variable [LowerCase]

abbrev System.Valid (allowed : Request → Prop) (s : Store) : List Entry → World → Prop :=
  Async.Valid allowed World.act Request.Calls ⟨s, false⟩

abbrev System.Occurs (allowed : Request → Prop) (s : Store) : List Entry → Entry → Prop :=
  Async.Occurs allowed World.act Request.Calls ⟨s, false⟩

theorem System.Reachable.conforming {supportedJobTypes : SupportedJobTypes}
    {allowed : Request → Prop} {s : Store} {p : System}
    (h : System.Reachable supportedJobTypes allowed s p) :
    Pool.Conforming allowed World.act Request.Calls Request.Post ⟨s, false⟩ p :=
  Pool.Reachable.conforming h fun q _ => q.conforms supportedJobTypes

/-- What an entry does to the store. -/
inductive Entry.Effect (e : Entry) : Prop where
  | silent (h : e.after.store = e.before.store)
  | applies (op : RepoOp) (stamp : Stamp) (hf : op.Fresh stamp e.before.store.issued)
      (he : e.event = ⟨.repository op, .ok (op.run stamp e.before.store.jobs).1⟩)
      (h : e.after.store = e.before.store.apply op stamp hf)

section

variable {allowed : Request → Prop} {s : Store} {before : List Entry} {e : Entry}

theorem System.Occurs.effect (h : System.Occurs allowed s before e) : e.Effect := by
  obtain ⟨t, hact⟩ := h.act
  obtain ⟨i, q, ⟨c, x⟩, w, w'⟩ := e
  by_cases hc : ∃ op, c = .repository op
  · obtain ⟨op, rfl⟩ := hc
    rcases World.act_repository hact with ⟨_, -, hw⟩ | ⟨hf, hx, hw⟩
    · exact .silent (congrArg World.store hw)
    · exact .applies op t.stamp hf (congrArg (Event.mk (Effect.repository op)) hx)
        (congrArg World.store hw)
  · exact .silent (World.act_store hact fun op hop => hc ⟨op, hop⟩)

/-- An answered repository call is the atomic operation. -/
theorem System.Occurs.applies (h : System.Occurs allowed s before e) {op : RepoOp}
    {r : op.Result} (he : e.event = ⟨.repository op, .ok r⟩) :
    ∃ stamp, ∃ hf : op.Fresh stamp e.before.store.issued,
      r = (op.run stamp e.before.store.jobs).1 ∧
        e.after.store = e.before.store.apply op stamp hf := by
  obtain ⟨t, hact⟩ := h.act
  obtain ⟨i, q, event, w, w'⟩ := e
  subst he
  rcases World.act_repository hact with ⟨_, hx, -⟩ | ⟨hf, hx, hw⟩
  · cases hx
  · exact ⟨t.stamp, hf, Except.ok.inj hx, congrArg World.store hw⟩

/-- A listing answers the first pending jobs of the store. -/
theorem System.Occurs.listed (h : System.Occurs allowed s before e) {status : JobStatus}
    {limit : ℤ} {jobs : List Job}
    (he : e.event = ⟨.repository (.listByStatus status limit), .ok jobs⟩) :
    jobs = (e.before.store.jobs.filter fun job => job.status = .pending).take 10 := by
  have hcalls := h.guar
  rw [he] at hcalls
  obtain ⟨rfl, rfl, -⟩ := hcalls.listByStatus.2
  obtain ⟨stamp, _, hr, -⟩ := h.applies he
  exact hr

/-- A job that is stored around an entry takes one step of its life-cycle. -/
theorem System.Occurs.jobStep (h : System.Occurs allowed s before e) {id : String} {job job' : Job}
    (hjob : stored e.before.store.jobs id = some job)
    (hjob' : stored e.after.store.jobs id = some job') : ∃ call, JobStep call job job' := by
  obtain ⟨t, hact⟩ := h.act
  cases h.effect with
  | silent hsame =>
    rw [hsame, hjob] at hjob'
    obtain rfl := Option.some.inj hjob'
    exact ⟨⟨.list, []⟩, .refl _ _⟩
  | applies op stamp hf he hafter =>
    rw [hafter] at hjob'
    exact ⟨_, e.before.store.jobStep op stamp hf (lookup_mem hjob) (lookup_mem hjob')
      ((lookup_key hjob').trans (lookup_key hjob).symm)⟩

/-- A job that appears at an entry is new, and starts without retries. -/
theorem System.Occurs.appears (h : System.Occurs allowed s before e) {id : String} {job' : Job}
    (hjob : stored e.before.store.jobs id = none)
    (hjob' : stored e.after.store.jobs id = some job') :
    id ∉ e.before.store.issued ∧ job'.status = .pending ∧ job'.retryCount = 0 := by
  cases h.effect with
  | silent hsame =>
    rw [hsame, hjob] at hjob'
    cases hjob'
  | applies op stamp hf he hafter =>
    rw [hafter, Store.stored_apply, hjob] at hjob'
    cases op with
    | create data =>
      simp only [RepoOp.effect, Option.none_or] at hjob'
      split at hjob'
      · next hid =>
        obtain rfl := Option.some.inj hjob'
        exact ⟨hid ▸ hf data rfl, rfl, rfl⟩
      · cases hjob'
    | findById _ | list | search _ | listByStatus _ _ | withTransition _ _ _ | withBatch _ _
    | delete _ => simp [RepoOp.effect] at hjob'

theorem System.Occurs.issued_subset (h : System.Occurs allowed s before e) :
    e.before.store.issued ⊆ e.after.store.issued := by
  cases h.effect with
  | silent hsame => rw [hsame]; exact List.Subset.refl _
  | applies op stamp hf he hafter => rw [hafter]; exact List.subset_append_left _ _

/-- Induction along a trace, one occurrence after the other. -/
@[elab_as_elim]
theorem System.Valid.induction
    {motive : ∀ w trace, System.Valid allowed s trace w → Prop} (nil : motive ⟨s, false⟩ [] .nil)
    (snoc : ∀ trace (e : Entry) (h : System.Occurs allowed s trace e),
      motive e.before trace h.valid → motive e.after (trace ++ [e]) (Async.Occurs.snoc h))
    {w : World} {trace : List Entry} (h : System.Valid allowed s trace w) : motive w trace h :=
  Async.Valid.occurs_induction nil snoc h

/-- The store of a trace is that of a run of repository operations. -/
theorem System.Valid.run {trace : List Entry} {w : World} (h : System.Valid allowed s trace w) :
    ∃ calls, Store.Run s calls w.store := by
  induction h using System.Valid.induction with
  | nil => exact ⟨[], .nil s⟩
  | snoc trace e hocc ih =>
    obtain ⟨calls, hrun⟩ := ih
    cases hocc.effect with
    | silent hsame => exact ⟨calls, hsame ▸ hrun⟩
    | applies op stamp hf he hafter => exact ⟨_, hafter ▸ hrun.snoc op stamp hf⟩

end

omit [LowerCase] in
theorem mem_listings {h : List Call} {jobs : List Job} (hm : jobs ∈ (progress h).listings) :
    ∃ status limit, (⟨.repository (.listByStatus status limit), .ok jobs⟩ : Call) ∈ h := by
  induction h using List.reverseRecOn with
  | nil => simp at hm
  | append_singleton h c ih =>
    rw [progress_snoc] at hm
    by_cases hold : jobs ∈ (progress h).listings
    · obtain ⟨status, limit, hc⟩ := ih hold
      exact ⟨status, limit, List.mem_append_left _ hc⟩
    · unfold Progress.after at hm
      split at hm <;> simp only [List.mem_append, List.mem_singleton, hold, false_or] at hm
      subst hm
      exact ⟨_, _, List.mem_append_right _ (List.mem_singleton_self _)⟩

/-- The candidates of a fiber were the first pending jobs when it listed them. -/
theorem System.Valid.listing {allowed : Request → Prop} {s : Store} {trace : List Entry}
    {w : World} (h : System.Valid allowed s trace w) {i : ℕ} {jobs : List Job}
    (hm : jobs ∈ (progress (history i trace)).listings) : ∃ e ∈ trace, e.fiber = i ∧
      jobs = (e.before.store.jobs.filter fun job => job.status = .pending).take 10 := by
  obtain ⟨status, limit, hevent⟩ := mem_listings hm
  obtain ⟨e, he, hi, hev⟩ := mem_of_mem_history hevent
  obtain ⟨before, hocc⟩ := h.mem he
  exact ⟨e, he, hi, System.Occurs.listed hocc hev⟩

end JobManager
