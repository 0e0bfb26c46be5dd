import JobManager.Persistence.JsonDb
import JobManager.Persistence.Store

/-! The queue makes the repository linearizable in call order. -/
namespace JobManager

open Async

variable [LowerCase] {F D : Type}

/-- The operations called on one instance so far. -/
abbrev OperationQueue (D : Type) :=
  SerialQueue DbCall.Answer Thrown Enqueued.Result (Instance D)

/-- Any calls at any times, each database call answered as `plan` says for its operation. -/
def OperationQueue.Reachable (db : JsonDB F D) (plan : ℕ → Environment F) (w : Instance D)
    (c : OperationQueue D) : Prop :=
  SerialQueue.Reachable Enqueued.program (Instance.act db) plan (SerialQueue.start w) c

/-- The operations one after the other, with the same outcome of every database call. -/
def Instance.sequential (db : JsonDB F D) (plan : ℕ → Environment F) (w : Instance D)
    (qs : List Enqueued) : Execution DbCall.Answer Thrown Enqueued.Result (Instance D) :=
  Async.sequential Enqueued.program (Instance.act db) plan w qs

/-- The one property of node-json-db the initialisation relies on: `exists` tells the truth. -/
def JsonDB.Truthful (db : JsonDB F D) (present : D → Bool) : Prop :=
  ∀ f d b d', db.jobsExist f d = (.ok b, d') → b = present d'

/-- A successful push of `ensureInitialized`. -/
def initializes : Event DbCall.Answer Thrown → Bool
  | ⟨.pushInitial, .ok _⟩ => true
  | _ => false

/-- The calls an operation makes once `/jobs` is there. -/
def PastInitialization (c : DbCall) : Prop := c ≠ .pushInitial ∧ c ≠ .setInitialized

namespace JsonDbJobRepository

omit [LowerCase] in
theorem commit_pastInitialization {α : Type} (outcome : Outcome α)
    (h : List (Event DbCall.Answer Thrown)) :
    Conforms (fun _ c => PastInitialization c) (fun _ _ => True) (commit outcome) h := by
  obtain ⟨answer, _ | nextJobs⟩ := outcome
  · trivial
  · refine ⟨⟨nofun, nofun⟩, fun x => ?_⟩
    cases x <;> trivial

theorem task_pastInitialization (op : RepoOp) (h : List (Event DbCall.Answer Thrown)) :
    Conforms (fun _ c => PastInitialization c) (fun _ _ => True) (task op) h := by
  refine ⟨⟨nofun, nofun⟩, fun x => ?_⟩
  cases x with
  | error e => trivial
  | ok jobs =>
    refine ⟨⟨nofun, nofun⟩, fun x => ?_⟩
    cases x with
    | error e => trivial
    | ok stamp => exact commit_pastInitialization _ _

omit [LowerCase] in
theorem measure_pastInitialization (jobId : Option String) (enqueuedAt startedAt : ℤ)
    (h : List (Event DbCall.Answer Thrown)) :
    Conforms (fun _ c => PastInitialization c) (fun _ _ => True)
      (measure jobId enqueuedAt startedAt) h := by
  refine (measure_conforms jobId enqueuedAt startedAt h).mono ?_ fun _ _ _ => trivial
  rintro - c (rfl | ⟨event, rfl⟩) <;> exact ⟨nofun, nofun⟩

omit [LowerCase] in
/-- Only `ensureInitialized` sets the flag. -/
theorem act_initialized (db : JsonDB F D) (t : Environment F) {c : DbCall} (w : Instance D)
    (hc : PastInitialization c) : (Instance.act db t c w).2.initialized = w.initialized := by
  cases c with
  | pushInitial => exact absurd rfl hc.1
  | setInitialized => exact absurd rfl hc.2
  | _ => rfl

omit [LowerCase] in
/-- The flag pays for the push: at most one succeeds, and only the first time. -/
theorem initialized_once (db : JsonDB F D) (t : Environment F) (i : ℕ) (q : Enqueued)
    (w : Instance D) :
    (calls (Instance.act db t) i q ensureInitialized w).countP (fun e => initializes e.event) +
        w.initialized.toNat ≤
      (eval (Instance.act db t) ensureInitialized w).2.initialized.toNat := by
  obtain ⟨d, _ | _⟩ := w
  · cases hexist : db.jobsExist t.jobsExist d with
    | mk r d' =>
      match r with
      | .error e => simp [ensureInitialized, perform_bind, Instance.act, hexist, initializes]
      | .ok true => simp [ensureInitialized, perform_bind, Instance.act, hexist, initializes]
      | .ok false =>
        cases hpush : db.push t.pushInitial [] d' with
        | mk r d'' =>
          cases r <;>
            simp [ensureInitialized, perform_bind, Instance.act, hexist, hpush, initializes]
  · simp [ensureInitialized, perform_bind, Instance.act, initializes]

omit [LowerCase] in
theorem pushInitial_absent {db : JsonDB F D} {present : D → Bool} (hdb : db.Truthful present)
    (t : Environment F) (i : ℕ) (q : Enqueued) (w : Instance D) :
    ∀ e ∈ calls (Instance.act db t) i q ensureInitialized w, e.event.call = .pushInitial →
      present e.before.db = false := by
  intro e he hpush
  obtain ⟨-, d, hexist, hbefore⟩ := (Instance.mem_calls_ensureInitialized he).2 hpush
  rw [hbefore]
  exact (hdb _ _ _ _ hexist).symm

/-- After the initialisation an operation neither initialises `/jobs` nor touches the flag. -/
theorem calls_program (db : JsonDB F D) (t : Environment F) (i : ℕ) (q : Enqueued)
    (w : Instance D) : ∃ rest, calls (Instance.act db t) i q q.program w =
      ⟨i, q, ⟨.startedAt, .ok t.startedAt⟩, w, w⟩ ::
        (calls (Instance.act db t) i q ensureInitialized w ++ rest) ∧
      (∀ e ∈ rest, PastInitialization e.event.call) ∧
      (Instance.run db t q w).2.initialized =
        (eval (Instance.act db t) ensureInitialized w).2.initialized := by
  let act := Instance.act db t
  let last := measure q.op.jobId q.enqueuedAt t.startedAt
  have htask := task_pastInitialization q.op []
  have hlast := measure_pastInitialization q.op.jobId q.enqueuedAt t.startedAt []
  have hkeep : ∀ b c w, PastInitialization c → w.initialized = b → (act c w).2.initialized = b :=
    fun b c w hc hw => (act_initialized db t w hc).trans hw
  have hcalls : calls act i q q.program w = ⟨i, q, ⟨.startedAt, .ok t.startedAt⟩, w, w⟩ ::
      calls act i q ((ensureInitialized >>= fun _ => task q.op).tryFinally last) w := rfl
  have hrun : Instance.run db t q w =
      eval act ((ensureInitialized >>= fun _ => task q.op).tryFinally last) w := rfl
  rw [hcalls, calls_tryFinally, calls_bind, List.append_assoc]
  refine ⟨_, rfl, ?_, ?_⟩
  · intro e he
    rcases List.mem_append.mp he with he | he
    · split at he
      · exact htask.mem_calls e he
      · cases he
    · exact hlast.mem_calls e he
  · rw [hrun, eval_tryFinally_state]
    refine hlast.eval (hkeep _) ?_
    rw [eval_bind]
    split
    · next heq =>
      rw [heq]
      exact htask.eval (hkeep _) rfl
    · next heq => rw [heq]

end JsonDbJobRepository

open JsonDbJobRepository

namespace Instance

theorem run_initialized_once (db : JsonDB F D) (t : Environment F) (i : ℕ) (q : Enqueued)
    (w : Instance D) :
    (calls (act db t) i q q.program w).countP (fun e => initializes e.event) +
        w.initialized.toNat ≤ (run db t q w).2.initialized.toNat := by
  obtain ⟨rest, hcalls, hrest, hflag⟩ := calls_program db t i q w
  have hzero : rest.countP (fun e => initializes e.event) = 0 := by
    rw [List.countP_eq_zero]
    intro e he hinit
    have hne := (hrest e he).1
    unfold initializes at hinit
    split at hinit
    · next heq => exact hne (by rw [heq])
    · cases hinit
  have honce := initialized_once db t i q w
  rw [hcalls, hflag, List.countP_cons, List.countP_append, hzero]
  simpa [initializes] using honce

variable {db : JsonDB F D}

theorem run_pushInitial_absent {present : D → Bool} (hdb : db.Truthful present)
    (t : Environment F) (i : ℕ) (q : Enqueued) (w : Instance D) :
    ∀ e ∈ calls (act db t) i q q.program w, e.event.call = .pushInitial →
      present e.before.db = false := by
  obtain ⟨rest, hcalls, hrest, -⟩ := calls_program db t i q w
  intro e he hpush
  rw [hcalls] at he
  rcases List.mem_cons.mp he with rfl | he
  · cases hpush
  · rcases List.mem_append.mp he with he | he
    · exact pushInitial_absent hdb t i q w e he hpush
    · exact absurd hpush (hrest e he).1

theorem sequential_snoc (db : JsonDB F D) (plan : ℕ → Environment F) (w : Instance D)
    (qs : List Enqueued) (q : Enqueued) :
    let x := w.sequential db plan qs
    let y := run db (plan qs.length) q x.state
    w.sequential db plan (qs ++ [q]) = ⟨x.results ++ [⟨q, y.1⟩], y.2,
      x.trace ++ calls (act db (plan qs.length)) qs.length q q.program x.state⟩ := by
  have hlength : (w.sequential db plan qs).results.length = qs.length :=
    length_sequential _ _ _ _ _
  have hnext : w.sequential db plan (qs ++ [q]) =
      (w.sequential db plan qs).next Enqueued.program (act db) plan q :=
    sequential_append_singleton _ _ _ _ _ _
  rw [hnext, Execution.next, hlength]
  rfl

theorem sequential_initialized_once (db : JsonDB F D) (plan : ℕ → Environment F) (w : Instance D)
    (qs : List Enqueued) :
    (sequential db plan w qs).trace.countP (fun e => initializes e.event) +
      w.initialized.toNat ≤ (sequential db plan w qs).state.initialized.toNat := by
  induction qs using List.reverseRecOn with
  | nil => simp [sequential]
  | append_singleton qs q ih =>
    have hrun := run_initialized_once db (plan qs.length) qs.length q
      (sequential db plan w qs).state
    rw [sequential_snoc, List.countP_append]
    show _ + _ + _ ≤ (run db (plan qs.length) q (sequential db plan w qs).state).2.initialized.toNat
    omega

theorem sequential_pushInitial_absent {present : D → Bool} (hdb : db.Truthful present)
    (plan : ℕ → Environment F) (w : Instance D) (qs : List Enqueued) :
    ∀ e ∈ (sequential db plan w qs).trace, e.event.call = .pushInitial →
      present e.before.db = false := by
  induction qs using List.reverseRecOn with
  | nil => simp [sequential]
  | append_singleton qs q ih =>
    rw [sequential_snoc]
    intro e he
    rcases List.mem_append.mp he with he | he
    · exact ih e he
    · exact run_pushInitial_absent hdb _ _ q _ e he

end Instance

/-- What callers of one instance may rely on, whatever they call and whatever fails. -/
structure OperationQueue.Linearizable (db : JsonDB F D) (present : D → Bool)
    (plan : ℕ → Environment F) (w : Instance D) (c : OperationQueue D) : Prop where
  /-- At most one operation is in progress. -/
  exclusive : ∀ (i j : ℕ) l m, c.links[i]? = some l → c.links[j]? = some m → l.Running →
    m.Running → i = j
  /-- None starts before all earlier calls are settled. -/
  inOrder : ∀ (i j : ℕ) l m, i < j → c.links[i]? = some l → c.links[j]? = some m →
    ¬ m.Waiting → l.Settled
  /-- The calls made so far are the first ones of the sequential execution. -/
  calls : c.trace <+: (w.sequential db plan c.requests).trace
  /-- Only settled operations, rejected or not, can stop the queue. -/
  progress : (∀ c', ¬ SerialQueue.Micro Enqueued.program (Instance.act db) plan c c') →
    ∀ l ∈ c.links, l.Settled
  /-- At most one push of `ensureInitialized` succeeds. -/
  initializedOnce : c.trace.countP (fun e => initializes e.event) ≤ 1
  /-- And none is made over existing data. -/
  seedKept : ∀ e ∈ c.trace, e.event.call = .pushInitial → present e.before.db = false
  /-- A promise settles with the result of its operation in the sequential execution. -/
  results : ∀ (i : ℕ) q previous r tail, c.links[i]? = some ⟨q, previous, .settled r tail⟩ →
    (w.sequential db plan c.requests).results[i]? = some ⟨q, r⟩
  /-- Once all are settled, the store is the one the sequential execution leaves. -/
  final : (∀ l ∈ c.links, l.Settled) → c.state = (w.sequential db plan c.requests).state

/-- The queue makes the repository linearizable in call order, and a run without new calls ends. -/
theorem queue_linearizable {db : JsonDB F D} {present : D → Bool} (hdb : db.Truthful present)
    {plan : ℕ → Environment F} {w : Instance D} {c : OperationQueue D}
    (h : OperationQueue.Reachable db plan w c) :
    c.Linearizable db present plan w ∧ WellFounded fun c' c : OperationQueue D =>
      SerialQueue.Micro Enqueued.program (Instance.act db) plan c c' := by
  have hordered := SerialQueue.Reachable.ordered h
  have htrace := SerialQueue.Reachable.trace_sequential h
  refine ⟨⟨?_, ?_, htrace, ?_, ?_, ?_, ?_, ?_⟩, SerialQueue.micro_wellFounded⟩
  · intro i j l m hi hj hl hm
    exact hordered.exclusive hi hj hl hm
  · intro i j l m hij hi hj hm
    exact Link.settled_of_released (hordered.order i j l m hij hi hj hm)
  · intro hstuck l hl
    exact Link.settled_of_released (hordered.progress hstuck l hl)
  · have hle : c.trace.countP (fun e => initializes e.event) ≤
        (w.sequential db plan c.requests).trace.countP fun e => initializes e.event :=
      htrace.sublist.countP_le
    have honce := Instance.sequential_initialized_once db plan w c.requests
    have hflag := Bool.toNat_le (w.sequential db plan c.requests).state.initialized
    omega
  · intro e he
    exact Instance.sequential_pushInitial_absent hdb plan w c.requests e (htrace.subset he)
  · intro i q previous r tail hi
    exact SerialQueue.Reachable.results h hi
  · intro hall
    exact (SerialQueue.Reachable.final h hall).1

omit [LowerCase] in
theorem saveOnPush_truthful : saveOnPush.Truthful fun d => d.memory.isSome := by
  intro f d b d' h
  cases f <;> simp only [saveOnPush] at h <;> cases h
  rfl

omit [LowerCase] in
/-- A lookup whose read fails, and a `list` called while it runs. -/
theorem queue_linearizable_readFails :
    letI := LowerCase.ascii
    let w := Instance.onFile (some Store.onePending.jobs) false
    let plan : ℕ → Environment (Option Fault) := fun i =>
      if i = 0 then { Environment.quiet with getData := some (.rejects "disk read failed") }
      else Environment.quiet
    ∃ c, OperationQueue.Reachable saveOnPush plan w c ∧
      c.links.map Link.released = [true, true] ∧
      c.Linearizable saveOnPush (fun d => d.memory.isSome) plan w := by
  let _ := LowerCase.ascii
  intro w plan
  obtain ⟨c, hc, hreleased⟩ := SerialQueue.exists_reachable
    ([.enqueue ⟨.findById "1", 0⟩, .micro 0, .micro 0, .enqueue ⟨.list, 0⟩] ++
      List.replicate 6 (.micro 0) ++ List.replicate 7 (.micro 1))
    (SerialQueue.start w) (fun c => c.links.map Link.released = [true, true])
    (show (SerialQueue.exec Enqueued.program (Instance.act saveOnPush) plan _ _).any _ = true by
      decide +kernel)
  exact ⟨c, hc, hreleased, (queue_linearizable saveOnPush_truthful hc).1⟩

end JobManager
