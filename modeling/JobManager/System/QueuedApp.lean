import JobManager.Async.QueuedProgress
import JobManager.Async.QueuedSimulation
import JobManager.Persistence.Refinement
import JobManager.System.Assembly

/-! The application on its own repository: every call of it is chained to the promise queue and
carried out by node-json-db. As long as no file write fails, this is the application of the atomic
calls. -/
namespace JobManager

open Async

/-- What the program keeps in memory beside the repository. -/
structure Process where
  isTickRunning : Bool
  ledger : InMemoryDeliveryLedger

/-- The world in which some jobs are stored. -/
def Process.over (p : Process) (store : Store) : AppWorld := ⟨⟨store, p.isTickRunning⟩, p.ledger⟩

def AppWorld.process (w : AppWorld) : Process := ⟨w.world.isTickRunning, w.ledger⟩

/-- The repository calls, with `Date.now()` at the call. -/
def AppCall.enqueues : AppCall → Option (AppChoice → Enqueued)
  | .effect (.repository op) => some fun t => ⟨op, t.choice.dateNow⟩
  | _ => none

/-- Whoever calls the repository awaits the result of the operation. -/
def AppCall.answers : (c : AppCall) → (q : Enqueued) → Except Thrown q.Result →
    Option (Except Thrown c.Answer)
  | .effect (.repository op), ⟨op', _⟩, r => if h : op' = op then some (h ▸ r) else none
  | _, _, _ => none

theorem AppCall.enqueues_eq_some {c : AppCall} {make : AppChoice → Enqueued}
    (h : c.enqueues = some make) :
    ∃ op, c = .effect (.repository op) ∧ make = fun t => ⟨op, t.choice.dateNow⟩ := by
  cases c with
  | digest job c => cases h
  | effect c =>
    cases c with
    | repository op => exact ⟨op, rfl, (Option.some.inj h).symm⟩
    | process _ | log _ | beginTick _ | endTick | randomUUID | dateNow => cases h

@[simp] theorem AppCall.answers_repository (op : RepoOp) (enqueuedAt : ℤ)
    (r : Except Thrown op.Result) :
    AppCall.answers (.effect (.repository op)) ⟨op, enqueuedAt⟩ r = some r := by
  simp [AppCall.answers]

variable [LowerCase]

/-- The other calls; none of them depends on the stored jobs. -/
def Process.act (t : AppChoice) (c : AppCall) (p : Process) :
    Option (Except Thrown c.Answer × Process) :=
  (AppWorld.act t c (p.over .empty)).map fun (x, w) => (x, w.process)

theorem AppWorld.act_over {t : AppChoice} {c : AppCall} (hc : c.enqueues = none) (p : Process)
    (store store' : Store) : AppWorld.act t c (p.over store') =
      (AppWorld.act t c (p.over store)).map fun (x, w) => (x, w.process.over store') := by
  cases c with
  | digest job c =>
    cases c with
    | fetchTodayArticles | buildGroupedDigest _ | notify _ | log _ =>
      cases ht : t.choice.throws <;> simp only [AppWorld.act, ht] <;> rfl
    | wasDelivered _ | markDelivered _ | dateNow | setTimeout _ | clearTimeout => rfl
  | effect c =>
    cases c with
    | repository op => cases hc
    | process _ | log _ =>
      cases ht : t.choice.throws <;> simp only [AppWorld.act, World.act, ht] <;> rfl
    | beginTick _ | endTick | randomUUID | dateNow => rfl

/-- The environment can answer each of them. -/
theorem Process.exists_act {c : AppCall} (hc : c.enqueues = none) (p : Process) :
    ∃ t x p', Process.act t c p = some (x, p') := by
  refine ⟨⟨.quiet, [], []⟩, ?_⟩
  cases c with
  | digest job c => cases c <;> exact ⟨_, _, rfl⟩
  | effect c =>
    cases c with
    | repository op => cases hc
    | process _ | log _ | beginTick _ | endTick | randomUUID | dateNow => exact ⟨_, _, rfl⟩

/-- The atomic world `w` after the first `n` operations on a repository that has held the store `s`
at first. -/
structure Process.Refined (s : Store) (plan : ℕ → Environment (Option Fault)) (n : ℕ)
    (w : AppWorld) (db : Instance JsonFile) (p : Process) : Prop where
  jobs : db.jobs = w.world.store.jobs
  process : w.process = p
  issued : ∀ id ∈ w.world.store.issued, id ∈ s.issued ∨ ∃ i < n, id = (plan i).stamp.uuid

omit [LowerCase] in
theorem Process.Refined.drawn {s : Store} {plan : ℕ → Environment (Option Fault)} {n : ℕ}
    {w : AppWorld} {db : Instance JsonFile} {p : Process} (h : Process.Refined s plan n w db p) :
    ∀ id ∈ w.world.store.issued, id ∈ s.issued ∨ ∃ i, id = (plan i).stamp.uuid := by
  intro id hid
  refine (h.issued id hid).imp_right ?_
  rintro ⟨i, -, hi⟩
  exact ⟨i, hi⟩

omit [LowerCase] in
theorem Process.Refined.fresh {s : Store} {plan : ℕ → Environment (Option Fault)} {n : ℕ}
    {w : AppWorld} {db : Instance JsonFile} {p : Process} (h : Process.Refined s plan n w db p)
    (hids : FreshIds plan s.issued) (op : RepoOp) :
    op.Fresh (plan n).stamp w.world.store.issued := by
  rintro data - hmem
  rcases h.issued _ hmem with hold | ⟨i, hi, heq⟩
  · exact hids.notMem _ hold
  · exact hi.ne' (hids.injective heq)

/-- An operation on the repository is rejected without a trace or is the atomic call. -/
theorem Process.Refined.operation {s : Store} {plan : ℕ → Environment (Option Fault)}
    (hclean : ∀ i, (plan i).Clean) (hids : FreshIds plan s.issued) {n : ℕ} {w : AppWorld}
    {db : Instance JsonFile} {p : Process} (h : Process.Refined s plan n w db p) (op : RepoOp)
    (enqueuedAt : ℤ) :
    let y := Instance.run saveOnPush (plan n) ⟨op, enqueuedAt⟩ db
    ∃ t w', AppWorld.act t (.effect (.repository op)) w = some (y.1, w') ∧
      Process.Refined s plan (n + 1) w' y.2 p := by
  have hfresh := h.fresh hids op
  obtain ⟨hjobs, rfl, hissued⟩ := h
  have hlater : ∀ id ∈ w.world.store.issued,
      id ∈ s.issued ∨ ∃ i < n + 1, id = (plan i).stamp.uuid := by
    intro id hid
    refine (hissued id hid).imp_right ?_
    rintro ⟨i, hi, rfl⟩
    exact ⟨i, by omega, rfl⟩
  rcases Instance.run_refines (hclean n) ⟨op, enqueuedAt⟩ hfresh hjobs with
    ⟨e, db', hrun, hsame⟩ | ⟨db', hrun, hstep⟩
  · rw [hrun]
    exact ⟨⟨⟨⟨"", ""⟩, .failed, 0, some e⟩, [], []⟩, w, rfl, hsame, rfl, hlater⟩
  · rw [hrun]
    refine ⟨⟨⟨(plan n).stamp, .failed, 0, none⟩, [], []⟩,
      w.process.over (w.world.store.apply op (plan n).stamp hfresh), ?_, hstep, rfl, ?_⟩
    · simp [AppWorld.act, World.act, hfresh, Process.over, AppWorld.process, Store.call]
    · intro id hid
      rcases List.mem_append.mp hid with hid | hid
      · exact hlater id hid
      · refine .inr ⟨n, Nat.lt_succ_self n, ?_⟩
        unfold RepoOp.issues at hid
        split at hid
        · exact List.mem_singleton.mp hid
        · cases hid

variable [ClassValidator ℚ] [Http.ValidationMessages]

/-- The application, with the calls of operation number `i` answered as `plan i` says. -/
def queuedProgram (processor : JobProcessor) (supportedJobTypes : SupportedJobTypes)
    (allowed : ServiceRequest → Prop) (plan : ℕ → Environment (Option Fault)) :
    QueuedProgram AppCall.Answer Thrown ServiceRequest.Reply Process AppChoice DbCall.Answer
      Enqueued.Result (Instance JsonFile) (Environment (Option Fault)) where
  program q := expand (processing processor) (q.program supportedJobTypes)
  allowed := allowed
  act := Process.act
  enqueues := AppCall.enqueues
  answers := AppCall.answers
  body := Enqueued.program
  bodyAct := Instance.act saveOnPush
  plan := plan

instance {processor : JobProcessor} {supportedJobTypes : SupportedJobTypes}
    {allowed : ServiceRequest → Prop} [h : DecidablePred allowed]
    {plan : ℕ → Environment (Option Fault)} :
    DecidablePred (queuedProgram processor supportedJobTypes allowed plan).allowed := h

abbrev QueuedApp := QueuedPool AppCall.Answer Thrown ServiceRequest.Reply Process DbCall.Answer
  Enqueued.Result (Instance JsonFile)

def QueuedApp.Reachable (processor : JobProcessor) (supportedJobTypes : SupportedJobTypes)
    (allowed : ServiceRequest → Prop) (plan : ℕ → Environment (Option Fault))
    (db : Instance JsonFile) (p : QueuedApp) : Prop :=
  QueuedPool.Reachable (queuedProgram processor supportedJobTypes allowed plan)
    (QueuedPool.start ⟨false, .empty⟩ db) p

variable {processor : JobProcessor} {supportedJobTypes : SupportedJobTypes}
  {allowed : ServiceRequest → Prop} {s : Store} {plan : ℕ → Environment (Option Fault)}

/-- Between two operations the repository is the atomic one. -/
theorem queuedProgram_atomic (hclean : ∀ i, (plan i).Clean) (hids : FreshIds plan s.issued) :
    QueuedPool.Atomic (queuedProgram processor supportedJobTypes allowed plan) AppWorld.act
      (Process.Refined s plan) where
  own := by
    intro n w db p c t x p' h hc hact
    obtain ⟨hjobs, rfl, hissued⟩ := h
    obtain ⟨⟨_, w'⟩, hact', heq⟩ := Option.map_eq_some_iff.mp hact
    obtain ⟨rfl, rfl⟩ := Prod.mk.inj heq
    refine ⟨t, w'.process.over w.world.store, ?_, hjobs, rfl, hissued⟩
    have hover := AppWorld.act_over (t := t) hc w.process .empty w.world.store
    rw [hact'] at hover
    exact hover
  enqueued := by
    intro n w db p c make t h hc
    obtain ⟨op, rfl, rfl⟩ := AppCall.enqueues_eq_some hc
    obtain ⟨t', w', hact, hrefined⟩ := h.operation hclean hids op t.choice.dateNow
    exact ⟨_, t', w', AppCall.answers_repository op t.choice.dateNow _, hact, hrefined⟩

/-- Nothing fails, and operation number `i` draws an id of `i` characters. -/
def quietPlan (i : ℕ) : Environment (Option Fault) :=
  { Environment.quiet with stamp := ⟨String.ofList (List.replicate i 'x'), "u"⟩ }

omit [LowerCase] [ClassValidator ℚ] [Http.ValidationMessages] in
theorem quietPlan_clean (i : ℕ) : (quietPlan i).Clean := ⟨nofun, nofun⟩

omit [LowerCase] [ClassValidator ℚ] [Http.ValidationMessages] in
theorem quietPlan_injective {i j : ℕ} (h : (quietPlan i).stamp.uuid = (quietPlan j).stamp.uuid) :
    i = j := by
  simpa using congrArg List.length (String.ofList_injective h)

omit [LowerCase] [ClassValidator ℚ] [Http.ValidationMessages] in
theorem quietPlan_freshIds : FreshIds quietPlan Store.onePending.issued where
  notMem i hmem := by
    have hlist : List.replicate i 'x' = ['1'] :=
      String.ofList_injective (List.mem_singleton.mp hmem)
    exact absurd (List.eq_of_mem_replicate (hlist ▸ List.mem_singleton_self '1')) (by decide)
  injective _ _ := quietPlan_injective

/-- A DELETE and a list enqueue their operations, and the queue carries out both. -/
def removeAndList : List (QueuedPool.Move ServiceRequest AppChoice) :=
  let t : AppChoice := ⟨.quiet, [], []⟩
  [.start (.http "/jobs/1" (.remove "1")), .start (.http "/jobs" .list), .call 0 t, .call 1 t,
    .call 0 t, .call 1 t] ++ List.replicate 12 (.micro 0) ++ List.replicate 7 (.micro 1)

/-- To everybody but the repository the two programs have been the same. -/
structure QueuedApp.SeenAs (p' : QueuedApp) (p : App) : Prop where
  requests : p.fibers.map Fiber.request = p'.fibers.map QueuedFiber.request
  results : ∀ (i : ℕ) q r promise, p'.fibers[i]? = some ⟨q, .settled r, promise⟩ →
    p.fibers[i]? = some ⟨q, .settled r⟩
  calls : (p.trace.filter fun e => e.event.call.enqueues.isNone).map
    (fun e => (e.fiber, e.event)) = p'.trace
  process : p.state.process = p'.state

theorem QueuedApp.seenAs_of_paired {p' : QueuedApp} {p : App}
    {promises : List ((q : Enqueued) × Option (Except Thrown q.Result))}
    (h : QueuedPool.Paired (queuedProgram processor supportedJobTypes allowed plan) promises
      p.fibers p'.fibers)
    (hcalls : (p.trace.filter fun e => e.event.call.enqueues.isNone).map
      (fun e => (e.fiber, e.event)) = p'.trace)
    (hprocess : p.state.process = p'.state) : p'.SeenAs p :=
  ⟨h.requests, fun _ _ _ _ hi => h.result hi, hcalls, hprocess⟩

theorem QueuedApp.Reachable.simulated {db : Instance JsonFile} {p' : QueuedApp}
    (hclean : ∀ i, (plan i).Clean) (hids : FreshIds plan s.issued) (hdb : db.jobs = s.jobs)
    (h : QueuedApp.Reachable processor supportedJobTypes allowed plan db p') :
    ∃ p n, App.Reachable processor supportedJobTypes allowed s p ∧
      QueuedPool.Simulated (queuedProgram processor supportedJobTypes allowed plan)
        (Process.Refined s plan) db n p p' :=
  QueuedPool.Reachable.simulation (queuedProgram_atomic hclean hids)
    ⟨hdb, rfl, fun _ hid => .inl hid⟩ h

/-- Every run of the application on its queue and its file is one with an atomic repository, as long
as no file write fails and no id is drawn twice: the same requests with the same results, the same
calls of everything else in the same order, and the same jobs whenever no operation is in
progress. -/
theorem queued_app_refines {db : Instance JsonFile} {p' : QueuedApp}
    (hclean : ∀ i, (plan i).Clean) (hids : FreshIds plan s.issued) (hdb : db.jobs = s.jobs)
    (h : QueuedApp.Reachable processor supportedJobTypes allowed plan db p') :
    ∃ p, App.Reachable processor supportedJobTypes allowed s p ∧ p'.SeenAs p ∧
      ((∀ l ∈ p'.queue.links, l.Settled) → p'.queue.state.jobs = p.state.world.store.jobs) := by
  obtain ⟨p, n, hp, hsim⟩ := h.simulated hclean hids hdb
  refine ⟨p, hp, QueuedApp.seenAs_of_paired hsim.paired hsim.trace hsim.state.process,
    fun hall => ?_⟩
  rw [(SerialQueue.Reachable.final (QueuedPool.Reachable.queue h) hall).1]
  exact hsim.final hall ▸ hsim.state.jobs

omit [LowerCase] [ClassValidator ℚ] [Http.ValidationMessages] in
/-- The list, enqueued second, goes on first. -/
theorem queued_app_refines_remove :
    letI := LowerCase.ascii
    letI := ClassValidator.codePoints ℚ
    letI : Http.ValidationMessages := ⟨fun _ _ => []⟩
    ∃ p, App.Reachable digestProcessor ⟨fun _ => true, []⟩ (fun _ => True) Store.onePending p ∧
      p.fibers.length = 2 ∧ p.state.world.store.jobs = [] := by
  let _ := LowerCase.ascii
  let _ := ClassValidator.codePoints ℚ
  let _ : Http.ValidationMessages := ⟨fun _ _ => []⟩
  obtain ⟨p', hp', hlength, hall, hjobs⟩ := QueuedPool.exists_reachable
    (m := queuedProgram digestProcessor ⟨fun _ => true, []⟩ (fun _ => True) quietPlan)
    (removeAndList ++ [.settled 1, .settled 0])
    (QueuedPool.start ⟨false, .empty⟩ (Instance.onFile (some Store.onePending.jobs) false))
    (fun p => p.fibers.length = 2 ∧ p.queue.links.map Link.released = [true, true] ∧
      p.queue.state.jobs = [])
    (by decide +kernel)
  obtain ⟨p, hp, hseen, hfinal⟩ := queued_app_refines quietPlan_clean quietPlan_freshIds rfl hp'
  have hsame : p.fibers.length = p'.fibers.length := by
    simpa using congrArg List.length hseen.requests
  refine ⟨p, hp, hsame.trans hlength, (hfinal fun l hl => ?_).symm.trans hjobs⟩
  have := List.mem_map_of_mem (f := Link.released) hl
  rw [hall] at this
  exact Link.settled_of_released (by simpa using this)

/-- Every request of the application comes to a result, whatever fails: as long as one has not,
something can happen, and without new requests only finitely much does. -/
theorem queued_app_ends {db : Instance JsonFile} {p : QueuedApp}
    (h : QueuedApp.Reachable processor supportedJobTypes allowed plan db p) :
    ((∀ p',
        ¬ QueuedPool.Step (queuedProgram processor supportedJobTypes allowed plan).closed p p') →
      ∀ f ∈ p.fibers, ∃ r, f.code = .settled r) ∧
    WellFounded fun p' p : QueuedApp =>
      QueuedPool.Step (queuedProgram processor supportedJobTypes allowed plan).closed p p' := by
  refine ⟨fun hstuck => QueuedPool.Reachable.progress (fun c p hc => Process.exists_act hc p) ?_
    ⟨⟨.quiet, [], []⟩⟩ h hstuck, QueuedPool.step_wellFounded⟩
  intro c make t r hc
  obtain ⟨op, rfl, rfl⟩ := AppCall.enqueues_eq_some hc
  exact ⟨_, AppCall.answers_repository op t.choice.dateNow r⟩

omit [LowerCase] [ClassValidator ℚ] [Http.ValidationMessages] in
/-- The DELETE and the list can go on. -/
theorem queued_app_ends_waiting :
    letI := LowerCase.ascii
    letI := ClassValidator.codePoints ℚ
    letI : Http.ValidationMessages := ⟨fun _ _ => []⟩
    let program := queuedProgram digestProcessor ⟨fun _ => true, []⟩ (fun _ => True) quietPlan
    ∃ p : QueuedApp, p.fibers.length = 2 ∧ ∃ p', QueuedPool.Step program.closed p p' := by
  let _ := LowerCase.ascii
  let _ := ClassValidator.codePoints ℚ
  let _ : Http.ValidationMessages := ⟨fun _ _ => []⟩
  intro program
  obtain ⟨p, hp, hlength, hwaiting⟩ := QueuedPool.exists_reachable (m := program) removeAndList
    (QueuedPool.start ⟨false, .empty⟩ (Instance.onFile (some Store.onePending.jobs) false))
    (fun p => p.fibers.length = 2 ∧ ∃ f ∈ p.fibers, f.code.isSettled = false) (by decide +kernel)
  refine ⟨p, hlength, ?_⟩
  by_contra hstuck
  obtain ⟨f, hf, hunsettled⟩ := hwaiting
  obtain ⟨r, hr⟩ := (queued_app_ends hp).1 (fun p' hstep => hstuck ⟨p', hstep⟩) f hf
  rw [hr] at hunsettled
  cases hunsettled

end JobManager
