import JobManager.Persistence.CrashConsistency
import JobManager.System.Orphans
import JobManager.System.QueuedApp
import JobManager.System.ServiceRefinement
import JobManager.System.Sessions

/-! The application, killed at any moment and started again on what is in the file. -/
namespace JobManager

open Async Http KeyedList

variable [LowerCase] [ClassValidator ℚ] [Http.ValidationMessages] {processor : JobProcessor}
  {supportedJobTypes : SupportedJobTypes} {allowed : ServiceRequest → Prop}

omit [LowerCase] [ClassValidator ℚ] [Http.ValidationMessages] in
theorem Instance.Synced.file_jobs {w : Instance JsonFile} (h : w.Synced) :
    w.db.file.getD [] = w.jobs := by
  rw [Instance.jobs, h]

section

variable {s : Store} {plan : ℕ → Environment (Option Fault)} {file : Option (List Job)}
  {p' : QueuedApp}

/-- The operation in progress when the application is killed has taken effect or not; everything
before it has. -/
theorem QueuedApp.Reachable.killed (hclean : ∀ i, (plan i).Clean) (hids : FreshIds plan s.issued)
    (hfile : file.getD [] = s.jobs)
    (h : QueuedApp.Reachable processor supportedJobTypes allowed plan (.onFile file false) p') :
    ∃ p, App.Reachable processor supportedJobTypes allowed s p ∧ p'.SeenAs p ∧
      p'.queue.state.db.file.getD [] = p.state.world.store.jobs ∧
      ∀ id ∈ p.state.world.store.issued, id ∈ s.issued ∨ ∃ i, id = (plan i).stamp.uuid := by
  have hdb : (Instance.onFile file false).jobs = s.jobs := hfile
  suffices hknown : p'.queue.state.Synced ∧ ∃ p m db,
      App.Reachable processor supportedJobTypes allowed s p ∧ p'.SeenAs p ∧
      Process.Refined s plan m p.state db p'.state ∧ p'.queue.state.jobs = db.jobs by
    obtain ⟨hsynced, p, m, db, hp, hseen, hrefined, hjobs⟩ := hknown
    exact ⟨p, hp, hseen, hsynced.file_jobs.trans (hjobs.trans hrefined.jobs), hrefined.drawn⟩
  obtain ⟨p, n, hp, hsim⟩ := h.simulated hclean hids hdb
  let w := ((Instance.onFile file false).sequential saveOnPush plan
    (p'.queue.requests.take n)).state
  have hsynced : w.Synced := by
    have hrun : OperationQueue.Reachable saveOnPush (Life.mk plan p'.queue).plan
      (Instance.onFile file false) (Life.mk plan p'.queue).queue := h.queue
    exact (Life.sequential_performs hclean hrun (by simpa using hsim.le)
      fun i l hi hlt => (Link.promise_isSome l).mp
        ((hsim.settled i _ (SerialQueue.promises_getElem? hi)).mpr hlt)).1
  have hstopped : p'.queue.state = w ∨ ∃ q, p'.queue.promises[n]? = some ⟨q, none⟩ ∧
      Passes (Instance.act saveOnPush (plan n)) q.program w p'.queue.state :=
    SerialQueue.Reachable.interrupted_at h.queue hsim.settled hsim.le
  have hseen := QueuedApp.seenAs_of_paired hsim.paired hsim.trace hsim.state.process
  rcases hstopped with hstate | ⟨q, hq, hpass⟩
  · exact ⟨hstate ▸ hsynced, p, n, w, hp, hseen, hsim.state, congrArg Instance.jobs hstate⟩
  · obtain ⟨hsynced', hbefore | ⟨hafter, r, hok⟩⟩ :=
      Instance.program_stopped (hclean n) hsynced q hpass
    · exact ⟨hsynced', p, n, w, hp, hseen, hsim.state, hbefore⟩
    · -- the push has been made, so the atomic call is made as well
      obtain ⟨p₁, hp₁, hpaired, hrel, htrace⟩ := hsim.ahead (queuedProgram_atomic hclean hids) hq
      refine ⟨hsynced', p₁, n + 1, (Instance.run saveOnPush (plan n) q w).2, hp.tail hp₁,
        QueuedApp.seenAs_of_paired hpaired htrace hrel.process, hrel, ?_⟩
      rcases Instance.run_atomic (plan n) w (hclean n).push (hclean n).pushInitial q with
        ⟨e, w', hrun, -⟩ | ⟨w', hrun, hstep⟩
      · rw [hrun] at hok
        cases hok
      · rw [hafter, hrun, hstep]

/-- Wherever the application is killed, the file holds the jobs of a run with an atomic repository
in which every client has been answered the same. -/
theorem killed_app_refines (hclean : ∀ i, (plan i).Clean) (hids : FreshIds plan s.issued)
    (hfile : file.getD [] = s.jobs)
    (h : QueuedApp.Reachable processor supportedJobTypes allowed plan (.onFile file false) p') :
    ∃ p, App.Reachable processor supportedJobTypes allowed s p ∧ p'.SeenAs p ∧
      p'.queue.state.db.file.getD [] = p.state.world.store.jobs :=
  let ⟨p, hp, hseen, hjobs, _⟩ := h.killed hclean hids hfile
  ⟨p, hp, hseen, hjobs⟩

omit [LowerCase] [ClassValidator ℚ] [Http.ValidationMessages] in
/-- The DELETE has been written when the application is killed, and nobody has been told. -/
theorem killed_app_refines_unanswered :
    letI := LowerCase.ascii
    letI := ClassValidator.codePoints ℚ
    letI : Http.ValidationMessages := ⟨fun _ _ => []⟩
    ∃ p, App.Reachable digestProcessor ⟨fun _ => true, []⟩ (fun _ => True) Store.onePending p ∧
      p.state.world.store.jobs = [] := by
  let _ := LowerCase.ascii
  let _ := ClassValidator.codePoints ℚ
  let _ : Http.ValidationMessages := ⟨fun _ _ => []⟩
  obtain ⟨p', hp', hfile, -⟩ := QueuedPool.exists_reachable
    (m := queuedProgram digestProcessor ⟨fun _ => true, []⟩ (fun _ => True) quietPlan)
    (removeAndList.take 14)
    (QueuedPool.start ⟨false, .empty⟩ (Instance.onFile (some Store.onePending.jobs) false))
    (fun p => p.queue.state.db.file = some [] ∧
      p.queue.promises.map (fun promise => promise.2.isSome) = [false, false])
    (by decide +kernel)
  obtain ⟨p, hp, -, hjobs⟩ := killed_app_refines quietPlan_clean quietPlan_freshIds rfl hp'
  exact ⟨p, hp, hjobs.symm.trans (by rw [hfile]; rfl)⟩

end

section

variable {s : Store} {p : Service} {job : Job}

theorem Service.Reachable.orphaned (h : Service.Reachable supportedJobTypes allowed s p)
    (hjob : stored s.jobs job.id = some job) (hstatus : job.status = .processing) :
    ∃ job', stored p.state.store.jobs job.id = some job' ∧ job'.status = .processing ∧
      job'.retryCount = job.retryCount := by
  obtain ⟨p₀, hp₀, hsim⟩ := h.simulated
  have hstate : p₀.state = p.state := hsim.state
  rw [← hstate]
  exact (System.Valid.orphaned hp₀.conforming.valid hjob hstatus).processing

/-- No answer says that a job nobody owns has been deleted, or shows another status of it. -/
theorem Service.Reachable.orphan_answers (h : Service.Reachable supportedJobTypes allowed s p)
    (hjob : stored s.jobs job.id = some job) (hstatus : job.status = .processing) {i : ℕ}
    {path : String} {r : HttpRequest} {response : HttpResponse}
    (hi : p.fibers[i]? = some ⟨.http path r, .settled (.ok response)⟩) :
    (r = .remove job.id → response.status ≠ 204) ∧
      ∀ shown ∈ response.shown, shown.id = job.id → shown.status = .processing := by
  have hp := h.conforming
  refine ⟨?_, fun shown hshown hid => ?_⟩
  · rintro rfl hremoved
    obtain ⟨_, hresponse, hhandled⟩ := hp.fibers i _ hi
    obtain rfl := Except.ok.inj hresponse
    rcases hhandled.truthful hp.valid with ⟨e, he, -, htruthful⟩ | ⟨haway, -⟩ | ⟨rfl, -⟩
    · cases htruthful with
      | removed id job' hstored hne hgone =>
        obtain ⟨⟨p₀, hp₀, hbefore⟩, -⟩ := Pool.Reachable.of_mem_trace h he
        obtain ⟨job₀, hjob₀, hstatus₀, -⟩ := Service.Reachable.orphaned hp₀ hjob hstatus
        rw [hbefore, hstored] at hjob₀
        obtain rfl := Option.some.inj hjob₀
        exact hne hstatus₀
      | missing | inProgress => norm_num at hremoved
    · cases haway
      norm_num at hremoved
    · norm_num [internalError] at hremoved
  · obtain ⟨e, he, -, hrequest, htruthful⟩ := HttpRequest.rests_on hp hi hshown
    obtain ⟨before, hocc⟩ := hp.valid.mem he
    obtain ⟨job', rfl, hstored⟩ := Truthful.shown_stored hocc hrequest htruthful hshown
    obtain ⟨-, p₁, hp₁, hafter⟩ := Pool.Reachable.of_mem_trace h he
    obtain ⟨job₁, hjob₁, hstatus₁, -⟩ := Service.Reachable.orphaned hp₁ hjob hstatus
    rw [hafter, ← hid, hstored] at hjob₁
    obtain rfl := Option.some.inj hjob₁
    exact hstatus₁

end

/-- No id is drawn twice, whichever operation of whichever process draws it. -/
structure NewIds (plan : ℕ → ℕ → Environment (Option Fault)) (ids : List String) : Prop where
  notMem : ∀ k i, (plan k i).stamp.uuid ∉ ids
  injective : ∀ k i k' i', (plan k i).stamp.uuid = (plan k' i').stamp.uuid → k = k' ∧ i = i'

/-- What is in the file after `n` processes, each started on what the one before it has left, and
killed at some moment. -/
inductive Restarts (processor : JobProcessor) (supportedJobTypes : SupportedJobTypes)
    (allowed : ServiceRequest → Prop) (plan : ℕ → ℕ → Environment (Option Fault))
    (seed : Option (List Job)) : ℕ → Option (List Job) → Prop where
  | zero : Restarts processor supportedJobTypes allowed plan seed 0 seed
  | succ {n : ℕ} {file : Option (List Job)}
      (h : Restarts processor supportedJobTypes allowed plan seed n file) (p : QueuedApp)
      (hp : QueuedApp.Reachable processor supportedJobTypes allowed (plan n)
        (.onFile file false) p) :
      Restarts processor supportedJobTypes allowed plan seed (n + 1) p.queue.state.db.file

section

variable {plan : ℕ → ℕ → Environment (Option Fault)} {seed file : Option (List Job)} {n : ℕ}

/-- The store that a process starts from: the jobs in the file, and the ids drawn so far. -/
structure Inherits (plan : ℕ → ℕ → Environment (Option Fault)) (seed : Option (List Job)) (n : ℕ)
    (file : Option (List Job)) (s : Store) : Prop where
  jobs : file.getD [] = s.jobs
  issued : ∀ id ∈ s.issued, id ∈ (seed.getD []).map Job.id ∨
    ∃ k < n, ∃ i, id = (plan k i).stamp.uuid

omit [LowerCase] [ClassValidator ℚ] [Http.ValidationMessages] in
theorem Inherits.freshIds {s : Store} (h : Inherits plan seed n file s)
    (hids : NewIds plan ((seed.getD []).map Job.id)) : FreshIds (plan n) s.issued where
  notMem i hmem := by
    rcases h.issued _ hmem with hseed | ⟨k, hk, i', heq⟩
    · exact hids.notMem n i hseed
    · exact hk.ne' (hids.injective n i k i' heq).1
  injective i i' heq := (hids.injective n i n i' heq).2

/-- A process on the file, and the run of the application on an atomic repository that its clients
and the file know of. -/
theorem Inherits.app {s : Store} (hs : Inherits plan seed n file s)
    (hclean : ∀ k i, (plan k i).Clean) (hids : NewIds plan ((seed.getD []).map Job.id))
    {p : QueuedApp}
    (hp : QueuedApp.Reachable processor supportedJobTypes allowed (plan n) (.onFile file false) p) :
    ∃ p', App.Reachable processor supportedJobTypes allowed s p' ∧ p.SeenAs p' ∧
      Inherits plan seed (n + 1) p.queue.state.db.file p'.state.world.store := by
  obtain ⟨p', hp', hseen, hjobs, hissued⟩ := hp.killed (hclean n) (hs.freshIds hids) hs.jobs
  refine ⟨p', hp', hseen, hjobs, fun id hid => ?_⟩
  rcases hissued id hid with hid | ⟨i, hi⟩
  · refine (hs.issued id hid).imp_right ?_
    rintro ⟨k, hk, hi⟩
    exact ⟨k, by omega, hi⟩
  · exact .inr ⟨n, Nat.lt_succ_self n, i, hi⟩

/-- The run of the service behind it. -/
theorem Inherits.service {s : Store} (hs : Inherits plan seed n file s)
    (hclean : ∀ k i, (plan k i).Clean) (hids : NewIds plan ((seed.getD []).map Job.id))
    {p : QueuedApp}
    (hp : QueuedApp.Reachable processor supportedJobTypes allowed (plan n) (.onFile file false) p) :
    ∃ p', Service.Reachable supportedJobTypes allowed s p' ∧
      Inherits plan seed (n + 1) p.queue.state.db.file p'.state.store ∧
      p'.fibers.map Fiber.request = p.fibers.map QueuedFiber.request ∧
      ∀ (i : ℕ) q r promise, p.fibers[i]? = some ⟨q, .settled r, promise⟩ →
        p'.fibers[i]? = some ⟨q, .settled r⟩ := by
  obtain ⟨p₁, hp₁, hseen, hinherits⟩ := hs.app hclean hids hp
  obtain ⟨p', hp', hsim⟩ := hp₁.simulated
  have hstate : p'.state = p₁.state.world := hsim.state
  exact ⟨p', hp', hstate ▸ hinherits, hsim.requests.trans hseen.requests,
    fun i q r promise hi => hsim.result (hseen.results i q r promise hi)⟩

theorem Restarts.inherits (hclean : ∀ k i, (plan k i).Clean)
    (hids : NewIds plan ((seed.getD []).map Job.id))
    (hseed : ((seed.getD []).map Job.id).Nodup)
    (h : Restarts processor supportedJobTypes allowed plan seed n file) :
    ∃ s, Inherits plan seed n file s := by
  induction h with
  | zero => exact ⟨.ofJobs (seed.getD []) hseed, rfl, fun id hid => .inl hid⟩
  | @succ n file h p hp ih =>
    obtain ⟨s, hs⟩ := ih
    obtain ⟨p', -, hinherits, -⟩ := hs.service hclean hids hp
    exact ⟨p'.state.store, hinherits⟩

/-- Each process finds the job as the one before it has, and leaves it so. -/
theorem Restarts.orphaned (hclean : ∀ k i, (plan k i).Clean)
    (hids : NewIds plan ((seed.getD []).map Job.id))
    (hseed : ((seed.getD []).map Job.id).Nodup) {job : Job} (hjob : job ∈ seed.getD [])
    (hstatus : job.status = .processing)
    (h : Restarts processor supportedJobTypes allowed plan seed n file) :
    ∃ job', stored (file.getD []) job.id = some job' ∧ job'.status = .processing ∧
      job'.retryCount = job.retryCount := by
  induction h with
  | zero => exact ⟨job, lookup_of_mem hseed hjob, hstatus, rfl⟩
  | @succ n file h p hp ih =>
    obtain ⟨job', hjob', hstatus', hretry⟩ := ih
    obtain ⟨s, hs⟩ := h.inherits hclean hids hseed
    obtain ⟨p', hp', hinherits, -⟩ := hs.service hclean hids hp
    rw [hs.jobs] at hjob'
    have hid : job'.id = job.id := lookup_key hjob'
    rw [← hid] at hjob'
    obtain ⟨job'', hjob'', hstatus'', hretry'⟩ := hp'.orphaned hjob' hstatus'
    exact ⟨job'', by rw [hinherits.jobs, ← hid, hjob''], hstatus'', hretry'.trans hretry⟩

/-- A job that a crash has left in `processing` stays so for good: whatever is asked of the
processes started after it, and however often they are killed, the job keeps its status and its
retries, no DELETE of it succeeds, and no answer shows it in another status. -/
theorem orphan_survives_restarts (hclean : ∀ k i, (plan k i).Clean)
    (hids : NewIds plan ((seed.getD []).map Job.id))
    (hseed : ((seed.getD []).map Job.id).Nodup) {job : Job} (hjob : job ∈ seed.getD [])
    (hstatus : job.status = .processing)
    (h : Restarts processor supportedJobTypes allowed plan seed n file) :
    (∃ job', stored (file.getD []) job.id = some job' ∧ job'.status = .processing ∧
      job'.retryCount = job.retryCount) ∧
    ∀ p : QueuedApp,
      QueuedApp.Reachable processor supportedJobTypes allowed (plan n) (.onFile file false) p →
      ∀ (i : ℕ) path r response promise,
        p.fibers[i]? = some ⟨.http path r, .settled (.ok response), promise⟩ →
        (r = .remove job.id → response.status ≠ 204) ∧
          ∀ shown ∈ response.shown, shown.id = job.id → shown.status = .processing := by
  have hkept := h.orphaned hclean hids hseed hjob hstatus
  refine ⟨hkept, fun p hp i path r response promise hi => ?_⟩
  obtain ⟨job', hjob', hstatus', -⟩ := hkept
  obtain ⟨s, hs⟩ := h.inherits hclean hids hseed
  obtain ⟨p', hp', -, -, hresults⟩ := hs.service hclean hids hp
  rw [hs.jobs] at hjob'
  have hid : job'.id = job.id := lookup_key hjob'
  rw [← hid] at hjob' ⊢
  exact hp'.orphan_answers hjob' hstatus' (hresults i _ _ promise hi)

omit [LowerCase] [ClassValidator ℚ] [Http.ValidationMessages] in
theorem quietPlan_newIds : NewIds (fun k i => quietPlan (Nat.pair k i)) ["1"] where
  notMem k i := quietPlan_freshIds.notMem (Nat.pair k i)
  injective _ _ _ _ h := Nat.pair_eq_pair.mp (quietPlan_injective h)

omit [LowerCase] [ClassValidator ℚ] [Http.ValidationMessages] in
/-- A DELETE after the crash is refused, and the job is still there after the next one. -/
theorem orphan_survives_restarts_remove :
    letI := LowerCase.ascii
    letI := ClassValidator.codePoints ℚ
    letI : Http.ValidationMessages := ⟨fun _ _ => []⟩
    let job : Job := ⟨"1", "title", "text", .processing, 0, "t", "t"⟩
    ∃ file, Restarts digestProcessor ⟨fun _ => true, []⟩ (fun _ => True)
        (fun k i => quietPlan (Nat.pair k i)) (some [job]) 1 file ∧
      ∃ job', stored (file.getD []) "1" = some job' ∧ job'.status = .processing := by
  let _ := LowerCase.ascii
  let _ := ClassValidator.codePoints ℚ
  let _ : Http.ValidationMessages := ⟨fun _ _ => []⟩
  intro job
  let plan (k i : ℕ) : Environment (Option Fault) := quietPlan (Nat.pair k i)
  let t : AppChoice := ⟨.quiet, [], []⟩
  obtain ⟨p, hp, -⟩ := QueuedPool.exists_reachable
    (m := queuedProgram digestProcessor ⟨fun _ => true, []⟩ (fun _ => True) (plan 0))
    ([.start (.http "/jobs/1" (.remove "1")), .call 0 t, .call 0 t] ++
      List.replicate 10 (.micro 0) ++ [.settled 0, .call 0 t, .call 0 t])
    (QueuedPool.start ⟨false, .empty⟩ (Instance.onFile (some [job]) false))
    (fun p => ∃ f ∈ p.fibers, f.code.isSettled = true) (by decide +kernel)
  have hrestarts : Restarts digestProcessor ⟨fun _ => true, []⟩ (fun _ => True) plan (some [job]) 1
    p.queue.state.db.file := .succ .zero p hp
  have hids : NewIds plan (((some [job]).getD []).map Job.id) := quietPlan_newIds
  obtain ⟨⟨job', hjob', hstatus, -⟩, -⟩ := orphan_survives_restarts
    (fun k i => quietPlan_clean (Nat.pair k i)) hids (by decide) (List.mem_singleton_self job) rfl
    hrestarts
  exact ⟨_, hrestarts, job', hjob', hstatus⟩

end

end JobManager
