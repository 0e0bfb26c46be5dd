import JobManager.Async.Simulation
import JobManager.System.Service

/-! The service over its use cases: interceptor, pipe, controller and filter make no call of the
repository that the use case of the request does not make. -/
namespace JobManager

open Async Http

/-- The use case a request is for. -/
def ServiceRequest.useCase : ServiceRequest → Request
  | http _ (.create body) => .createJob (createInput (.object body))
  | http _ .list => .getJobs
  | http _ (.search query) => .searchJobs (searchInput (.object query))
  | http _ (.getById id) => .getJob id
  | http _ (.patch id body) => .patchJob (JobsController.patchInput id (.object body))
  | http _ (.remove id) => .deleteJob id
  | tick skipGuardEnabled => .tick skipGuardEnabled

variable [LowerCase] {α β : Type}

/-- The second program gets nowhere without the first one. -/
abbrev Tracks (p : Program α) (p' : Program β) : Prop :=
  Simulates World.act World.act id (fun _ _ => True) p p'

theorem Tracks.settled (p : Program α) (r : Except Thrown β) : Tracks p (.settled r) :=
  Refines.simulates trivial

theorem Tracks.bind {γ : Type} {p : Program α} {p' : Program β} {f : β → Program γ}
    (h : Tracks p p') (hf : ∀ p₁ : Program α, ∀ b, Tracks p₁ (f b)) : Tracks p (p' >>= f) :=
  Simulates.bind h (fun p₁ b _ => hf p₁ b) fun _ _ _ => trivial

/-- The log and the clock leave the world alone. -/
theorem World.act_isLogging {t : Choice} {c : Effect} {w w' : World} {x : Except Thrown c.Answer}
    (h : World.act t c w = some (x, w')) (hc : IsLogging c) : w' = w := by
  cases c with
  | log event =>
    cases ht : t.throws <;> simp only [World.act, ht] at h <;>
      exact (Prod.mk.inj (Option.some.inj h)).2.symm
  | dateNow => exact (Prod.mk.inj (Option.some.inj h)).2.symm
  | repository op | process job | beginTick _ | endTick | randomUUID => exact hc.elim

theorem Tracks.silent {p : Program α} {c : Effect} {k : Except Thrown c.Answer → Program β}
    (hc : IsLogging c) (hk : ∀ x, Tracks p (k x)) : Tracks p (.awaiting c k) :=
  Simulates.silent (fun _ _ _ _ hact => World.act_isLogging hact hc) hk

theorem Tracks.refl (p : Program α) : Tracks p p :=
  (Simulates.refl p).mono fun _ _ _ => trivial

theorem Tracks.await {p : Program α} {p' : Program β} (h : Tracks p p') :
    Tracks p (Http.await p').run :=
  Tracks.bind (h.attempt fun _ _ _ => trivial) fun p₁ _ => .settled p₁ _

/-- What is done with the result of a use case makes no call. -/
theorem Tracks.useCase (p : Program α) {f : α → Handler β}
    (hf : ∀ a, ∃ r, (f a).run = .settled r) : Tracks p (Http.await p >>= f).run := by
  refine (Tracks.refl p).await.bind fun p₁ result => ?_
  cases result with
  | error exception => exact .settled p₁ _
  | ok a =>
    obtain ⟨r, hr⟩ := hf a
    exact (congrArg (Tracks p₁) hr).mpr (.settled p₁ r)

section

variable {p : Program α}

theorem logCompletion_tracks (method path : String) (statusCode : ℚ) (startedAt : ℤ)
    (errorCode : Option String) :
    Tracks p (LoggingInterceptor.logCompletion method path statusCode startedAt errorCode) := by
  refine .silent trivial fun x => ?_
  cases x with
  | error e => exact .settled p _
  | ok now => exact .silent trivial fun y => .settled p y

theorem tap_tracks (method path : String) (statusCode : ℚ) (startedAt : ℤ)
    (result : Except Exception ResponseBody) :
    Tracks p (LoggingInterceptor.tap method path statusCode startedAt result).run := by
  cases result with
  | error exception => exact .settled p _
  | ok body =>
    refine (Tracks.await (logCompletion_tracks _ _ _ _ _)).bind fun p₁ r => ?_
    cases r <;> exact .settled p₁ _

theorem catchError_tracks (method path : String) (startedAt : ℤ)
    (result : Except Exception ResponseBody) :
    Tracks p (LoggingInterceptor.catchError method path startedAt result).run := by
  cases result with
  | ok body => exact .settled p _
  | error exception =>
    refine (Tracks.await (logCompletion_tracks _ _ _ _ _)).bind fun p₁ r => ?_
    cases r <;> exact .settled p₁ _

theorem catchException_tracks (exception : Exception) :
    Tracks p (HttpExceptionFilter.catchException exception) := by
  have hline : ∀ message, Tracks p
      (HttpExceptionFilter.resolveInternalError (.ok message)) := fun message =>
    .silent trivial fun x => by cases x <;> exact .settled p _
  refine Tracks.bind ?_ fun p₁ _ => .settled p₁ _
  cases exception with
  | api status body => exact .settled p _
  | http status message response =>
    unfold HttpExceptionFilter.resolve
    dsimp only
    split <;> exact .settled p _
  | error message => exact hline message
  | value text =>
    cases text with
    | error e => exact .settled p _
    | ok message => exact hline message

/-- Interceptor and filter around a handler. -/
theorem handle_tracks {next : Handler ResponseBody} (hnext : Tracks p next.run)
    (method path : String) (statusCode : ℚ) : Tracks p
      ((LoggingInterceptor.intercept method path statusCode next).run >>= answer statusCode) := by
  have hintercept : Tracks p (LoggingInterceptor.intercept method path statusCode next).run := by
    refine .silent trivial fun x => ?_
    cases x with
    | error e => exact .settled p _
    | ok startedAt =>
      refine (hnext.bind fun p₁ _ => .settled p₁ _ : Tracks p (ExceptT.lift next.run).run).bind
        fun p₁ result => ?_
      cases result with
      | error exception => exact .settled p₁ _
      | ok result =>
        refine ((tap_tracks _ _ _ _ result).bind fun p₂ _ => .settled p₂ _ :
          Tracks p₁ (ExceptT.lift (LoggingInterceptor.tap _ _ _ _ result).run).run).bind
            fun p₂ tapped => ?_
        cases tapped with
        | error exception => exact .settled p₂ _
        | ok tapped => exact catchError_tracks _ _ _ tapped
  refine hintercept.bind fun p₁ result => ?_
  cases result with
  | ok body => exact .settled p₁ _
  | error exception => exact (catchException_tracks exception).bind fun p₂ _ => .settled p₂ _

theorem transform_tracks [ClassValidator ℚ] [ValidationMessages] {dto : Dto ℚ}
    {fields : List (String × Json ℚ)} {f : Json ℚ → Handler ResponseBody}
    (hf : Tracks p (f (.object fields)).run) :
    Tracks p (ValidationPipe.transform dto fields >>= f).run := by
  unfold ValidationPipe.transform
  split
  · exact hf
  · exact .settled p _

end

section

variable [ClassValidator ℚ] [ValidationMessages] {supportedJobTypes : SupportedJobTypes}

theorem handler_tracks (path : String) (r : HttpRequest) :
    Tracks ((ServiceRequest.http path r).useCase.program supportedJobTypes)
      (r.handler supportedJobTypes).run := by
  cases r with
  | create body =>
    refine transform_tracks (Tracks.useCase _ fun result => ?_)
    cases result <;> exact ⟨_, rfl⟩
  | list => exact Tracks.useCase _ fun jobs => ⟨_, rfl⟩
  | search query => exact transform_tracks (Tracks.useCase _ fun jobs => ⟨_, rfl⟩)
  | getById id =>
    refine Tracks.useCase _ fun result => ?_
    cases result <;> exact ⟨_, rfl⟩
  | patch id body =>
    refine transform_tracks (Tracks.useCase _ fun result => ?_)
    cases result <;> exact ⟨_, rfl⟩
  | remove id =>
    refine Tracks.useCase _ fun result => ?_
    cases result <;> exact ⟨_, rfl⟩

/-- A tick comes to the result of its use case; an HTTP request is answered. -/
def ServiceRequest.Done :
    (q : ServiceRequest) → Program q.useCase.Reply → Except Thrown q.Reply → Prop
  | http _ _, _, _ => True
  | tick _, p, r => p = .settled r

theorem ServiceRequest.simulates (q : ServiceRequest) : Simulates World.act World.act id q.Done
    (q.useCase.program supportedJobTypes) (q.program supportedJobTypes) := by
  cases q with
  | http path r => exact handle_tracks (handler_tracks path r) _ _ _
  | tick skipGuardEnabled => exact Simulates.refl _

theorem Service.Reachable.simulated {allowed : ServiceRequest → Prop} {s : Store} {p' : Service}
    (h : Service.Reachable supportedJobTypes allowed s p') :
    ∃ p, System.Reachable supportedJobTypes (fun q => ∃ q', allowed q' ∧ q'.useCase = q) s p ∧
      Pool.Simulated World.act World.act id ServiceRequest.useCase ServiceRequest.Done p p' :=
  Pool.Reachable.simulation h fun q hq => ⟨⟨q, hq, rfl⟩, q.simulates⟩

/-- Every run of the service is one of its use cases: the same requests are started, and they leave
the same store and the same flag. -/
theorem service_refines_system {allowed : ServiceRequest → Prop} {s : Store} {p' : Service}
    (h : Service.Reachable supportedJobTypes allowed s p') :
    ∃ p, System.Reachable supportedJobTypes (fun q => ∃ q', allowed q' ∧ q'.useCase = q) s p ∧
      p.state = p'.state ∧
      p.fibers.map Fiber.request = p'.fibers.map fun f => f.request.useCase := by
  obtain ⟨p, hp, hsim⟩ := h.simulated
  exact ⟨p, hp, hsim.state, hsim.requests⟩

omit [LowerCase] [ClassValidator ℚ] [ValidationMessages] in
/-- A DELETE over HTTP is a run of its use case. -/
theorem service_refines_system_remove :
    letI := LowerCase.ascii
    ∃ p, System.Reachable ⟨fun _ => true, []⟩
      (fun q => ∃ q' : ServiceRequest, True ∧ q'.useCase = q) Store.onePending p ∧
      p.fibers.map Fiber.request = [.deleteJob "1"] ∧ p.state.store.jobs = [] := by
  let _ := LowerCase.ascii
  let _ := ClassValidator.codePoints ℚ
  let _ : ValidationMessages := ⟨fun _ _ => []⟩
  obtain ⟨p', hp', hrequests, hjobs⟩ : ∃ p, Service.Reachable ⟨fun _ => true, []⟩ (fun _ => True)
      Store.onePending p ∧ p.fibers.map (fun f => f.request.useCase) = [.deleteJob "1"] ∧
      p.state.store.jobs = [] :=
    Async.Pool.exists_reachable [.start (.http "/jobs/1" (.remove "1")), .resume 0 .quiet,
      .resume 0 .quiet] _ _ (by decide +kernel)
  obtain ⟨p, hp, hstate, heq⟩ := service_refines_system hp'
  exact ⟨p, hp, heq.trans hrequests, by rw [hstate]; exact hjobs⟩

end

end JobManager
