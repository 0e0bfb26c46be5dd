import JobManager.Adapters.JobScheduler
import JobManager.Async.EventLoop

/-! The scheduler adapter on its thread: tick calls and the completions of the `execute` calls they
have started, in any order. -/
namespace JobManager.JobSchedulerAdapter

open Async

/-- The calls of `tick`, with the use case as one of them. -/
inductive AdapterCall where
  | randomUUID
  | beginTick (skipGuardEnabled : Bool)
  | dateNow
  | log (event : LogEvent)
  | execute
  | endTick

namespace AdapterCall

abbrev Answer : AdapterCall → Type
  | randomUUID => String
  | beginTick _ => Bool
  | dateNow => ℤ
  | log _ | endTick => Unit
  | execute => ProcessPendingJobsResult

def program : (c : AdapterCall) → Program c.Answer
  | randomUUID => perform Effect.randomUUID
  | beginTick skipGuardEnabled => perform (Effect.beginTick skipGuardEnabled)
  | dateNow => perform Effect.dateNow
  | log event => JobManager.log event
  | execute => ProcessPendingJobsUseCase.execute
  | endTick => perform Effect.endTick

end AdapterCall

abbrev TickCode := Async AdapterCall AdapterCall.Answer Thrown Unit

def skippedEvent (tickId : String) : LogEvent :=
  .tick ⟨.info, .scheduler, "tick skipped: previous tick still running"⟩ tickId .skipped none

def startEvent (tickId : String) : LogEvent :=
  .tick ⟨.info, .scheduler, "tick started"⟩ tickId .start none

def endEvent (tickId : String) (durationMs : ℤ) : LogEvent :=
  .tick ⟨.info, .scheduler, "tick ended"⟩ tickId .ended (some (durationMs : ℚ))

/-- The callback of the span. -/
def spanned (tickId : String) (startedAt : ℤ) : TickCode :=
  Async.tryFinally (do
    let _ ← perform AdapterCall.execute
    let endedAt ← perform AdapterCall.dateNow
    perform (AdapterCall.log (endEvent tickId (endedAt - startedAt))))
    (perform AdapterCall.endTick)

def tickCode (skipGuardEnabled : Bool) : TickCode := do
  let tickId ← perform AdapterCall.randomUUID
  let skip ← perform (AdapterCall.beginTick skipGuardEnabled)
  if skip then perform (AdapterCall.log (skippedEvent tickId))
  else do
    let startedAt ← perform AdapterCall.dateNow
    perform (AdapterCall.log (startEvent tickId))
    spanned tickId startedAt

/-- With the use case's own calls it is the tick of the running system. -/
theorem expand_tickCode (skipGuardEnabled : Bool) :
    expand AdapterCall.program (tickCode skipGuardEnabled) = tick skipGuardEnabled := by
  unfold tickCode tick
  simp only [expand_bind, expand_perform, AdapterCall.program]
  congr 1
  funext tickId
  congr 1
  funext skip
  cases skip with
  | true => rfl
  | false =>
    simp only [Bool.false_eq_true, ↓reduceIte, expand_bind, expand_perform, AdapterCall.program,
      spanned, expand_tryFinally]
    rfl

/-- What `randomUUID()` and `Date.now()` give during one stretch of code. -/
structure Moment where
  uuid : String
  now : ℤ

/-- The flag, and the log with the number of the tick that wrote each event. -/
structure Shared where
  isTickRunning : Bool
  logged : List (ℕ × LogEvent)

def Shared.eventsOf (s : Shared) (number : ℕ) : List LogEvent :=
  (s.logged.filter (·.1 = number)).map (·.2)

/-- The calls of tick `number` that are answered at once. Neither the logger nor the tracer
throws. -/
def act (number : ℕ) (m : Moment) :
    (c : AdapterCall) → Shared → Option (Except Thrown c.Answer × Shared)
  | .randomUUID, s => some (.ok m.uuid, s)
  | .beginTick skipGuardEnabled, s =>
    some (.ok (skipGuardEnabled && s.isTickRunning), { s with isTickRunning := true })
  | .dateNow, s => some (.ok m.now, s)
  | .log event, s => some (.ok (), { s with logged := s.logged ++ [(number, event)] })
  | .execute, _ => none
  | .endTick, s => some (.ok (), { s with isTickRunning := false })

abbrev Completion := Except Thrown ProcessPendingJobsResult

/-- A tick that was called, and how its `execute` has completed. -/
structure Tick where
  code : TickCode
  completion : Option Completion

structure Ticks where
  shared : Shared
  ticks : List Tick

namespace Ticks

def start : Ticks := ⟨⟨false, []⟩, []⟩

/-- A call of `tick()`, up to its first `await`. -/
def call (p : Ticks) (m : Moment) : Ticks :=
  let (code, shared) := advance (act p.ticks.length m) (tickCode true) p.shared
  ⟨shared, p.ticks ++ [⟨code, none⟩]⟩

/-- The `execute` of tick `number` resolves or rejects, and the tick goes on. -/
def complete (p : Ticks) (number : ℕ) (completion : Completion) (m : Moment) : Option Ticks :=
  match p.ticks[number]? with
  | some ⟨.awaiting .execute k, _⟩ =>
    let (code, shared) := advance (act number m) (k completion) p.shared
    some ⟨shared, p.ticks.set number ⟨code, some completion⟩⟩
  | _ => none

/-- Any sequence of calls and completions. -/
inductive Reachable : Ticks → Prop where
  | start : Reachable start
  | call {p : Ticks} (h : Reachable p) (m : Moment) : Reachable (p.call m)
  | complete {p p' : Ticks} (h : Reachable p) (number : ℕ) (completion : Completion) (m : Moment)
      (hp : p.complete number completion m = some p') : Reachable p'

/-- The `execute` of a tick has been called and has not completed. -/
def InFlight (p : Ticks) (number : ℕ) : Prop :=
  ∃ k completion, p.ticks[number]? = some ⟨.awaiting .execute k, completion⟩

/-- What a tick has logged. -/
def logOf (p : Ticks) (number : ℕ) : List LogEvent := p.shared.eventsOf number

end Ticks

/-- Where a tick is. -/
inductive Phase where
  | skipped (tickId : String)
  | running (tickId : String) (startedAt : ℤ)
  | resolved (tickId : String) (durationMs : ℤ) (result : ProcessPendingJobsResult)
  | rejected (tickId : String) (e : Thrown)

namespace Phase

def tick : Phase → Tick
  | skipped _ => ⟨.settled (.ok ()), none⟩
  | running tickId startedAt => ⟨spanned tickId startedAt, none⟩
  | resolved _ _ result => ⟨.settled (.ok ()), some (.ok result)⟩
  | rejected _ e => ⟨.settled (.error e), some (.error e)⟩

def logged : Phase → List LogEvent
  | skipped tickId => [skippedEvent tickId]
  | running tickId _ | rejected tickId _ => [startEvent tickId]
  | resolved tickId durationMs _ => [startEvent tickId, endEvent tickId durationMs]

end Phase

/-- The tick with this number is running. -/
def Runs (phases : List Phase) (number : ℕ) : Prop :=
  ∃ tickId startedAt, phases[number]? = some (.running tickId startedAt)

/-- The ticks are in these phases; the flag is set exactly if one of them is running, and no two
are. -/
structure InPhases (p : Ticks) (phases : List Phase) : Prop where
  ticks : p.ticks = phases.map Phase.tick
  logged : ∀ number, p.logOf number = (phases[number]?).elim [] Phase.logged
  flag : p.shared.isTickRunning = true ↔ ∃ number, Runs phases number
  one : ∀ number number', Runs phases number → Runs phases number' → number = number'

section Steps

variable {p p' : Ticks} {phases : List Phase} {number : ℕ} {m : Moment}

/-- The flag is read and set before anything is awaited. -/
theorem advance_tickCode (s : Shared) : advance (act number m) (tickCode true) s =
    if s.isTickRunning then (.settled (.ok ()),
      { s with logged := s.logged ++ [(number, skippedEvent m.uuid)] })
    else (spanned m.uuid m.now,
      ⟨true, s.logged ++ [(number, startEvent m.uuid)]⟩) := by
  obtain ⟨isTickRunning, logged⟩ := s
  cases isTickRunning with
  | true => rfl
  | false => rfl

theorem eventsOf_append (s : Shared) (flag : Bool) (event : LogEvent) (number' : ℕ) :
    Shared.eventsOf ⟨flag, s.logged ++ [(number, event)]⟩ number' =
      s.eventsOf number' ++ if number = number' then [event] else [] := by
  unfold Shared.eventsOf
  rw [List.filter_append, List.map_append]
  split_ifs with h
  · simp [h]
  · simp [h]

theorem getElem?_concat_eq_some {α : Type} {xs : List α} {x y : α} {n : ℕ} :
    (xs ++ [x])[n]? = some y ↔ xs[n]? = some y ∨ n = xs.length ∧ x = y := by
  rcases Nat.lt_trichotomy n xs.length with hlt | rfl | hgt
  · rw [List.getElem?_append_left hlt]
    simp [hlt.ne]
  · simp
  · rw [List.getElem?_eq_none (by rw [List.length_append, List.length_singleton]; omega),
      List.getElem?_eq_none hgt.le]
    simp [hgt.ne']

theorem runs_concat {phase : Phase} : Runs (phases ++ [phase]) number ↔
    Runs phases number ∨
      number = phases.length ∧ ∃ tickId startedAt, phase = .running tickId startedAt := by
  unfold Runs
  simp only [getElem?_concat_eq_some]
  constructor
  · rintro ⟨tickId, startedAt, hold | ⟨rfl, rfl⟩⟩
    · exact .inl ⟨tickId, startedAt, hold⟩
    · exact .inr ⟨rfl, tickId, startedAt, rfl⟩
  · rintro (⟨tickId, startedAt, hold⟩ | ⟨rfl, tickId, startedAt, rfl⟩)
    · exact ⟨tickId, startedAt, .inl hold⟩
    · exact ⟨tickId, startedAt, .inr ⟨rfl, rfl⟩⟩

theorem logged_concat (phase : Phase) : ((phases ++ [phase])[number]?).elim [] Phase.logged =
    (phases[number]?).elim [] Phase.logged ++
      if phases.length = number then phase.logged else [] := by
  rcases Nat.lt_trichotomy number phases.length with hlt | rfl | hgt
  · rw [List.getElem?_append_left hlt, if_neg hlt.ne', List.append_nil]
  · simp
  · rw [List.getElem?_eq_none (by rw [List.length_append, List.length_singleton]; omega),
      List.getElem?_eq_none hgt.le, if_neg hgt.ne]
    rfl

/-- A new tick that has logged one event, with the flag that fits its phase. -/
theorem InPhases.concat (h : InPhases p phases) {phase : Phase} {event : LogEvent} {flag : Bool}
    (hlogged : phase.logged = [event])
    (hflag : flag = true ↔ ∃ number, Runs (phases ++ [phase]) number)
    (hone : ∀ number number', Runs (phases ++ [phase]) number →
      Runs (phases ++ [phase]) number' → number = number') :
    InPhases ⟨⟨flag, p.shared.logged ++ [(p.ticks.length, event)]⟩, p.ticks ++ [phase.tick]⟩
      (phases ++ [phase]) := by
  have hlength : p.ticks.length = phases.length := by rw [h.ticks, List.length_map]
  constructor
  · rw [h.ticks, List.map_append]
    rfl
  · intro number
    rw [Ticks.logOf, eventsOf_append, logged_concat, hlength, ← h.logged number, hlogged]
    rfl
  · exact hflag
  · exact hone

/-- A tick called while another one is running is skipped. -/
theorem InPhases.call_skipped (h : InPhases p phases) (hrunning : p.shared.isTickRunning = true)
    (m : Moment) : InPhases (p.call m) (phases ++ [.skipped m.uuid]) := by
  have hcall : p.call m =
      ⟨⟨p.shared.isTickRunning, p.shared.logged ++ [(p.ticks.length, skippedEvent m.uuid)]⟩,
        p.ticks ++ [(Phase.skipped m.uuid).tick]⟩ := by
    unfold Ticks.call
    rw [advance_tickCode, if_pos hrunning]
    rfl
  have hruns : ∀ number, Runs (phases ++ [.skipped m.uuid]) number ↔ Runs phases number := by
    intro number
    rw [runs_concat]
    simp
  rw [hcall]
  apply h.concat rfl
  · simp only [hruns]
    exact h.flag
  · intro number number' hn hn'
    exact h.one _ _ ((hruns _).mp hn) ((hruns _).mp hn')

/-- A tick called while none is running starts. -/
theorem InPhases.call_started (h : InPhases p phases) (hclear : p.shared.isTickRunning = false)
    (m : Moment) : InPhases (p.call m) (phases ++ [.running m.uuid m.now]) := by
  have hcall : p.call m =
      ⟨⟨true, p.shared.logged ++ [(p.ticks.length, startEvent m.uuid)]⟩,
        p.ticks ++ [(Phase.running m.uuid m.now).tick]⟩ := by
    unfold Ticks.call
    rw [advance_tickCode, hclear]
    rfl
  have hnone : ∀ number, ¬ Runs phases number := by
    intro number hruns
    have hset := h.flag.mpr ⟨number, hruns⟩
    rw [hclear] at hset
    cases hset
  have hruns : ∀ number, Runs (phases ++ [.running m.uuid m.now]) number ↔
      number = phases.length := by
    intro number
    rw [runs_concat]
    constructor
    · rintro (hold | ⟨rfl, -⟩)
      · exact absurd hold (hnone number)
      · rfl
    · rintro rfl
      exact .inr ⟨rfl, _, _, rfl⟩
  rw [hcall]
  apply h.concat rfl
  · apply iff_of_true rfl
    exact ⟨_, (hruns _).mpr rfl⟩
  · intro number number' hn hn'
    rw [(hruns _).mp hn, (hruns _).mp hn']

/-- The phase of a running tick whose `execute` completes. -/
def Phase.completed (tickId : String) (startedAt : ℤ) (completion : Completion) (m : Moment) :
    Phase :=
  match completion with
  | .ok result => .resolved tickId (m.now - startedAt) result
  | .error e => .rejected tickId e

/-- The `finally` block clears the flag on both ways out, the end is logged on one. -/
theorem complete_eq {tickId : String} {startedAt : ℤ}
    (hget : p.ticks[number]? = some (Phase.running tickId startedAt).tick)
    (completion : Completion) (m : Moment) :
    p.complete number completion m = some
      ⟨⟨false, p.shared.logged ++ match completion with
        | .ok _ => [(number, endEvent tickId (m.now - startedAt))]
        | .error _ => []⟩,
      p.ticks.set number (Phase.completed tickId startedAt completion m).tick⟩ := by
  unfold Ticks.complete
  rw [hget]
  cases completion with
  | ok result => rfl
  | error e =>
    rw [List.append_nil]
    rfl

/-- Only a running tick waits for its `execute`. -/
theorem InPhases.running_of_awaiting (h : InPhases p phases) : p.InFlight number ↔
    Runs phases number := by
  unfold Ticks.InFlight Runs
  rw [h.ticks, List.getElem?_map]
  cases phases[number]? with
  | none => simp
  | some phase =>
    cases phase with
    | running tickId startedAt =>
      apply iff_of_true
      · exact ⟨_, none, rfl⟩
      · exact ⟨tickId, startedAt, rfl⟩
    | skipped tickId | resolved tickId durationMs result | rejected tickId e =>
      apply iff_of_false
      · rintro ⟨k, completion, heq⟩
        cases heq
      · rintro ⟨tickId, startedAt, heq⟩
        cases heq

theorem inFlight_of_complete {completion : Completion}
    (hp : p.complete number completion m = some p') : p.InFlight number := by
  unfold Ticks.complete at hp
  split at hp
  · next k before heq => exact ⟨k, before, heq⟩
  · cases hp

/-- A completion ends the running tick and clears the flag. -/
theorem InPhases.complete (h : InPhases p phases) {completion : Completion}
    (hp : p.complete number completion m = some p') :
    p'.shared.isTickRunning = false ∧ ∃ tickId startedAt,
      InPhases p' (phases.set number (.completed tickId startedAt completion m)) := by
  obtain ⟨tickId, startedAt, hphase⟩ := h.running_of_awaiting.mp (inFlight_of_complete hp)
  have hget : p.ticks[number]? = some (Phase.running tickId startedAt).tick := by
    rw [h.ticks, List.getElem?_map, hphase]
    rfl
  rw [complete_eq hget completion m] at hp
  obtain rfl := Option.some.inj hp
  have hlt : number < phases.length := (List.getElem?_eq_some_iff.mp hphase).1
  have hnone : ∀ number', ¬ Runs (phases.set number (.completed tickId startedAt completion m))
      number' := by
    rintro number' ⟨tickId', startedAt', hruns⟩
    by_cases hsame : number = number'
    · subst hsame
      rw [List.getElem?_set_self hlt] at hruns
      cases completion <;> cases Option.some.inj hruns
    · rw [List.getElem?_set_ne hsame] at hruns
      exact hsame (h.one _ _ ⟨_, _, hphase⟩ ⟨_, _, hruns⟩)
  refine ⟨rfl, tickId, startedAt, ?_⟩
  constructor
  · rw [List.map_set, h.ticks]
  · intro number'
    have hlogged := h.logged number'
    by_cases hsame : number = number'
    · subst hsame
      rw [hphase] at hlogged
      rw [List.getElem?_set_self hlt]
      cases completion with
      | ok result =>
        rw [Ticks.logOf, eventsOf_append, if_pos rfl]
        exact congrArg (· ++ [endEvent tickId (m.now - startedAt)]) hlogged
      | error e =>
        rw [List.append_nil]
        exact hlogged
    · rw [List.getElem?_set_ne hsame]
      cases completion with
      | ok result =>
        rw [Ticks.logOf, eventsOf_append, if_neg hsame, List.append_nil]
        exact hlogged
      | error e =>
        rw [List.append_nil]
        exact hlogged
  · apply iff_of_false Bool.false_ne_true
    rintro ⟨number', hruns⟩
    exact hnone number' hruns
  · intro number' _ hruns
    exact absurd hruns (hnone number')

theorem InPhases.start : InPhases .start [] := by
  have hnone : ∀ number, ¬ Runs [] number := by
    rintro number ⟨tickId, startedAt, hruns⟩
    cases hruns
  constructor
  · rfl
  · intro number
    rfl
  · apply iff_of_false Bool.false_ne_true
    rintro ⟨number, hruns⟩
    exact hnone number hruns
  · intro number _ hruns
    exact absurd hruns (hnone number)

theorem Ticks.Reachable.inPhases (h : Ticks.Reachable p) : ∃ phases, InPhases p phases := by
  induction h with
  | start => exact ⟨[], .start⟩
  | @call p _ m ih =>
    obtain ⟨phases, hphases⟩ := ih
    cases hflag : p.shared.isTickRunning with
    | true => exact ⟨_, hphases.call_skipped hflag m⟩
    | false => exact ⟨_, hphases.call_started hflag m⟩
  | complete _ number completion m hp ih =>
    obtain ⟨phases, hphases⟩ := ih
    obtain ⟨-, tickId, startedAt, hphases'⟩ := hphases.complete hp
    exact ⟨_, hphases'⟩

end Steps

/-- The `execute` of a tick has been called. -/
def Ticks.Started (p : Ticks) (number : ℕ) : Prop :=
  p.InFlight number ∨ ∃ tick, p.ticks[number]? = some tick ∧ tick.completion.isSome

def Ticks.Resolved (p : Ticks) (number : ℕ) : Prop :=
  ∃ tick result, p.ticks[number]? = some tick ∧ tick.completion = some (.ok result)

/-- Tick mutual exclusion in one state: of the ticks so far, and of a tick called there. -/
structure TickExclusion (p : Ticks) : Prop where
  one : ∀ number number', p.InFlight number → p.InFlight number' → number = number'
  flag : p.shared.isTickRunning = true ↔ ∃ number, p.InFlight number
  starts : ∀ m, (p.call m).Started p.ticks.length ↔ ¬ ∃ number, p.InFlight number
  skips : ∀ m, (∃ number, p.InFlight number) →
    (p.call m).logOf p.ticks.length = [skippedEvent m.uuid]
  skipped : ∀ number < p.ticks.length, ¬ p.Started number →
    ∃ tickId, p.logOf number = [skippedEvent tickId]
  started : ∀ number, p.Started number → ∃ tickId,
    (p.Resolved number → ∃ durationMs,
      p.logOf number = [startEvent tickId, endEvent tickId durationMs]) ∧
    (¬ p.Resolved number → p.logOf number = [startEvent tickId])
  rejected : ∀ number e m p', p.complete number (.error e) m = some p' →
    ∀ m', (p'.call m').Started p'.ticks.length ∧
      (p'.call m').logOf p'.ticks.length = [startEvent m'.uuid]

section Exclusion

variable {p p' : Ticks} {phases : List Phase} {number : ℕ} {m : Moment}

theorem InPhases.started_iff (h : InPhases p phases) : p.Started number ↔
    ∃ phase, phases[number]? = some phase ∧ ∀ tickId, phase ≠ .skipped tickId := by
  unfold Ticks.Started
  rw [h.running_of_awaiting, h.ticks, List.getElem?_map]
  unfold Runs
  cases phases[number]? with
  | none => simp
  | some phase => cases phase <;> simp [Phase.tick]

theorem InPhases.resolved_iff (h : InPhases p phases) : p.Resolved number ↔
    ∃ tickId durationMs result, phases[number]? = some (.resolved tickId durationMs result) := by
  unfold Ticks.Resolved
  rw [h.ticks, List.getElem?_map]
  cases phases[number]? with
  | none => simp
  | some phase => cases phase <;> simp [Phase.tick]

theorem InPhases.flag_iff (h : InPhases p phases) :
    p.shared.isTickRunning = true ↔ ∃ number, p.InFlight number := by
  rw [h.flag]
  exact exists_congr fun number => h.running_of_awaiting.symm

/-- A tick called while the flag is clear starts its `execute` and logs that it has started. -/
theorem InPhases.starts (h : InPhases p phases) (hclear : p.shared.isTickRunning = false)
    (m : Moment) : (p.call m).Started p.ticks.length ∧
      (p.call m).logOf p.ticks.length = [startEvent m.uuid] := by
  have hcall := h.call_started hclear m
  have hlength : p.ticks.length = phases.length := by rw [h.ticks, List.length_map]
  have hphase : (phases ++ [.running m.uuid m.now])[p.ticks.length]? =
      some (.running m.uuid m.now) := by
    rw [hlength]
    exact List.getElem?_concat_length
  constructor
  · apply hcall.started_iff.mpr
    exact ⟨_, hphase, fun tickId heq => by cases heq⟩
  · rw [hcall.logged, hphase]
    rfl

theorem InPhases.skips (h : InPhases p phases) (hrunning : p.shared.isTickRunning = true)
    (m : Moment) : ¬ (p.call m).Started p.ticks.length ∧
      (p.call m).logOf p.ticks.length = [skippedEvent m.uuid] := by
  have hcall := h.call_skipped hrunning m
  have hlength : p.ticks.length = phases.length := by rw [h.ticks, List.length_map]
  have hphase : (phases ++ [.skipped m.uuid])[p.ticks.length]? = some (.skipped m.uuid) := by
    rw [hlength]
    exact List.getElem?_concat_length
  constructor
  · rw [hcall.started_iff]
    rintro ⟨phase, heq, hne⟩
    rw [hphase] at heq
    exact hne _ (Option.some.inj heq).symm
  · rw [hcall.logged, hphase]
    rfl

end Exclusion

/-- Tick mutual exclusion, whatever the order of calls and completions. -/
theorem ticks_exclude {p : Ticks} (h : p.Reachable) : TickExclusion p := by
  obtain ⟨phases, hphases⟩ := h.inPhases
  constructor
  · intro number number' hn hn'
    exact hphases.one _ _ (hphases.running_of_awaiting.mp hn) (hphases.running_of_awaiting.mp hn')
  · exact hphases.flag_iff
  · intro m
    rw [← hphases.flag_iff]
    cases hflag : p.shared.isTickRunning with
    | true => exact iff_of_false (hphases.skips hflag m).1 (not_not.mpr rfl)
    | false => exact iff_of_true (hphases.starts hflag m).1 Bool.false_ne_true
  · intro m hinFlight
    exact (hphases.skips (hphases.flag_iff.mpr hinFlight) m).2
  · intro number hlt hnot
    have hlt' : number < phases.length := by rwa [hphases.ticks, List.length_map] at hlt
    rw [hphases.started_iff] at hnot
    rw [hphases.logged, List.getElem?_eq_getElem hlt'] at *
    cases hphase : phases[number] with
    | skipped tickId => exact ⟨tickId, rfl⟩
    | running _ _ | resolved _ _ _ | rejected _ _ =>
      exact absurd ⟨_, rfl, by rw [hphase]; exact fun _ heq => by cases heq⟩ hnot
  · intro number hstarted
    obtain ⟨phase, hphase, hne⟩ := hphases.started_iff.mp hstarted
    rw [hphases.resolved_iff, hphases.logged, hphase]
    cases phase with
    | skipped tickId => exact absurd rfl (hne tickId)
    | running tickId startedAt =>
      refine ⟨tickId, ?_, fun _ => rfl⟩
      rintro ⟨_, _, _, heq⟩
      cases heq
    | resolved tickId durationMs result =>
      exact ⟨tickId, fun _ => ⟨durationMs, rfl⟩, fun hnot => absurd ⟨_, _, _, rfl⟩ hnot⟩
    | rejected tickId e =>
      refine ⟨tickId, ?_, fun _ => rfl⟩
      rintro ⟨_, _, _, heq⟩
      cases heq
  · intro number e m p' hp m'
    obtain ⟨hclear, tickId, startedAt, hphases'⟩ := hphases.complete hp
    exact hphases'.starts hclear m'

/-- The second tick is skipped, the `execute` of the first one rejects. -/
theorem ticks_exclude_rejected :
    ∃ p, ((Ticks.start.call ⟨"a", 0⟩).call ⟨"b", 1⟩).complete 0 (.error "disk") ⟨"c", 2⟩ = some p ∧
      TickExclusion p :=
  ⟨_, rfl, ticks_exclude (.complete (.call (.call .start _) _) 0 (.error "disk") ⟨"c", 2⟩ rfl)⟩

end JobManager.JobSchedulerAdapter
