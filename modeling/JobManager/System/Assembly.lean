import JobManager.Adapters.JobProcessor
import JobManager.Async.Simulation
import JobManager.NewsDigest.Delivery
import JobManager.System.Service

/-! The assembled application: the service, with a processor in the place of its port and one
delivery ledger in memory. -/
namespace JobManager

open Async

/-- A call of the service, or one of the processor at work on a job. -/
inductive AppCall where
  | effect (c : Effect)
  | digest (job : Job) (c : DigestCall)
  deriving DecidableEq, Repr

abbrev AppCall.Answer : AppCall → Type
  | effect c => c.Answer
  | digest _ c => c.Answer

abbrev AppProgram (α : Type) := Async AppCall AppCall.Answer Thrown α

/-- `process` of a processor, with the job its calls are for. -/
def JobProcessor.work (processor : JobProcessor) (job : Job) : AppProgram JobProcessOutcome :=
  expand (fun c => perform (AppCall.digest job c)) (processor.process job)

/-- What is behind the ports of the service. -/
def processing (processor : JobProcessor) : (c : Effect) → AppProgram c.Answer
  | .process job => processor.work job
  | .repository op => perform (AppCall.effect (.repository op))
  | .log event => perform (AppCall.effect (.log event))
  | .beginTick skipGuardEnabled => perform (AppCall.effect (.beginTick skipGuardEnabled))
  | .endTick => perform (AppCall.effect .endTick)
  | .randomUUID => perform (AppCall.effect .randomUUID)
  | .dateNow => perform (AppCall.effect .dateNow)

theorem processing_eq (processor : JobProcessor) {c : Effect} (hc : ∀ job, c ≠ .process job) :
    processing processor c = perform (AppCall.effect c) := by
  cases c with
  | process job => exact absurd rfl (hc job)
  | repository _ | log _ | beginTick _ | endTick | randomUUID | dateNow => rfl

structure AppWorld where
  world : World
  ledger : InMemoryDeliveryLedger

/-- What the environment decides about one call: also what the network answers. -/
structure AppChoice where
  choice : Choice
  articles : List NewsArticle
  groups : List DigestGroup

variable [LowerCase]

/-- The ledger is in memory and never fails; the network and the logger may. -/
def AppWorld.act (t : AppChoice) : (c : AppCall) → AppWorld →
    Option (Except Thrown c.Answer × AppWorld)
  | .effect c, w => (World.act t.choice c w.world).map fun (x, world) => (x, { w with world })
  | .digest _ (.wasDelivered key), w => some (.ok (w.ledger.wasDelivered key), w)
  | .digest _ (.markDelivered key), w =>
    some (.ok (), { w with ledger := w.ledger.markDelivered key })
  | .digest _ .fetchTodayArticles, w => match t.choice.throws with
    | some e => some (.error e, w)
    | none => some (.ok t.articles, w)
  | .digest _ (.buildGroupedDigest _), w => match t.choice.throws with
    | some e => some (.error e, w)
    | none => some (.ok t.groups, w)
  | .digest _ (.notify _), w | .digest _ (.log _), w => match t.choice.throws with
    | some e => some (.error e, w)
    | none => some (.ok (), w)
  | .digest _ .dateNow, w => some (.ok t.choice.dateNow, w)
  | .digest _ (.setTimeout _), w | .digest _ .clearTimeout, w => some (.ok (), w)

abbrev AppEntry := Async.Entry AppCall.Answer Thrown ServiceRequest AppWorld
abbrev App := Async.Pool AppCall.Answer Thrown ServiceRequest.Reply AppWorld

namespace AppWorld

/-- The work on a job leaves the service alone, and only a mark changes the ledger. -/
theorem act_digest {t : AppChoice} {job : Job} {c : DigestCall} {w w' : AppWorld}
    {x : Except Thrown c.Answer} (h : act t (.digest job c) w = some (x, w')) :
    w' = w ∧ (∀ key, c ≠ .markDelivered key) ∨
      ∃ key, c = .markDelivered key ∧ w' = { w with ledger := w.ledger.markDelivered key } := by
  cases c with
  | markDelivered key => exact .inr ⟨key, rfl, (Prod.mk.inj (Option.some.inj h)).2.symm⟩
  | wasDelivered _ | dateNow | setTimeout _ | clearTimeout =>
    exact .inl ⟨(Prod.mk.inj (Option.some.inj h)).2.symm, nofun⟩
  | fetchTodayArticles | buildGroupedDigest _ | notify _ | log _ =>
    refine .inl ⟨?_, nofun⟩
    cases ht : t.choice.throws <;> simp only [act, ht] at h <;>
      exact (Prod.mk.inj (Option.some.inj h)).2.symm

theorem act_effect {t : AppChoice} {c : Effect} {w w' : AppWorld} {x : Except Thrown c.Answer}
    (h : act t (.effect c) w = some (x, w')) :
    World.act t.choice c w.world = some (x, w'.world) ∧ w'.ledger = w.ledger := by
  obtain ⟨⟨x', world⟩, hact, heq⟩ := Option.map_eq_some_iff.mp h
  obtain ⟨rfl, rfl⟩ := Prod.mk.inj heq
  exact ⟨hact, rfl⟩

theorem act_digest_world {t : AppChoice} {job : Job} {c : DigestCall} {w w' : AppWorld}
    {x : Except Thrown c.Answer} (h : act t (.digest job c) w = some (x, w')) :
    w'.world = w.world := by
  rcases act_digest h with ⟨rfl, -⟩ | ⟨key, -, rfl⟩ <;> rfl

end AppWorld

section

/-- The port answers with what the processor makes of the job. -/
theorem work_simulates (job : Job) (p : DigestProgram JobProcessOutcome) :
    Simulates World.act AppWorld.act AppWorld.world Settles (perform (Effect.process job))
      (expand (fun c => perform (AppCall.digest job c)) p) := by
  induction p with
  | settled r =>
    refine .of_moves fun s => ?_
    cases r with
    | ok outcome =>
      have hact : World.act ⟨⟨"", ""⟩, outcome, 0, none⟩ (.process job) s.world =
        some (.ok outcome, s.world) := rfl
      exact ⟨_, .single hact, Refines.simulates rfl⟩
    | error e =>
      have hact : World.act ⟨⟨"", ""⟩, .failed, 0, some e⟩ (.process job) s.world =
        some (.error e, s.world) := rfl
      exact ⟨_, .single hact, Refines.simulates rfl⟩
  | awaiting c k ih => exact .silent (fun t s x s₁ hact => AppWorld.act_digest_world hact) ih

theorem processing_simulates (processor : JobProcessor) (c : Effect) :
    Simulates World.act AppWorld.act AppWorld.world Settles (perform c)
      (processing processor c) := by
  by_cases hc : ∃ job, c = .process job
  · obtain ⟨job, rfl⟩ := hc
    exact work_simulates job (processor.process job)
  · rw [processing_eq processor fun job hjob => hc ⟨job, hjob⟩]
    exact .awaiting fun t s x s₁ hact =>
      ⟨_, .single (AppWorld.act_effect hact).1, Refines.simulates rfl⟩

end

variable [ClassValidator ℚ] [Http.ValidationMessages]

/-- The applications that requests of an allowed kind can lead to; the ledger is new. -/
def App.Reachable (processor : JobProcessor) (supportedJobTypes : SupportedJobTypes)
    (allowed : ServiceRequest → Prop) (s : Store) (p : App) : Prop :=
  Async.Pool.Reachable (fun q => expand (processing processor) (q.program supportedJobTypes))
    allowed AppWorld.act (Async.Pool.start ⟨⟨s, false⟩, .empty⟩) p

theorem App.Reachable.simulated {processor : JobProcessor} {supportedJobTypes : SupportedJobTypes}
    {allowed : ServiceRequest → Prop} {s : Store} {p' : App}
    (h : App.Reachable processor supportedJobTypes allowed s p') :
    ∃ p, Service.Reachable supportedJobTypes allowed s p ∧
      Pool.Simulated World.act AppWorld.act AppWorld.world id (fun _ => Settles) p p' :=
  Pool.Reachable.simulation h fun _ hq =>
    ⟨hq, Simulates.expand (processing_simulates processor) _⟩

/-- Every run of the application is one of the service, whatever the processor does: the same store
and flag, and every request that has come to a result has come to the same one. -/
theorem app_refines_service {processor : JobProcessor} {supportedJobTypes : SupportedJobTypes}
    {allowed : ServiceRequest → Prop} {s : Store} {p' : App}
    (h : App.Reachable processor supportedJobTypes allowed s p') :
    ∃ p, Service.Reachable supportedJobTypes allowed s p ∧ p.state = p'.state.world ∧
      p.fibers.map Fiber.request = p'.fibers.map Fiber.request ∧
      ∀ (i : ℕ) q r, p'.fibers[i]? = some ⟨q, .settled r⟩ →
        p.fibers[i]? = some ⟨q, .settled r⟩ := by
  obtain ⟨p, hp, hsim⟩ := h.simulated
  exact ⟨p, hp, hsim.state, hsim.requests, fun i q r hi => hsim.result hi⟩

/-- A tick that fetches one article, sends its message and completes the job. -/
def digestTick : List (Async.Pool.Move ServiceRequest AppChoice) :=
  .start (.tick true) :: List.replicate 17 (.resume 0
    ⟨.quiet, [⟨"title", "snippet", "link"⟩], [⟨"topic", "summary", ["headline"]⟩]⟩)

def digestProcessor : JobProcessor := .newsDigest ⟨"feed", 1⟩ ⟨"key", "model"⟩ ⟨"webhook"⟩
  { timeoutMs := 1000, model := "model", logger := true }

omit [LowerCase] [ClassValidator ℚ] [Http.ValidationMessages] in
/-- What the tick does to the store is a run of the service. -/
theorem app_refines_service_tick :
    letI := LowerCase.ascii
    letI := ClassValidator.codePoints ℚ
    letI : Http.ValidationMessages := ⟨fun _ _ => []⟩
    ∃ p, Service.Reachable ⟨fun _ => true, []⟩ (fun _ => True) Store.onePending p ∧
      p.state.store.jobs = [⟨"1", "title", "text", .completed, 0, "t", "u"⟩] := by
  let _ := LowerCase.ascii
  let _ := ClassValidator.codePoints ℚ
  let _ : Http.ValidationMessages := ⟨fun _ _ => []⟩
  obtain ⟨p', hp', hjobs⟩ : ∃ p, App.Reachable digestProcessor ⟨fun _ => true, []⟩
      (fun _ => True) Store.onePending p ∧ p.state.world.store.jobs =
        [⟨"1", "title", "text", .completed, 0, "t", "u"⟩] :=
    Async.Pool.exists_reachable digestTick _ _ (by decide +kernel)
  obtain ⟨p, hp, hstate, -⟩ := app_refines_service hp'
  exact ⟨p, hp, by rw [hstate]; exact hjobs⟩

end JobManager
