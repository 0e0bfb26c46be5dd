import JobManager.NewsDigest.Phases
import JobManager.System.Assembly
import JobManager.System.Ownership
import JobManager.System.TickGuard

/-! Messages over all runs of the application: with the overrun guard at most one is accepted for a
job, and a digest job that is committed as completed has had its message. -/
namespace JobManager

open Async

abbrev AppEvent := Async.Event AppCall.Answer Thrown

/-- An event of the processor at work on a job. -/
def DigestEvent.forJob (job : Job) (event : DigestEvent) : AppEvent :=
  ⟨.digest job event.call, event.answer⟩

/-- A message for this job has been accepted. -/
def AppEvent.delivers (id : String) : AppEvent → Bool
  | ⟨.digest job (.notify _), .ok _⟩ => job.id = id
  | _ => false

/-- The phase of one request; a tick begins and ends without a message. -/
def Phase.afterCall : Phase → AppEvent → Phase
  | v, ⟨.digest _ c, x⟩ => v.after ⟨c, x⟩
  | _, ⟨.effect (.beginTick _), _⟩ | _, ⟨.effect .endTick, _⟩ => .idle
  | v, _ => v

def phase (h : List AppEvent) : Phase := h.foldl Phase.afterCall .idle

@[simp] theorem phase_nil : phase [] = .idle := rfl

@[simp] theorem phase_snoc (h : List AppEvent) (event : AppEvent) :
    phase (h ++ [event]) = (phase h).afterCall event := by simp [phase]

theorem phase_append_forJob (h : List AppEvent) (job : Job) (events : List DigestEvent) :
    phase (h ++ events.map (DigestEvent.forJob job)) = phaseFrom (phase h) events := by
  rw [phase, List.foldl_append, List.foldl_map]
  rfl

theorem Phase.afterCall_effect (v : Phase) (c : Effect) (x : Except Thrown c.Answer) :
    v.afterCall ⟨.effect c, x⟩ = v ∨ v.afterCall ⟨.effect c, x⟩ = .idle := by
  cases c with
  | beginTick _ | endTick => exact .inr rfl
  | repository _ | process _ | log _ | randomUUID | dateNow => exact .inl rfl

/-- The message for the job is known to be out. -/
def KnownIn (job : Job) (h : List AppEvent) : Prop :=
  ⟨.digest job (.wasDelivered job.id), .ok true⟩ ∈ h ∨
    ⟨.digest job (.markDelivered job.id), .ok ()⟩ ∈ h

theorem forJob_mem {job : Job} {events : List DigestEvent} {event : DigestEvent}
    (h : event ∈ events) (before : List AppEvent) :
    event.forJob job ∈ before ++ events.map (DigestEvent.forJob job) :=
  List.mem_append_right _ (List.mem_map_of_mem h)

theorem Known.forJob {job : Job} {events : List DigestEvent} (h : Known job events)
    (before : List AppEvent) : KnownIn job (before ++ events.map (DigestEvent.forJob job)) :=
  h.imp (fun hmem => forJob_mem hmem before) fun hmem => forJob_mem hmem before

/-- The message is the digest of what has been fetched and built for the job. -/
def ComposedIn (job : Job) (text : String) (h : List AppEvent) : Prop :=
  ∃ articles groups, articles ≠ [] ∧ groups ≠ [] ∧ text = formatDigestMessage job.title groups ∧
    ⟨.digest job .fetchTodayArticles, .ok articles⟩ ∈ h ∧
    ⟨.digest job (.buildGroupedDigest articles), .ok groups⟩ ∈ h

theorem Composed.forJob {job : Job} {text : String} {events : List DigestEvent}
    (h : Composed job text events) (before : List AppEvent) :
    ComposedIn job text (before ++ events.map (DigestEvent.forJob job)) := by
  obtain ⟨articles, groups, harticles, hgroups, htext, hfetched, hbuilt⟩ := h
  exact ⟨articles, groups, harticles, hgroups, htext, forJob_mem hfetched before,
    forJob_mem hbuilt before⟩

/-- A request has claimed the job, as it was then. -/
def ClaimedIn (job : Job) (h : List AppEvent) : Prop :=
  ∃ ids result, ⟨.effect (.repository (.withBatch ids .processing)), .ok result⟩ ∈ h ∧
    job ∈ result.committed

/-- A history of a request with that of its parts behind the ports. -/
structure Mirrors (processor : JobProcessor) (h : List Call) (h' : List AppEvent) : Prop where
  same : ∀ c x, (∀ job, c ≠ .process job) →
    ((⟨c, x⟩ : Call) ∈ h ↔ (⟨.effect c, x⟩ : AppEvent) ∈ h')
  known : ∀ job, (⟨.process job, .ok .completed⟩ : Call) ∈ h →
    (processor.route job).isNewsDigest = true → KnownIn job h'

def EntersAppTick (event : AppEvent) : Prop :=
  ∃ skipGuardEnabled, event = ⟨.effect (.beginTick skipGuardEnabled), .ok false⟩

def LeavesAppTick (event : AppEvent) : Prop := event.call = .effect .endTick

abbrev InsideAppTick (h : List AppEvent) : Prop := Inside EntersAppTick LeavesAppTick h

/-- A call of the news processor for a job that its tick has claimed. -/
structure AtWork (processor : JobProcessor) (job : Job) (h : List AppEvent) (c : DigestCall) :
    Prop where
  inside : InsideAppTick h
  claimed : ClaimedIn job h
  routed : (processor.route job).isNewsDigest = true
  allowed : (phase h).Allows job c
  composed : ∀ text, c = .notify text → ComposedIn job text h

/-- The calls of a request: of the service by its protocol and never between a message and its mark,
of the processor at work inside a tick. -/
def AppCalls (processor : JobProcessor) (q : ServiceRequest) (h' : List AppEvent) : AppCall → Prop
  | .effect c => ¬ (phase h').IsSent ∧ ∃ h, Mirrors processor h h' ∧ q.Calls h c
  | .digest job c => AtWork processor job h' c

section Conformance

variable {processor : JobProcessor} {h : List Call} {h' : List AppEvent}

theorem Mirrors.insideTick (hm : Mirrors processor h h') (hin : InsideTick h) :
    InsideAppTick h' := by
  obtain ⟨⟨skipGuardEnabled, hbegin⟩, hend⟩ := hin
  refine ⟨⟨_, (hm.same _ _ fun job hjob => by cases hjob).mp hbegin, skipGuardEnabled, rfl⟩, ?_⟩
  rintro ⟨c, x⟩ hmem hleaves
  obtain rfl : c = .effect .endTick := hleaves
  exact hend x ((hm.same _ _ fun job hjob => by cases hjob).mpr hmem)

theorem Mirrors.nil : Mirrors processor [] [] :=
  ⟨fun _ _ _ => by simp, fun _ hmem => by cases hmem⟩

theorem Mirrors.effect (hm : Mirrors processor h h') {c : Effect} (hc : ∀ job, c ≠ .process job)
    (x : Except Thrown c.Answer) : Mirrors processor (h ++ [⟨c, x⟩]) (h' ++ [⟨.effect c, x⟩]) := by
  refine ⟨fun c' x' hc' => ?_, fun job hmem hnews => ?_⟩
  · rw [List.mem_append, List.mem_append, hm.same c' x' hc', List.mem_singleton,
      List.mem_singleton]
    refine or_congr_right ⟨fun heq => ?_, fun heq => ?_⟩
    · cases heq
      rfl
    · cases heq
      rfl
  · refine (hm.known job ((List.mem_append.mp hmem).resolve_right fun hlast => ?_) hnews).imp
      (List.mem_append_left _) (List.mem_append_left _)
    exact hc job (congrArg Event.call (List.mem_singleton.mp hlast)).symm

theorem Mirrors.process (hm : Mirrors processor h h') {job : Job}
    {x : Except Thrown JobProcessOutcome} {events : List DigestEvent}
    (hknown : x = .ok .completed → (processor.route job).isNewsDigest = true → Known job events) :
    Mirrors processor (h ++ [⟨.process job, x⟩]) (h' ++ events.map (DigestEvent.forJob job)) := by
  refine ⟨fun c x' hc => ?_, fun job' hmem hnews => ?_⟩
  · rw [List.mem_append, List.mem_append, hm.same c x' hc]
    refine or_congr_right ⟨fun heq => ?_, fun hmem => ?_⟩
    · exact absurd (congrArg Event.call (List.mem_singleton.mp heq)) (hc job)
    · obtain ⟨event, -, heq⟩ := List.mem_map.mp hmem
      cases congrArg Event.call heq
  · rcases List.mem_append.mp hmem with hmem | hmem
    · exact (hm.known job' hmem hnews).imp (List.mem_append_left _) (List.mem_append_left _)
    · cases List.mem_singleton.mp hmem
      exact (hknown rfl hnews).forJob h'

theorem mem_claims_progress {job : Job} (hm : job ∈ (progress h).claims) :
    ∃ ids result, ⟨.repository (.withBatch ids .processing), .ok result⟩ ∈ h ∧
      job ∈ result.committed := by
  rw [claims_progress] at hm
  obtain ⟨c, hc, hm⟩ := List.mem_flatMap.mp hm
  unfold Progress.after at hm
  split at hm <;> simp [Progress.claims] at hm
  exact ⟨_, _, hc, hm⟩

theorem ServiceRequest.Calls.process {q : ServiceRequest} {job : Job}
    (hq : q.Calls h (.process job)) : InsideTick h ∧ job ∈ (progress h).claims := by
  cases q with
  | http path r => exact hq.elim
  | tick skipGuardEnabled =>
    obtain ⟨⟨rest, hclaims, -⟩, hin⟩ := hq
    exact ⟨hin, hclaims ▸ List.mem_append_right _ List.mem_cons_self⟩

theorem Mirrors.claimed (hm : Mirrors processor h h') {job : Job}
    (hclaims : job ∈ (progress h).claims) : ClaimedIn job h' := by
  obtain ⟨ids, result, hmem, hjob⟩ := mem_claims_progress hclaims
  exact ⟨ids, result, (hm.same _ _ fun _ heq => by cases heq).mp hmem, hjob⟩

theorem ServiceRequest.Calls.beginTick {q : ServiceRequest} {h : List Call}
    {skipGuardEnabled : Bool} (hq : q.Calls h (.beginTick skipGuardEnabled)) :
    q = .tick skipGuardEnabled := by
  cases q with
  | http path r => exact hq.elim
  | tick _ => exact congrArg ServiceRequest.tick hq.1.symm

theorem ServiceRequest.Calls.endTick {q : ServiceRequest} {h : List Call}
    (hq : q.Calls h .endTick) : InsideTick h := by
  cases q with
  | http path r => exact hq.elim
  | tick _ => exact hq

theorem ServiceRequest.Calls.withBatch {q : ServiceRequest} {ids : List String}
    {target : JobStatus} (hq : q.Calls h (.repository (.withBatch ids target))) :
    (progress h).Allows (.repository (.withBatch ids target)) := by
  cases q with
  | http path r =>
    cases r with
    | patch id body => rcases hq with hq | ⟨_, hq⟩ <;> cases hq
    | create body | list | search query | getById id | remove id => cases hq
  | tick _ => exact hq.1

/-- The work on one job, in the middle of a tick. -/
theorem work_conforms {q : ServiceRequest} {job : Job} (hm : Mirrors processor h h')
    (hidle : ¬ (phase h').IsSent) (hin : InsideAppTick h') (hclaimed : ClaimedIn job h') :
    Conforms (AppCalls processor q)
      (fun x h'' => Mirrors processor (h ++ [⟨.process job, x⟩]) h'' ∧ ¬ (phase h'').IsSent)
      (processor.work job) h' := by
  refine (Conforms.expand
    (fun events h'' => h'' = h' ++ events.map (DigestEvent.forJob job)) ?_
    (processor.process_proceeds hidle job) (by simp)).mono (fun _ _ hc => hc) ?_
  · rintro events _ c rfl ⟨⟨hallows, hcomposed⟩, hrouted⟩
    obtain ⟨ids, result, hmem, hjob⟩ := hclaimed
    refine ⟨⟨hin.append ?_, ⟨ids, result, List.mem_append_left _ hmem, hjob⟩, hrouted,
      by rwa [phase_append_forJob], fun text htext => (hcomposed text htext).forJob h'⟩,
      fun x => ?_⟩
    · intro event hevent hleaves
      obtain ⟨_, -, rfl⟩ := List.mem_map.mp hevent
      cases hleaves
    · change h' ++ events.map _ ++ [DigestEvent.forJob job ⟨c, x⟩] = _
      simp
  · rintro x h'' ⟨events, rfl, hv, hknown⟩
    exact ⟨hm.process hknown, by rwa [phase_append_forJob]⟩

theorem app_conforms [ClassValidator ℚ] [Http.ValidationMessages]
    (supportedJobTypes : SupportedJobTypes) (q : ServiceRequest) :
    Conforms (AppCalls processor q) (fun _ _ => True)
      (expand (processing processor) (q.program supportedJobTypes)) [] := by
  refine (Conforms.expand (fun h h' => Mirrors processor h h' ∧ ¬ (phase h').IsSent) ?_
    (q.conforms supportedJobTypes) ⟨.nil, nofun⟩).mono (fun _ _ hc => hc) fun _ _ _ => trivial
  rintro h h' c ⟨hm, hidle⟩ hcalls
  by_cases hc : ∃ job, c = .process job
  · obtain ⟨job, rfl⟩ := hc
    obtain ⟨hin, hclaims⟩ := ServiceRequest.Calls.process hcalls
    exact work_conforms hm hidle (hm.insideTick hin) (hm.claimed hclaims)
  · have hc : ∀ job, c ≠ .process job := fun job hjob => hc ⟨job, hjob⟩
    rw [processing_eq processor hc]
    refine ⟨⟨hidle, h, hm, hcalls⟩, fun x => ⟨hm.effect hc x, ?_⟩⟩
    rw [phase_snoc]
    rcases (phase h').afterCall_effect c x with heq | heq
    · rwa [heq]
    · rw [heq]
      exact nofun

end Conformance

/-- What the ledger and the phase of who is at work say about the messages that are out. -/
structure Accounts (v : Phase) (ledger : InMemoryDeliveryLedger) (deliveries : String → ℕ) :
    Prop where
  looked : ∀ id, v = .looked id → ledger.wasDelivered id = false
  sent : ∀ id, v = .sent id → ledger.wasDelivered id = false ∧ deliveries id = 1
  known : ∀ id, ledger.wasDelivered id = true → deliveries id = 1
  unknown : ∀ id, ledger.wasDelivered id = false → v ≠ .sent id → deliveries id = 0

namespace Accounts

variable {v : Phase} {ledger : InMemoryDeliveryLedger} {deliveries : String → ℕ}

/-- Who has sent nothing may stop. -/
theorem stop (h : Accounts v ledger deliveries) (hv : ¬ v.IsSent) :
    Accounts .idle ledger deliveries :=
  ⟨nofun, nofun, h.known, fun id hledger _ => h.unknown id hledger fun heq => hv ⟨id, heq⟩⟩

/-- The ledger has answered that there has been no message for the job. -/
theorem look (h : Accounts v ledger deliveries) (hv : ¬ v.IsSent) {key : String}
    (hledger : ledger.wasDelivered key = false) : Accounts (.looked key) ledger deliveries := by
  refine ⟨fun id hid => ?_, by simp, h.known, fun id hid _ => ?_⟩
  · cases hid
    exact hledger
  · exact h.unknown id hid fun heq => hv ⟨id, heq⟩

/-- A message is accepted for the job that has been looked up. -/
theorem send {key : String} (h : Accounts (.looked key) ledger deliveries) :
    Accounts (.sent key) ledger fun id => deliveries id + if key = id then 1 else 0 := by
  have hfresh := h.looked key rfl
  have hnone : ∀ id, ledger.wasDelivered id = false → deliveries id = 0 :=
    fun id hid => h.unknown id hid (by simp)
  refine ⟨by simp, fun id hid => ?_, fun id hid => ?_, fun id hid hne => ?_⟩
  · cases hid
    exact ⟨hfresh, by simp [hnone key hfresh]⟩
  · have hne : key ≠ id := by
      rintro rfl
      rw [hfresh] at hid
      cases hid
    simpa [hne] using h.known id hid
  · have hne : key ≠ id := fun heq => hne (congrArg Phase.sent heq)
    simpa [hne] using hnone id hid

/-- The mark makes up for the message. -/
theorem mark {key : String} (h : Accounts (.sent key) ledger deliveries) :
    Accounts .idle (ledger.markDelivered key) deliveries := by
  refine ⟨by simp, by simp, fun id hid => ?_, fun id hid _ => ?_⟩
  · rw [InMemoryDeliveryLedger.wasDelivered_markDelivered, Bool.or_eq_true,
      decide_eq_true_iff] at hid
    rcases hid with rfl | hid
    · exact (h.sent id rfl).2
    · exact h.known id hid
  · rw [InMemoryDeliveryLedger.wasDelivered_markDelivered, Bool.or_eq_false_iff,
      decide_eq_false_iff_not] at hid
    exact h.unknown id hid.2 fun heq => hid.1 (Phase.sent.inj heq).symm

variable [LowerCase]

/-- Every call that the phase allows keeps the accounts. -/
theorem after {w w' : AppWorld} (h : Accounts v w.ledger deliveries) {job : Job} {c : DigestCall}
    (hallows : v.Allows job c) {t : AppChoice} {x : Except Thrown c.Answer}
    (hact : AppWorld.act t (.digest job c) w = some (x, w')) :
    Accounts (v.after ⟨c, x⟩) w'.ledger fun id =>
      deliveries id + if AppEvent.delivers id ⟨.digest job c, x⟩ then 1 else 0 := by
  cases c with
  | wasDelivered key =>
    obtain ⟨rfl, rfl⟩ := Prod.mk.inj (Option.some.inj hact)
    cases hledger : w.ledger.wasDelivered key with
    | true =>
      have hsame : v.after ⟨.wasDelivered key, .ok true⟩ = v := by cases v <;> rfl
      simpa [hsame, AppEvent.delivers] using h
    | false => exact h.look hallows.2 hledger
  | markDelivered key =>
    obtain ⟨rfl, rfl⟩ := Prod.mk.inj (Option.some.inj hact)
    obtain rfl : v = .sent key := hallows
    exact h.mark
  | notify text =>
    obtain rfl : v = .looked job.id := hallows
    cases ht : t.choice.throws with
    | some e =>
      simp only [AppWorld.act, ht] at hact
      obtain ⟨rfl, rfl⟩ := Prod.mk.inj (Option.some.inj hact)
      exact h
    | none =>
      simp only [AppWorld.act, ht] at hact
      obtain ⟨rfl, rfl⟩ := Prod.mk.inj (Option.some.inj hact)
      simpa [AppEvent.delivers, Phase.after] using h.send
  | fetchTodayArticles | buildGroupedDigest _ | log _ | dateNow | setTimeout _ | clearTimeout =>
    obtain ⟨rfl, -⟩ : w' = w ∧ _ := (AppWorld.act_digest hact).resolve_right (by simp)
    have hsame : v.after ⟨_, x⟩ = v := by cases v <;> rfl
    simpa [hsame, AppEvent.delivers] using h

end Accounts

/-- Ticks run with the overrun guard. -/
def ServiceRequest.Guarded (q : ServiceRequest) : Prop := q ≠ .tick false

instance : DecidablePred ServiceRequest.Guarded
  | .http _ _ => .isTrue nofun
  | .tick true => .isTrue nofun
  | .tick false => .isFalse fun h => h rfl

/-- How many messages have been accepted for jobs with this id. -/
def deliveries (trace : List AppEntry) (id : String) : ℕ :=
  trace.countP fun e => AppEvent.delivers id e.event

variable [LowerCase] {processor : JobProcessor} {s : Store} {trace before : List AppEntry}
  {e : AppEntry} {w : AppWorld}

abbrev App.Valid (processor : JobProcessor) (s : Store) : List AppEntry → AppWorld → Prop :=
  Async.Valid ServiceRequest.Guarded AppWorld.act (AppCalls processor) ⟨⟨s, false⟩, .empty⟩

abbrev App.Occurs (processor : JobProcessor) (s : Store) : List AppEntry → AppEntry → Prop :=
  Async.Occurs ServiceRequest.Guarded AppWorld.act (AppCalls processor) ⟨⟨s, false⟩, .empty⟩

/-- At most one tick of the application is inside. -/
theorem App.Valid.exclusion (h : App.Valid processor s trace w) :
    (∀ i, InsideAppTick (history i trace) → w.world.isTickRunning = true) ∧
    ∀ i j, InsideAppTick (history i trace) → InsideAppTick (history j trace) → i = j := by
  refine Async.Valid.exclusion (fun w => w.world.isTickRunning) ?_ ?_ ?_ h
  · rintro before e hocc ⟨skipGuardEnabled, he⟩
    have hguar := hocc.guar
    obtain ⟨t, hact⟩ := hocc.act
    rw [he] at hguar hact
    obtain ⟨-, h, -, hcalls⟩ := hguar
    have hskip : skipGuardEnabled = true := by
      cases skipGuardEnabled with
      | true => rfl
      | false => exact absurd (ServiceRequest.Calls.beginTick hcalls) hocc.allowed
    subst hskip
    obtain ⟨hanswer, hafter⟩ := Prod.mk.inj (Option.some.inj (AppWorld.act_effect hact).1)
    exact ⟨by simpa using hanswer, by rw [← hafter]⟩
  · rintro before e hocc - hleaves hflag
    obtain ⟨t, hact⟩ := hocc.act
    obtain ⟨i, q, ⟨c, x⟩, w, w'⟩ := e
    cases c with
    | digest job c => rwa [AppWorld.act_digest_world hact]
    | effect c =>
      obtain ⟨hact, -⟩ := AppWorld.act_effect hact
      by_cases hbegin : ∃ skipGuardEnabled, c = .beginTick skipGuardEnabled
      · obtain ⟨skipGuardEnabled, rfl⟩ := hbegin
        rw [← (Prod.mk.inj (Option.some.inj hact)).2]
      · rwa [World.act_isTickRunning hact (fun g hg => hbegin ⟨g, hg⟩)
          fun hend => hleaves (congrArg AppCall.effect hend)]
  · rintro before e hocc hleaves
    have hguar := hocc.guar
    rw [show e.event.call = .effect .endTick from hleaves] at hguar
    obtain ⟨-, h, hm, hcalls⟩ := hguar
    exact hm.insideTick (ServiceRequest.Calls.endTick hcalls)

/-- The accounts of a run: whoever is in the middle of a message is inside its tick, what is known
to be out is in the ledger, and the ledger and the phases account for the messages. -/
structure Accounted (trace : List AppEntry) (w : AppWorld) : Prop where
  inside : ∀ i, phase (history i trace) ≠ .idle → InsideAppTick (history i trace)
  marked : ∀ i job, KnownIn job (history i trace) → w.ledger.wasDelivered job.id = true
  accounts : ∀ i, (∀ j, j ≠ i → phase (history j trace) = .idle) →
    Accounts (phase (history i trace)) w.ledger (deliveries trace)

theorem AppWorld.act_ledger {t : AppChoice} {c : AppCall} {w w' : AppWorld}
    {x : Except Thrown c.Answer} (h : AppWorld.act t c w = some (x, w')) {key : String}
    (hkey : w.ledger.wasDelivered key = true) : w'.ledger.wasDelivered key = true := by
  cases c with
  | effect c => rwa [(AppWorld.act_effect h).2]
  | digest job c => rcases AppWorld.act_digest h with ⟨rfl, -⟩ | ⟨key', -, rfl⟩ <;> simp [hkey]

/-- Whoever learns that a message is out finds it in the ledger. -/
theorem AppWorld.act_known {t : AppChoice} {c : AppCall} {w w' : AppWorld} {job : Job}
    {x : Except Thrown c.Answer} (h : AppWorld.act t c w = some (x, w'))
    (hknown : KnownIn job [⟨c, x⟩]) : w'.ledger.wasDelivered job.id = true := by
  rcases hknown with hmem | hmem <;> cases List.mem_singleton.mp hmem
  · obtain ⟨hx, rfl⟩ := Prod.mk.inj (Option.some.inj h)
    exact Except.ok.inj hx
  · obtain ⟨-, rfl⟩ := Prod.mk.inj (Option.some.inj h)
    simp

omit [LowerCase] in
theorem deliveries_snoc (trace : List AppEntry) (e : AppEntry) :
    deliveries (trace ++ [e]) = fun id =>
      deliveries trace id + if AppEvent.delivers id e.event then 1 else 0 := by
  funext id
  rw [deliveries, List.countP_append, List.countP_singleton]
  rfl

section Step

variable (hocc : App.Occurs processor s before e) (h : Accounted before e.before)

include hocc h

theorem Accounted.marked_snoc (i : ℕ) (job : Job)
    (hknown : KnownIn job (history i (before ++ [e]))) :
    e.after.ledger.wasDelivered job.id = true := by
  obtain ⟨t, hact⟩ := hocc.act
  have hold : KnownIn job (history i before) → e.after.ledger.wasDelivered job.id = true :=
    fun hknown => AppWorld.act_ledger hact (h.marked i job hknown)
  rw [history_append, history_singleton] at hknown
  split at hknown
  · rcases hknown with hmem | hmem <;> rcases List.mem_append.mp hmem with hmem | hmem
    · exact hold (.inl hmem)
    · exact AppWorld.act_known hact (.inl hmem)
    · exact hold (.inr hmem)
    · exact AppWorld.act_known hact (.inr hmem)
  · rw [List.append_nil] at hknown
    exact hold hknown

/-- Who is at work is alone. -/
theorem Accounted.alone {i : ℕ} (hin : InsideAppTick (history i before)) {j : ℕ} (hj : j ≠ i) :
    phase (history j before) = .idle := by
  by_contra hne
  exact hj ((App.Valid.exclusion hocc.valid).2 j i (h.inside j hne) hin)

/-- A call of the service says nothing about messages; at the ends of a tick nobody is at work. -/
theorem Accounted.effect {c : Effect} {x : Except Thrown c.Answer}
    (he : e.event = ⟨.effect c, x⟩) : Accounted (before ++ [e]) e.after := by
  obtain ⟨t, hact⟩ := hocc.act
  have hguar := hocc.guar
  rw [he] at hguar hact
  obtain ⟨hidle, -⟩ := hguar
  have hledger := (AppWorld.act_effect hact).2
  have hdeliveries : deliveries (before ++ [e]) = deliveries before := by
    rw [deliveries_snoc, he]
    rfl
  have hother : ∀ i, i ≠ e.fiber → phase (history i (before ++ [e])) = phase (history i before) :=
    fun i hi => by rw [history_append, history_singleton, if_neg (Ne.symm hi), List.append_nil]
  have hself : history e.fiber (before ++ [e]) = history e.fiber before ++ [⟨.effect c, x⟩] := by
    rw [history_append, history_singleton, if_pos rfl, he]
  have hphase := (phase (history e.fiber before)).afterCall_effect c x
  rw [← phase_snoc, ← hself] at hphase
  refine ⟨fun i hi => ?_, Accounted.marked_snoc hocc h, fun i hi => ?_⟩
  · by_cases hfiber : i = e.fiber
    · subst hfiber
      have hsame := hphase.resolve_right hi
      rw [hself]
      refine (h.inside _ (hsame ▸ hi)).snoc fun hleaves => hi ?_
      rw [hself, phase_snoc]
      cases AppCall.effect.inj hleaves
      rfl
    · rw [hother i hfiber] at hi
      rw [history_append, history_singleton, if_neg (Ne.symm hfiber), List.append_nil]
      exact h.inside i hi
  · rw [hledger, hdeliveries]
    by_cases hat : phase (history e.fiber before) = .idle
    · -- nobody's phase changes
      have hsame : ∀ j, phase (history j (before ++ [e])) = phase (history j before) := fun j => by
        by_cases hj : j = e.fiber
        · subst hj
          exact hphase.elim id fun h => h.trans hat.symm
        · exact hother j hj
      rw [hsame i]
      exact h.accounts i fun j hj => (hsame j).symm.trans (hi j hj)
    · have halone := fun j => Accounted.alone hocc h (h.inside _ hat) (j := j)
      have haccounts := h.accounts e.fiber halone
      by_cases hfiber : i = e.fiber
      · subst hfiber
        rcases hphase with hphase | hphase <;> rw [hphase]
        · exact haccounts
        · exact haccounts.stop hidle
      · rw [hother i hfiber, halone i hfiber]
        exact haccounts.stop hidle

/-- A call of the processor is made inside its tick, where nobody else is at work. -/
theorem Accounted.digest {job : Job} {c : DigestCall} {x : Except Thrown c.Answer}
    (he : e.event = ⟨.digest job c, x⟩) : Accounted (before ++ [e]) e.after := by
  obtain ⟨t, hact⟩ := hocc.act
  have hguar := hocc.guar
  rw [he] at hguar hact
  have hin := AtWork.inside hguar
  have halone := fun j => Accounted.alone hocc h hin (j := j)
  have hother : ∀ i, i ≠ e.fiber → phase (history i (before ++ [e])) = .idle := fun i hi => by
    rw [history_append, history_singleton, if_neg (Ne.symm hi), List.append_nil]
    exact halone i hi
  have hself : history e.fiber (before ++ [e]) =
      history e.fiber before ++ [⟨.digest job c, x⟩] := by
    rw [history_append, history_singleton, if_pos rfl, he]
  have haccounts : Accounts (phase (history e.fiber (before ++ [e]))) e.after.ledger
      (deliveries (before ++ [e])) := by
    rw [hself, phase_snoc, deliveries_snoc, he]
    exact (h.accounts e.fiber halone).after (AtWork.allowed hguar) hact
  refine ⟨fun i hi => ?_, Accounted.marked_snoc hocc h, fun i hi => ?_⟩
  · by_cases hfiber : i = e.fiber
    · subst hfiber
      rw [hself]
      exact hin.snoc fun hleaves => by cases hleaves
    · exact absurd (hother i hfiber) hi
  · by_cases hfiber : i = e.fiber
    · subst hfiber
      exact haccounts
    · rw [hother i hfiber, ← hi e.fiber (Ne.symm hfiber)]
      exact haccounts

end Step

section

variable [ClassValidator ℚ] [Http.ValidationMessages] {supportedJobTypes : SupportedJobTypes}
  {p : App}

theorem App.Reachable.valid
    (h : App.Reachable processor supportedJobTypes ServiceRequest.Guarded s p) :
    App.Valid processor s p.trace p.state :=
  (Pool.Reachable.conforming h fun q _ => app_conforms supportedJobTypes q).valid

omit [LowerCase] [ClassValidator ℚ] [Http.ValidationMessages] in
/-- Two ticks without the guard send two messages. -/
example :
    letI := LowerCase.ascii
    letI := ClassValidator.codePoints ℚ
    letI : Http.ValidationMessages := ⟨fun _ _ => []⟩
    ∃ p, App.Reachable digestProcessor ⟨fun _ => true, []⟩ (fun _ => True) Store.onePending p ∧
      deliveries p.trace "1" = 2 := by
  let _ := LowerCase.ascii
  let _ := ClassValidator.codePoints ℚ
  let _ : Http.ValidationMessages := ⟨fun _ _ => []⟩
  let go (n i : ℕ) : List (Async.Pool.Move ServiceRequest AppChoice) := List.replicate n (.resume i
    ⟨.quiet, [⟨"title", "snippet", "link"⟩], [⟨"topic", "summary", ["headline"]⟩]⟩)
  exact Async.Pool.exists_reachable
    (.start (.tick false) :: .start (.tick false) :: go 5 0 ++ go 5 1 ++ go 7 0 ++ go 7 1) _ _
    (by decide +kernel)

end

end JobManager
