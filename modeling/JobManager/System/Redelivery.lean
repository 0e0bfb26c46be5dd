import JobManager.System.Deliveries
import JobManager.System.Durability

/-! Messages over restarts. The ledger is lost in a crash; what keeps a message from being sent
again is the status that the crash has left in the file. -/
namespace JobManager

open Async Http KeyedList

/-- A message for this job has been handed to the notifier. -/
def AppEvent.notifies (id : String) : AppEvent → Bool
  | ⟨.digest job (.notify _), _⟩ => job.id = id
  | _ => false

theorem AppEvent.notifies_iff {id : String} {event : AppEvent} : event.notifies id = true ↔
    ∃ job text, job.id = id ∧ event.call = .digest job (.notify text) := by
  obtain ⟨c, x⟩ := event
  refine ⟨fun h => ?_, ?_⟩
  · unfold notifies at h
    split at h
    · next job text _ heq =>
      exact ⟨job, text, of_decide_eq_true h, congrArg Event.call heq⟩
    · cases h
  · rintro ⟨job, text, rfl, rfl⟩
    exact decide_eq_true rfl

/-- The id is taken, and its job is none that a tick will list. -/
structure Store.Settled (s : Store) (id : String) : Prop where
  issued : id ∈ s.issued
  status : ∀ job, stored s.jobs id = some job → job.status = .processing ∨ job.status = .completed

theorem Leads.completed {status : JobStatus} (h : Relation.ReflTransGen Leads .completed status) :
    status = .completed := by
  induction h with
  | refl => rfl
  | tail _ hleads ih =>
    subst ih
    cases hleads

theorem ServiceRequest.Calls.listByStatus {q : ServiceRequest} {h : List Call} {status : JobStatus}
    {limit : ℤ} (hq : q.Calls h (.repository (.listByStatus status limit))) :
    (progress h).Allows (.repository (.listByStatus status limit)) := by
  cases q with
  | http path r =>
    cases r with
    | patch id body => rcases hq with hq | ⟨_, hq⟩ <;> cases hq
    | create body | list | search query | getById id | remove id => cases hq
  | tick _ => exact hq.1

variable [LowerCase]

/-- A batch answers with jobs that it has been asked for. -/
theorem World.act_withBatch {t : Choice} {ids : List String} {target : JobStatus} {w w' : World}
    {result : BatchResult}
    (h : World.act t (.repository (.withBatch ids target)) w = some (.ok result, w')) {job : Job}
    (hjob : job ∈ result.committed) : job.id ∈ ids := by
  rcases World.act_repository h with ⟨_, hx, -⟩ | ⟨hf, hx, -⟩
  · cases hx
  · obtain rfl := Except.ok.inj hx
    have hids := withBatch_committed_ids t.stamp w.store.distinct ids target
    exact List.mem_of_mem_filter (hids ▸ List.mem_map_of_mem hjob)

/-- A listing answers with jobs that are stored with the status. -/
theorem World.act_listByStatus {t : Choice} {status : JobStatus} {limit : ℤ} {w w' : World}
    {jobs : List Job}
    (h : World.act t (.repository (.listByStatus status limit)) w = some (.ok jobs, w'))
    {job : Job} (hjob : job ∈ jobs) : job ∈ w.store.jobs ∧ job.status = status := by
  rcases World.act_repository h with ⟨_, hx, -⟩ | ⟨hf, hx, -⟩
  · cases hx
  · obtain rfl := Except.ok.inj hx
    have hlisted : job ∈ w.store.jobs.filter fun job => job.status = status := by
      change job ∈ slicePrefix _ limit at hjob
      unfold slicePrefix at hjob
      split at hjob <;> exact List.mem_of_mem_take hjob
    obtain ⟨hmem, hstatus⟩ := List.mem_filter.mp hlisted
    exact ⟨hmem, of_decide_eq_true hstatus⟩

section

variable {allowed : ServiceRequest → Prop} {s : Store} {before segment : List ServiceEntry}
  {w w' : World}

theorem Service.Valid.issued_subset
    (h₀ : Async.Valid allowed World.act ServiceRequest.Calls ⟨s, false⟩ before w)
    (h : Async.Valid allowed World.act ServiceRequest.Calls ⟨s, false⟩ (before ++ segment) w') :
    w.store.issued ⊆ w'.store.issued := by
  refine h₀.segment_induction (motive := fun w' _ => w.store.issued ⊆ w'.store.issued)
    (List.Subset.refl _) ?_ h
  rintro segment e hocc hsub
  exact fun id hid => Service.Occurs.issued_subset hocc (hsub hid)

end

variable [ClassValidator ℚ] [Http.ValidationMessages] {processor : JobProcessor}
  {supportedJobTypes : SupportedJobTypes} {allowed : ServiceRequest → Prop} {s : Store}
  {id : String}

/-- A job that nobody owns or that is completed stays so, or is deleted for good. -/
theorem Service.Reachable.settled {p : Service}
    (h : Service.Reachable supportedJobTypes allowed s p) (hs : s.Settled id) :
    p.state.store.Settled id := by
  have hvalid := h.conforming.valid
  refine ⟨Service.Valid.issued_subset .nil hvalid hs.issued, fun job' hjob' => ?_⟩
  cases hjob : stored s.jobs id with
  | none =>
    have hgone : id ∉ s.ids := (s.stored_eq_none id).mp hjob
    have hgone' := (Service.Valid.stays_gone .nil hvalid hs.issued hgone).2
    exact absurd ((p.state.store.stored_isSome id).mp (by simp [hjob'])) hgone'
  | some job =>
    obtain rfl := lookup_key hjob
    rcases hs.status job hjob with hstatus | hstatus
    · obtain ⟨job'', hjob'', hstatus'', -⟩ := h.orphaned hjob hstatus
      obtain rfl := Option.some.inj (hjob'.symm.trans hjob'')
      exact .inl hstatus''
    · have hfollows := (Service.Valid.follows .nil hvalid hjob hjob').status
      rw [hstatus] at hfollows
      exact .inr (Leads.completed hfollows)

theorem App.Reachable.settled {p : App}
    (h : App.Reachable processor supportedJobTypes allowed s p) (hs : s.Settled id) :
    p.state.world.store.Settled id := by
  obtain ⟨p', hp', hstate, -⟩ := app_refines_service h
  rw [← hstate]
  exact hp'.settled hs

/-- A tick claims what it has listed as `pending`. -/
theorem App.Reachable.listed {p : App} (h : App.Reachable processor supportedJobTypes allowed s p)
    {i : ℕ} {job : Job} (hclaimed : ClaimedIn job (history i p.trace)) :
    ∃ e ∈ p.trace, ∃ job', stored e.before.world.store.jobs job.id = some job' ∧
      job'.status = .pending := by
  have hvalid := (Pool.Reachable.conforming h fun q _ => app_conforms supportedJobTypes q).valid
  obtain ⟨ids, result, hmem, hjob⟩ := hclaimed
  obtain ⟨e, he, -, hevent⟩ := mem_of_mem_history hmem
  obtain ⟨before, after, htrace⟩ := List.append_of_mem he
  have hocc := hvalid.occurs htrace
  have hguar := hocc.guar
  obtain ⟨t, hact⟩ := hocc.act
  rw [hevent] at hguar hact
  obtain ⟨-, calls, hm, hcalls⟩ := hguar
  obtain ⟨candidates, -, rfl, hprogress⟩ := ServiceRequest.Calls.withBatch hcalls
  have hid : job.id ∈ candidates.map Job.id :=
    World.act_withBatch (AppWorld.act_effect hact).1 hjob
  -- the listing, earlier in the same tick
  obtain ⟨status, limit, hlisting⟩ :=
    mem_listings (show candidates ∈ (progress calls).listings by simp [hprogress])
  obtain ⟨e₀, he₀, -, hevent₀⟩ := mem_of_mem_history
    ((hm.same _ _ (by simp)).mp hlisting)
  obtain ⟨_, hocc₀⟩ := hocc.valid.mem he₀
  have hguar₀ := hocc₀.guar
  obtain ⟨t₀, hact₀⟩ := hocc₀.act
  rw [hevent₀] at hguar₀ hact₀
  obtain ⟨-, _, -, hcalls₀⟩ := hguar₀
  obtain ⟨rfl, rfl, -⟩ := ServiceRequest.Calls.listByStatus hcalls₀
  refine ⟨e₀, by simp [htrace, he₀], ?_⟩
  obtain ⟨job', hjob', hid'⟩ := List.mem_map.mp hid
  obtain ⟨hmem', hpending⟩ := World.act_listByStatus (AppWorld.act_effect hact₀).1 hjob'
  exact ⟨job', hid' ▸ e₀.before.world.store.stored_of_mem hmem', hpending⟩

/-- A message is for a job that was `pending` earlier in the run. -/
theorem App.Reachable.notified {p : App} (h : App.Reachable processor supportedJobTypes allowed s p)
    {e : AppEntry} (he : e ∈ p.trace) (hnotifies : AppEvent.notifies id e.event = true) :
    ∃ e₀ ∈ p.trace, ∃ job, stored e₀.before.world.store.jobs id = some job ∧
      job.status = .pending := by
  have hp := Pool.Reachable.conforming h fun q _ => app_conforms supportedJobTypes q
  obtain ⟨job, text, rfl, hcall⟩ := AppEvent.notifies_iff.mp hnotifies
  obtain ⟨before, after, htrace⟩ := List.append_of_mem he
  have hguar := (hp.valid.occurs htrace).guar
  rw [hcall] at hguar
  obtain ⟨ids, result, hmem, hjob⟩ := AtWork.claimed hguar
  refine h.listed (i := e.fiber) ⟨ids, result, ?_, hjob⟩
  rw [htrace, history_append]
  exact List.mem_append_left _ hmem

omit [ClassValidator ℚ] [Http.ValidationMessages] in
theorem AppWorld.act_issued {t : AppChoice} {c : AppCall} {w w' : AppWorld}
    {x : Except Thrown c.Answer} (h : AppWorld.act t c w = some (x, w')) :
    w.world.store.issued ⊆ w'.world.store.issued := by
  cases c with
  | digest job c =>
    rw [AppWorld.act_digest_world h]
    exact List.Subset.refl _
  | effect c =>
    obtain ⟨hact, -⟩ := AppWorld.act_effect h
    by_cases hc : ∃ op, c = .repository op
    · obtain ⟨op, rfl⟩ := hc
      rcases World.act_repository hact with ⟨_, -, heq⟩ | ⟨hf, -, heq⟩ <;> rw [heq]
      · exact List.Subset.refl _
      · exact List.subset_append_left _ _
    · rw [World.act_store hact fun op hop => hc ⟨op, hop⟩]
      exact List.Subset.refl _

/-- A message names a job whose id is taken. -/
theorem App.Reachable.issued {p : App} (h : App.Reachable processor supportedJobTypes allowed s p)
    {e : AppEntry} (he : e ∈ p.trace) (hnotifies : AppEvent.notifies id e.event = true) :
    id ∈ p.state.world.store.issued := by
  have hvalid := (Pool.Reachable.conforming h fun q _ => app_conforms supportedJobTypes q).valid
  obtain ⟨e₀, he₀, job, hjob, -⟩ := h.notified he hnotifies
  obtain ⟨before, after, htrace⟩ := List.append_of_mem he₀
  have h₀ := (hvalid.occurs htrace).valid
  have hid : id ∈ e₀.before.world.store.issued := e₀.before.world.store.ids_subset_issued
    ((e₀.before.world.store.stored_isSome id).mp (by simp [hjob]))
  rw [htrace] at hvalid
  refine h₀.segment_induction (motive := fun w' _ => id ∈ w'.world.store.issued) hid ?_ hvalid
  rintro segment e hocc hid
  obtain ⟨t, hact⟩ := hocc.act
  exact AppWorld.act_issued hact hid

omit [LowerCase] [ClassValidator ℚ] [Http.ValidationMessages] in
theorem QueuedApp.SeenAs.deliveries {p' : QueuedApp} {p : App} (h : p'.SeenAs p) (id : String) :
    p'.trace.countP (fun entry => AppEvent.delivers id entry.2) = deliveries p.trace id := by
  rw [← h.calls, List.countP_map, List.countP_filter]
  refine List.countP_congr fun e _ => ?_
  obtain ⟨i, q, ⟨c, x⟩, w, w'⟩ := e
  cases c with
  | effect c => simp [AppEvent.delivers]
  | digest job c => simp [AppCall.enqueues]

section

variable {later : ServiceRequest → Prop} {plan : ℕ → ℕ → Environment (Option Fault)}
  {seed file file' : Option (List Job)} {n m : ℕ}

/-- What has settled when a process is started is so for every later one. -/
theorem Restarts.settled (hclean : ∀ k i, (plan k i).Clean)
    (hids : NewIds plan ((seed.getD []).map Job.id)) (hs : Inherits plan seed n file s)
    (hsettled : s.Settled id)
    (h : Restarts processor supportedJobTypes later (fun k => plan (n + k)) file m file') :
    ∃ s', Inherits plan seed (n + m) file' s' ∧ s'.Settled id := by
  induction h with
  | zero => exact ⟨s, hs, hsettled⟩
  | succ h p hp ih =>
    obtain ⟨s₁, hs₁, hsettled₁⟩ := ih
    obtain ⟨p', hp', -, hinherits⟩ := hs₁.app hclean hids hp
    exact ⟨_, hinherits, hp'.settled hsettled₁⟩

end

end JobManager
