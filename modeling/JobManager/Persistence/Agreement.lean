import JobManager.Persistence.InMemory

/-! Sequences of calls made of both repositories, with the same generated ids. -/
namespace JobManager

open KeyedList

/-- One call made of both repositories: the id both draw, and what the clock and the logger of
each give it. -/
structure PairedCall where
  op : RepoOp
  uuid : String
  enqueuedAt : ℤ
  startedAt : ℤ
  endedAt : ℤ
  now : String
  log : Option Thrown
  clock : ℕ → String

namespace PairedCall

/-- node-json-db answers all calls. -/
def environment (c : PairedCall) : Environment (Option Fault) where
  startedAt := c.startedAt
  endedAt := c.endedAt
  stamp := ⟨c.uuid, c.now⟩
  jobsExist := none
  pushInitial := none
  getData := none
  push := none
  log := c.log

def readings (c : PairedCall) : Readings := ⟨c.uuid, c.clock⟩

def issues (c : PairedCall) : List String := c.op.issues ⟨c.uuid, c.now⟩

end PairedCall

/-- What a repository shows at one call: its answer, and what `list` answers after it, both
without the times of the clock. -/
structure Outcomes where
  op : RepoOp
  answer : Except Thrown op.Result
  listed : Except Thrown (List Job)

variable [LowerCase]

namespace Instance

def outcomes : List PairedCall → Instance JsonFile → List Outcomes
  | [], _ => []
  | c :: calls, w =>
    let (answer, w') := run saveOnPush c.environment ⟨c.op, c.enqueuedAt⟩ w
    ⟨c.op, answer.map c.op.untimed, w'.listed.map (RepoOp.untimed .list)⟩ :: outcomes calls w'

end Instance

def InMemoryJobRepository.outcomes : List PairedCall → InMemoryJobRepository → List Outcomes
  | [], _ => []
  | c :: calls, r =>
    let (answer, r') := r.run c.readings c.op
    ⟨c.op, .ok (c.op.untimed answer), .ok (RepoOp.untimed .list r'.list)⟩ :: outcomes calls r'

theorem Instance.outcomes_cons (c : PairedCall) (calls : List PairedCall)
    (w : Instance JsonFile) :
    let x := run saveOnPush c.environment ⟨c.op, c.enqueuedAt⟩ w
    Instance.outcomes (c :: calls) w = ⟨c.op, x.1.map c.op.untimed,
      x.2.listed.map (RepoOp.untimed .list)⟩ :: Instance.outcomes calls x.2 := rfl

theorem InMemoryJobRepository.outcomes_cons (c : PairedCall) (calls : List PairedCall)
    (r : InMemoryJobRepository) :
    let x := r.run c.readings c.op
    r.outcomes (c :: calls) = ⟨c.op, .ok (c.op.untimed x.1),
      .ok (RepoOp.untimed .list x.2.list)⟩ :: x.2.outcomes calls := rfl

omit [LowerCase] in
theorem fresh_of_notMem {op : RepoOp} {stamp : Stamp} {ids : List String}
    (h : ∀ id ∈ op.issues stamp, id ∉ ids) : op.Fresh stamp ids := by
  rintro data rfl
  exact h _ (List.mem_singleton_self _)

/-- The ids after an operation are among those before it and the one it issues. -/
theorem keys_run_sublist {jobs : List Job} (h : Distinct Job.id jobs) (stamp : Stamp)
    (op : RepoOp) : List.Sublist ((op.run stamp jobs).2.map Job.id)
      (jobs.map Job.id ++ op.issues stamp) := by
  rw [keys_run stamp h]
  cases op with
  | create data => exact List.Sublist.refl _
  | delete id =>
    simp only [RepoOp.keysEffect, RepoOp.issues, List.append_nil]
    split
    · exact List.filter_sublist
    · exact List.Sublist.refl _
  | findById _ | list | search _ | listByStatus _ _ | withTransition _ _ _ | withBatch _ _ =>
    exact List.sublist_append_left _ _

/-- The two repositories hold the same jobs, up to the times of the clock. -/
structure Agree (w : Instance JsonFile) (r : InMemoryJobRepository) : Prop where
  sound : w.Sound
  same : ∃ jobs, InsertionMap.Indexes Job.id r.jobs jobs ∧
    jobs.map Job.untimed = w.jobs.map Job.untimed

namespace Agree

variable {w : Instance JsonFile} {r : InMemoryJobRepository}

omit [LowerCase] in
theorem keys {jobs : List Job} (h : jobs.map Job.untimed = w.jobs.map Job.untimed) :
    jobs.map Job.id = w.jobs.map Job.id := by
  rw [← untimed_keys, h, untimed_keys]

theorem listed (h : Agree w r) : w.listed.map (RepoOp.untimed .list) =
    .ok (RepoOp.untimed .list r.list) := by
  obtain ⟨jobs, hindexes, hsame⟩ := h.same
  rw [w.listed_eq h.sound, InMemoryJobRepository.list, hindexes.values_eq]
  exact congrArg Except.ok hsame.symm

/-- One call made of both. -/
theorem step (h : Agree w r) (c : PairedCall)
    (hfresh : ∀ id ∈ c.issues, id ∉ w.jobs.map Job.id) :
    let theirs := Instance.run saveOnPush c.environment ⟨c.op, c.enqueuedAt⟩ w
    let mine := r.run c.readings c.op
    theirs.1.map c.op.untimed = .ok (c.op.untimed mine.1) ∧ Agree theirs.2 mine.2 ∧
      theirs.2.jobs = (c.op.run ⟨c.uuid, c.now⟩ w.jobs).2 := by
  obtain ⟨jobs, hindexes, hsame⟩ := h.same
  have hkeys := keys hsame
  have hdistinct : Distinct Job.id w.jobs := by
    rw [Distinct, ← hkeys]
    exact hindexes.distinct
  obtain ⟨w', hrun, hjobs, hsound⟩ := Instance.run_answered c.environment w rfl rfl rfl rfl
    h.sound ⟨c.op, c.enqueuedAt⟩
  obtain ⟨hanswer, jobs', hindexes', hsame'⟩ := InMemoryJobRepository.run_indexes hindexes
    c.readings c.now c.op (fresh_of_notMem (hkeys ▸ hfresh))
  -- both answers are those of the operation on the jobs without times
  obtain ⟨hmine, hmine'⟩ := run_untimed hindexes.distinct ⟨c.uuid, c.now⟩ c.op
  obtain ⟨htheirs, htheirs'⟩ := run_untimed hdistinct ⟨c.uuid, c.now⟩ c.op
  rw [hsame] at hmine hmine'
  dsimp only
  rw [hrun]
  refine ⟨congrArg Except.ok ?_, ⟨hsound, jobs', hindexes', ?_⟩, hjobs⟩
  · exact (htheirs.trans hmine.symm).trans hanswer.symm
  · rw [hjobs]
    exact (hsame'.trans hmine').trans htheirs'.symm

theorem outcomes (h : Agree w r) (calls : List PairedCall)
    (hids : (w.jobs.map Job.id ++ calls.flatMap PairedCall.issues).Nodup) :
    Instance.outcomes calls w = InMemoryJobRepository.outcomes calls r := by
  induction calls generalizing w r with
  | nil => rfl
  | cons c calls ih =>
    rw [List.flatMap_cons, ← List.append_assoc] at hids
    obtain ⟨hold, -, hdisjoint⟩ := List.nodup_append.mp (List.nodup_append.mp hids).1
    obtain ⟨hanswer, hagree, hjobs⟩ := h.step c fun id hid hmem => hdisjoint id hmem id hid rfl
    have hrest := ih hagree (hids.sublist (by
      rw [hjobs]
      exact (keys_run_sublist hold _ _).append_right _))
    rw [Instance.outcomes_cons, InMemoryJobRepository.outcomes_cons, hanswer, hagree.listed, hrest]

end Agree

/-- The double of the unit tests stands for the repository over node-json-db: whatever is called,
both give the same answers and list the same jobs in the same order, up to the times of the
clock. A batch of the latter is one transition after the other. -/
theorem repositories_agree (file : Option (List Job)) (calls : List PairedCall)
    (hids : ((file.getD []).map Job.id ++ calls.flatMap PairedCall.issues).Nodup) :
    Instance.outcomes calls (Instance.onFile file false) =
        InMemoryJobRepository.outcomes calls (.seeded (file.getD [])) ∧
      ∀ jobs, Distinct Job.id jobs → ∀ ids target stamp now,
        let batch := (RepoOp.withBatch ids target).run stamp jobs
        let each := JsonDbJobRepository.transitionEach ids target now jobs
        batch.1.untimed = each.1.untimed ∧ batch.2.map Job.untimed = each.2.map Job.untimed := by
  have hdistinct : Distinct Job.id (file.getD []) := (List.nodup_append.mp hids).1
  have hagree : Agree (Instance.onFile file false) (.seeded (file.getD [])) :=
    ⟨nofun, file.getD [], InMemoryJobRepository.seeded_indexes hdistinct, rfl⟩
  refine ⟨hagree.outcomes calls hids, fun jobs h ids target stamp now => ?_⟩
  exact Prod.mk.inj (withBatch_eq_transitionEach h ids target stamp now)

omit [LowerCase] in
/-- A job is created, claimed twice in one batch and deleted. -/
theorem repositories_agree_claimTwice :
    letI := LowerCase.ascii
    let call : RepoOp → PairedCall := fun op => ⟨op, "1", 0, 0, 0, "t", none, fun _ => "u"⟩
    let calls := [call (.create ⟨"title", "text"⟩), call (.withBatch ["1", "2", "1"] .processing),
      call (.delete "1")]
    Instance.outcomes calls (Instance.onFile none false) =
      InMemoryJobRepository.outcomes calls (.seeded []) := by
  let _ := LowerCase.ascii
  intro call calls
  exact (repositories_agree none calls (by decide)).1

end JobManager
