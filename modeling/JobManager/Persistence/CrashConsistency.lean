import JobManager.Async.Interruption
import JobManager.Persistence.Refinement

/-! Processes that stop at any point. As a push puts the new array in the file at once and is
answered only then, a new process finds the operations of a prefix. -/
namespace JobManager

open Async

namespace Instance

variable {t : Environment (Option Fault)} {w w' : Instance JsonFile}

/-- The file holds what the tree in memory holds. -/
def Synced (w : Instance JsonFile) : Prop := w.db.memory = w.db.file

/-- A stop inside `ensureInitialized` leaves the jobs in place. -/
theorem ensureInitialized_stopped (ht : t.Clean) (hw : w.Synced)
    (h : Passes (act saveOnPush t) JsonDbJobRepository.ensureInitialized w w') :
    w'.Synced ∧ w'.jobs = w.jobs := by
  obtain ⟨⟨memory, file⟩, initialized⟩ := w
  obtain rfl : memory = file := hw
  cases initialized with
  | true =>
    simp [JsonDbJobRepository.ensureInitialized, perform_bind, act] at h
    subst h
    exact ⟨rfl, rfl⟩
  | false =>
    cases hexist : t.jobsExist with
    | some fault =>
      simp [JsonDbJobRepository.ensureInitialized, perform_bind, act, saveOnPush,
        hexist] at h
      subst h
      exact ⟨rfl, rfl⟩
    | none =>
      cases memory with
      | some jobs =>
        simp [JsonDbJobRepository.ensureInitialized, perform_bind, act, saveOnPush,
          hexist] at h
        rcases h with rfl | rfl <;> exact ⟨rfl, rfl⟩
      | none =>
        have hpush : t.pushInitial = none ∨ ∃ e, t.pushInitial = some (.rejects e) := by
          cases hpush : t.pushInitial with
          | none => exact .inl rfl
          | some fault =>
            cases fault with
            | writeFails e => exact absurd hpush (ht.pushInitial e)
            | rejects e => exact .inr ⟨e, rfl⟩
        rcases hpush with hpush | ⟨e, hpush⟩
        all_goals
          simp [JsonDbJobRepository.ensureInitialized, perform_bind, act, saveOnPush,
            hexist, hpush] at h
          rcases h with rfl | rfl | rfl <;> exact ⟨rfl, rfl⟩

theorem commit_stopped {α : Type} (ht : t.Clean) (outcome : Outcome α)
    (h : Passes (act saveOnPush t) (JsonDbJobRepository.commit outcome) w w') :
    w' = w ∨ ∃ next, outcome.2 = some next ∧ w' = w.saved next ∧
      (Async.eval (act saveOnPush t) (JsonDbJobRepository.commit outcome) w).1 =
        .ok outcome.1 := by
  obtain ⟨answer, _ | next⟩ := outcome
  · exact .inl h
  · cases hpush : t.push with
    | none =>
      simp [JsonDbJobRepository.commit, perform_bind, act, saveOnPush, hpush] at h
      refine h.imp_right fun h => ⟨next, rfl, h, ?_⟩
      rw [eval_commit, hpush]
    | some fault =>
      cases fault with
      | writeFails e => exact absurd hpush (ht.push e)
      | rejects e =>
        simp [JsonDbJobRepository.commit, perform_bind, act, saveOnPush, hpush] at h
        exact .inl h

theorem act_getData_state : (act saveOnPush t .getData w).2 = w := by
  unfold act saveOnPush
  cases t.getData <;> rfl

theorem act_getData {jobs : List Job} {w₁ : Instance JsonFile}
    (h : act saveOnPush t .getData w = (.ok jobs, w₁)) : w₁ = w ∧ w.jobs = jobs := by
  have hstate : (act saveOnPush t .getData w).2 = w := act_getData_state
  rw [h] at hstate
  refine ⟨hstate, ?_⟩
  obtain ⟨⟨memory, file⟩, initialized⟩ := w
  cases hget : t.getData <;> cases memory <;> simp [act, saveOnPush, hget] at h
  obtain ⟨rfl, -⟩ := h
  rfl

/-- The task of an operation has pushed the array it leaves, or nothing yet. -/
theorem task_stopped [LowerCase] (ht : t.Clean) (hw : w.Synced) (op : RepoOp)
    (h : Passes (act saveOnPush t) (JsonDbJobRepository.task op) w w') :
    w' = w ∨ w'.Synced ∧ w'.jobs = (op.run t.stamp w.jobs).2 ∧
      ∃ r, (Async.eval (act saveOnPush t) (JsonDbJobRepository.task op) w).1 = .ok r := by
  rcases h.bind with h | ⟨jobs, w₁, hget, h⟩
  · rcases (Passes.perform _).mp h with h | h
    · exact .inl h
    · exact .inl (h.trans act_getData_state)
  obtain ⟨rfl, rfl⟩ := act_getData hget
  rcases h.bind with h | ⟨stamp, w₂, hstamp, h⟩
  · exact .inl (((Passes.perform _).mp h).elim id id)
  obtain ⟨rfl, rfl⟩ : t.stamp = stamp ∧ w₁ = w₂ := by simpa [act] using hstamp
  rcases commit_stopped ht _ h with h | ⟨next, hnext, rfl, hok⟩
  · exact .inl h
  · refine .inr ⟨rfl, ?_, (op.body t.stamp w₁.jobs).1, ?_⟩
    · rw [RepoOp.run, hnext]
      rfl
    · rw [JsonDbJobRepository.task, eval_bind, hget]
      exact hok

/-- Wherever an operation is stopped, the file holds the jobs from before it or, where it is not
going to be rejected, those from after it. -/
theorem program_stopped [LowerCase] (ht : t.Clean) (hw : w.Synced) (q : Enqueued)
    (h : Passes (act saveOnPush t) q.program w w') :
    w'.Synced ∧ (w'.jobs = w.jobs ∨
      w'.jobs = (q.op.run t.stamp w.jobs).2 ∧ ∃ r, (run saveOnPush t q w).1 = .ok r) := by
  rcases h with rfl | h
  · exact ⟨hw, .inl rfl⟩
  have hbody : ∀ {w''}, Passes (act saveOnPush t) (JsonDbJobRepository.ensureInitialized >>=
      fun _ => JsonDbJobRepository.task q.op) w w'' → w''.Synced ∧ (w''.jobs = w.jobs ∨
        w''.jobs = (q.op.run t.stamp w.jobs).2 ∧ ∃ r, (run saveOnPush t q w).1 = .ok r) := by
    intro w'' h
    rcases h.bind with h | ⟨_, w₁, hinit, h⟩
    · exact (ensureInitialized_stopped ht hw h).imp_right .inl
    have hfinal : Passes (act saveOnPush t) JsonDbJobRepository.ensureInitialized w
        (Async.eval (act saveOnPush t) JsonDbJobRepository.ensureInitialized w).2 := .final _ w
    rw [hinit] at hfinal
    obtain ⟨hsynced, hjobs⟩ := ensureInitialized_stopped ht hw hfinal
    rcases task_stopped ht hsynced q.op h with rfl | ⟨hsynced', hjobs', r, hok⟩
    · exact ⟨hsynced, .inl hjobs⟩
    · refine ⟨hsynced', .inr ⟨by rw [hjobs', hjobs], r, ?_⟩⟩
      rw [run_eq, eval_bind, hinit]
      exact hok
  rcases Passes.tryFinally h with h | h
  · exact hbody h
  · -- measuring changes nothing
    let last := (Async.eval (act saveOnPush t) (JsonDbJobRepository.ensureInitialized >>=
      fun _ => JsonDbJobRepository.task q.op) w).2
    have hkeep : ∀ c s, (c = .endedAt ∨ ∃ event, c = .log event) → s = last →
        (act saveOnPush t c s).2 = last := by
      rintro c s (rfl | ⟨event, rfl⟩) hs <;> exact hs
    obtain rfl := h.keeps (· = last) (JsonDbJobRepository.measure_conforms _ _ _ []) hkeep rfl
    exact hbody (.final _ _)

end Instance

/-- A process that ran on the file: what its database calls were answered, and the operations
called on its repository when it stopped. -/
structure Life where
  plan : ℕ → Environment (Option Fault)
  queue : OperationQueue JsonFile

/-- The operation was rejected. -/
def rejected (l : Link DbCall.Answer Thrown Enqueued.Result) : Bool :=
  match l.run with
  | .settled (.error _) _ => true
  | _ => false

theorem settled_of_rejected {l : Link DbCall.Answer Thrown Enqueued.Result}
    (h : rejected l = true) : l.Settled := by
  unfold rejected at h
  split at h
  · next e tail hrun => exact ⟨.error e, tail, hrun⟩
  · cases h

/-- An operation with the id and the time it drew. -/
abbrev StampedOp := RepoOp × Stamp

def StampedOp.perform [LowerCase] (jobs : List Job) (x : StampedOp) : List Job :=
  (x.1.run x.2 jobs).2

namespace Life

/-- The operation that was called as number `i`, unless it was rejected. -/
def operation (life : Life) (i : ℕ) : Option StampedOp :=
  (life.queue.links[i]?.filter fun l => !rejected l).map fun l =>
    (l.request.op, (life.plan i).stamp)

/-- The first `n` operations in call order. -/
def operations (life : Life) (n : ℕ) : List StampedOp := (List.range n).filterMap life.operation

/-- The operations are those of a prefix with all promises settled so far. -/
def Keeps (life : Life) (kept : List StampedOp) : Prop :=
  ∃ n ≤ life.queue.links.length, (∀ (i : ℕ) l, life.queue.links[i]? = some l → l.Settled → i < n) ∧
    kept = life.operations n

end Life

variable [LowerCase]

/-- Processes one after the other on one file, each of them stopped anywhere. No write of the file
fails, though calls may be rejected before they have done anything. -/
inductive Lives (seed : Option (List Job)) : List Life → Option (List Job) → Prop where
  | nil : Lives seed [] seed
  | snoc {lives : List Life} {file : Option (List Job)} (h : Lives seed lives file) (life : Life)
      (hclean : ∀ i, (life.plan i).Clean)
      (hrun : OperationQueue.Reachable saveOnPush life.plan (Instance.onFile file false)
        life.queue) :
      Lives seed (lives ++ [life]) life.queue.state.db.file

namespace Life

variable {life : Life} {file : Option (List Job)}

omit [LowerCase] in
theorem operations_succ (n : ℕ) :
    life.operations (n + 1) = life.operations n ++ (life.operation n).toList := by
  rw [operations, List.range_succ, List.filterMap_append]
  cases h : life.operation n <;> simp [operations, h]

omit [LowerCase] in
/-- An operation that is not settled counts where its push has been made. -/
theorem operation_eq {n : ℕ} {l : Link DbCall.Answer Thrown Enqueued.Result}
    (h : life.queue.links[n]? = some l) : life.operation n =
      if rejected l then none else some (l.request.op, (life.plan n).stamp) := by
  rw [operation, h]
  cases hr : rejected l <;> simp [Option.filter, hr]

/-- The sequential execution of the first operations, all of them settled, performs them. -/
theorem sequential_performs (hclean : ∀ i, (life.plan i).Clean)
    (hrun : OperationQueue.Reachable saveOnPush life.plan (Instance.onFile file false) life.queue)
    {n : ℕ} (hn : n ≤ life.queue.links.length)
    (hsettled : ∀ (i : ℕ) l, life.queue.links[i]? = some l → i < n → l.Settled) :
    let x := (Instance.onFile file false).sequential saveOnPush life.plan
      (life.queue.requests.take n)
    x.state.Synced ∧
      x.state.jobs = (life.operations n).foldl StampedOp.perform (file.getD []) := by
  induction n with
  | zero => exact ⟨rfl, rfl⟩
  | succ n ih =>
    obtain ⟨hsynced, hjobs⟩ := ih (by omega) fun i l hi hlt => hsettled i l hi (by omega)
    have hl := List.getElem?_eq_getElem (show n < life.queue.links.length by omega)
    obtain ⟨q, previous, r, tail, heq⟩ := (hsettled n _ hl (by omega)).eq
    rw [heq] at hl
    have hq := SerialQueue.requests_getElem? hl
    have hresult := (SerialQueue.Reachable.simulates hrun).results n q previous r tail hl
    rw [List.take_add_one, hq, Option.toList_some, Instance.sequential_snoc,
      SerialQueue.length_take_requests hl, operations_succ, List.foldl_append, ← hjobs,
      operation_eq hl]
    let w := ((Instance.onFile file false).sequential saveOnPush life.plan
      (life.queue.requests.take n)).state
    have hresult' : (Instance.run saveOnPush (life.plan n) q w).1 = r := hresult
    refine ⟨(Instance.program_stopped (hclean n) hsynced q (.final _ _)).1, ?_⟩
    show (Instance.run saveOnPush (life.plan n) q w).2.jobs = _
    rcases Instance.run_atomic (life.plan n) w (hclean n).push (hclean n).pushInitial q with
      ⟨e, w', heval, hsame⟩ | ⟨w', heval, hstep⟩
    · rw [heval] at hresult' ⊢
      subst hresult'
      exact hsame
    · rw [heval] at hresult' ⊢
      subst hresult'
      exact hstep

/-- Wherever a process stops, the file holds what a prefix of its operations makes of the jobs it
found. -/
theorem exists_keeps (hclean : ∀ i, (life.plan i).Clean)
    (hrun : OperationQueue.Reachable saveOnPush life.plan (Instance.onFile file false)
      life.queue) : ∃ kept, life.Keeps kept ∧ life.queue.state.Synced ∧
        life.queue.state.jobs = kept.foldl StampedOp.perform (file.getD []) := by
  obtain ⟨n, hn, hsettled, hstate⟩ := SerialQueue.Reachable.interrupted hrun
  obtain ⟨hsynced, hjobs⟩ := sequential_performs hclean hrun hn fun i l hi => (hsettled i l hi).mpr
  rcases hstate with hstate | ⟨q, hq, hpass⟩
  · have hstate' : life.queue.state = ((Instance.onFile file false).sequential saveOnPush life.plan
      (life.queue.requests.take n)).state := hstate
    rw [← hstate'] at hsynced hjobs
    exact ⟨_, ⟨n, hn, fun i l hi => (hsettled i l hi).mp, rfl⟩, hsynced, hjobs⟩
  obtain ⟨hsynced', hjobs' | ⟨hjobs', r, hok⟩⟩ :=
    Instance.program_stopped (hclean n) hsynced q hpass
  · exact ⟨_, ⟨n, hn, fun i l hi => (hsettled i l hi).mp, rfl⟩, hsynced', hjobs'.trans hjobs⟩
  · -- the operation has made its push
    have hlt : n < life.queue.links.length := by
      simpa using (List.getElem?_eq_some_iff.mp hq).1
    have hl := List.getElem?_eq_getElem hlt
    have hnot : rejected life.queue.links[n] = false := by
      by_contra hrejected
      have hlt' := (hsettled n _ hl).mp (settled_of_rejected (by simpa using hrejected))
      omega
    have hrequest : life.queue.links[n].request = q := by
      have := SerialQueue.requests_getElem? hl
      rw [hq] at this
      exact (Option.some.inj this).symm
    refine ⟨life.operations (n + 1), ⟨n + 1, hlt, fun i l hi hs => ?_, rfl⟩, hsynced', ?_⟩
    · have := (hsettled i l hi).mp hs
      omega
    · rw [operations_succ, operation_eq hl, hnot, hrequest, List.foldl_append, ← hjobs]
      exact hjobs'

end Life

namespace Lives

variable {seed file : Option (List Job)} {lives : List Life}

theorem exists_keeps (h : Lives seed lives file) :
    ∃ kept : List (List StampedOp), List.Forall₂ Life.Keeps lives kept ∧
      file.getD [] = kept.flatten.foldl StampedOp.perform (seed.getD []) := by
  induction h with
  | nil => exact ⟨[], .nil, rfl⟩
  | snoc h life hclean hrun ih =>
    obtain ⟨kept, hkept, hfile⟩ := ih
    obtain ⟨last, hlast, hsynced, hjobs⟩ := Life.exists_keeps hclean hrun
    refine ⟨kept ++ [last], List.rel_append hkept (.cons hlast .nil), ?_⟩
    rw [List.flatten_append, List.flatten_singleton, List.foldl_append, ← hfile, ← hjobs,
      ← hsynced]
    rfl

omit [LowerCase] in
/-- No call takes `/jobs` away. -/
theorem act_memory (t : Environment (Option Fault)) (c : DbCall) (w : Instance JsonFile)
    (h : w.db.memory.isSome = true) :
    (Instance.act saveOnPush t c w).2.db.memory.isSome = true := by
  cases c with
  | jobsExist => cases hf : t.jobsExist <;> simpa [Instance.act, saveOnPush, hf] using h
  | getData => cases hf : t.getData <;> simpa [Instance.act, saveOnPush, hf] using h
  | pushInitial =>
    rcases hf : t.pushInitial with _ | _ | _ <;> simp [Instance.act, saveOnPush, hf, h]
  | push jobs => rcases hf : t.push with _ | _ | _ <;> simp [Instance.act, saveOnPush, hf, h]
  | startedAt | readInitialized | setInitialized | stamp | endedAt | log _ => exact h

/-- Once the file has `/jobs`, it has it for ever, and no process initialises it. -/
theorem seed_kept (h : Lives seed lives file) (hseed : seed.isSome = true) :
    file.isSome = true ∧ ∀ life ∈ lives, ∀ e ∈ life.queue.trace,
      e.event.call ≠ .pushInitial := by
  induction h with
  | nil => exact ⟨hseed, by simp⟩
  | snoc h life hclean hrun ih =>
    obtain ⟨hfile, hlives⟩ := ih
    obtain ⟨_, -, hsynced, -⟩ := Life.exists_keeps hclean hrun
    obtain ⟨hstate, htrace⟩ := SerialQueue.Reachable.keeps (fun w => w.db.memory.isSome = true)
      act_memory hfile hrun
    refine ⟨hsynced ▸ hstate, fun life' hlife e he hpush => ?_⟩
    rcases List.mem_append.mp hlife with hlife | hlife
    · exact hlives life' hlife e he hpush
    · obtain rfl := List.mem_singleton.mp hlife
      have habsent := (queue_linearizable saveOnPush_truthful hrun).1.seedKept e he hpush
      rw [htrace e he] at habsent
      cases habsent

end Lives

/-- However many processes ran on a file and wherever each of them was stopped, a new one lists
what a prefix of the operations of each, in call order, makes of the seed. The prefix has all
operations whose promise was settled, and initialisation never overwrites the seed. -/
theorem crash_consistent {seed file : Option (List Job)} {lives : List Life}
    (h : Lives seed lives file) :
    (∃ kept : List (List StampedOp), List.Forall₂ Life.Keeps lives kept ∧
      (Instance.onFile file false).listed =
        .ok (kept.flatten.foldl StampedOp.perform (seed.getD []))) ∧
    (seed.isSome = true → ∀ life ∈ lives, ∀ e ∈ life.queue.trace,
      e.event.call ≠ .pushInitial) := by
  obtain ⟨kept, hkept, hfile⟩ := h.exists_keeps
  refine ⟨⟨kept, hkept, ?_⟩, fun hseed => (h.seed_kept hseed).2⟩
  have hsound : (Instance.onFile file false).Sound := nofun
  rw [Instance.listed_eq _ hsound, ← hfile]
  rfl

omit [LowerCase] in
/-- A process stops between the push of a create and its answer, the next one after a list. -/
theorem crash_consistent_create :
    letI := LowerCase.ascii
    ∃ (lives : List Life) (file : Option (List Job)), Lives none lives file ∧
      lives.map (fun life => life.queue.links.map Link.released) = [[false], [true]] ∧
      ∃ kept : List (List StampedOp), List.Forall₂ Life.Keeps lives kept ∧
        (Instance.onFile file false).listed =
          .ok (kept.flatten.foldl StampedOp.perform []) := by
  let _ := LowerCase.ascii
  have hclean : ∀ i : ℕ, ((fun _ => .quiet : ℕ → Environment (Option Fault)) i).Clean :=
    fun _ => ⟨nofun, nofun⟩
  obtain ⟨c, hc, hstopped⟩ := SerialQueue.exists_reachable
    (.enqueue ⟨.create ⟨"title", "text"⟩, 0⟩ :: List.replicate 9 (.micro 0))
    (SerialQueue.start (Instance.onFile none false)) (fun c => c.links.map Link.released = [false] ∧
      c.state.db.file = some [⟨"2", "title", "text", .pending, 0, "u", "u"⟩])
    (show (SerialQueue.exec Enqueued.program (Instance.act saveOnPush) (fun _ => .quiet) _ _).any
      _ = true by decide +kernel)
  obtain ⟨c', hc', hlisted⟩ := SerialQueue.exists_reachable
    (.enqueue ⟨.list, 0⟩ :: List.replicate 9 (.micro 0))
    (SerialQueue.start (Instance.onFile (some [⟨"2", "title", "text", .pending, 0, "u", "u"⟩])
      false)) (fun c => c.links.map Link.released = [true])
    (show (SerialQueue.exec Enqueued.program (Instance.act saveOnPush) (fun _ => .quiet) _ _).any
      _ = true by decide +kernel)
  rw [← hstopped.2] at hc'
  have hlives := (Lives.nil.snoc ⟨_, c⟩ hclean hc).snoc ⟨_, c'⟩ hclean hc'
  exact ⟨_, _, hlives, by simp [hstopped.1, hlisted], (crash_consistent hlives).1⟩

end JobManager
