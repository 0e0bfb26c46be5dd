import JobManager.Persistence.CallOrder
import JobManager.Persistence.Lifecycle

/-! As long as no file write fails, the repository over node-json-db is the store of atomic
operations: its answers form a run of the store. -/
namespace JobManager

open Async

/-- No write of the file fails; calls may still reject before they have done anything. -/
structure Environment.Clean (t : Environment (Option Fault)) : Prop where
  push : ∀ e, t.push ≠ some (.writeFails e)
  pushInitial : ∀ e, t.pushInitial ≠ some (.writeFails e)

/-- An operation that was not rejected, as the store records it. -/
def answered : ((q : Enqueued) × Except Thrown q.Result) → Option RepoCall
  | ⟨q, .ok r⟩ => some ⟨q.op, r⟩
  | ⟨_, .error _⟩ => none

/-- The environments of a run draw ids never used before. -/
structure FreshIds (plan : ℕ → Environment (Option Fault)) (issued : List String) : Prop where
  notMem : ∀ i, (plan i).stamp.uuid ∉ issued
  injective : Function.Injective fun i => (plan i).stamp.uuid

variable [LowerCase]

namespace Instance

/-- One operation on a database that holds a store: rejected, or one step of the store. -/
theorem run_refines {s : Store} {t : Environment (Option Fault)} (ht : t.Clean) (q : Enqueued)
    (hf : q.op.Fresh t.stamp s.issued) {w : Instance JsonFile} (hw : w.jobs = s.jobs) :
    (∃ e w', run saveOnPush t q w = (.error e, w') ∧ w'.jobs = s.jobs) ∨
    ∃ w', run saveOnPush t q w = (.ok (s.call q.op t.stamp).answer, w') ∧
      w'.jobs = (s.apply q.op t.stamp hf).jobs := by
  have hatomic := run_atomic t w ht.push ht.pushInitial q
  rw [hw] at hatomic
  exact hatomic

/-- The simulation along a sequential execution; the ids issued so far are the old ones and those
the environments have drawn. -/
theorem sequential_refines {s : Store} {plan : ℕ → Environment (Option Fault)}
    (hclean : ∀ i, (plan i).Clean) (hids : FreshIds plan s.issued) {w : Instance JsonFile}
    (hw : w.jobs = s.jobs) (qs : List Enqueued) :
    ∃ s', Store.Run s ((w.sequential saveOnPush plan qs).results.filterMap answered) s' ∧
      (w.sequential saveOnPush plan qs).state.jobs = s'.jobs ∧
      ∀ id ∈ s'.issued, id ∈ s.issued ∨ ∃ i < qs.length, id = (plan i).stamp.uuid := by
  induction qs using List.reverseRecOn with
  | nil => exact ⟨s, .nil s, hw, fun id hid => .inl hid⟩
  | append_singleton qs q ih =>
    obtain ⟨s', hrun, hjobs, hissued⟩ := ih
    have hf : q.op.Fresh (plan qs.length).stamp s'.issued := by
      rintro data - hmem
      rcases hissued _ hmem with hold | ⟨i, hi, heq⟩
      · exact hids.notMem _ hold
      · exact hi.ne' (hids.injective heq)
    have hold : ∀ id, (∃ i < qs.length, id = (plan i).stamp.uuid) →
        ∃ i < (qs ++ [q]).length, id = (plan i).stamp.uuid := by
      rintro id ⟨i, hi, heq⟩
      exact ⟨i, by rw [List.length_append]; omega, heq⟩
    rw [sequential_snoc]
    simp only [List.filterMap_append]
    rcases run_refines (hclean qs.length) q hf hjobs with ⟨e, w', hw', hsame⟩ | ⟨w', hw', hstep⟩
    · refine ⟨s', ?_, by rw [hw', hsame], fun id hid => (hissued id hid).imp_right (hold id)⟩
      have hnone : List.filterMap answered [⟨q, .error e⟩] = [] := rfl
      rw [hw', hnone, List.append_nil]
      exact hrun
    · refine ⟨s'.apply q.op (plan qs.length).stamp hf, ?_, ?_, fun id hid => ?_⟩
      · rw [hw']
        exact hrun.snoc q.op (plan qs.length).stamp hf
      · rw [hw', hstep]
      · rcases List.mem_append.mp hid with hid | hid
        · exact (hissued id hid).imp_right (hold id)
        · refine .inr ⟨qs.length, by simp, ?_⟩
          unfold RepoOp.issues at hid
          split at hid
          · exact List.mem_singleton.mp hid
          · cases hid

end Instance

/-- The answers given so far, in call order. -/
def OperationQueue.answers (c : OperationQueue JsonFile) : List RepoCall :=
  c.links.filterMap fun l => l.outcome.bind answered

/-- However its operations interleave, a queue whose calls are all settled has answered a run of
the store, and holds the array that run ends with. -/
theorem OperationQueue.refines {s : Store} {plan : ℕ → Environment (Option Fault)}
    (hclean : ∀ i, (plan i).Clean) (hids : FreshIds plan s.issued) {w : Instance JsonFile}
    (hw : w.jobs = s.jobs) {c : OperationQueue JsonFile}
    (h : OperationQueue.Reachable saveOnPush plan w c) (hall : ∀ l ∈ c.links, l.Settled) :
    ∃ s', Store.Run s c.answers s' ∧ c.state.jobs = s'.jobs := by
  obtain ⟨s', hrun, hjobs, -⟩ := Instance.sequential_refines hclean hids hw c.requests
  refine ⟨s', ?_, ?_⟩
  · rw [answers, ← List.filterMap_filterMap, SerialQueue.Reachable.outcomes h hall]
    exact hrun
  · rw [(SerialQueue.Reachable.final h hall).1]
    exact hjobs

end JobManager
