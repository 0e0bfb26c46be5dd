import JobManager.Async.Exclusion
import JobManager.System.Trace

/-! The overrun guard: with `skipGuardEnabled` at most one tick is inside at any time. -/
namespace JobManager

open Async

/-- The scheduler use case runs only in guarded ticks. -/
def Request.Guarded (q : Request) : Prop := q ≠ .processPendingJobs ∧ q ≠ .tick false

instance : DecidablePred Request.Guarded := fun q => by
  unfold Request.Guarded
  infer_instance

/-- Nothing but a passed guard leads inside, and `endTick` leads out. -/
theorem InsideTick.of_snoc {h : List Call} {c : Call} (hin : InsideTick (h ++ [c])) :
    c.call ≠ .endTick ∧
      (InsideTick h ∨ ∃ skipGuardEnabled, c = ⟨.beginTick skipGuardEnabled, .ok false⟩) := by
  obtain ⟨⟨skipGuardEnabled, hbegin⟩, hend⟩ := hin
  constructor
  · rintro hc
    obtain ⟨call, x⟩ := c
    subst hc
    exact hend x (List.mem_append_right _ (List.mem_singleton_self _))
  · rcases List.mem_append.mp hbegin with hbegin | hbegin
    · exact .inl ⟨⟨_, hbegin⟩, fun x hx => hend x (List.mem_append_left _ hx)⟩
    · exact .inr ⟨_, (List.mem_singleton.mp hbegin).symm⟩

def EntersTick (c : Call) : Prop := ∃ skipGuardEnabled, c = ⟨.beginTick skipGuardEnabled, .ok false⟩

def LeavesTick (c : Call) : Prop := c.call = .endTick

theorem insideTick_iff (h : List Call) : InsideTick h ↔ Inside EntersTick LeavesTick h := by
  constructor
  · rintro ⟨⟨skipGuardEnabled, hbegin⟩, hend⟩
    refine ⟨⟨_, hbegin, _, rfl⟩, ?_⟩
    rintro ⟨call, x⟩ hc rfl
    exact hend x hc
  · rintro ⟨⟨_, hbegin, skipGuardEnabled, rfl⟩, hend⟩
    exact ⟨⟨skipGuardEnabled, hbegin⟩, fun x hx => hend _ hx rfl⟩

variable [LowerCase] {s : Store} {trace : List Entry} {w : World}

/-- The flag stands as long as a tick is inside, and only one tick is. -/
theorem System.Valid.tick_exclusion (h : System.Valid Request.Guarded s trace w) :
    (∀ i, InsideTick (history i trace) → w.isTickRunning = true) ∧
    ∀ i j, InsideTick (history i trace) → InsideTick (history j trace) → i = j := by
  simp only [insideTick_iff]
  refine h.exclusion World.isTickRunning ?_ ?_ ?_
  · rintro before e hocc ⟨skipGuardEnabled, he⟩
    have hguar := hocc.guar
    obtain ⟨t, hact⟩ := hocc.act
    rw [he] at hguar hact
    have hskip : skipGuardEnabled = true := by
      cases skipGuardEnabled with
      | true => rfl
      | false => exact absurd hguar.beginTick.1 hocc.allowed.2
    subst hskip
    obtain ⟨hanswer, hafter⟩ := Prod.mk.inj (Option.some.inj hact)
    exact ⟨by simpa using hanswer, by rw [← hafter]⟩
  · rintro before e hocc - hleaves hflag
    obtain ⟨t, hact⟩ := hocc.act
    by_cases hbegin : ∃ skipGuardEnabled, e.event.call = .beginTick skipGuardEnabled
    · obtain ⟨skipGuardEnabled, hc⟩ := hbegin
      generalize e.event = event at hact hc
      obtain ⟨call, x⟩ := event
      subst hc
      rw [← (Prod.mk.inj (Option.some.inj hact)).2]
    · rw [World.act_isTickRunning hact (fun g hg => hbegin ⟨g, hg⟩) hleaves]
      exact hflag
  · rintro before e hocc hleaves
    have hguar := hocc.guar
    rw [show e.event.call = .endTick from hleaves] at hguar
    exact (insideTick_iff _).mp hguar.endTick

end JobManager
