import JobManager.Async.SerialQueue

/-! Whatever the interleaving, a serial queue makes the calls of the sequential execution of its
requests in their order, and gives the same results. -/

namespace Async

namespace SerialQueue

variable {C : Type} {R : C → Type} {ε S Q T : Type} {A : Q → Type}
  {program : (q : Q) → Async C R ε (A q)} {act : T → (c : C) → S → Except ε (R c) × S}
  {plan : ℕ → T} {s : S} {c c' : SerialQueue R ε A S}

/-- Nothing runs; the first `n` requests are settled and the others wait. -/
structure Idle (c : SerialQueue R ε A S) (n : ℕ) : Prop where
  le : n ≤ c.links.length
  settled : ∀ (i : ℕ) (l : Link R ε A), c.links[i]? = some l → i < n → l.Settled
  waiting : ∀ (i : ℕ) (l : Link R ε A), c.links[i]? = some l → n ≤ i → l.Waiting

/-- The simulation: settled requests have their sequential result, the running one will get its
own from the present state, and between two requests the states agree. -/
structure Simulates (program : (q : Q) → Async C R ε (A q))
    (act : T → (c : C) → S → Except ε (R c) × S) (plan : ℕ → T) (s : S)
    (c : SerialQueue R ε A S) : Prop where
  results : ∀ (i : ℕ) (q : Q) (previous : Option ℕ) (r : Except ε (A q)) (tail : Bool),
    c.links[i]? = some ⟨q, previous, .settled r tail⟩ →
    (eval (act (plan i)) (program q)
      (sequential program act plan s (c.requests.take i)).state).1 = r
  running : ∀ (i : ℕ) (q : Q) (previous : Option ℕ) (code : Async C R ε (A q)),
    c.links[i]? = some ⟨q, previous, .running code⟩ →
    let x := sequential program act plan s (c.requests.take i)
    eval (act (plan i)) code c.state = eval (act (plan i)) (program q) x.state ∧
    c.trace ++ calls (act (plan i)) i q code c.state =
      x.trace ++ calls (act (plan i)) i q (program q) x.state
  idle : ∀ n, c.Idle n →
    let x := sequential program act plan s (c.requests.take n)
    c.state = x.state ∧ c.trace = x.trace

theorem requests_getElem? {i : ℕ} {l : Link R ε A} (h : c.links[i]? = some l) :
    c.requests[i]? = some l.request := by
  rw [requests, List.getElem?_map, h, Option.map_some]

theorem length_take_requests {i : ℕ} {l : Link R ε A} (h : c.links[i]? = some l) :
    (c.requests.take i).length = i := by
  have := (List.getElem?_eq_some_iff.mp h).1
  rw [List.length_take, requests, List.length_map]
  omega

@[simp] theorem length_requests : c.requests.length = c.links.length := List.length_map _

theorem Moves.requests {i : ℕ} {l l' : Link R ε A} (h : Moves program c c' i l l') :
    c'.requests = c.requests := by
  apply List.ext_getElem?
  intro j
  rw [SerialQueue.requests, SerialQueue.requests, List.getElem?_map, List.getElem?_map,
    h.getElem?]
  split
  · next hj => rw [hj, h.before, Option.map_some, Option.map_some, h.later.request]
  · rfl

/-- With no request in progress, some prefix of the requests is settled and the rest waits. -/
theorem Ordered.exists_idle (h : Ordered c) (hrun : ∀ l ∈ c.links, ¬ l.Running) :
    ∃ n, c.Idle n := by
  classical
  have hex : ∃ n : ℕ, ∀ l : Link R ε A, c.links[n]? = some l → l.Waiting :=
    ⟨c.links.length, by simp⟩
  refine ⟨Nat.find hex, Nat.find_min' hex (by simp), ?_, ?_⟩
  · intro i l hi hlt
    have hnot : ¬ l.Waiting := by
      have := Nat.find_min hex hlt
      push Not at this
      obtain ⟨m, hm, hw⟩ := this
      rw [hi] at hm
      exact Option.some.inj hm ▸ hw
    have hrunning := hrun l (List.mem_of_getElem? hi)
    obtain ⟨q, previous, run⟩ := l
    cases run with
    | waiting => exact absurd rfl hnot
    | running code => exact absurd ⟨code, rfl⟩ hrunning
    | settled r tail => exact ⟨r, tail, rfl⟩
  · intro i l hi hle
    rcases hle.eq_or_lt with rfl | hlt
    · exact Nat.find_spec hex l hi
    · by_contra hw
      have hn : Nat.find hex < c.links.length :=
        hlt.trans (List.getElem?_eq_some_iff.mp hi).1
      have hget := List.getElem?_eq_getElem hn
      have hwaiting : c.links[Nat.find hex].Waiting := Nat.find_spec hex _ hget
      have hreleased := h.order _ i _ l hlt hget hi hw
      obtain ⟨r, tail, hr⟩ := Link.settled_of_released hreleased
      cases hwaiting.symm.trans hr

theorem Idle.not_running {n i : ℕ} {l : Link R ε A} (h : c.Idle n) (hi : c.links[i]? = some l) :
    ¬ l.Running := by
  intro hrunning
  rcases Nat.lt_or_ge i n with hlt | hle
  · exact Link.not_settled_of_running hrunning (h.settled i l hi hlt)
  · obtain ⟨code, hcode⟩ := hrunning
    cases hcode.symm.trans (h.waiting i l hi hle)

/-- Just before a request starts. -/
theorem Ordered.idle_of_fulfilled (h : Ordered c) {i : ℕ} {l : Link R ε A}
    (hi : c.links[i]? = some l) (hl : l.Waiting) (hfulfilled : c.fulfilled i.ppred = true) :
    c.Idle i := by
  refine ⟨(List.getElem?_eq_some_iff.mp hi).1.le, ?_, ?_⟩
  · intro j m hj hlt
    exact Link.settled_of_released (h.released_of_fulfilled hfulfilled hlt hj)
  · intro j m hj hle
    rcases hle.eq_or_lt with rfl | hlt
    · rw [hi] at hj
      exact Option.some.inj hj ▸ hl
    · by_contra hm
      obtain ⟨r, tail, hr⟩ := Link.settled_of_released (h.order i j l m hlt hi hj hm)
      cases hl.symm.trans hr

/-- A request that has just settled is the last one that has started. -/
theorem Ordered.idle_of_settle (h : Ordered c) {n i : ℕ} {l l' : Link R ε A}
    (hm : Moves program c c' i l l') (hl' : l'.Settled) (hn : c'.Idle n) : n = i + 1 := by
  have hi : c'.links[i]? = some l' := by rw [hm.getElem?, if_pos rfl]
  have hlt : i < n := by
    by_contra hle
    obtain ⟨r, tail, hr⟩ := hl'
    cases (hn.waiting i l' hi (by omega)).symm.trans hr
  by_contra hne
  have hget := List.getElem?_eq_getElem (show i + 1 < c'.links.length by have := hn.le; omega)
  have hsettled := hn.settled (i + 1) _ hget (by omega)
  rw [hm.getElem?, if_neg (by omega)] at hget
  have hreleased := h.order i (i + 1) l _ (by omega) hm.before hget (by
    obtain ⟨r, tail, hr⟩ := hsettled
    intro hwaiting
    cases hwaiting.symm.trans hr)
  rw [hm.later.not_released] at hreleased
  cases hreleased

namespace Simulates

theorem start : Simulates program act plan s (start s) := by
  refine ⟨by simp [SerialQueue.start], by simp [SerialQueue.start], fun n _ => ?_⟩
  simp [SerialQueue.start, requests]

theorem enqueue (h : Simulates program act plan s c) (q : Q) :
    Simulates program act plan s (c.enqueue q) := by
  have htake : ∀ n, n ≤ c.links.length → (c.enqueue q).requests.take n = c.requests.take n := by
    intro n hn
    rw [requests, SerialQueue.enqueue, List.map_append, List.take_append_of_le_length (by simpa)]
    rfl
  have hle : ∀ {i : ℕ} {l : Link R ε A}, c.links[i]? = some l → i ≤ c.links.length :=
    fun hi => (List.getElem?_eq_some_iff.mp hi).1.le
  refine ⟨?_, ?_, ?_⟩
  · intro i q' previous r tail hi
    rcases enqueue_cases hi with hi | ⟨-, hl⟩
    · rw [htake i (hle hi)]
      exact h.results i q' previous r tail hi
    · cases hl
  · intro i q' previous code hi
    rcases enqueue_cases hi with hi | ⟨-, hl⟩
    · rw [htake i (hle hi)]
      exact h.running i q' previous code hi
    · cases hl
  · intro n hn
    have hlast : (c.enqueue q).links[c.links.length]? = some ⟨q, c.queue, .waiting⟩ := by
      simp [SerialQueue.enqueue]
    have hnle : n ≤ c.links.length := by
      by_contra hlt
      obtain ⟨r, tail, hr⟩ := hn.settled _ _ hlast (by omega)
      cases hr
    have hget : ∀ {i : ℕ} {l : Link R ε A}, c.links[i]? = some l →
        (c.enqueue q).links[i]? = some l := fun hi => by
      rw [SerialQueue.enqueue, List.getElem?_append_left (List.getElem?_eq_some_iff.mp hi).1, hi]
    rw [htake n hnle]
    exact h.idle n ⟨hnle, fun i l hi => hn.settled i l (hget hi),
      fun i l hi => hn.waiting i l (hget hi)⟩

/-- Results are settled once and for all. -/
theorem results_of_ne (h : Simulates program act plan s c) {i : ℕ} {l l' : Link R ε A}
    (hm : Moves program c c' i l l') {j : ℕ} {q : Q} {previous : Option ℕ} {r : Except ε (A q)}
    {tail : Bool} (hj : c'.links[j]? = some ⟨q, previous, .settled r tail⟩) (hne : j ≠ i) :
    (eval (act (plan j)) (program q)
      (sequential program act plan s (c'.requests.take j)).state).1 = r := by
  rw [hm.getElem?, if_neg hne] at hj
  rw [hm.requests]
  exact h.results j q previous r tail hj

/-- A step after which request `i` is in progress: it is then the only one, so what is left to
show is that it will get its sequential result from here. -/
theorem of_running (h : Simulates program act plan s c) (hc' : Ordered c') {i : ℕ} {q : Q}
    {previous : Option ℕ} {l : Link R ε A} {code : Async C R ε (A q)}
    (hm : Moves program c c' i l ⟨q, previous, .running code⟩)
    (hrunning : let x := sequential program act plan s (c.requests.take i)
      eval (act (plan i)) code c'.state = eval (act (plan i)) (program q) x.state ∧
      c'.trace ++ calls (act (plan i)) i q code c'.state =
        x.trace ++ calls (act (plan i)) i q (program q) x.state) :
    Simulates program act plan s c' := by
  have hget : c'.links[i]? = some ⟨q, previous, .running code⟩ := by rw [hm.getElem?, if_pos rfl]
  refine ⟨?_, ?_, ?_⟩
  · intro j q' previous' r tail hj
    refine h.results_of_ne hm hj ?_
    rintro rfl
    cases hget.symm.trans hj
  · intro j q' previous' code' hj
    obtain rfl : i = j := hc'.exclusive hget hj ⟨_, rfl⟩ ⟨_, rfl⟩
    cases hget.symm.trans hj
    rw [hm.requests]
    exact hrunning
  · intro n hn
    exact absurd ⟨_, rfl⟩ (hn.not_running hget)

theorem settle (h : Simulates program act plan s c) (ho : Ordered c) {i : ℕ} {q : Q}
    {previous : Option ℕ} {r : Except ε (A q)}
    (hi : c.links[i]? = some ⟨q, previous, .running (.settled r)⟩)
    (hm : Moves program c c' i ⟨q, previous, .running (.settled r)⟩ ⟨q, previous, .settled r false⟩)
    (hstate : c'.state = c.state) (htrace : c'.trace = c.trace) :
    Simulates program act plan s c' := by
  obtain ⟨heval, hcalls⟩ := h.running i q previous _ hi
  refine ⟨?_, ?_, ?_⟩
  · intro j q' previous' r' tail hj
    by_cases hji : j = i
    · subst hji
      rw [hm.getElem?, if_pos rfl] at hj
      cases hj
      rw [hm.requests, ← heval, eval_settled]
    · exact h.results_of_ne hm hj hji
  · intro j q' previous' code hj
    rw [hm.getElem?] at hj
    split at hj
    · cases hj
    · rw [hm.requests, hstate, htrace]
      exact h.running j q' previous' code hj
  · intro n hn
    obtain rfl := ho.idle_of_settle hm ⟨_, _, rfl⟩ hn
    rw [hm.requests, hstate, htrace,
      sequential_take_succ program act plan s (requests_getElem? hi)]
    simp only [Execution.next, length_sequential, length_take_requests hi]
    exact ⟨by rw [← heval, eval_settled], by rw [← hcalls, calls_settled, List.append_nil]⟩

theorem release (h : Simulates program act plan s c) {i : ℕ} {q : Q} {previous : Option ℕ}
    {r : Except ε (A q)} (hi : c.links[i]? = some ⟨q, previous, .settled r false⟩)
    (hm : Moves program c c' i ⟨q, previous, .settled r false⟩ ⟨q, previous, .settled r true⟩)
    (hstate : c'.state = c.state) (htrace : c'.trace = c.trace) :
    Simulates program act plan s c' := by
  refine ⟨?_, ?_, ?_⟩
  · intro j q' previous' r' tail hj
    by_cases hji : j = i
    · subst hji
      rw [hm.getElem?, if_pos rfl] at hj
      cases hj
      rw [hm.requests]
      exact h.results j q previous r false hi
    · exact h.results_of_ne hm hj hji
  · intro j q' previous' code hj
    rw [hm.getElem?] at hj
    split at hj
    · cases hj
    · rw [hm.requests, hstate, htrace]
      exact h.running j q' previous' code hj
  · intro n hn
    rw [hm.requests, hstate, htrace]
    have hget := hm.getElem?
    refine h.idle n ⟨hm.length ▸ hn.le, fun j l hj hlt => ?_, fun j l hj hle => ?_⟩
    · by_cases hji : j = i
      · rw [hji, hi] at hj
        exact Option.some.inj hj ▸ ⟨r, false, rfl⟩
      · exact hn.settled j l (by rw [hget, if_neg hji, hj]) hlt
    · by_cases hji : j = i
      · have := hn.waiting j _ (by rw [hget, if_pos hji]) hle
        cases this
      · exact hn.waiting j l (by rw [hget, if_neg hji, hj]) hle

theorem micro (h : Simulates program act plan s c) (ho : Ordered c)
    (hmicro : Micro program act plan c c') : Simulates program act plan s c' := by
  have hc' : Ordered c' := ho.step (.micro hmicro)
  cases hmicro with
  | start i q previous hi htail =>
    obtain ⟨hstate, htrace⟩ :=
      h.idle i (ho.idle_of_fulfilled hi rfl (ho.previous i _ hi ▸ htail))
    exact h.of_running hc' ⟨hi, rfl, rfl, .start q previous, fun _ => htail⟩
      ⟨by rw [← hstate], by rw [← hstate, ← htrace]⟩
  | answer i q previous call k hi =>
    obtain ⟨heval, hcalls⟩ := h.running i q previous _ hi
    refine h.of_running hc' ⟨hi, rfl, rfl, .answer q previous call k _, nofun⟩ ⟨heval, ?_⟩
    rw [← hcalls, calls_awaiting, List.append_assoc]
    rfl
  | settle i q previous r hi =>
    exact h.settle ho hi ⟨hi, rfl, rfl, .settle q previous r, nofun⟩ rfl rfl
  | release i q previous r hi =>
    exact h.release hi ⟨hi, rfl, rfl, .release q previous r, nofun⟩ rfl rfl

end Simulates

section Reachable

variable (h : Reachable program act plan (start s) c)
include h

theorem Reachable.simulates : Simulates program act plan s c := by
  induction h with
  | refl => exact .start
  | tail hrun hs ih =>
    cases hs with
    | enqueue q => exact ih.enqueue q
    | micro hmicro => exact ih.micro (Reachable.ordered hrun) hmicro

/-- A request settles with its result in the sequential execution of all requests. -/
theorem Reachable.results {i : ℕ} {q : Q} {previous : Option ℕ} {r : Except ε (A q)} {tail : Bool}
    (hi : c.links[i]? = some ⟨q, previous, .settled r tail⟩) :
    (sequential program act plan s c.requests).results[i]? = some ⟨q, r⟩ := by
  rw [sequential_results program act plan s (requests_getElem? hi),
    h.simulates.results i q previous r tail hi]

/-- The calls made so far are the first ones of the sequential execution. -/
theorem Reachable.trace_sequential :
    c.trace <+: (sequential program act plan s c.requests).trace := by
  have htake : ∀ n, (sequential program act plan s (c.requests.take n)).trace <+:
      (sequential program act plan s c.requests).trace := by
    intro n
    conv_rhs => rw [← List.take_append_drop n c.requests]
    exact sequential_trace_append program act plan s _ _
  by_cases hrun : ∃ l ∈ c.links, l.Running
  · obtain ⟨l, hl, hrunning⟩ := hrun
    obtain ⟨i, hi⟩ := List.getElem?_of_mem hl
    obtain ⟨q, previous, code, rfl⟩ := hrunning.eq
    obtain ⟨-, hcalls⟩ := h.simulates.running i q previous code hi
    have hnext : (sequential program act plan s (c.requests.take (i + 1))).trace =
        c.trace ++ calls (act (plan i)) i q code c.state := by
      rw [hcalls, sequential_take_succ program act plan s (requests_getElem? hi)]
      simp only [Execution.next, length_sequential, length_take_requests hi]
    exact (hnext ▸ List.prefix_append _ _).trans (htake (i + 1))
  · obtain ⟨n, hn⟩ := h.ordered.exists_idle fun l hl hrunning => hrun ⟨l, hl, hrunning⟩
    rw [(h.simulates.idle n hn).2]
    exact htake n

/-- When every request is settled, the sequential execution is complete. -/
theorem Reachable.final (hall : ∀ l ∈ c.links, l.Settled) :
    c.state = (sequential program act plan s c.requests).state ∧
      c.trace = (sequential program act plan s c.requests).trace := by
  have hidle : c.Idle c.links.length := by
    refine ⟨le_rfl, fun i l hi _ => hall l (List.mem_of_getElem? hi), fun i l hi hle => ?_⟩
    have := (List.getElem?_eq_some_iff.mp hi).1
    omega
  have := h.simulates.idle _ hidle
  rwa [← length_requests, List.take_length] at this

/-- And so are its results. -/
theorem Reachable.outcomes (hall : ∀ l ∈ c.links, l.Settled) :
    c.links.filterMap Link.outcome = (sequential program act plan s c.requests).results := by
  have hmap : c.links.map Link.outcome =
      (sequential program act plan s c.requests).results.map some := by
    apply List.ext_getElem?
    intro i
    rw [List.getElem?_map, List.getElem?_map]
    cases hi : c.links[i]? with
    | none =>
      have hle := List.getElem?_eq_none_iff.mp hi
      rw [List.getElem?_eq_none (by simpa using hle)]
      rfl
    | some l =>
      obtain ⟨q, previous, r, tail, rfl⟩ := (hall l (List.mem_of_getElem? hi)).eq
      rw [h.results hi]
      rfl
  calc c.links.filterMap Link.outcome = (c.links.map Link.outcome).filterMap id := by
        rw [List.filterMap_map]; rfl
    _ = (sequential program act plan s c.requests).results := by
        rw [hmap, List.filterMap_map]; exact List.filterMap_some

end Reachable

end SerialQueue

end Async
