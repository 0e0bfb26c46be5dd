import Mathlib.Data.List.Nodup
import Mathlib.Data.List.Pairwise
import Mathlib.Tactic

/-! Lists of records with a key: lookups through the list operations that keep keys distinct. -/
namespace KeyedList

variable {α κ : Type} [DecidableEq κ] (key : α → κ)

/-- The first record with key `k`. -/
def lookup (l : List α) (k : κ) : Option α := l.find? fun a => key a = k

def Distinct (l : List α) : Prop := (l.map key).Nodup

variable {key} {l : List α} {k : κ}

theorem lookup_key {a : α} (h : lookup key l k = some a) : key a = k := by
  simpa using List.find?_some h

theorem lookup_mem {a : α} (h : lookup key l k = some a) : a ∈ l := List.mem_of_find?_eq_some h

theorem lookup_eq_none : lookup key l k = none ↔ k ∉ l.map key := by
  simp [lookup, List.find?_eq_none]

theorem lookup_isSome : (lookup key l k).isSome ↔ k ∈ l.map key := by
  simp [lookup, List.find?_isSome]

theorem lookup_of_mem (hl : Distinct key l) {a : α} (ha : a ∈ l) :
    lookup key l (key a) = some a := by
  cases h : lookup key l (key a) with
  | none => exact absurd (List.mem_map_of_mem ha) (lookup_eq_none.mp h)
  | some b => rw [List.inj_on_of_nodup_map hl (lookup_mem h) ha (lookup_key h)]

theorem lookup_map {f : α → α} (hf : ∀ a, key (f a) = key a) :
    lookup key (l.map f) k = (lookup key l k).map f := by
  simp only [lookup, List.find?_map, Function.comp_def, hf]

omit [DecidableEq κ] in
theorem keys_map {f : α → α} (hf : ∀ a, key (f a) = key a) : (l.map f).map key = l.map key := by
  simp [Function.comp_def, hf]

theorem lookup_append_singleton (a : α) :
    lookup key (l ++ [a]) k = (lookup key l k).or (if key a = k then some a else none) := by
  simp only [lookup, List.find?_append, List.find?_singleton, decide_eq_true_eq]

theorem lookup_filter_ne (k' : κ) :
    lookup key (l.filter fun a => key a ≠ k') k = if k = k' then none else lookup key l k := by
  unfold lookup
  rw [List.find?_filter]
  split
  · next h =>
    subst h
    simp [List.find?_eq_none]
  · next h =>
    congr 1
    funext a
    by_cases ha : key a = k <;> simp [ha, h]

theorem keys_filter_ne (k' : κ) :
    (l.filter fun a => key a ≠ k').map key = (l.map key).filter fun k => k ≠ k' := by
  simp [List.filter_map, Function.comp_def]

theorem getElem?_findIdx : l[l.findIdx fun a => key a = k]? = lookup key l k := by
  induction l with
  | nil => simp [lookup]
  | cons a l ih =>
    by_cases ha : key a = k
    · simp [lookup, List.findIdx_cons, ha]
    · simpa [lookup, List.findIdx_cons, ha] using ih

/-- Writing back at the found index changes exactly the record with that key. -/
theorem set_findIdx (hl : Distinct key l) (b : α) :
    l.set (l.findIdx fun a => key a = k) b = l.map fun a => if key a = k then b else a := by
  induction l with
  | nil => simp
  | cons a l ih =>
    obtain ⟨ha, hl'⟩ := List.nodup_cons.mp hl
    by_cases hk : key a = k
    · have hrest : ∀ x ∈ l, (if key x = k then b else x) = x := by
        intro x hx
        have : key x ≠ k := fun h => ha (hk ▸ h ▸ List.mem_map_of_mem hx)
        simp [this]
      simp [List.findIdx_cons, hk, List.map_congr_left hrest]
    · simpa [List.findIdx_cons, hk] using ih hl'

theorem find?_reverse (hl : Distinct key l) :
    (l.reverse.find? fun a => key a = k) = lookup key l k := by
  induction l with
  | nil => rfl
  | cons a l ih =>
    obtain ⟨ha, hl'⟩ := List.nodup_cons.mp hl
    rw [List.reverse_cons, List.find?_append, ih hl']
    by_cases hk : key a = k
    · have : lookup key l k = none := lookup_eq_none.mpr (hk ▸ ha)
      rw [this]
      simp [lookup, hk]
    · simp [lookup, hk]

/-! What stands ahead of a key in a list of keys. -/

theorem takeWhile_ne_append {keys : List κ} (hk : k ∈ keys) (keys' : List κ) :
    (keys ++ keys').takeWhile (fun k' => k' ≠ k) = keys.takeWhile fun k' => k' ≠ k := by
  induction keys with
  | nil => cases hk
  | cons a keys ih =>
    by_cases ha : a = k
    · simp [ha]
    · have hk : k ∈ keys := (List.mem_cons.mp hk).resolve_left (Ne.symm ha)
      simpa [ha] using ih hk

theorem takeWhile_ne_filter (keys : List κ) {p : κ → Bool} (hk : p k = true) :
    ((keys.filter p).takeWhile fun k' => k' ≠ k).Sublist (keys.takeWhile fun k' => k' ≠ k) := by
  induction keys with
  | nil => exact .slnil
  | cons a keys ih =>
    by_cases ha : a = k
    · subst ha
      simp [hk]
    · cases hp : p a with
      | true => simpa [hp, ha] using ih
      | false => simpa [hp, ha] using ih.cons a

end KeyedList
