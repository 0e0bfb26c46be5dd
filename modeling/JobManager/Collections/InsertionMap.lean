import JobManager.Collections.KeyedList

/-! Maps that remember the order in which their keys were first inserted. -/

/-- An insertion-ordered map: setting a present key replaces its value in place. -/
structure InsertionMap (κ ν : Type) where
  entries : List (κ × ν)
  nodup : (entries.map Prod.fst).Nodup

namespace InsertionMap

variable {κ ν : Type} [DecidableEq κ]

def empty : InsertionMap κ ν := ⟨[], List.nodup_nil⟩

def get (m : InsertionMap κ ν) (k : κ) : Option ν :=
  (m.entries.find? fun e => e.1 = k).map Prod.snd

def setEntries (k : κ) (v : ν) (es : List (κ × ν)) : List (κ × ν) :=
  if k ∈ es.map Prod.fst then es.map fun e => if e.1 = k then (k, v) else e else es ++ [(k, v)]

theorem setEntries_keys (k : κ) (v : ν) (es : List (κ × ν)) :
    (setEntries k v es).map Prod.fst =
      if k ∈ es.map Prod.fst then es.map Prod.fst else es.map Prod.fst ++ [k] := by
  unfold setEntries
  split
  · rw [List.map_map]
    apply List.map_congr_left
    intro e _
    by_cases he : e.1 = k <;> simp [he]
  · simp

def set (m : InsertionMap κ ν) (k : κ) (v : ν) : InsertionMap κ ν where
  entries := setEntries k v m.entries
  nodup := by
    rw [setEntries_keys]
    split
    · exact m.nodup
    · next h => exact List.nodup_append.mpr ⟨m.nodup, List.nodup_singleton k, by
        simpa [List.mem_map] using fun a b hb hk => h (List.mem_map.mpr ⟨(a, b), hb, hk⟩)⟩

def erase (m : InsertionMap κ ν) (k : κ) : InsertionMap κ ν where
  entries := m.entries.filter fun e => e.1 ≠ k
  nodup := m.nodup.sublist (List.filter_sublist.map Prod.fst)

def values (m : InsertionMap κ ν) : List ν := m.entries.map Prod.snd

/-- `new Map(es)`: later entries win. -/
def ofEntries (es : List (κ × ν)) : InsertionMap κ ν := es.foldl (fun m e => m.set e.1 e.2) empty

@[simp] theorem get_empty (k : κ) : (empty : InsertionMap κ ν).get k = none := rfl

private theorem find?_setEntries (k k' : κ) (v : ν) (es : List (κ × ν)) :
    ((setEntries k v es).find? fun e => e.1 = k').map Prod.snd =
      if k' = k then some v else (es.find? fun e => e.1 = k').map Prod.snd := by
  unfold setEntries
  split
  · next hmem =>
    induction es with
    | nil => simp at hmem
    | cons e es ih =>
      by_cases he : e.1 = k
      · by_cases hk : k' = k
        · simp [he, hk]
        · have hne : ¬ k = k' := fun h => hk h.symm
          simp only [List.map_cons, he, ↓reduceIte, List.find?_cons, hne, decide_false, hk]
          by_cases hes : k ∈ es.map Prod.fst
          · rw [ih hes, if_neg hk]
          · congr 2
            conv_rhs => rw [← List.map_id es]
            apply List.map_congr_left
            intro x hx
            have : x.1 ≠ k := fun h => hes (List.mem_map.mpr ⟨x, hx, h⟩)
            simp [this]
      · have hes : k ∈ es.map Prod.fst := by
          rcases List.mem_cons.mp hmem with h | h
          · exact absurd h.symm he
          · exact h
        simp only [List.map_cons, he, ↓reduceIte, List.find?_cons]
        by_cases hk' : e.1 = k'
        · have : k' ≠ k := fun h => he (hk'.trans h)
          simp [hk', this]
        · simpa [hk'] using ih hes
  · next hmem =>
    rw [List.find?_append]
    by_cases hk : k' = k
    · subst hk
      have : es.find? (fun e => e.1 = k') = none := by
        rw [List.find?_eq_none]
        intro e he
        simpa using fun h : e.1 = k' => hmem (List.mem_map.mpr ⟨e, he, h⟩)
      simp [this]
    · have hne : ¬ k = k' := fun h => hk h.symm
      simp [hk, hne]

@[simp] theorem get_set (m : InsertionMap κ ν) (k k' : κ) (v : ν) :
    (m.set k v).get k' = if k' = k then some v else m.get k' := find?_setEntries k k' v m.entries

theorem get_foldl_set (es : List (κ × ν)) (m : InsertionMap κ ν) (k : κ) :
    (es.foldl (fun m e => m.set e.1 e.2) m).get k =
      ((es.reverse.find? fun e => e.1 = k).map Prod.snd).or (m.get k) := by
  induction es generalizing m with
  | nil => simp
  | cons e es ih =>
    rw [List.foldl_cons, ih, get_set, List.reverse_cons, List.find?_append]
    cases es.reverse.find? fun e => e.1 = k with
    | some e' => simp
    | none =>
      by_cases hk : k = e.1
      · simp [hk]
      · have hne : ¬ e.1 = k := fun h => hk h.symm
        simp [hk, hne]

theorem get_ofEntries (es : List (κ × ν)) (k : κ) :
    (ofEntries es).get k = (es.reverse.find? fun e => e.1 = k).map Prod.snd := by
  rw [ofEntries, get_foldl_set]
  simp

/-- Entries with distinct keys stay as they are. -/
theorem entries_ofEntries {es : List (κ × ν)} (h : (es.map Prod.fst).Nodup) :
    (ofEntries es).entries = es := by
  have hfoldl : ∀ m : InsertionMap κ ν, (m.entries.map Prod.fst ++ es.map Prod.fst).Nodup →
      (es.foldl (fun m e => m.set e.1 e.2) m).entries = m.entries ++ es := by
    clear h
    induction es with
    | nil => simp
    | cons e es ih =>
      intro m hm
      have hnew : e.1 ∉ m.entries.map Prod.fst := by
        intro hmem
        exact (List.nodup_append.mp hm).2.2 e.1 hmem e.1 List.mem_cons_self rfl
      have hset : (m.set e.1 e.2).entries = m.entries ++ [e] := if_neg hnew
      rw [List.foldl_cons, ih, hset, List.append_assoc, List.singleton_append]
      rw [hset, List.map_append, List.append_assoc]
      simpa using hm
  exact hfoldl empty h

/-- The map holds the records of a list under their keys, in the order of the list. -/
def Indexes (key : ν → κ) (m : InsertionMap κ ν) (l : List ν) : Prop :=
  m.entries = l.map fun a => (key a, a)

namespace Indexes

open KeyedList

variable {key : ν → κ} {m : InsertionMap κ ν} {l : List ν}

omit [DecidableEq κ] in
theorem values_eq (h : Indexes key m l) : m.values = l := by
  rw [values, h, List.map_map]
  exact List.map_id' l

omit [DecidableEq κ] in
theorem distinct (h : Indexes key m l) : Distinct key l := by
  have hnodup := m.nodup
  rw [h, List.map_map] at hnodup
  exact hnodup

theorem get_eq (h : Indexes key m l) (k : κ) : m.get k = lookup key l k := by
  rw [get, h, List.find?_map, Option.map_map]
  exact Option.map_id'

omit [DecidableEq κ] in
theorem empty : Indexes key (empty : InsertionMap κ ν) [] := rfl

/-- A key that is not there yet goes to the end. -/
theorem set_new (h : Indexes key m l) {k : κ} {b : ν} (hb : key b = k)
    (hk : k ∉ l.map key) : Indexes key (m.set k b) (l ++ [b]) := by
  have hkeys : k ∉ m.entries.map Prod.fst := by
    rw [h, List.map_map]
    exact hk
  show setEntries k b m.entries = _
  rw [setEntries, if_neg hkeys, h]
  simp [hb]

/-- A key that is there keeps its place. -/
theorem set_old (h : Indexes key m l) {k : κ} {b : ν} (hb : key b = k) (hk : k ∈ l.map key) :
    Indexes key (m.set k b) (l.map fun a => if key a = k then b else a) := by
  have hkeys : k ∈ m.entries.map Prod.fst := by
    rw [h, List.map_map]
    exact hk
  show setEntries k b m.entries = _
  rw [setEntries, if_pos hkeys, h, List.map_map, List.map_map]
  apply List.map_congr_left
  intro a _
  by_cases ha : key a = k <;> simp [ha, hb]

theorem erase (h : Indexes key m l) (k : κ) :
    Indexes key (m.erase k) (l.filter fun a => key a ≠ k) := by
  show m.entries.filter _ = _
  rw [h, List.filter_map]
  rfl

end Indexes

end InsertionMap
