import Mathlib.Data.List.Nodup
import Mathlib.Tactic

/-! Sets that remember the order in which their elements were first added. -/

structure InsertionSet (α : Type) where
  elements : List α
  nodup : elements.Nodup

namespace InsertionSet

variable {α : Type} [DecidableEq α]

def empty : InsertionSet α := ⟨[], List.nodup_nil⟩

def has (s : InsertionSet α) (a : α) : Bool := a ∈ s.elements

/-- Adding a present element changes nothing. -/
def add (s : InsertionSet α) (a : α) : InsertionSet α where
  elements := if a ∈ s.elements then s.elements else s.elements ++ [a]
  nodup := by
    split
    · exact s.nodup
    · next h => exact List.nodup_append.mpr ⟨s.nodup, List.nodup_singleton a, by
        rintro b hb _ ha rfl
        exact h (List.mem_singleton.mp ha ▸ hb)⟩

/-- `new Set(l)`. -/
def ofList (l : List α) : InsertionSet α := l.foldl add empty

@[simp] theorem has_add (s : InsertionSet α) (a b : α) :
    (s.add a).has b = (decide (b = a) || s.has b) := by
  unfold has add
  split <;> by_cases hb : b = a <;> simp_all

theorem has_ofList (l : List α) (a : α) : (ofList l).has a = decide (a ∈ l) := by
  induction l using List.reverseRecOn with
  | nil => rfl
  | append_singleton l b ih =>
    rw [ofList, List.foldl_append, List.foldl_cons, List.foldl_nil, has_add, ← ofList, ih]
    by_cases h : a = b <;> simp [h]

end InsertionSet
