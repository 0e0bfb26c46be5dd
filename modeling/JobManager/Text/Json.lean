import JobManager.Text.Whitespace

/-! JSON values as a script sees them, over any type `N` of numbers. -/

/-- Of two fields of an object with one name the later one counts. -/
inductive Json (N : Type) where
  | null
  | bool (value : Bool)
  | number (value : N)
  | string (value : String)
  | array (elements : List (Json N))
  | object (fields : List (String × Json N))
  deriving Repr

/-- How `String` and `JSON.stringify` print the numbers. -/
class NumberToString (N : Type) where
  numberToString : N → String

export NumberToString (numberToString)

/-- Below `10 ^ 21` integers are printed without an exponent. -/
instance : NumberToString ℕ := ⟨fun n => toString n⟩

/-- A number of which nothing is read but its text. -/
structure PrintedNumber where
  text : String

instance : NumberToString PrintedNumber := ⟨PrintedNumber.text⟩

namespace Json

variable {N : Type}

/-- `v.name` of a value that is not `null`; `none` stands for `undefined`. -/
def property (v : Json N) (name : String) : Option (Json N) :=
  match v with
  | object fields => (fields.reverse.find? (·.1 = name)).map (·.2)
  | _ => none

/-- `v[i]` of a value that is not `null`. -/
def item (v : Json N) (i : ℕ) : Option (Json N) :=
  match v with
  | array elements => elements[i]?
  | string s => s.toList[i]?.map fun c => string (String.singleton c)
  | _ => v.property (toString i)

/-- `v?.access`. -/
def chain (v : Option (Json N)) (access : Json N → Option (Json N)) : Option (Json N) :=
  match v with
  | none | some null => none
  | some v => access v

section Texts

variable [NumberToString N]

mutual

/-- `String(v)`, where that does not throw: an object must not hide the inherited conversion. -/
def text : Json N → Option String
  | null => some "null"
  | bool b => some (toString b)
  | number n => some (numberToString n)
  | string s => some s
  | array vs => (joinTexts vs).map (String.intercalate ",")
  | object fields => if fields.any (·.1 = "toString") then none else some "[object Object]"

/-- The texts of the elements as `Array.prototype.join` takes them. -/
def joinTexts : List (Json N) → Option (List String)
  | [] => some []
  | null :: vs => (joinTexts vs).map ("" :: ·)
  | v :: vs => do
    let s ← v.text
    let ss ← joinTexts vs
    return s :: ss

end

/-- The escape of one character of a string. -/
def escape (c : Char) : List Char :=
  match c with
  | '"' => ['\\', '"']
  | '\\' => ['\\', '\\']
  | '\x08' => ['\\', 'b']
  | '\x0c' => ['\\', 'f']
  | '\n' => ['\\', 'n']
  | '\r' => ['\\', 'r']
  | '\t' => ['\\', 't']
  | c => if c.toNat < 32
    then ['\\', 'u', '0', '0', Nat.digitChar (c.toNat / 16), Nat.digitChar (c.toNat % 16)]
    else [c]

def quote (s : String) : String := String.ofList ('"' :: s.toList.flatMap escape ++ ['"'])

mutual

/-- `JSON.stringify`. -/
def stringify : Json N → String
  | null => "null"
  | bool b => toString b
  | number n => numberToString n
  | string s => quote s
  | array vs => "[" ++ String.intercalate "," (stringifyElements vs) ++ "]"
  | object fields => "\x7b" ++ String.intercalate "," (stringifyFields fields) ++ "\x7d"

def stringifyElements : List (Json N) → List String
  | [] => []
  | v :: vs => v.stringify :: stringifyElements vs

def stringifyFields : List (String × Json N) → List String
  | [] => []
  | (name, v) :: fields => (quote name ++ ":" ++ v.stringify) :: stringifyFields fields

end

/-- The text of an array is between brackets. -/
theorem toList_stringify_array (vs : List (Json N)) :
    ∃ cs, (stringify (array vs)).toList = '[' :: cs ++ [']'] :=
  ⟨(String.intercalate "," (stringifyElements vs)).toList, by simp [stringify]⟩

theorem newline_notMem_append {s t : String} :
    '\n' ∉ (s ++ t).toList ↔ '\n' ∉ s.toList ∧ '\n' ∉ t.toList := by
  rw [String.toList_append, List.mem_append, not_or]

theorem newline_notMem_escape (c : Char) : '\n' ∉ escape c := by
  unfold escape
  split
  case h_8 _ _ _ _ _ hnewline _ _ =>
    split_ifs with hcontrol
    · have hdigit : ∀ n < 16, '\n' ≠ Nat.digitChar n := by decide
      simp [hdigit (c.toNat / 16) (by omega), hdigit (c.toNat % 16) (by omega)]
    · simpa using Ne.symm hnewline
  all_goals decide

/-- An escape brings in nothing but backslashes, letters and hexadecimal digits. -/
theorem mem_escape {c x : Char} (h : x ∈ escape c) :
    x = c ∨ x ∈ "\"\\bfnrtu0123456789abcdef".toList := by
  have hdigit : ∀ n < 16, Nat.digitChar n ∈ "\"\\bfnrtu0123456789abcdef".toList := by decide
  unfold escape at h
  split at h
  case h_8 =>
    split_ifs at h with hcontrol
    · have hhigh := hdigit (c.toNat / 16) (by omega)
      have hlow := hdigit (c.toNat % 16) (by omega)
      simp only [List.mem_cons, List.not_mem_nil, or_false] at h
      rcases h with rfl | rfl | rfl | rfl | rfl | rfl
      case inr.inr.inr.inr.inl => exact .inr hhigh
      case inr.inr.inr.inr.inr => exact .inr hlow
      all_goals exact .inr (by decide)
    · exact .inl (List.mem_singleton.mp h)
  all_goals
    simp only [List.mem_cons, List.not_mem_nil, or_false] at h
    rcases h with rfl | rfl <;> exact .inr (by decide)

theorem mem_quote {s : String} {x : Char} (h : x ∈ (quote s).toList) :
    x ∈ s.toList ∨ x ∈ "\"\\bfnrtu0123456789abcdef".toList := by
  rw [quote, String.toList_ofList, List.cons_append, List.mem_cons, List.mem_append,
    List.mem_singleton] at h
  rcases h with rfl | h | rfl
  · exact .inr (by decide)
  · obtain ⟨c, hc, hx⟩ := List.mem_flatMap.mp h
    rcases mem_escape hx with rfl | hx
    · exact .inl hc
    · exact .inr hx
  · exact .inr (by decide)

theorem newline_notMem_quote (s : String) : '\n' ∉ (quote s).toList := by
  have hescaped : '\n' ∉ s.toList.flatMap escape := by
    intro hmem
    obtain ⟨c, -, hc⟩ := List.mem_flatMap.mp hmem
    exact newline_notMem_escape c hc
  simp [quote, hescaped]

theorem newline_notMem_intercalate {pieces : List String}
    (h : ∀ piece ∈ pieces, '\n' ∉ piece.toList) :
    '\n' ∉ (String.intercalate "," pieces).toList := by
  induction pieces with
  | nil => simp
  | cons piece pieces ih =>
    obtain ⟨hpiece, hpieces⟩ := List.forall_mem_cons.mp h
    cases pieces with
    | nil => simpa using hpiece
    | cons next rest =>
      rw [String.intercalate_cons_cons, newline_notMem_append, newline_notMem_append]
      exact ⟨⟨hpiece, by decide⟩, ih hpieces⟩

mutual

/-- The text of a value is one line if the texts of its numbers are. -/
theorem newline_notMem_stringify (hnumber : ∀ n : N, '\n' ∉ (numberToString n).toList)
    (v : Json N) : '\n' ∉ v.stringify.toList := by
  cases v with
  | null => simp [stringify]
  | bool b =>
    rw [stringify]
    cases b <;> decide
  | number n => exact hnumber n
  | string s => exact newline_notMem_quote s
  | array vs =>
    have hvs := newline_notMem_intercalate (newline_notMem_stringifyElements hnumber vs)
    rw [stringify, newline_notMem_append, newline_notMem_append]
    exact ⟨⟨by decide, hvs⟩, by decide⟩
  | object fields =>
    have hfields := newline_notMem_intercalate (newline_notMem_stringifyFields hnumber fields)
    rw [stringify, newline_notMem_append, newline_notMem_append]
    exact ⟨⟨by decide, hfields⟩, by decide⟩

theorem newline_notMem_stringifyElements (hnumber : ∀ n : N, '\n' ∉ (numberToString n).toList)
    (vs : List (Json N)) : ∀ piece ∈ stringifyElements vs, '\n' ∉ piece.toList := by
  cases vs with
  | nil => simp [stringifyElements]
  | cons v vs =>
    rw [stringifyElements, List.forall_mem_cons]
    exact ⟨newline_notMem_stringify hnumber v, newline_notMem_stringifyElements hnumber vs⟩

theorem newline_notMem_stringifyFields (hnumber : ∀ n : N, '\n' ∉ (numberToString n).toList)
    (fields : List (String × Json N)) :
    ∀ piece ∈ stringifyFields fields, '\n' ∉ piece.toList := by
  cases fields with
  | nil => simp [stringifyFields]
  | cons field fields =>
    obtain ⟨name, v⟩ := field
    rw [stringifyFields, List.forall_mem_cons]
    refine ⟨?_, newline_notMem_stringifyFields hnumber fields⟩
    rw [newline_notMem_append, newline_notMem_append]
    exact ⟨⟨newline_notMem_quote name, by decide⟩, newline_notMem_stringify hnumber v⟩

end

end Texts

theorem newline_notMem_toString_nat (n : ℕ) : '\n' ∉ (toString n).toList := by
  intro hmem
  exact absurd (Text.isDigit_of_mem_toString hmem) (by decide)

theorem newline_notMem_toString_int (n : ℤ) : '\n' ∉ (toString n).toList := by
  rw [Int.toString_eq_repr, Int.repr_eq_if, ← Nat.toString_eq_repr, ← Nat.toString_eq_repr]
  split_ifs
  · exact newline_notMem_toString_nat _
  · rw [newline_notMem_append]
    exact ⟨by decide, newline_notMem_toString_nat _⟩

@[simp] theorem chain_array (vs : List (Json N)) (access : Json N → Option (Json N)) :
    chain (some (array vs)) access = access (array vs) := rfl

@[simp] theorem chain_property (v : Json N) (name : String) :
    chain (some v) (·.property name) = v.property name := by
  cases v <;> rfl

@[simp] theorem item_array (vs : List (Json N)) (i : ℕ) : item (array vs) i = vs[i]? := rfl

end Json
