import JobManager.Text.Regex
import JobManager.Text.Whitespace

/-! Strings as a script counts them: UTF-16 code units, lone surrogates included. -/
namespace Text

/-- UTF-16. -/
def charUnits (c : Char) : List UInt16 :=
  let n := c.toNat
  if n < 0x10000 then [n.toUInt16]
  else [(0xd800 + (n - 0x10000) / 0x400).toUInt16, (0xdc00 + (n - 0x10000) % 0x400).toUInt16]

def units (s : String) : List UInt16 := s.toList.flatMap charUnits

/-- The code unit of a character below the surrogates. -/
def unit (c : Char) : UInt16 := c.toNat.toUInt16

/-- The character of a code unit; that of a surrogate belongs to no class of characters. -/
def unitChar (u : UInt16) : Char := Char.ofNat u.toNat

/-- `\s`. -/
def isSpaceUnit (u : UInt16) : Bool := isSpace (unitChar u)

/-- `\w`. -/
def isWordUnit (u : UInt16) : Bool := (unitChar u).isAlphanum || unitChar u = '_'

/-- `trim` of code units. -/
def trimUnits (s : List UInt16) : List UInt16 := strip isSpaceUnit s

/-- The text, as an expression. -/
def literally (s : String) : List (UInt16 → Bool) := Regex.literal (units s)

/-- The lower case of an ASCII letter; only these letters have a case for the flag `i`. -/
def lowerUnit (u : UInt16) : UInt16 := if unit 'A' ≤ u ∧ u ≤ unit 'Z' then u + 32 else u

/-- A text in lower case, as an expression with the flag `i`. -/
def ignoringCase (s : String) : List (UInt16 → Bool) := (units s).map fun u v => lowerUnit v = u

@[simp] theorem units_append (s t : String) : units (s ++ t) = units s ++ units t := by
  simp [units]

theorem mem_units {s : String} {c : Char} (hc : c.toNat < 0xd800) (h : unit c ∈ units s) :
    c ∈ s.toList := by
  obtain ⟨d, hd, hmem⟩ := List.mem_flatMap.mp h
  have hplane : c.toNat < 0x10000 := by omega
  have hcode : (unit c).toNat = c.toNat := by
    unfold unit
    simpa using hplane
  unfold charUnits at hmem
  dsimp only at hmem
  split at hmem
  · next hd' =>
    have heq := congrArg UInt16.toNat (List.mem_singleton.mp hmem)
    rw [hcode] at heq
    have hdc : c.toNat = d.toNat := by simpa [Nat.mod_eq_of_lt hd'] using heq
    rwa [Char.toNat_inj.mp hdc]
  · have hscalar := d.valid
    simp only [UInt32.isValidChar, Nat.isValidChar, Char.toNat_val] at hscalar
    rcases List.mem_pair.mp hmem with hunit | hunit
    · have heq := congrArg UInt16.toNat hunit
      simp only [hcode, UInt16.toNat_ofNat', Nat.toUInt16_eq] at heq
      omega
    · have heq := congrArg UInt16.toNat hunit
      simp only [hcode, UInt16.toNat_ofNat', Nat.toUInt16_eq] at heq
      omega

/-- There is no capital letter in the text. -/
def Lower (s : String) : Prop := (units s).map lowerUnit = units s

theorem ignoringCase_units {s : String} (h : Lower s) :
    List.Forall₂ (fun p u => p u = true) (ignoringCase s) (units s) := by
  unfold Lower at h
  unfold ignoringCase
  generalize units s = us at h
  induction us with
  | nil => exact .nil
  | cons u us ih =>
    rw [List.map_cons, List.cons.injEq] at h
    exact .cons (decide_eq_true h.1) (ih h.2)

theorem eq_lt_of_lowerUnit {u : UInt16} (h : lowerUnit u = unit '<') : u = unit '<' := by
  unfold lowerUnit at h
  split at h
  · next hletter =>
    exfalso
    have hcode := congrArg UInt16.toNat h
    rw [UInt16.le_iff_toNat_le, UInt16.le_iff_toNat_le] at hletter
    simp [unit] at hletter hcode
    omega
  · exact h

end Text
