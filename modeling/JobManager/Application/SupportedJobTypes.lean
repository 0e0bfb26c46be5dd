import JobManager.Application.Ports
import JobManager.Collections.InsertionSet
import JobManager.Text.Whitespace

/-! The registry of implemented job types. -/
namespace JobManager

open Text

/-- The allow list holds trimmed titles, none of them empty. -/
structure AllowListJobTypes where
  allow : InsertionSet String
  trimmed : ∀ title, allow.has title = true → Trimmed title ∧ title ≠ ""

namespace AllowListJobTypes

/-- `new AllowListJobTypes(titles)`. -/
def ofTitles (titles : List String) : AllowListJobTypes where
  allow := .ofList ((titles.map trim).filter fun title => 0 < title.length)
  trimmed title h := by
    rw [InsertionSet.has_ofList, decide_eq_true_eq, List.mem_filter] at h
    obtain ⟨hmem, hpos⟩ := h
    obtain ⟨raw, -, rfl⟩ := List.mem_map.mp hmem
    exact ⟨trimmed_trim raw, length_pos_iff.mp (of_decide_eq_true hpos)⟩

def isSupported (types : AllowListJobTypes) (title : String) : Bool :=
  types.allow.has (trim title)

def titles (types : AllowListJobTypes) : List String := types.allow.elements

def toSupportedJobTypes (types : AllowListJobTypes) : SupportedJobTypes :=
  ⟨types.isSupported, types.titles⟩

theorem isSupported_ofTitles (titles : List String) (title : String) :
    (ofTitles titles).isSupported title = true ↔
      (∃ raw ∈ titles, trim raw = trim title) ∧ trim title ≠ "" := by
  simp only [isSupported, ofTitles, InsertionSet.has_ofList, decide_eq_true_eq, List.mem_filter,
    List.mem_map, length_pos_iff]

end AllowListJobTypes

end JobManager
