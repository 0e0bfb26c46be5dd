import JobManager.Adapters.Admission
import JobManager.System.BarePatch
import JobManager.Text.Json

/-! What the validation of `PATCH /jobs/:id` lets through, and what becomes of it. -/
namespace JobManager

open Async JsonDbJobRepository

/-- The validators of class-validator on one property; `none` is a property that is missing. -/
class ClassValidator (N : Type) where
  isString : Option (Json N) → Bool
  length : ℕ → ℕ → Option (Json N) → Bool
  isIn : List String → Option (Json N) → Bool
  isString_iff : ∀ v, isString v = true ↔ ∃ s, v = some (.string s)
  isIn_iff : ∀ values v, isIn values v = true ↔ ∃ s ∈ values, v = some (.string s)

/-- Strings counted in code points. -/
abbrev ClassValidator.codePoints (N : Type) : ClassValidator N where
  isString v := match v with
    | some (.string _) => true
    | _ => false
  length least most v := match v with
    | some (.string s) => least ≤ s.length && s.length ≤ most
    | _ => false
  isIn values v := match v with
    | some (.string s) => values.contains s
    | _ => false
  isString_iff v := by
    cases v with
    | none => simp
    | some v => cases v <;> simp
  isIn_iff values v := by
    cases v with
    | none => simp
    | some v => cases v <;> simp

inductive Validator where
  | isString
  | length (least most : ℕ)
  | isIn (values : List String)

structure DtoProperty where
  name : String
  isOptional : Bool
  validators : List Validator

/-- A DTO class; its class-level validator answers with a message where it fails. -/
structure Dto (N : Type) where
  properties : List DtoProperty
  classValidator : Json N → Except String Unit

/-- `value === undefined || value === null`. -/
def isMissing {N : Type} : Option (Json N) → Bool
  | none | some .null => true
  | _ => false

section Validation

variable {N : Type} [ClassValidator N]

def Validator.validate : Validator → Option (Json N) → Bool
  | .isString => ClassValidator.isString
  | .length least most => ClassValidator.length least most
  | .isIn values => ClassValidator.isIn values

def DtoProperty.validate (property : DtoProperty) (object : Json N) : Bool :=
  let value := object.property property.name
  property.isOptional && isMissing value || property.validators.all (·.validate value)

/-- The pipe with `forbidNonWhitelisted`, on an object with these fields. -/
def ValidationPipe.accepts (dto : Dto N) (fields : List (String × Json N)) : Bool :=
  fields.all (fun field => dto.properties.any (·.name = field.1)) &&
    dto.properties.all (·.validate (.object fields)) &&
    (dto.classValidator (.object fields)).isOk

end Validation

/-- The class decorator: one of the fields has to be other than `undefined`. -/
def AtLeastOneField {N : Type} (fields : List String) (message : Option String) (object : Json N) :
    Except String Unit :=
  let defaultMessage := String.intercalate ", " fields ++ " 중 최소 1개 필드가 필요합니다."
  if fields.any fun name => (object.property name).isSome then .ok ()
  else .error (message.getD defaultMessage)

def patchJobDto {N : Type} : Dto N where
  properties := [
    ⟨"title", true, [.isString, .length 1 200]⟩,
    ⟨"description", true, [.isString, .length 0 2000]⟩,
    ⟨"status", true, [.isIn ["pending"]]⟩]
  classValidator := AtLeastOneField ["title", "description", "status"]
    (some "title, description, status 중 최소 1개 필드가 필요합니다.")

namespace JobsController

variable {N : Type}

/-- A field as the use case and the store take it: `undefined` and `null` are alike to them, for the
store reads the texts through `??` and the use case only compares the status. -/
def fieldText : Option (Json N) → Option String
  | some (.string s) => some s
  | _ => none

/-- What `patch` hands over to the use case. -/
def patchInput (id : String) (dto : Json N) : PatchJobInput where
  id := id
  title := fieldText (dto.property "title")
  description := fieldText (dto.property "description")
  status := if fieldText (dto.property "status") = some "pending" then some .pending else none

/-- `PATCH /jobs/:id` on a job array, without other requests. -/
def patch [LowerCase] (id : String) (dto : Json N) (stamp : Stamp) (jobs : List Job) :
    Except Thrown TransitionResult :=
  (eval (Effect.onJobs stamp) (PatchJobUseCase.execute (patchInput id dto)) jobs).1

/-- A value other than `null` is given for one of the declared fields. -/
def GivesValue (body : Json N) : Prop :=
  ∃ property ∈ (patchJobDto (N := N)).properties, isMissing (body.property property.name) = false

/-- A retry is requested, or the value of a field is supplied. -/
def Supplies (input : PatchJobInput) : Prop :=
  input.status = some .pending ∨ ∃ field text, input.patch.text field = some text

/-- What is expected of an accepted body. -/
structure AsksForSomething [LowerCase] (body : Json N) : Prop where
  /-- One of the declared fields is a string. -/
  string : ∃ property ∈ (patchJobDto (N := N)).properties, ∃ s,
    body.property property.name = some (.string s)
  /-- The use case requests the retry, or passes a text that a PATCH answered ok has stored. -/
  request : ∀ id, (patchInput id body).status = some .pending ∨
    ∃ field text, (patchInput id body).patch.text field = some text ∧
      ∀ stamp jobs job transitioned previousStatus,
        patch id body stamp jobs = .ok (.ok job transitioned previousStatus) →
          job.text field = text
  /-- The job is not rewritten up to its `updatedAt` for want of anything supplied. -/
  rewrite : ∀ id stamp jobs current transitioned previousStatus, stored jobs id = some current →
    patch id body stamp jobs =
      .ok (.ok { current with updatedAt := stamp.now } transitioned previousStatus) →
    Supplies (patchInput id body)

section Accepted

variable {body : Json N} {fields : List (String × Json N)} {stamp : Stamp} {jobs : List Job}
  {id : String}

theorem fieldText_eq_some {v : Option (Json N)} {text : String} :
    fieldText v = some text ↔ v = some (.string text) := by
  unfold fieldText
  split
  · simp
  · next h =>
    constructor
    · intro hnone
      cases hnone
    · intro hv
      exact absurd hv (h text)

/-- The target that the use case asks for, from the job it reads. -/
def target (input : PatchJobInput) (current : Job) : JobStatus :=
  if input.status = some .pending then .pending else current.status

theorem eval_findById [LowerCase] :
    eval (Effect.onJobs stamp) (repository (.findById id)) jobs = (.ok (stored jobs id), jobs) :=
  rfl

theorem eval_withTransition [LowerCase] {current : Job} (hstored : stored jobs id = some current)
    (target : JobStatus) (patch : Option JobPatch) :
    eval (Effect.onJobs stamp) (repository (.withTransition id target patch)) jobs =
      (.ok (verdict target patch stamp.now (some current)),
        ((RepoOp.withTransition id target patch).run stamp jobs).2) := by
  rw [← hstored, ← withTransition_answer]
  rfl

theorem patch_of_not_stored [LowerCase] (hstored : stored jobs id = none) :
    patch id body stamp jobs = .ok (.refused .notFound) := by
  unfold patch PatchJobUseCase.execute
  rw [eval_bind, show (patchInput id body).id = id from rfl, eval_findById, hstored]
  rfl

/-- Without other requests the transition meets the job that was read. -/
theorem patch_of_stored [LowerCase] {current : Job} (hstored : stored jobs id = some current) :
    patch id body stamp jobs =
      .ok (verdict (target (patchInput id body) current) (some (patchInput id body).patch)
        stamp.now (some current)) := by
  unfold patch PatchJobUseCase.execute
  rw [eval_bind, show (patchInput id body).id = id from rfl, eval_findById, hstored]
  show (eval _ (repository (.withTransition id _ _) >>= _) jobs).1 = _
  rw [eval_bind, eval_withTransition hstored]
  unfold target PatchJobInput.patch
  generalize verdict _ _ _ _ = result
  cases result with
  | refused reason => rfl
  | ok job transitioned previousStatus =>
    cases transitioned with
    | false => rfl
    | true => rfl

theorem string_of_accepts [ClassValidator N] {property : DtoProperty}
    (h : ValidationPipe.accepts patchJobDto fields = true)
    (hproperty : property ∈ (patchJobDto (N := N)).properties)
    (hgiven : isMissing ((Json.object fields).property property.name) = false) :
    ∃ s, (Json.object fields).property property.name = some (.string s) ∧
      (property.name = "status" → s = "pending") := by
  simp only [ValidationPipe.accepts, Bool.and_eq_true] at h
  have hvalid := List.all_eq_true.mp h.1.2 property hproperty
  simp only [DtoProperty.validate, hgiven, Bool.and_false, Bool.false_or] at hvalid
  simp only [patchJobDto, List.mem_cons, List.not_mem_nil, or_false] at hproperty
  rcases hproperty with rfl | rfl | rfl
  · simp only [List.all_cons, Validator.validate, Bool.and_eq_true] at hvalid
    obtain ⟨s, hs⟩ := (ClassValidator.isString_iff _).mp hvalid.1
    exact ⟨s, hs, fun hname => absurd hname (by decide)⟩
  · simp only [List.all_cons, Validator.validate, Bool.and_eq_true] at hvalid
    obtain ⟨s, hs⟩ := (ClassValidator.isString_iff _).mp hvalid.1
    exact ⟨s, hs, fun hname => absurd hname (by decide)⟩
  · simp only [List.all_cons, Validator.validate, Bool.and_eq_true] at hvalid
    obtain ⟨s, hmem, hs⟩ := (ClassValidator.isIn_iff _ _).mp hvalid.1
    exact ⟨s, hs, fun _ => List.mem_singleton.mp hmem⟩

/-- A text that a PATCH supplies is stored if the PATCH is answered ok. -/
theorem text_of_patch_ok [LowerCase] {field : TextField} {text : String} {job : Job}
    {transitioned : Bool} {previousStatus : JobStatus}
    (htext : (patchInput id body).patch.text field = some text)
    (hok : patch id body stamp jobs = .ok (.ok job transitioned previousStatus)) :
    job.text field = text := by
  cases hstored : stored jobs id with
  | none =>
    rw [patch_of_not_stored hstored] at hok
    cases hok
  | some current =>
    rw [patch_of_stored hstored, verdict] at hok
    by_cases hadmits : Admits current (target (patchInput id body) current)
    · rw [if_pos hadmits] at hok
      cases hok
      rw [updatedJob_text, Option.bind_some, htext]
      rfl
    · rw [if_neg hadmits] at hok
      cases hok

/-- A PATCH that supplies nothing rewrites the job and only its `updatedAt` changes. -/
theorem patch_of_not_supplies [LowerCase] {current : Job} (hstored : stored jobs id = some current)
    (hnothing : ¬ Supplies (patchInput id body)) :
    patch id body stamp jobs =
      .ok (.ok { current with updatedAt := stamp.now } false current.status) := by
  rw [patch_of_stored hstored]
  generalize patchInput id body = input at hnothing
  have hstatus : ¬ input.status = some .pending := fun h => hnothing (.inl h)
  have htext : ∀ field, input.patch.text field = none := by
    intro field
    cases hfield : input.patch.text field with
    | none => rfl
    | some text => exact absurd (.inr ⟨field, text, hfield⟩) hnothing
  have hpatch : input.patch = ⟨none, none⟩ :=
    congrArg₂ JobPatch.mk (htext .title) (htext .description)
  have htarget : target input current = current.status := if_neg hstatus
  have hnoretry : ¬ (current.status = .failed ∧ current.status = .pending) := by
    rintro ⟨hfailed, hpending⟩
    rw [hfailed] at hpending
    cases hpending
  rw [htarget, hpatch, verdict, if_pos (.inl rfl)]
  simp [updatedJob, hnoretry]

theorem supplies_of_givesValue [ClassValidator N]
    (h : ValidationPipe.accepts patchJobDto fields = true)
    (hgives : GivesValue (.object fields)) (id : String) :
    Supplies (patchInput id (.object fields)) := by
  obtain ⟨property, hproperty, hgiven⟩ := hgives
  obtain ⟨s, hs, hpending⟩ := string_of_accepts h hproperty hgiven
  simp only [patchJobDto, List.mem_cons, List.not_mem_nil, or_false] at hproperty
  rcases hproperty with rfl | rfl | rfl
  · exact .inr ⟨.title, s, fieldText_eq_some.mpr hs⟩
  · exact .inr ⟨.description, s, fieldText_eq_some.mpr hs⟩
  · obtain rfl := hpending rfl
    exact .inl (if_pos (fieldText_eq_some.mpr hs))

end Accepted

/-- An accepted body asks for something exactly if it gives one of the fields a value other than
`null`: the class-level check takes `null` for a value, the checks of the field skip it. -/
theorem asksForSomething_iff [LowerCase] [ClassValidator N] {fields : List (String × Json N)}
    (h : ValidationPipe.accepts patchJobDto fields = true) :
    AsksForSomething (.object fields) ↔ GivesValue (.object fields) := by
  constructor
  · intro hasks
    obtain ⟨property, hproperty, s, hs⟩ := hasks.string
    exact ⟨property, hproperty, by rw [hs]; rfl⟩
  · intro hgives
    constructor
    · obtain ⟨property, hproperty, hgiven⟩ := hgives
      obtain ⟨s, hs, -⟩ := string_of_accepts h hproperty hgiven
      exact ⟨property, hproperty, s, hs⟩
    · intro id
      rcases supplies_of_givesValue h hgives id with hretry | ⟨field, text, htext⟩
      · exact .inl hretry
      · right
        exact ⟨field, text, htext, fun _ _ _ _ _ hok => text_of_patch_ok htext hok⟩
    · intro id stamp jobs current transitioned previousStatus hstored hrewritten
      exact supplies_of_givesValue h hgives id

theorem asksForSomething_iff_title :
    letI := LowerCase.ascii
    AsksForSomething (N := ℚ) (.object [("title", .string "x")]) ↔
      GivesValue (N := ℚ) (.object [("title", .string "x")]) :=
  let _ := LowerCase.ascii
  let _ := ClassValidator.codePoints ℚ
  asksForSomething_iff (by decide)

/-- `{"title": null}` passes the validation, and the PATCH changes `updatedAt` alone. -/
theorem not_asksForSomething_null :
    letI := LowerCase.ascii
    letI := ClassValidator.codePoints ℚ
    ValidationPipe.accepts (N := ℚ) patchJobDto [("title", .null)] = true ∧
      ¬ AsksForSomething (N := ℚ) (.object [("title", .null)]) := by
  let _ := LowerCase.ascii
  let _ := ClassValidator.codePoints ℚ
  constructor
  · decide
  · intro hasks
    have hnothing : ¬ Supplies (patchInput "1" (.object [("title", (.null : Json ℚ))])) := by
      rintro (hretry | ⟨field, text, htext⟩)
      · revert hretry
        decide
      · cases field with
        | title =>
          revert htext
          decide +revert
        | description =>
          revert htext
          decide +revert
    exact hnothing (hasks.rewrite "1" ⟨"2", "t"⟩ Store.onePending.jobs _ _ _ rfl
      (patch_of_not_supplies rfl hnothing))

end JobsController

end JobManager
