import DocPatch.Proofs.Store.Batch
import DocPatch.Proofs.Store.Walk

/-! Updates by one operator, and operations that have nothing to do. -/

namespace DocPatch

namespace Update

variable {filters : List Fields} {operator : String}

/-- An update by one operator carries it out at its paths. -/
theorem apply_operator (entries : Fields) (document : Json) :
    apply filters [(operator, .object entries)] document =
      applyPaths filters operator entries document := by
  -- After the one operator there is nothing left to carry out.
  simp only [apply]
  cases applyPaths filters operator entries document with
  | error => rfl
  | ok changed => simp [Bind.bind, Except.bind, Pure.pure, Except.pure]

/-- An operator at several paths starts with the first. -/
theorem applyPaths_cons (path : String) (argument : Json) (rest : Fields) (document : Json) :
    applyPaths filters operator ((path, argument) :: rest) document =
      (applyPath filters operator path argument document).bind fun here =>
        (applyPaths filters operator rest here.1).bind fun there =>
          .ok (there.1, here.2 || there.2) := rfl

/-- It succeeds when it does so at the first path, and at the others on what the first
    one leaves. -/
theorem applyPaths_cons_ok {entry : String × Json} {rest : Fields} {document after : Json}
    {changed : Bool} : applyPaths filters operator (entry :: rest) document = .ok (after, changed) ↔
      ∃ between first later,
        applyPath filters operator entry.1 entry.2 document = .ok (between, first) ∧
        applyPaths filters operator rest between = .ok (after, later) ∧
        changed = (first || later) := by
  -- The steps of the run are opened for one direction and put together for the other.
  rw [applyPaths, bind_eq_ok]
  constructor
  · intro given
    obtain ⟨⟨between, first⟩, here, remaining⟩ := given
    obtain ⟨⟨left, later⟩, there, same⟩ := bind_eq_ok.mp remaining
    obtain ⟨rfl, rfl⟩ := Prod.mk.inj (Except.ok.inj same)
    exact ⟨between, first, later, here, there, rfl⟩
  · intro given
    obtain ⟨between, first, later, here, there, rfl⟩ := given
    exact ⟨(between, first), here, bind_eq_ok.mpr ⟨(after, later), there, rfl⟩⟩

/-- An operator at one path is carried out there. -/
theorem apply_single (path : String) (argument document : Json) :
    apply filters (Update.single operator path argument) document =
      applyPath filters operator path argument document := by
  -- There is one path, and after it the operator is done.
  rw [Update.single, Json.single, apply_operator, applyPaths_cons]
  cases applyPath filters operator path argument document with
  | error => rfl
  | ok changed => simp [applyPaths, Except.bind]

/-- An operator that is idle at each of its paths is idle. -/
theorem applyPaths_idle {entries : Fields} {document : Json}
    (idle : ∀ entry ∈ entries,
      applyPath filters operator entry.1 entry.2 document = .ok (document, false)) :
    applyPaths filters operator entries document = .ok (document, false) := by
  -- Each path leaves the document to the next one.
  induction entries with
  | nil => rfl
  | cons entry rest ih =>
    rw [applyPaths_cons, idle entry (by simp)]
    simp [Except.bind, ih fun other member => idle other (by simp [member])]

end Update

namespace Operation

/-- An operation has nothing to do where its filter does not select, or its update is idle. -/
theorem Settled.of_update {operation : Operation} {document : Json}
    (idle : Query.satisfies document operation.filter = true →
      Update.apply operation.arrayFilters operation.update document = .ok (document, false)) :
    operation.Settled document := by
  -- An operation that does not select the document leaves it anyway.
  by_cases selected : Query.satisfies document operation.filter = true
  · -- The document is selected and counted, but it does not change.
    exact ⟨1, by simp [applyTo, selected, idle selected, Bind.bind, Except.bind, Pure.pure,
      Except.pure]⟩
  · -- It is not selected, and so not even counted.
    exact ⟨0, by simp [applyTo, selected, Outcome.zero]⟩

/-- What an operation leaves of a document that its filter selects. -/
theorem applyTo_of_satisfies {operation : Operation} {document : Json}
    (selected : Query.satisfies document operation.filter = true) :
    operation.applyTo document =
      (Update.apply operation.arrayFilters operation.update document).map fun changed =>
        (changed.1, ⟨1, if changed.2 then 1 else 0⟩) := by
  -- The outcome counts the document as matched, and as modified if it changed.
  rw [applyTo, if_pos selected]
  cases Update.apply operation.arrayFilters operation.update document <;> rfl

/-- A batch succeeds and keeps a property of a document, if the update of each of its operations
    does. -/
theorem exists_result {holds : Json → Prop} {batch : List Operation}
    (each : ∀ operation ∈ batch, ∀ document, holds document → ∃ after,
      (Update.apply operation.arrayFilters operation.update document).map Prod.fst = .ok after ∧
        holds after) {document : Json} (start : holds document) :
    ∃ after, result batch document = .ok after ∧ holds after := by
  induction batch generalizing document with
  | nil => exact ⟨document, rfl, start⟩
  | cons operation rest ih =>
    have later := @ih fun other member => each other (by simp [member])
    by_cases selected : Query.satisfies document operation.filter = true
    · -- The update leaves a document with the property to the others.
      obtain ⟨between, done, kept⟩ := each operation (by simp) document start
      obtain ⟨⟨reached, changed⟩, applied, rfl⟩ := map_eq_ok.mp done
      obtain ⟨after, ran, holds⟩ := later kept
      exact ⟨after, by rw [result_cons, applyTo_of_satisfies selected, applied]; exact ran, holds⟩
    · -- A document that is not selected is left as it is.
      obtain ⟨after, ran, holds⟩ := later start
      exact ⟨after, by rw [result_cons, applyTo, if_neg selected]; exact ran, holds⟩

/-- A settled operation leaves the document to those after it. -/
theorem Settled.result_cons {operation : Operation} {document : Json}
    (settled : operation.Settled document) (rest : List Operation) :
    result (operation :: rest) document = result rest document := by
  -- Its outcome is only added to the others, and the document is the same.
  obtain ⟨matched, done⟩ := settled
  rw [Operation.result_cons, done]
  rfl

/-- Settled operations leave the document. -/
theorem result_of_settled {batch : List Operation} {document : Json}
    (settled : ∀ operation ∈ batch, operation.Settled document) :
    result batch document = .ok document := by
  -- What the first operation leaves is the document itself.
  induction batch with
  | nil => rfl
  | cons operation rest ih =>
    rw [(settled operation (by simp)).result_cons]
    exact ih fun other member => settled other (by simp [member])

end Operation

end DocPatch
