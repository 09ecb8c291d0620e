import DocPatch.Proofs.Json.Equality
import DocPatch.Proofs.Store.Locality
import DocPatch.Proofs.Store.Single

/-! A text at a field of a document, and the updates that leave it there: all that neither set the
    field nor take it away. -/

namespace DocPatch

namespace Fields

/-- The keys stand once each, and one of them holds a text. -/
structure HoldText (name text : String) (fields : Fields) : Prop where
  once : (fields.map Prod.fst).Nodup
  held : fields.lookup name = some (.string text)

variable {name text other : String} {fields : Fields}

/-- The text stays when another key is given a value. -/
theorem HoldText.put (holds : HoldText name text fields) (differ : name ≠ other) (value : Json) :
    HoldText name text (put other value fields) :=
  ⟨nodup_put holds.once, by rw [lookup_put_of_ne differ, holds.held]⟩

/-- The text stays when another key is taken away. -/
theorem HoldText.remove (holds : HoldText name text fields) (differ : name ≠ other) :
    HoldText name text (remove other fields) :=
  ⟨nodup_remove holds.once, by rw [lookup_remove holds.once, if_neg differ, holds.held]⟩

end Fields

/-- An object with a text at a field. -/
def Json.HoldsText (name text : String) (document : Json) : Prop :=
  ∃ fields : Fields, document = .object fields ∧ fields.HoldText name text

/-- An object whose keys stand once each. -/
def Json.KeyedObject (document : Json) : Prop :=
  ∃ fields : Fields, document = .object fields ∧ (fields.map Prod.fst).Nodup

/-- In a well keyed object the keys stand once each. -/
theorem Json.WellKeyed.keyedObject {document : Json} (keyed : document.WellKeyed)
    (object : document.isObject = true) : document.KeyedObject := by
  -- Nothing else but an object has entries.
  cases document with
  | object fields =>
    simp only [WellKeyed] at keyed
    exact ⟨fields, rfl, keyed.nodup⟩
  | _ => simp [isObject] at object

namespace Update

/-- Whether an operator changes a field whatever stands there; the others need an array. -/
def Overwrites (operator : String) : Prop := operator = "$set" ∨ operator = "$unset"

variable {filters : List Fields} {create : Bool} {name text operator : String} {path : List String}
  {leaf : String → Fields → Except UpdateError (Change Fields)} {argument : Json} {changed : Bool}

/-- An operator that needs an array fails at a text. -/
theorem applyAt_text {fields : Fields} (held : fields.lookup name = some (.string text))
    (needs : ¬Overwrites operator) (argument : Json) :
    ∃ error, applyAt operator argument name fields = .error error := by
  -- Only setting and taking away do not ask what stands at the field.
  obtain ⟨notSet, notUnset⟩ := not_or.mp needs
  unfold applyAt
  split
  · exact absurd rfl notSet
  · exact absurd rfl notUnset
  · exact ⟨_, by rw [arrayAt_eq, held]; rfl⟩
  · exact ⟨_, by rw [arrayAt_eq, held]; rfl⟩
  · exact ⟨_, by rw [arrayAt_eq, held]; rfl⟩
  · exact ⟨_, rfl⟩

/-- Where the keys stand once each, they do so after an operator. -/
theorem applyAt_nodup {field : String} {fields after : Fields}
    (once : (fields.map Prod.fst).Nodup)
    (done : applyAt operator argument field fields = .ok (after, changed)) :
    (after.map Prod.fst).Nodup := by
  by_cases takes : operator = "$unset"
  · -- A key that is taken away leaves the others.
    subst takes
    obtain ⟨rfl, -⟩ := Prod.mk.inj (Except.ok.inj done)
    exact Fields.nodup_remove once
  · -- Any other operator writes its field at most.
    obtain ⟨value, rfl, -⟩ := onField_applyAt takes argument field _ _ _ done
    cases value with
    | none => exact once
    | some value => exact Fields.nodup_put once

/-- An operator leaves the text, unless it overwrites its field. -/
theorem applyAt_holdText {field : String} {fields after : Fields}
    (holds : fields.HoldText name text) (spares : field = name → ¬Overwrites operator)
    (done : applyAt operator argument field fields = .ok (after, changed)) :
    after.HoldText name text := by
  by_cases same : field = name
  · -- An operator that needs an array does not come to an end.
    subst same
    obtain ⟨error, failed⟩ := applyAt_text holds.held (spares rfl) argument
    exact absurd (failed.symm.trans done) (by simp)
  · by_cases takes : operator = "$unset"
    · subst takes
      obtain ⟨rfl, -⟩ := Prod.mk.inj (Except.ok.inj done)
      exact holds.remove (Ne.symm same)
    · obtain ⟨value, rfl, -⟩ := onField_applyAt takes argument field _ _ _ done
      cases value with
      | none => exact holds
      | some value => exact holds.put (Ne.symm same) value

/-- A path leads nowhere in a text. -/
theorem descend_text {after : Json}
    (done : descend filters create leaf path (.string text) = .ok (after, changed)) :
    after = .string text := by
  -- A text has neither fields nor elements, so it comes back unless an alias is unknown.
  match path with
  | [] | [_] => exact (Prod.mk.inj (Except.ok.inj done)).1.symm
  | head :: next :: rest =>
    rw [descend] at done
    split at done
    · exact (Prod.mk.inj (Except.ok.inj done)).1.symm
    · split at done
      · simp at done
      · exact (Prod.mk.inj (Except.ok.inj done)).1.symm
    · exact (Prod.mk.inj (Except.ok.inj done)).1.symm

/-- What becomes of an object below a path: it stays, its leaf is reached, or the value of a field,
    made if it is missing, becomes what the rest of the path makes of it. -/
theorem descend_object {fields : Fields} {after : Json}
    (done : descend filters create leaf path (.object fields) = .ok (after, changed)) :
    after = .object fields ∨
      (∃ last left, path = [last] ∧ after = .object left ∧ leaf last fields = .ok (left, changed)) ∨
      ∃ head rest inner, path = head :: rest ∧ rest ≠ [] ∧
        after = .object (Fields.put head inner fields) ∧
        descend filters create leaf rest ((fields.lookup head).getD (.object [])) =
          .ok (inner, changed) := by
  match path with
  | [] => exact .inl (Prod.mk.inj (Except.ok.inj done)).1.symm
  | [last] =>
    obtain ⟨⟨left, flag⟩, reached, same⟩ := bind_eq_ok.mp done
    obtain ⟨rfl, rfl⟩ := Prod.mk.inj (Except.ok.inj same)
    exact .inr (.inl ⟨last, left, rfl, rfl, reached⟩)
  | head :: next :: rest =>
    rw [descend] at done
    split at done
    -- An object has no elements.
    · exact .inl (Prod.mk.inj (Except.ok.inj done)).1.symm
    · split at done
      · simp at done
      · exact .inl (Prod.mk.inj (Except.ok.inj done)).1.symm
    · obtain ⟨⟨left, flag⟩, inside, same⟩ := bind_eq_ok.mp done
      obtain ⟨rfl, rfl⟩ := Prod.mk.inj (Except.ok.inj same)
      unfold inField at inside
      split at inside
      · -- The field is missing and stays so.
        obtain ⟨rfl, rfl⟩ := Prod.mk.inj (Except.ok.inj inside)
        exact .inl rfl
      · rename_i child entered
        obtain ⟨⟨inner, flag⟩, below, same⟩ := bind_eq_ok.mp inside
        obtain ⟨rfl, rfl⟩ := Prod.mk.inj (Except.ok.inj same)
        refine .inr (.inr ⟨head, next :: rest, inner, rfl, by simp, rfl, ?_⟩)
        have child_eq : (fields.lookup head).getD (.object []) = child := by
          cases found : fields.lookup head with
          | none =>
            rw [found, Option.none_or] at entered
            split at entered <;> simp_all
          | some value => simpa [found] using entered
        rw [child_eq, below]

/-- What is done to documents keeps a property of them, wherever it succeeds. -/
def Preserves {α : Type} (holds : Json → Prop) (act : Json → Except UpdateError (Json × α)) :
    Prop :=
  ∀ ⦃before after report⦄, holds before → act before = .ok (after, report) → holds after

/-- Where the keys stand once each, they do so after an operator at a path. -/
theorem applyPath_keyedObject (path : String) :
    Preserves Json.KeyedObject (applyPath filters operator path argument) := by
  -- The object stays, the operator acts at one of its keys, or a value below one of
  -- them is put back.
  intro document after changed keyed done
  obtain ⟨fields, rfl, once⟩ := keyed
  rcases descend_object done with rfl | ⟨last, left, -, rfl, reached⟩ | ⟨_, _, _, -, -, rfl, -⟩
  · exact ⟨fields, rfl, once⟩
  · exact ⟨left, rfl, applyAt_nodup once reached⟩
  · exact ⟨_, rfl, Fields.nodup_put once⟩

/-- An operator at a path leaves a text, unless it overwrites it. -/
theorem applyPath_holdsText {path : String} (spares : path = name → ¬Overwrites operator) :
    Preserves (Json.HoldsText name text) (applyPath filters operator path argument) := by
  -- The path ends at a field of the object, goes on inside one, or leads nowhere.
  intro document after changed holds done
  obtain ⟨fields, rfl, held⟩ := holds
  rcases descend_object done with
    rfl | ⟨last, left, one, rfl, reached⟩ | ⟨head, rest, inner, -, -, rfl, below⟩
  · exact ⟨fields, rfl, held⟩
  · -- The path ends at the field of its name.
    obtain rfl := Path.eq_of_segments_singleton one
    exact ⟨left, rfl, applyAt_holdText held spares reached⟩
  · by_cases same : name = head
    · -- The path goes on inside the text, where it leads nowhere.
      subst same
      rw [held.held, Option.getD_some] at below
      rw [descend_text below, Fields.put_lookup held.held]
      exact ⟨fields, rfl, held⟩
    · exact ⟨_, rfl, held.put same inner⟩

/-- What an operator keeps at each of its paths, it keeps at all of them. -/
theorem applyPaths_preserves {holds : Json → Prop} {entries : Fields}
    (each : ∀ entry ∈ entries, Preserves holds (applyPath filters operator entry.1 entry.2)) :
    Preserves holds (applyPaths filters operator entries) := by
  -- The paths are taken in turn, each on what the last one left.
  induction entries with
  | nil =>
    intro document after changed start done
    rwa [← (Prod.mk.inj (Except.ok.inj done)).1]
  | cons entry rest ih =>
    intro document after changed start done
    obtain ⟨between, _, _, first, others, -⟩ := applyPaths_cons_ok.mp done
    exact ih (fun other member => each other (by simp [member])) (each entry (by simp) start first)
      others

/-- What every operator of an update keeps, the update keeps. -/
theorem apply_preserves {holds : Json → Prop} {update : Fields}
    (each : ∀ operator entries, (operator, Json.object entries) ∈ update →
      Preserves holds (applyPaths filters operator entries)) :
    Preserves holds (apply filters update) := by
  induction update with
  | nil =>
    intro document after changed start done
    rwa [← (Prod.mk.inj (Except.ok.inj done)).1]
  | cons entry rest ih =>
    intro document after changed start done
    have later := ih fun operator entries member => each operator entries (by simp [member])
    obtain ⟨operator, argument⟩ := entry
    cases argument with
    | object entries =>
      obtain ⟨⟨between, flag⟩, first, remaining⟩ := bind_eq_ok.mp done
      obtain ⟨⟨left, flag⟩, others, same⟩ := bind_eq_ok.mp remaining
      obtain ⟨rfl, rfl⟩ := Prod.mk.inj (Except.ok.inj same)
      exact later (each operator entries (by simp) start first) others
    -- An operator without an object of paths does nothing.
    | _ => exact later start done

end Update

namespace Operation

open Update (Preserves Overwrites)

/-- What the update of an operation keeps, the operation keeps. -/
theorem applyTo_preserves {holds : Json → Prop} {operation : Operation}
    (updates : Preserves holds (Update.apply operation.arrayFilters operation.update)) :
    Preserves holds operation.applyTo := by
  intro document after outcome start done
  by_cases selected : Query.satisfies document operation.filter = true
  · rw [applyTo_of_satisfies selected] at done
    obtain ⟨⟨left, flag⟩, applied, same⟩ := map_eq_ok.mp done
    obtain ⟨rfl, rfl⟩ := Prod.mk.inj same
    exact updates start applied
  · -- A document that is not selected stays as it is.
    rw [applyTo, if_neg selected] at done
    rwa [← (Prod.mk.inj (Except.ok.inj done)).1]

/-- What every operation of a batch keeps, the batch keeps. -/
theorem run_preserves {holds : Json → Prop} {batch : List Operation}
    (each : ∀ operation ∈ batch, Preserves holds operation.applyTo) :
    Preserves holds (run batch) := by
  -- The operations run in turn, each on what the last one left.
  induction batch with
  | nil =>
    intro document after outcome start done
    rwa [← (Prod.mk.inj (Except.ok.inj done)).1]
  | cons operation rest ih =>
    intro document after outcome start done
    obtain ⟨between, first, later, here, there, rfl⟩ := run_cons_ok.mp done
    exact ih (fun other member => each other (by simp [member]))
      (each operation (by simp) start here) there

/-- The operation does not overwrite a field of the document. -/
def Spares (name : String) (operation : Operation) : Prop :=
  ∀ operator entries, (operator, Json.object entries) ∈ operation.update →
    ∀ entry ∈ entries, entry.1 = name → ¬Overwrites operator

/-- A batch that overwrites no field of a name leaves a text there. -/
theorem run_holdsText {name text : String} {batch : List Operation}
    (spares : ∀ operation ∈ batch, operation.Spares name) :
    Preserves (Json.HoldsText name text) (run batch) :=
  -- From the batch to its operations, their operators and the paths of these.
  run_preserves fun operation member => applyTo_preserves <|
    Update.apply_preserves fun operator entries listed => Update.applyPaths_preserves
      fun entry among => Update.applyPath_holdsText <|
        spares operation member operator entries listed entry among

end Operation

end DocPatch
