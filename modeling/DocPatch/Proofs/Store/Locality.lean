import DocPatch.Proofs.Store.Outcome
import DocPatch.Proofs.Store.Walk

/-! Updates at one field of a document: apart from whether a filter selects the document, they read
    and write nothing else. -/

namespace DocPatch

namespace Fields

/-- Gives a key a value, if there is one to give. -/
def write (key : String) : Option Json → Fields → Fields
  | none, fields => fields
  | some value, fields => put key value fields

/-- A written key holds the value, if there was one, and other keys hold what they held. -/
theorem lookup_write (key other : String) (value : Option Json) (fields : Fields) :
    (write key value fields).lookup other =
      if other = key then value.or (fields.lookup key) else fields.lookup other := by
  -- Without a value nothing is written.
  cases value with
  | none => by_cases same : other = key <;> simp [write, same]
  | some value => simp [write, lookup_put]

/-- Of two values written to one key the later one stays. -/
@[simp] theorem write_write (key : String) (first second : Option Json) (fields : Fields) :
    write key second (write key first fields) = write key (second.or first) fields := by
  cases first <;> cases second <;> simp [write]

end Fields

namespace Update

/-- What is done to the entries of an object reads one field of them, and writes it at most. -/
def OnField (field : String) (leaf : Fields → Except UpdateError (Change Fields)) : Prop :=
  ∀ fields after changed, leaf fields = .ok (after, changed) →
    -- What is written is the same wherever the field has the same value.
    ∃ value, after = Fields.write field value fields ∧
      ∀ others : Fields, others.lookup field = fields.lookup field →
        leaf others = .ok (Fields.write field value others, changed)

/-- An operator that gives its field a value reads nothing else. -/
theorem ActsBy.onField {leaf : String → Fields → Except UpdateError (Change Fields)}
    {field : String} {change : Option Json → Except UpdateError (Change Json)}
    (acts : ActsBy leaf field change) : OnField field (leaf field) := by
  -- What is made of the value of the field is what is written.
  intro fields after changed done
  rw [acts fields] at done
  obtain ⟨⟨value, flag⟩, made, same⟩ := map_eq_ok.mp done
  obtain ⟨rfl, rfl⟩ := Prod.mk.inj same
  refine ⟨some value, rfl, fun others agree => ?_⟩
  rw [acts others, agree, made, carry_ok]
  rfl

/-- Filtering an array reads nothing but the field that holds it. -/
theorem onField_pull (argument : Json) (field : String) :
    OnField field (applyAt "$pull" argument field) := by
  intro fields after changed done
  simp only [applyAt, arrayAt_eq] at done ⊢
  obtain ⟨items, held, rest⟩ := bind_eq_ok.mp done
  -- A missing array is not made, and any other one is put back.
  split at rest
  · rename_i missing
    obtain ⟨rfl, rfl⟩ := Prod.mk.inj (Except.ok.inj rest)
    refine ⟨none, rfl, fun others agree => ?_⟩
    rw [agree, held]
    simp only [missing, ↓reduceIte]
    rfl
  · rename_i found
    obtain ⟨rfl, rfl⟩ := Prod.mk.inj (Except.ok.inj rest)
    refine ⟨some _, rfl, fun others agree => ?_⟩
    rw [agree, held]
    simp only [found, Bool.false_eq_true, ↓reduceIte]
    rfl

/-- Every operator that takes no field away reads its field only, and gives it a value if it changes
    anything. -/
theorem onField_applyAt {operator : String} (keeps : operator ≠ "$unset") (argument : Json)
    (field : String) : OnField field (applyAt operator argument field) := by
  intro fields after changed done
  unfold applyAt at done
  -- One case for each operator, and the last one for all that are not known.
  split at done
  · exact (actsBy_set argument field).onField _ _ _ done
  · exact absurd rfl keeps
  · exact (actsBy_push argument field).onField _ _ _ done
  · exact (actsBy_addToSet argument field).onField _ _ _ done
  · exact onField_pull argument field _ _ _ done
  · simp at done

/-- What is done to objects that reads one field of them, and whether a filter selects them, and
    that writes the field at most. -/
def Confined {α : Type} (base : Fields) (field : String)
    (act : Json → Except UpdateError (Json × α)) : Prop :=
  ∀ fields after report, act (.object fields) = .ok (after, report) →
    ∃ value, after = .object (Fields.write field value fields) ∧
      -- Objects that agree in the field and in being selected are treated alike.
      ∀ others : Fields, others.lookup field = fields.lookup field →
        Query.satisfies (.object others) base = Query.satisfies (.object fields) base →
        act (.object others) = .ok (.object (Fields.write field value others), report)

section Confined

variable {base : Fields} {field : String}

/-- To leave objects as they are is to write nothing. -/
theorem confined_idle {α : Type} (report : α) :
    Confined base field fun document => .ok (document, report) := by
  -- There is nothing to write.
  intro fields after reported done
  obtain ⟨rfl, rfl⟩ := Prod.mk.inj (Except.ok.inj done)
  exact ⟨none, rfl, fun _ _ _ => rfl⟩

/-- A path that starts at a field of an object leads into that field only. -/
theorem confined_applyPath (base : Fields) (plain : Path.Plain field) {operator : String}
    (keeps : operator ≠ "$unset") {path : String} (start : (Path.segments path).head? = some field)
    (filters : List Fields) (argument : Json) :
    Confined base field (applyPath filters operator path argument) := by
  obtain ⟨tail, segments⟩ := List.head?_eq_some_iff.mp start
  intro fields after changed done
  simp only [applyPath, segments] at done ⊢
  cases tail with
  -- The path ends at the field, where the operator acts.
  | nil =>
    obtain ⟨⟨left, flag⟩, inner, same⟩ := bind_eq_ok.mp done
    obtain ⟨rfl, rfl⟩ := Prod.mk.inj (Except.ok.inj same)
    obtain ⟨value, rfl, alike⟩ := onField_applyAt keeps argument field _ _ _ inner
    refine ⟨value, rfl, fun others agree _ => ?_⟩
    rw [descend, alike others agree]
    rfl
  -- The path goes on inside the field, whatever happens there.
  | cons next rest =>
    cases found : fields.lookup field with
    | some child =>
      rw [descend_field plain (by simp) found] at done
      obtain ⟨⟨inner, flag⟩, below, same⟩ := map_eq_ok.mp done
      obtain ⟨rfl, rfl⟩ := Prod.mk.inj same
      refine ⟨some inner, rfl, fun others agree _ => ?_⟩
      rw [descend_field plain (by simp) agree, below, carry_ok]
      rfl
    | none =>
      rw [descend_missing plain rest found] at done
      split at done
      · -- An object is made for the field.
        rename_i made
        obtain ⟨⟨inner, flag⟩, below, same⟩ := map_eq_ok.mp done
        obtain ⟨rfl, rfl⟩ := Prod.mk.inj same
        refine ⟨some inner, rfl, fun others agree _ => ?_⟩
        rw [descend_missing plain rest agree, if_pos made, below, carry_ok]
        rfl
      · -- Nothing happens.
        rename_i closed
        obtain ⟨rfl, rfl⟩ := Prod.mk.inj (Except.ok.inj done)
        refine ⟨none, rfl, fun others agree _ => ?_⟩
        rw [descend_missing plain rest agree, if_neg closed]
        rfl

end Confined

end Update

end DocPatch
