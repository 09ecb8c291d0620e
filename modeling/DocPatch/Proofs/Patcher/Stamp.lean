import DocPatch.Proofs.Patcher.Targets
import DocPatch.Proofs.Store.Texts

/-! The time of modification: whatever else a patch does, every document that it reaches holds the
    time of this patch in the end. -/

namespace DocPatch

open Operation (Spares run)
open Update (Overwrites)

namespace Operation

variable {name operator : String} {operation : Operation}

/-- An update by an operator that needs arrays overwrites nothing. -/
theorem spares_of_needs {entries : Fields}
    (update : operation.update = [(operator, .object entries)]) (needs : ¬Overwrites operator) :
    operation.Spares name := by
  -- The update has this one operator.
  intro other paths member _ _ _
  rw [update, List.mem_singleton] at member
  obtain ⟨rfl, -⟩ := Prod.mk.inj member
  exact needs

/-- An update by one operator overwrites no field that it does not list. -/
theorem spares_of_not_mem {entries : Fields}
    (update : operation.update = [(operator, .object entries)])
    (absent : name ∉ entries.map Prod.fst) : operation.Spares name := by
  -- All paths of the update are fields that are listed.
  intro other paths member entry among same
  rw [update, List.mem_singleton] at member
  obtain ⟨-, listed⟩ := Prod.mk.inj member
  obtain rfl := Json.object.inj listed
  exact absurd (List.mem_map.mpr ⟨entry, among, same⟩) absent

end Operation

section Plan

variable {name : String} {base tree : Fields}

/-- What is set inside an element is no field of the document. -/
theorem Element.not_mem_assignments (dotless : '.' ∉ name.toList) (site : Site) (object : Fields) :
    name ∉ (describe site object).assignments.map Prod.fst := by
  intro member
  obtain ⟨_, among, rfl⟩ := List.mem_map.mp (Fields.mem_keys_ofEntries member)
  obtain ⟨leaf, -, rfl⟩ := List.mem_map.mp among
  -- A path inside an element has a dot behind the placeholder of the element.
  simp [Path.join_of_ne (site.memberPath_ne_empty _)] at dotless

/-- The operations that add a tree overwrite no field of the document. -/
theorem Insertion.operations_spare (dotless : '.' ∉ name.toList) {ops : List Operation}
    (compiled : operations base tree = .ok ops) : ∀ op ∈ ops, op.Spares name := by
  -- Values and objects are added by operators that need an array, and the fields that are set lie
  -- inside elements.
  have invariant : Invariant (fun _ => True) (fun _ => True) (Spares name) :=
    { child := fun _ _ _ _ _ => trivial
      values := fun _ _ => Operation.spares_of_needs rfl (by simp [Overwrites])
      insert := fun _ _ => Operation.spares_of_needs rfl (by simp [Overwrites])
      assign := fun _ _ _ _ =>
        Operation.spares_of_not_mem rfl (Element.not_mem_assignments dotless _ _) }
  exact invariant.operations (Json.fieldsKeysHold_of_forall (fun _ => trivial) tree)
    (fun _ _ => trivial) compiled

/-- The operations that remove a tree overwrite nothing. -/
theorem Removal.operations_spare : ∀ op ∈ operations base tree, op.Spares name := by
  -- Every operation takes something out of an array.
  have invariant : Invariant (fun _ => True) (fun _ => True) (Spares name) :=
    { child := fun _ _ _ _ _ => trivial
      values := fun _ _ _ => Operation.spares_of_needs rfl (by simp [Overwrites])
      pull := fun _ _ _ => Operation.spares_of_needs rfl (by simp [Overwrites]) }
  exact invariant.operations (Json.fieldsKeysHold_of_forall (fun _ => trivial) tree)
    fun _ _ => trivial

/-- The operations of a patch start by setting the time with the other fields, and then leave it. -/
theorem Patch.operations_stamped {instruction : Instruction} {time : Timestamp}
    {batch : List Operation} (dotless : '.' ∉ name.toList) (kept : name ∉ instruction.unset)
    (compiled : Patch.operations base instruction name time = .ok batch) :
    ∃ rest, batch = ⟨base, Update.set (assignments instruction name time), []⟩ :: rest ∧
      ∀ op ∈ rest, op.Spares name := by
  obtain ⟨added, compiledAdd, same⟩ := bind_eq_ok.mp compiled
  obtain rfl := Except.ok.inj same
  rw [List.cons_append, List.cons_append]
  refine ⟨_, rfl, fun op member => ?_⟩
  simp only [List.mem_append] at member
  rcases member with (mine | removed) | unset
  · exact Insertion.operations_spare dotless compiledAdd op mine
  · exact Removal.operations_spare op removed
  · -- The field is not among those that are taken away.
    split at unset
    · simp at unset
    · obtain rfl := List.mem_singleton.mp unset
      refine Operation.spares_of_not_mem rfl fun listed => kept ?_
      simpa using Fields.mem_keys_ofEntries listed

end Plan

namespace Update

variable {filters : List Fields} {name text : String}

/-- A field that is set to a text holds it. -/
theorem applyPath_sets {document after : Json} {changed : Bool} (dotless : '.' ∉ name.toList)
    (keyed : document.KeyedObject)
    (done : applyPath filters "$set" name (.string text) document = .ok (after, changed)) :
    after.HoldsText name text := by
  -- The path is the field alone, so that the last step sets it in the document itself.
  obtain ⟨fields, rfl, once⟩ := keyed
  rw [applyPath, Path.segments_of_dotless dotless] at done
  obtain ⟨⟨left, flag⟩, set, same⟩ := bind_eq_ok.mp done
  obtain ⟨rfl, rfl⟩ := Prod.mk.inj (Except.ok.inj same)
  obtain ⟨rfl, -⟩ := Prod.mk.inj (Except.ok.inj set)
  exact ⟨_, rfl, Fields.nodup_put once, Fields.lookup_put_self ..⟩

/-- A text that is set among other fields is there in the end, whatever the other paths are. -/
theorem applyPaths_sets {entries : Fields} {document after : Json} {changed : Bool}
    (dotless : '.' ∉ name.toList) (keyed : document.KeyedObject)
    (once : (entries.map Prod.fst).Nodup) (listed : entries.lookup name = some (.string text))
    (done : applyPaths filters "$set" entries document = .ok (after, changed)) :
    after.HoldsText name text := by
  -- Before the field is set there is an object at least, and after that the text stays.
  induction entries generalizing document changed with
  | nil => simp at listed
  | cons entry rest ih =>
    obtain ⟨path, argument⟩ := entry
    obtain ⟨fresh, others⟩ := List.nodup_cons.mp once
    obtain ⟨between, _, _, first, later, -⟩ := applyPaths_cons_ok.mp done
    rw [Fields.lookup_entry] at listed
    by_cases here : name = path
    · subst here
      simp only [↓reduceIte, Option.some.injEq] at listed
      subst listed
      refine applyPaths_preserves (fun other member => applyPath_holdsText fun same => ?_)
        (applyPath_sets dotless keyed first) later
      exact absurd (List.mem_map.mpr ⟨other, member, same⟩) fresh
    · simp only [here, ↓reduceIte] at listed
      exact ih (applyPath_keyedObject path keyed first) others listed later

end Update

namespace Patch

variable {base : Fields} {instruction : Instruction} {name : String} {time : Timestamp}
  {batch : List Operation}

/-- An object that the base filter selects holds the time after all operations of a patch. -/
theorem run_stamps (dotless : '.' ∉ name.toList) (kept : name ∉ instruction.unset)
    (once : ((instruction.set.getD []).map Prod.fst).Nodup)
    (compiled : Patch.operations base instruction name time = .ok batch) {document after : Json}
    {outcome : Outcome} (keyed : document.KeyedObject)
    (selected : Query.satisfies document base = true)
    (done : run batch document = .ok (after, outcome)) :
    after.HoldsText name time.text := by
  obtain ⟨rest, rfl, spares⟩ := operations_stamped dotless kept compiled
  obtain ⟨between, first, later, here, there, -⟩ := Operation.run_cons_ok.mp done
  refine Operation.run_holdsText spares ?_ there
  -- The first operation selects by the base filter, and sets the time.
  rw [Operation.applyTo_of_satisfies selected] at here
  obtain ⟨⟨left, flag⟩, applied, same⟩ := map_eq_ok.mp here
  obtain ⟨rfl, -⟩ := Prod.mk.inj same
  rw [Update.set, Update.apply_operator] at applied
  exact Update.applyPaths_sets dotless keyed (Fields.nodup_put once) (Fields.lookup_put_self ..)
    applied

end Patch

namespace Patcher

variable {patcher : Patcher} {filter : Fields} {instruction : Instruction}
  {projection : Option Fields} {time : Timestamp}

/-- The time of modification survives every successful patch. Whatever is set, added, removed and
    taken away, if the field of the time is not taken away itself, every object that the filter
    selected holds the time of this patch in it. -/
theorem patch_stamps (lasting : patcher.collection.vanishing = false)
    (keyed : ∀ document ∈ patcher.collection.documents, document.WellKeyed)
    (dotless : '.' ∉ patcher.settings.timestampField.toList)
    (kept : patcher.settings.timestampField ∉ instruction.unset)
    (once : ((instruction.set.getD []).map Prod.fst).Nodup) {shown : Json}
    (answered : (patcher.patch filter instruction projection time).1 = .ok shown) :
    List.Forall₂ (fun before after => before.isObject = true →
        Query.satisfies before filter = true →
          after.HoldsText patcher.settings.timestampField time.text)
      patcher.collection.documents
      (patcher.patch filter instruction projection time).2.collection.documents := by
  -- A patch that succeeded has carried out its batch on every document.
  cases planned : patcher.plan filter instruction time with
  | error failure => simp [patch, planned] at answered
  | ok batch =>
    have compiled := plan_eq_ok planned
    rw [patch_documents planned]
    cases called : patcher.collection.bulkUpdate batch with
    | mk answer after =>
      cases answer with
      | error error => simp [patch, planned, write, called] at answered
      | ok outcome =>
        obtain ⟨-, left, applied, rfl⟩ := Collection.bulkUpdate_eq_ok.mp called
        simp only [lasting, Bool.false_eq_true, ↓reduceIte]
        have ran := Operation.forall₂_run_of_applyBatch applied
        have each := (List.forall₂_and_left _ _).mpr ⟨keyed, ran⟩
        refine each.imp fun before after given object selected => ?_
        obtain ⟨whole, here, done⟩ := given
        exact Patch.run_stamps dotless kept once compiled (whole.keyedObject object) selected done

/-- A document that the filter selects, with an old time, and one that it does not select. -/
def datedPatcher : Patcher :=
  .start (.ofDocuments [.object [("id", .string "x"), ("updatedAt", .string "never"), ("n", .null),
    ("tags", .array [.string "b"])], .object [("id", .string "y")]]) .standard

/-- An instruction that sets the field of the time as well, and a path below it, and that adds,
    removes and takes away something else. -/
def datedInstruction : Instruction :=
  ⟨some [("updatedAt", .null), ("updatedAt.zone", .bool true)], ["n", "updatedAt.zone"],
    some (.object [("tags", .array [.string "a"])]),
    some (.object [("tags", .array [.string "b"])])⟩

/-- The patch succeeds, and the document has the time of the patch and nothing below it. -/
theorem patch_stamps_dated :
    (datedPatcher.patch renameFilter datedInstruction none renameTime).1.isOk = true ∧
      ∃ dated other,
        (datedPatcher.patch renameFilter datedInstruction none renameTime).2.collection.documents =
          [dated, other] ∧
        dated.HoldsText "updatedAt" renameTime.text := by
  -- Both documents are well keyed, and the filter selects the first one.
  have succeeds :
      (datedPatcher.patch renameFilter datedInstruction none renameTime).1.isOk = true := by
    decide +kernel
  refine ⟨succeeds, ?_⟩
  cases answered : (datedPatcher.patch renameFilter datedInstruction none renameTime).1 with
  | error failure => simp [answered, Except.isOk, Except.toBool] at succeeds
  | ok shown =>
    have keyed : ∀ document ∈ datedPatcher.collection.documents, document.WellKeyed := by
      simp [datedPatcher, start, Collection.ofDocuments, Json.WellKeyed, Json.FieldsWellKeyed,
        Json.ItemsWellKeyed]
    have stamped := @patch_stamps datedPatcher renameFilter datedInstruction none
      renameTime rfl keyed (by decide) (by decide) (by decide) shown answered
    obtain ⟨dated, others, mine, rest, whole⟩ := List.forall₂_cons_left_iff.mp stamped
    obtain ⟨other, last, -, ended, rfl⟩ := List.forall₂_cons_left_iff.mp rest
    obtain rfl := List.forall₂_nil_left_iff.mp ended
    exact ⟨dated, other, whole, mine rfl (by decide +kernel)⟩

end Patcher

end DocPatch
