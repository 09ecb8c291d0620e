import DocPatch.Proofs.Plan.Addition
import DocPatch.Proofs.Plan.Erasure

/-! Adding values to an array and removing them again: what was there stays, and all that was added
    is taken out. -/

namespace DocPatch

open Projection (lookup place)

namespace Deletion

/-- Whether an object of the tree takes an element out; one that nothing identifies takes none. -/
def picks : Json → Json → Bool
  | .object object, element =>
    -- An empty identity would be satisfied by every element.
    !(Element.identityFilter object).isEmpty && recognises object element
  | _, _ => false

/-- Whether values of the tree take an element out: what is no object by being equal or contained,
    and an object by what identifies it. -/
def takes (values : List Json) (element : Json) : Bool :=
  (values.filter fun value => !value.isObject).any (Query.equalsOrContains element) ||
    values.any fun value => picks value element

section Alone

variable {names : List String} {target : Json} {items : List Json}

/-- An item without arrays takes out of an array what it picks. -/
theorem item_picks {value : Json} (alone : ∀ object, value = .object object → arrays object = [])
    (found : lookup names target = some (.array items)) :
    item names value target =
      some (place (.array (items.filter fun element => !picks value element)) names target) := by
  cases value with
  | object object =>
    have empty : (arrays object).isEmpty = true := by simp [alone object rfl]
    by_cases unidentified : Element.identityFilter object = []
    · -- Nothing is picked, and the array stays.
      rw [item_empty empty unidentified]
      simp [picks, unidentified, Projection.place_lookup found]
    · have some_identity := List.isEmpty_eq_false_iff.mpr unidentified
      rw [item_alone empty unidentified, delete, found]
      simp [picks, some_identity]
  -- Items that are no objects pick nothing.
  | _ =>
    rw [item_other rfl]
    simp [picks, Projection.place_lookup found]

/-- Objects without arrays take out of an array what one of them picks. -/
theorem objects_pick (some_name : names ≠ []) {values : List Json}
    (alone : ∀ object, .object object ∈ values → arrays object = [])
    (found : lookup names target = some (.array items)) :
    objects names values target = some (place (.array (items.filter fun element =>
      !values.any fun value => picks value element)) names target) := by
  -- Each object is left an array by the one before it.
  induction values generalizing target items with
  | nil =>
    rw [objects_nil]
    simp [Projection.place_lookup found]
  | cons first rest ih =>
    have free := Projection.obstructed_of_lookup found
    have mine := @item_picks names target items first
      (fun object same => alone object (by simp [same]))
      found
    have later := @ih _ (items.filter fun element => !picks first element)
      (fun object member => alone object (by simp [member]))
      (Projection.lookup_place some_name free _)
    rw [objects_cons]
    simp only [mine, Option.bind_some, later, Projection.place_place some_name, List.filter_filter]
    simp [Bool.and_comm]

/-- Values of which no object has arrays take out of an array what they take. -/
theorem array_takes (some_name : names ≠ []) {values : List Json}
    (alone : ∀ object, .object object ∈ values → arrays object = [])
    (found : lookup names target = some (.array items)) :
    array names values target =
      some (place (.array (items.filter fun element => !takes values element)) names target) := by
  -- First go the elements that equal or contain one of the values.
  have first : Deletion.values names (values.filter fun value => !value.isObject) target =
      some (place (.array (items.filter fun element =>
        !(values.filter fun value => !value.isObject).any (Query.equalsOrContains element))) names
          target) := by
    unfold Deletion.values
    split
    · rename_i none
      rw [List.isEmpty_iff.mp none]
      simp [Projection.place_lookup found]
    · rw [delete, found]
  -- And then those that the objects pick.
  have free := Projection.obstructed_of_lookup found
  have later := objects_pick some_name alone (Projection.lookup_place some_name free (.array
    (items.filter fun element =>
      !(values.filter fun value => !value.isObject).any (Query.equalsOrContains element))))
  rw [array_eq]
  simp only [first, Option.bind_some, later, Projection.place_place some_name, List.filter_filter]
  simp [takes, Bool.and_comm]

end Alone

end Deletion

namespace Insertion

open Operation (result)

/-- Values that can be added to an array and taken out again: objects have no arrays, and nothing
    that stands in the array is one of the values or recognised by one of them. -/
structure Retractable (values items : List Json) : Prop where
  keyed : ∀ value ∈ values, value.isObject = false → value.WellKeyed
  regular : ∀ object, .object object ∈ values → Element.Regular object
  alone : ∀ object, .object object ∈ values → Deletion.arrays object = []
  freshValues : ∀ value ∈ values, value.isObject = false →
    ∀ item ∈ items, Query.equalsOrContains item value = false
  freshObjects : ∀ object, .object object ∈ values → Element.identityFilter object ≠ [] →
    ∀ item ∈ items, Deletion.recognises object item = false

namespace Retractable

variable {values items : List Json}

/-- What stands in the array is not taken out. -/
theorem untaken (retractable : Retractable values items) {item : Json} (member : item ∈ items) :
    Deletion.takes values item = false := by
  -- Neither the values nor the objects to take out are there yet.
  rw [Deletion.takes, Bool.or_eq_false_iff]
  constructor
  · rw [List.any_eq_false]
    intro value listed
    obtain ⟨among, other⟩ := List.mem_filter.mp listed
    simp [retractable.freshValues value among (by simpa using other) item member]
  · rw [List.any_eq_false]
    intro value among
    cases value with
    | object object =>
      by_cases empty : Element.identityFilter object = []
      · simp [Deletion.picks, empty]
      · simp [Deletion.picks, retractable.freshObjects object among empty item member]
    | _ => simp [Deletion.picks]

/-- A value that is no object takes itself out. -/
theorem takes_value (retractable : Retractable values items) {value : Json}
    (member : value ∈ values) (other : value.isObject = false) :
    Deletion.takes values value = true := by
  -- The value equals itself.
  have same := Json.equal_self value (retractable.keyed value member other)
  rw [Deletion.takes, Bool.or_eq_true]
  exact Or.inl (List.any_eq_true.mpr
    ⟨value, List.mem_filter.mpr ⟨member, by simp [other]⟩, by simp [Query.equalsOrContains, same]⟩)

end Retractable

/-- An element that satisfies what identifies one of the objects is taken out. -/
theorem takes_of_satisfies {values : List Json} {object : Fields}
    (listed : .object object ∈ values) (identified : Element.identityFilter object ≠ [])
    {element : Json} (shape : element.isObject = true)
    (has : Query.satisfies element (Element.identityFilter object) = true) :
    Deletion.takes values element = true := by
  -- One of the listed objects recognises the element.
  rw [Deletion.takes, Bool.or_eq_true]
  exact Or.inr (List.any_eq_true.mpr
    ⟨_, listed, by simp [Deletion.picks, Deletion.recognises, identified, shape, has]⟩)

/-- A document of which a field was an array of some items, or missing, and to which only elements
    were added that the values take out. -/
def Grown (fields : Fields) (name : String) (values items : List Json) (document : Json) : Prop :=
  document = .object fields ∨ ∃ added, (∀ element ∈ added, Deletion.takes values element = true) ∧
    document = .object (Fields.put name (.array (items ++ added)) fields)

section Grown

variable {fields : Fields} {name : String} {values items : List Json} {document : Json}

/-- The array of such a document, which is missing at most while it has no items. Behind the first
    items it may be given any elements that are taken out. -/
theorem Grown.shape
    (held : fields.lookup name = some (.array items) ∨ fields.lookup name = none ∧ items = [])
    (grown : Grown fields name values items document) :
    ∃ current added, document = .object current ∧
      (current.lookup name = some (.array (items ++ added)) ∨
        current.lookup name = none ∧ items ++ added = []) ∧
      (∀ element ∈ added, Deletion.takes values element = true) ∧
      ∀ others, (∀ element ∈ others, Deletion.takes values element = true) →
        Grown fields name values items
          (.object (Fields.put name (.array (items ++ others)) current)) := by
  -- The document is as it was, or its array has new elements behind the first ones.
  rcases grown with rfl | ⟨added, taken, rfl⟩
  · exact ⟨fields, [], rfl, by simpa using held, by simp,
      fun others taken => Or.inr ⟨others, taken, rfl⟩⟩
  · exact ⟨_, added, rfl, by simp, taken, fun others taken => Or.inr ⟨others, taken, by simp⟩⟩

/-- Only the field has changed. -/
theorem Grown.altered (grown : Grown fields name values items document) :
    Projection.Altered [name] (.object fields) document := by
  -- The array was put at the field, if it was touched at all.
  rcases grown with rfl | ⟨added, -, rfl⟩
  · exact .refl _ _
  · exact Or.inr ⟨_, rfl⟩

/-- Taking the values out of such a document leaves the array as it was, or an empty one where it
    was missing. -/
theorem Grown.retract (held : fields.lookup name = some (.array items) ∨
      fields.lookup name = none ∧ items = [])
    (retractable : Retractable values items) (grown : Grown fields name values items document) :
    ∃ after, Deletion.array [name] values document = some after ∧ (after = .object fields ∨
      fields.lookup name = none ∧ after = .object (Fields.put name (.array []) fields)) := by
  have stay : items.filter (fun element => !Deletion.takes values element) = items :=
    List.filter_eq_self.mpr fun item member => by simp [retractable.untaken member]
  rcases grown with rfl | ⟨added, taken, rfl⟩
  · rcases held with found | ⟨missing, rfl⟩
    · -- Nothing was added, and nothing is taken out of the array that was there.
      have found : lookup [name] (.object fields) = some (.array items) := by simpa using found
      refine ⟨_, Deletion.array_takes (by simp) retractable.alone found, Or.inl ?_⟩
      rw [stay, Projection.place_lookup found]
    · have missing : lookup [name] (.object fields) = none := by simpa using missing
      exact ⟨_, Deletion.array_missing missing values, Or.inl rfl⟩
  · -- The items stay, and what was added goes.
    have go : added.filter (fun element => !Deletion.takes values element) = [] :=
      List.filter_eq_nil_iff.mpr fun element member => by simp [taken element member]
    have found : lookup [name] (.object (Fields.put name (.array (items ++ added)) fields)) =
        some (.array (items ++ added)) := by simp
    refine ⟨_, Deletion.array_takes (by simp) retractable.alone found, ?_⟩
    rw [List.filter_append, stay, go, List.append_nil, place, Fields.put_put]
    rcases held with found | ⟨missing, rfl⟩
    · exact Or.inl (by rw [Fields.put_lookup found])
    · exact Or.inr ⟨missing, rfl⟩

/-- Adding values that are no objects adds some of them to the array. -/
theorem Grown.addEach (plain : Path.Plain name) (base : Fields)
    (held : fields.lookup name = some (.array items) ∨ fields.lookup name = none ∧ items = [])
    (grown : Grown fields name values items document) {others : List Json}
    (some_value : others ≠ []) (taken : ∀ value ∈ others, Deletion.takes values value = true) :
    ∃ after, (Update.apply ((Site.root base name).inherited.map AliasFilter.toFields)
      (Update.addEach (Site.root base name).path others) document).map Prod.fst = .ok after ∧
        Grown fields name values items after := by
  -- The array is joined with the values, which adds some of them behind what is there.
  obtain ⟨current, added, rfl, array, before, extend⟩ := grown.shape held
  obtain ⟨more, union, within⟩ := Update.exists_union_eq_append (items ++ added) others
  have free : Projection.obstructed [name] (.object current) = false := by simp
  have found : Update.itemsOf "$addToSet" ([name].getLastD "") (current.lookup name) =
      .ok (items ++ added) := Upsert.itemsOf_eq_ok.mpr array
  have next := extend (added ++ more) fun element member =>
    (List.mem_append.mp member).elim (before element) fun among => taken element (within among)
  rw [← List.append_assoc, ← union] at next
  rw [(Site.At.root base plain).addEach_eq (.here _) some_value,
    Upsert.values_free some_value free, Projection.lookup_singleton, found]
  exact ⟨_, rfl, next⟩

/-- Pushing an object adds it to the array. -/
theorem Grown.push (plain : Path.Plain name) (base : Fields)
    (held : fields.lookup name = some (.array items) ∨ fields.lookup name = none ∧ items = [])
    (grown : Grown fields name values items document) {object : Fields}
    (regular : Element.Regular object) (taken : Deletion.takes values (.object object) = true) :
    ∃ after, (Update.apply ((Site.root base name).inherited.map AliasFilter.toFields)
      (Update.push (Site.root base name).path (.object object)) document).map Prod.fst = .ok after ∧
        Grown fields name values items after := by
  -- The object comes behind all that was added before.
  obtain ⟨current, added, rfl, array, before, extend⟩ := grown.shape held
  have free : Projection.obstructed [name] (.object current) = false := by simp
  have found : Update.itemsOf "$push" ([name].getLastD "") (current.lookup name) =
      .ok (items ++ added) := Upsert.itemsOf_eq_ok.mpr array
  have next := extend (added ++ [.object object]) fun element member =>
    (List.mem_append.mp member).elim (before element) fun last => List.mem_singleton.mp last ▸ taken
  rw [← List.append_assoc] at next
  rw [(Site.At.root base plain).push_eq (.here _) regular free, Projection.lookup_singleton, found]
  exact ⟨_, rfl, next⟩

/-- Setting a leaf in the elements that an alias selects leaves the array with the same first items,
    and with others that are still taken out. -/
theorem Grown.setLeaf
    (held : fields.lookup name = some (.array items) ∨ fields.lookup name = none ∧ items = [])
    (grown : Grown fields name values items document) {filters : List Fields} {stage : Stage}
    (sound : stage.Sound) (names : stage.names = [name])
    (known : Update.conditions? filters stage.aliasName = some stage.identity)
    {leaf : List String × Json} (leads : Path.Leads leaf.1) {path : String}
    (segments : Path.segments path = stage.segments ++ leaf.1)
    (unselected : ∀ item ∈ items, stage.admits item = false)
    (taken : ∀ element, stage.admits element = true →
      Deletion.takes values (place leaf.2 leaf.1 element) = true) :
    ∃ after, (Update.applyPath filters "$set" path leaf.2 document).map Prod.fst = .ok after ∧
      Grown fields name values items after := by
  obtain ⟨current, added, rfl, array, before, extend⟩ := grown.shape held
  have plain : Path.Plain name := sound.leads.plain name (by simp [names])
  rw [Update.applyPath, segments]
  rcases array with found | ⟨missing, -⟩
  · -- The first items are not selected, and the others are taken out also with the leaf.
    have stands : lookup stage.names (.object current) = some (.array (items ++ added)) := by
      simpa [names] using found
    obtain ⟨changed, mapped⟩ := sound.descend_map known leads.some_name
      (Update.descend_set leads leaf.2)
      (fun item other => Projection.place_of_not_object other leaf.2 leaf.1) stands
    have first : (items.map fun item =>
        if stage.admits item then place leaf.2 leaf.1 item else item) = items :=
      (List.map_congr_left fun item member => by simp [unselected item member]).trans items.map_id
    have next := extend (added.map fun item =>
        if stage.admits item then place leaf.2 leaf.1 item else item) fun element member => by
      obtain ⟨earlier, among, rfl⟩ := List.mem_map.mp member
      split
      · exact taken earlier (by assumption)
      · exact before earlier among
    rw [List.map_append, first, names] at mapped
    exact ⟨_, congrArg (Except.map Prod.fst) mapped, next⟩
  · -- No array is made where an element would have to be selected.
    rw [Stage.segments, names, List.append_assoc, List.singleton_append, List.singleton_append,
      Update.descend_missing plain _ missing, Path.isPlaceholder_selected]
    exact ⟨_, rfl, grown⟩

/-- Setting leaves of an object in the elements that it recognises keeps them recognised, and the
    first items as they are. -/
theorem Grown.setLeaves (plain : Path.Plain name) (base : Fields)
    (held : fields.lookup name = some (.array items) ∨ fields.lookup name = none ∧ items = [])
    (retractable : Retractable values items) {object : Fields} (listed : .object object ∈ values)
    (some_identity : Element.identityFilter object ≠ []) {leaves : List (List String × Json)}
    (within : ∀ leaf ∈ leaves, leaf ∈ Element.assigned object)
    (grown : Grown fields name values items document) :
    ∃ after, (Update.applyPaths
      ((Element.describe (.root base name) object).filters.map AliasFilter.toFields) "$set"
      (leaves.map fun leaf => (Path.join ((Site.root base name).memberPath
        (Element.describe (.root base name) object).aliasName) (Path.dotted leaf.1), leaf.2))
      document).map Prod.fst = .ok after ∧ Grown fields name values items after := by
  -- The stage of the elements is that of the array at the field, with the marks of the object.
  have regular := retractable.regular object listed
  have at_root := Site.At.root base plain
  obtain ⟨marks, identified⟩ := @Element.exists_identifiedBy object regular (.root base name)
    some_identity
  have sound := at_root.stage_sound regular identified
  have known := at_root.known_inside regular identified _
    (List.mem_append_right [] (List.mem_singleton_self _))
  have admits := identified.admits (.root base name) [name]
  have same : Element.identityFilter object = marks.map Element.dottedLeaf :=
    identified.identity (.root base name)
  induction leaves generalizing document with
  | nil => exact ⟨document, rfl, grown⟩
  | cons leaf rest ih =>
    obtain ⟨own, whole, -⟩ := Element.mem_assigned.mp (within leaf (by simp))
    have leads := Element.leads_of_leaf regular.plain own
    have scalar := Element.scalar_of_mem_scalarsOf (Element.mem_scalarsOf.mpr ⟨own, whole⟩)
    have segments : Path.segments (Path.join ((Site.root base name).memberPath
        (Element.describe (.root base name) object).aliasName) (Path.dotted leaf.1)) =
        ((Site.root base name).stage [name] marks).segments ++ leaf.1 := by
      simpa using at_root.segments_inside identified leads
    -- Setting one leaf keeps what the stage admits recognised.
    obtain ⟨between, here, grown⟩ := grown.setLeaf held sound rfl known leads segments
      (fun item among => by
        rw [admits]
        exact retractable.freshObjects object listed some_identity item among)
      (fun element admitted => by
        rw [admits, Deletion.recognises, Bool.and_eq_true, same] at admitted
        refine takes_of_satisfies listed some_identity (by simpa using admitted.1) ?_
        rw [same]
        exact (identified.spread regular).satisfies_place_self scalar leads
          (identified.related regular own) admitted.2)
    obtain ⟨⟨reached, first⟩, applied, rfl⟩ := map_eq_ok.mp here
    obtain ⟨after, there, grown⟩ := ih (fun other among => within other (by simp [among])) grown
    obtain ⟨⟨left, second⟩, others, rfl⟩ := map_eq_ok.mp there
    refine ⟨left, ?_, grown⟩
    rw [List.map_cons, Update.applyPaths_cons, applied]
    simp [Except.bind, others, Except.map]

/-- What is assigned to an object is set in the elements that it recognises. -/
theorem Grown.assign (plain : Path.Plain name) (base : Fields)
    (held : fields.lookup name = some (.array items) ∨ fields.lookup name = none ∧ items = [])
    (retractable : Retractable values items) {object : Fields} (listed : .object object ∈ values)
    (some_identity : Element.identityFilter object ≠ [])
    (grown : Grown fields name values items document) :
    ∃ after, (Update.apply
      ((Element.describe (.root base name) object).filters.map AliasFilter.toFields)
      (Update.set (Element.describe (.root base name) object).assignments) document).map Prod.fst =
        .ok after ∧ Grown fields name values items after := by
  -- What is assigned are scalar leaves of the object.
  have regular := retractable.regular object listed
  rw [Update.set, Update.apply_operator, regular.legible.assignments_eq (.root base name)]
  exact grown.setLeaves plain base held retractable listed some_identity fun _ member => member

/-- The operations for values that can be added and taken out again succeed on such a document, and
    leave another one. -/
theorem Grown.operations (plain : Path.Plain name) (base : Fields)
    (held : fields.lookup name = some (.array items) ∨ fields.lookup name = none ∧ items = [])
    (retractable : Retractable values items) {ops : List Operation}
    (compiled : array (.root base name) values = .ok ops)
    (grown : Grown fields name values items document) :
    ∃ after, result ops document = .ok after ∧ Grown fields name values items after := by
  refine Operation.exists_result ?_ grown
  refine array_forall (motive := fun op => ∀ document, Grown fields name values items document →
    ∃ after, (Update.apply op.arrayFilters op.update document).map Prod.fst = .ok after ∧
      Grown fields name values items after) ?_ ?_ compiled
  · intro some_value document grown
    refine grown.addEach plain base held some_value fun value member => ?_
    obtain ⟨among, other⟩ := List.mem_filter.mp member
    exact retractable.takes_value among (by simpa using other)
  · intro object ops listed compiled
    have regular := retractable.regular object listed
    by_cases empty : (Element.describe (.root base name) object).identity = []
    · -- An object that nothing identifies has no operations.
      simp [item_unidentified empty compiled]
    · refine item_forall empty (fun document grown => ?_) (assign_forall fun document grown => ?_)
        (fun inner nothing => ?_) compiled
      · exact grown.push plain base held regular
          (takes_of_satisfies listed empty rfl regular.satisfies_self)
      · exact grown.assign plain base held retractable listed empty
      · obtain rfl := Except.ok.inj
          ((listed_alone (retractable.alone object listed)).symm.trans nothing)
        simp

end Grown

/-- On a document that the base filter selects by other fields, adding values to an array
    and then removing them leaves the document, but for an empty array at most where the
    field was missing. -/
theorem bulkUpdate_restores {base fields : Fields} {name : String} (plain : Path.Plain name)
    {values items : List Json}
    (held : fields.lookup name = some (.array items) ∨ fields.lookup name = none ∧ items = [])
    (retractable : Retractable values items)
    (selected : Query.satisfies (.object fields) base = true) (avoids : Query.Avoids [name] base) :
    ∃ ops, operations base [(name, .array values)] = .ok ops ∧ ∃ added between removed last,
      (Collection.ofDocuments [.object fields]).bulkUpdate ops = (.ok added, between) ∧
      between.bulkUpdate (Removal.operations base [(name, .array values)]) = (.ok removed, last) ∧
      (last.documents = [.object fields] ∨ fields.lookup name = none ∧
        last.documents = [.object (Fields.put name (.array []) fields)]) := by
  -- There are operations for the values, and they only add what can be taken out.
  obtain ⟨below, objectsCompiled⟩ := @objects_total (.root base name) values fun inner listed =>
    ⟨_, item_alone (retractable.alone inner listed)⟩
  have compiled := array_eq_ok.mpr ⟨below, objectsCompiled, rfl⟩
  have whole : operations base [(name, .array values)] =
      .ok (scalars (.root base name) values ++ below) := by
    simp [operations, compiled, Bind.bind, Except.bind, Pure.pure, Except.pure]
  obtain ⟨middle, ran, grown⟩ := Grown.operations plain base held retractable compiled (Or.inl rfl)
  -- The base filter still selects the document, so the values are removed from it.
  have blind : Query.Blind [name] base := avoids.blind (by simp)
  have selects : Query.satisfies middle base = true := by
    rw [blind.altered grown.altered]
    exact selected
  have erased := Removal.array_left (Site.Via.root base plain) blind selects fun inner listed =>
    Removal.item_left inner (retractable.regular inner listed)
  obtain ⟨after, deleted, restored⟩ := grown.retract held retractable
  have left : result (Removal.operations base [(name, .array values)]) middle = .ok after := by
    rw [Removal.operations, Removal.operations, List.append_nil]
    exact Operation.left?_eq_some.mp (erased.trans deleted)
  obtain ⟨added, first⟩ := Collection.bulkUpdate_of_result ran []
  obtain ⟨removed, second⟩ := Collection.bulkUpdate_of_result left
    [scalars (.root base name) values ++ below]
  refine ⟨_, whole, added, _, removed, _, first, second, ?_⟩
  rcases restored with rfl | ⟨missing, rfl⟩
  · exact Or.inl rfl
  · exact Or.inr ⟨missing, rfl⟩

/-- Values of which one stands twice, two objects share an id, and another one is recognised by what
    the first of them sets. -/
def overlapping : List Json :=
  [.string "v", .string "v", .object [("id", .string "a"), ("n", .bool true)],
    .object [("id", .string "a"), ("m", .null)], .object [("n", .bool true)]]

/-- The values can be added to an array with another value and another object, and
    taken out again. -/
theorem overlapping_retractable :
    Retractable overlapping [.string "u", .object [("id", .string "z")]] := by
  -- All conditions are checked on the five values and the two items.
  have plain : ∀ name ∈ ["id", "n", "m"], Path.Plain name := by
    intro name member
    simp only [List.mem_cons, List.not_mem_nil, or_false] at member
    rcases member with rfl | rfl | rfl <;> exact ⟨by decide, by decide, by decide, by decide⟩
  constructor
  · intro value member other
    simp only [overlapping, List.mem_cons, List.not_mem_nil, or_false] at member
    rcases member with rfl | rfl | rfl | rfl | rfl <;> simp [Json.WellKeyed,
      Json.isObject] at other ⊢
  · intro object member
    simp only [overlapping, List.mem_cons, List.not_mem_nil, or_false, reduceCtorEq, false_or,
      Json.object.injEq] at member
    rcases member with rfl | rfl | rfl <;> constructor <;>
      simp [Json.FieldsWellKeyed, Json.WellKeyed, Json.FieldsPlainNamed, Json.PlainNamed, plain]
  · intro object member
    simp only [overlapping, List.mem_cons, List.not_mem_nil, or_false, reduceCtorEq, false_or,
      Json.object.injEq] at member
    rcases member with rfl | rfl | rfl <;> rfl
  · intro value member other item among
    simp only [overlapping, List.mem_cons, List.not_mem_nil, or_false] at member among
    rcases member with rfl | rfl | rfl | rfl | rfl <;> rcases among with rfl | rfl <;> rfl
  · intro object member _ item among
    simp only [overlapping, List.mem_cons, List.not_mem_nil, or_false, reduceCtorEq, false_or,
      Json.object.injEq] at member among
    rcases member with rfl | rfl | rfl <;> rcases among with rfl | rfl <;> decide +kernel

/-- Adding the overlapping values and removing them restores a document that has other elements. -/
theorem bulkUpdate_restores_overlapping :
    ∃ ops, operations [("k", .string "d")] [("x", .array overlapping)] = .ok ops ∧
      ∃ added between removed last,
        (Collection.ofDocuments [.object [("k", .string "d"),
          ("x", .array [.string "u", .object [("id", .string "z")]])]]).bulkUpdate ops =
            (.ok added, between) ∧
        between.bulkUpdate (Removal.operations [("k", .string "d")] [("x", .array overlapping)]) =
          (.ok removed, last) ∧
        last.documents = [.object [("k", .string "d"),
          ("x", .array [.string "u", .object [("id", .string "z")]])]] := by
  have plain : Path.Plain "x" := ⟨by decide, by decide, by decide, by decide⟩
  have selected : Query.satisfies (.object [("k", .string "d"),
      ("x", .array [.string "u", .object [("id", .string "z")]])]) [("k", .string "d")] = true := by
    decide +kernel
  have avoids : Query.Avoids ["x"] [("k", .string "d")] := by
    have other : ∀ first ∈ (Path.segments "k").head?, first ∉ ["x"] := by decide
    simpa [Query.Avoids] using other
  obtain ⟨ops, compiled, added, between, removed, last, first, second, restored⟩ :=
    bulkUpdate_restores plain (Or.inl rfl) overlapping_retractable selected avoids
  -- The array was not missing, so it is restored as it was.
  exact ⟨ops, compiled, added, between, removed, last, first, second,
    restored.resolve_right (by simp [Fields.lookup_entry])⟩

end Insertion

end DocPatch
