import DocPatch.Proofs.Plan.Effect
import DocPatch.Proofs.Plan.Erasure

/-! Adding an object without an id to an array: it is appended, or its leaves are set in the
    elements that it recognises. -/

namespace DocPatch

open Deletion (recognises)
open Element (assigned dottedLeaf namedLeaves scalarsOf)
open Projection (lookup obstructed place)

/-- A name that updates and queries alike read as one field of a document. -/
structure Path.Field (name : String) : Prop where
  nonempty : name ≠ ""
  dotless : '.' ∉ name.toList
  isPlain : kind name = .plain
  noList : name ≠ "$and" ∧ name ≠ "$or"

namespace Element

/-- An object that is known by its values alone: its leaves are scalars, one at least, and none of
    them is an id. -/
structure Idless (object : Fields) : Prop where
  regular : Regular object
  some_leaf : namedLeaves [] object ≠ []
  scalar : ∀ leaf ∈ namedLeaves [] object, leaf.2.items? = none
  noId : ∀ leaf ∈ namedLeaves [] object, leaf.1 ≠ [idField]

namespace Idless

variable {object : Fields}

/-- All leaves of such an object are set on an element. -/
theorem assigned_eq (idless : Idless object) : assigned object = namedLeaves [] object := by
  -- No leaf is an array, and none is the id.
  rw [assigned, scalarsOf, List.filter_filter, List.filter_eq_self]
  intro leaf member
  simp [idless.scalar leaf member, idless.noId leaf member]

/-- Such an object has an identity. -/
theorem identity_ne (idless : Idless object) (site : Site) :
    (describe site object).identity ≠ [] := by
  -- Some leaf is left to identify the object by, if its id does not.
  have scalars : scalarsOf object ≠ [] := by
    rw [scalarsOf, List.filter_eq_self.mpr fun leaf member => by simp [idless.scalar leaf member]]
    exact idless.some_leaf
  rw [identity_eq, identityOf]
  split
  · simp
  · exact Fields.ofEntries_ne_nil (by simpa using scalars)

/-- Nothing is nested in such an object. -/
theorem nested_eq (idless : Idless object) (site : Site) : (describe site object).nested = [] := by
  -- None of the leaves is an array.
  rw [Insertion.describe_nested, List.filterMap_eq_nil_iff]
  intro leaf member
  simp [idless.scalar leaf member]

end Idless

end Element

/-- Placing leaves apart from one another changes nothing just where each of them stands at its
    names already, or has something in its way. -/
theorem Upsert.place_all_eq_self_iff {leaves : List (List String × Json)}
    (apart : leaves.Pairwise fun left right => Projection.Apart left.1 right.1)
    (some_name : ∀ leaf ∈ leaves, leaf.1 ≠ []) {element : Json} :
    leaves.foldl (fun element leaf => place leaf.2 leaf.1 element) element = element ↔
      ∀ leaf ∈ leaves, obstructed leaf.1 element = true ∨ lookup leaf.1 element = some leaf.2 := by
  constructor
  · intro same
    have stands := Upsert.place_all apart some_name element
    rwa [same] at stands
  · -- Every leaf that is placed leaves the element to the next one.
    intro stands
    clear apart some_name
    induction leaves with
    | nil => rfl
    | cons leaf rest ih =>
      have first : place leaf.2 leaf.1 element = element := by
        rcases stands leaf (by simp) with blocked | found
        · exact Projection.place_of_obstructed blocked leaf.2
        · exact Projection.place_lookup found
      rw [List.foldl_cons, first]
      exact ih fun other member => stands other (by simp [member])

/-- Setting the leaves of an object changes nothing in an element just where each of them stands at
    its names already, or has something in its way. -/
theorem Upsert.assign_eq_self_iff {object : Fields} (regular : Element.Regular object)
    {element : Json} :
    Upsert.assign object element = element ↔ ∀ leaf ∈ assigned object,
      obstructed leaf.1 element = true ∨ lookup leaf.1 element = some leaf.2 := by
  -- What is assigned is a part of the leaves, which lie apart from one another.
  have own : (assigned object).Sublist (namedLeaves [] object) :=
    List.filter_sublist.trans List.filter_sublist
  exact Upsert.place_all_eq_self_iff
    ((Element.namedLeaves_apart [] object regular.keyed).sublist own)
    fun leaf member => (Element.leads_of_leaf regular.plain (own.subset member)).some_name

namespace Insertion

section Field

variable {base : Fields} {field : String} {object fields : Fields} {items : List Json}

/-- The guard of an insertion asks whether none of the elements is recognised. -/
theorem satisfies_absent (base : Fields) (named : Path.Field field) (idless : Element.Idless object)
    (held : fields.lookup field = some (.array items) ∨ fields.lookup field = none ∧ items = []) :
    Query.satisfies (.object fields) (Element.describe (.root base field) object).absent =
      !items.any (recognises object) := by
  obtain ⟨marks, identified⟩ :=
    Element.exists_identifiedBy idless.regular (idless.identity_ne (.root base field))
  have same : Element.identityFilter object = marks.map dottedLeaf :=
    identified.identity (.root base field)
  have query : (Element.describe (.root base field) object).absent =
      [(field, Guard.element (marks.map dottedLeaf) .absent)] := by
    rw [← same]
    rfl
  have asked := Query.holds_element (identified.spread idless.regular).named.onFields
  rw [query, Query.satisfies_entry, Query.satisfies_nil, Bool.and_true, Query.clause,
    if_neg named.noList.1, if_neg named.noList.2,
    Path.segments_of_dotless named.dotless, asked, ← same]
  -- The one value at the field is the array, or there is none.
  rcases held with found | ⟨missing, rfl⟩
  · simp only [Query.resolve, Query.step, found, Option.toList_some, List.flatMap_cons,
      List.flatMap_nil,
      List.append_nil, Query.someElement, Presence.agrees, Json.items?, List.any_cons, List.any_nil,
      Option.getD_some, Bool.or_false]
    rfl
  · simp [Query.resolve, Query.step, missing, Query.someElement, Presence.agrees]

/-- Pushing an object appends it to the array at a field. -/
theorem push_at_field (named : Path.Field field) (regular : Element.Regular object)
    (held : fields.lookup field = some (.array items) ∨ fields.lookup field = none ∧ items = [])
    (filters : List Fields) :
    Update.apply filters (Update.push field (.object object)) (.object fields) =
      .ok (.object (Fields.put field (.array (items ++ [.object object])) fields), true) := by
  -- The path is the field, where the array stands or nothing does.
  have found : Update.itemsOf "$push" field (fields.lookup field) = .ok items :=
    Upsert.itemsOf_eq_ok.mpr held
  rw [Update.push, Update.apply_single, Update.applyPath, Path.segments_of_dotless named.dotless,
    Update.descend, Update.actsBy_push]
  simp only [found, Update.eachValue_object regular.plain]
  rfl

/-- Setting a leaf through an alias sets it in the elements that meet the conditions
    of the alias. -/
theorem setLeaf_at_field (named : Path.Field field) {filter : AliasFilter} (sound : filter.Sound)
    {names : List String} (leads : Path.Leads names) (value : Json)
    (found : fields.lookup field = some (.array items)) :
    ∃ changed, Update.applyPath [filter.toFields] "$set"
      (Path.join (Path.join field (Path.selected filter.aliasName)) (Path.dotted names)) value
      (.object fields) = .ok (.object (Fields.put field (.array (items.map fun item =>
        if Update.accepts filter.identity item then place value names item else item)) fields),
          changed) := by
  -- The path goes through the field into the elements that the conditions accept, and then
  -- along the names.
  have known : Update.conditions? [filter.toFields] filter.aliasName = some filter.identity :=
    @AliasFilter.conditions?_toFields [filter] (by simpa using sound) (by simp) filter (by simp)
  have element : Path.join field (Path.selected filter.aliasName) ≠ "" :=
    Path.join_ne_empty (Or.inl named.nonempty)
  have segments : Path.segments
      (Path.join (Path.join field (Path.selected filter.aliasName)) (Path.dotted names)) =
        field :: Path.selected filter.aliasName :: names := by
    rw [Path.segments_join element, Path.segments_join named.nonempty,
      Path.segments_of_dotless named.dotless, Path.segments_selected sound.dotless, leads.segments]
    rfl
  obtain ⟨changed, mapped⟩ := @Update.eachItem_map (Update.accepts filter.identity) _ _
    (fun item => @Update.descend_set [filter.toFields] names leads value item) items
  rw [Update.applyPath, segments, Update.descend_plain named.isPlain (by simp) found,
    Update.descend_selected sound.nonempty known leads.some_name, Update.inElements]
  rw [show Update.creates "$set" = true from rfl, mapped]
  exact ⟨changed, rfl⟩

/-- An element that an object recognises is still recognised once a leaf of the object
    was set in it. -/
theorem recognises_place (regular : Element.Regular object) {site : Site}
    (identified : (Element.describe site object).identity ≠ []) {leaf : List String × Json}
    (member : leaf ∈ assigned object) {element : Json}
    (recognised : recognises object element = true) :
    recognises object (place leaf.2 leaf.1 element) = true := by
  -- A leaf is one of the marks of the object, or it lies apart from all of them.
  obtain ⟨own, whole, -⟩ := Element.mem_assigned.mp member
  obtain ⟨marks, identified⟩ := Element.exists_identifiedBy regular identified
  have same : Element.identityFilter object = marks.map dottedLeaf := identified.identity site
  have scalar := Element.scalar_of_mem_scalarsOf (Element.mem_scalarsOf.mpr ⟨own, whole⟩)
  rw [recognises, Bool.and_eq_true, same] at recognised ⊢
  exact ⟨by simpa using recognised.1, (identified.spread regular).satisfies_place_self scalar
    (Element.leads_of_leaf regular.plain own) (identified.related regular own) recognised.2⟩

/-- Setting leaves of an object through an alias for its identity sets them in the elements that it
    recognises. -/
theorem setLeaves_at_field (named : Path.Field field) {filter : AliasFilter}
    (sound : filter.Sound) (onFields : Query.Named filter.identity)
    (same : filter.identity = Element.identityFilter object) {leaves : List (List String × Json)}
    (leads : ∀ leaf ∈ leaves, Path.Leads leaf.1)
    (keeps : ∀ leaf ∈ leaves, ∀ element, recognises object element = true →
      recognises object (place leaf.2 leaf.1 element) = true)
    (found : fields.lookup field = some (.array items)) : ∃ changed,
      Update.applyPaths [filter.toFields] "$set" (leaves.map fun leaf =>
        (Path.join (Path.join field (Path.selected filter.aliasName)) (Path.dotted leaf.1), leaf.2))
      (.object fields) = .ok (.object (Fields.put field (.array (items.map fun item =>
        if recognises object item
        then leaves.foldl (fun element leaf => place leaf.2 leaf.1 element) item
        else item)) fields), changed) := by
  -- Each leaf is set in the same elements, as those that were recognised still are.
  induction leaves generalizing fields items with
  | nil => exact ⟨false, by simp [Update.applyPaths, Fields.put_lookup found]⟩
  | cons leaf rest ih =>
    -- What is no object is not recognised, and nothing is set in it either.
    have becomes : ∀ item, (if Update.accepts filter.identity item then place leaf.2 leaf.1 item
        else item) = if recognises object item then place leaf.2 leaf.1 item else item := by
      intro item
      rw [Query.accepts_eq_satisfies onFields, recognises, same]
      cases object : item.isObject with
      | true => rw [Bool.true_and]
      | false => simp [Projection.place_of_not_object object]
    obtain ⟨here, first⟩ := setLeaf_at_field named sound (leads leaf (by simp)) leaf.2 found
    simp only [becomes] at first
    obtain ⟨there, later⟩ := ih (fun other member => leads other (by simp [member]))
      (fun other member => keeps other (by simp [member]))
      (Fields.lookup_put_self field (.array (items.map fun item =>
        if recognises object item then place leaf.2 leaf.1 item else item)) fields)
    refine ⟨here || there, ?_⟩
    rw [List.map_cons, Update.applyPaths_cons, first]
    simp only [Except.bind, later, Fields.put_put, List.map_map]
    refine congrArg
      (fun items => Except.ok (Json.object (Fields.put field (.array items) fields), _))
      (List.map_congr_left fun item _ => ?_)
    by_cases recognised : recognises object item = true
    · simp [recognised, keeps leaf (by simp) item recognised]
    · simp [recognised]

/-- The assignment of an object without an id sets its leaves in the elements that it recognises. -/
theorem assign_at_field (base : Fields) (named : Path.Field field)
    (idless : Element.Idless object) (found : fields.lookup field = some (.array items)) :
    ∃ changed, Update.apply
      ((Element.describe (.root base field) object).filters.map AliasFilter.toFields)
      (Update.set (Element.describe (.root base field) object).assignments) (.object fields) =
        .ok (.object (Fields.put field (.array (items.map fun item =>
          if recognises object item then Upsert.assign object item else item)) fields),
            changed) := by
  have identity := idless.identity_ne (.root base field)
  obtain ⟨marks, identified⟩ := Element.exists_identifiedBy idless.regular identity
  have spread := identified.spread idless.regular
  obtain ⟨someName, dotless⟩ := (Site.root base field).aliasName_sound
  -- There is one alias filter, with the marks of the object for its conditions.
  have sound : AliasFilter.Sound ⟨(Site.root base field).aliasName, marks.map dottedLeaf⟩ :=
    ⟨by simpa using identified.some_mark, spread.nodup, someName, dotless⟩
  have path : (Site.root base field).memberPath
      (Element.describe (.root base field) object).aliasName =
        Path.join field (Path.selected (Site.root base field).aliasName) := by
    rw [identified.aliasName]
    simp [Site.memberPath, Site.path, Site.root]
  rw [Update.set, Update.apply_operator, idless.regular.legible.assignments_eq, path,
    identified.filters]
  exact setLeaves_at_field named sound spread.named (identified.identity (.root base field)).symm
    (fun leaf member =>
      Element.leads_of_leaf idless.regular.plain (Element.mem_assigned.mp member).1)
    (fun leaf member element => recognises_place idless.regular identity member) found

/-- The operations that add an object without an id: its insertion and its assignment. -/
theorem operations_idless (base : Fields) (field : String) (idless : Element.Idless object) :
    operations base [(field, .array [.object object])] =
      .ok [insert (.root base field) (Element.describe (.root base field) object) object,
        .under (Element.describe (.root base field) object).filters base
          (Update.set (Element.describe (.root base field) object).assignments)] := by
  have identity := idless.identity_ne (.root base field)
  -- Its leaves are to be set, and there are some.
  have assignments : (Element.describe (.root base field) object).assignments ≠ [] := by
    rw [idless.regular.legible.assignments_eq, idless.assigned_eq]
    simpa using idless.some_leaf
  have own_eq : own (.root base field) (Element.describe (.root base field) object) object =
      [insert (.root base field) (Element.describe (.root base field) object) object,
        .under (Element.describe (.root base field) object).filters base
          (Update.set (Element.describe (.root base field) object).assignments)] := by
    rw [own, assign, if_neg (by simpa using identity), if_neg (by simpa using assignments)]
    rfl
  have compiled := item_alone (idless.nested_eq (.root base field))
  rw [own_eq] at compiled
  simp [operations, array, objects, compiled, scalars, Json.isObject, Bind.bind,
    Except.bind, Pure.pure, Except.pure]

/-- An object without an id recognises itself, and nothing changes when its leaves are set in it. -/
theorem self_idless (idless : Element.Idless object) :
    recognises object (.object object) = true ∧ Upsert.assign object (.object object) =
      .object object := by
  -- Each leaf stands in the object at its own names.
  have identity : Element.identityFilter object ≠ [] := idless.identity_ne (.root [] "")
  refine ⟨by simp [recognises, Json.isObject, idless.regular.satisfies_self], ?_⟩
  refine (Upsert.assign_eq_self_iff idless.regular).mpr fun leaf member => Or.inr ?_
  exact Element.lookup_of_leaf idless.regular.keyed (Element.mem_assigned.mp member).1

/-- What adding an object without an id makes of an array: its leaves are set in the elements that
    it recognises, or it is appended if there are none. -/
def appended (object : Fields) (items : List Json) : List Json :=
  -- Whether something is appended depends on all elements together.
  if items.any (recognises object) then
    items.map fun item => if recognises object item then Upsert.assign object item else item
  else items ++ [.object object]

/-- The insertion appends an object that recognises none of the elements. -/
theorem result_insert (named : Path.Field field) (idless : Element.Idless object)
    (held : fields.lookup field = some (.array items) ∨ fields.lookup field = none ∧ items = [])
    (selected : Query.satisfies (.object fields) base = true) :
    Operation.result [insert (.root base field) (Element.describe (.root base field) object) object]
      (.object fields) = .ok (if items.any (recognises object) then .object fields
        else .object (Fields.put field (.array (items ++ [.object object])) fields)) := by
  have path : (Site.root base field).path = field := by simp [Site.root, Site.path]
  -- The filter asks for the base filter and for the guard.
  have both : Query.satisfies (.object fields) (insert (.root base field)
      (Element.describe (.root base field) object) object).filter = !items.any
      (recognises object) := by
    rw [insert, Operation.under, Query.satisfies_both, satisfies_absent base named idless held,
      show (Site.root base field).base = base from rfl, selected, Bool.true_and]
  cases found : items.any (recognises object) with
  | true =>
    rw [Operation.result_cons, Operation.applyTo, both, found]
    rfl
  | false =>
    rw [Operation.result_cons, Operation.applyTo_of_satisfies (by rw [both, found]; rfl)]
    simp only [insert, Operation.under, path, push_at_field named idless.regular held]
    rfl

/-- The assignment sets the leaves of an object in the elements that it recognises. -/
theorem result_assign (named : Path.Field field) (idless : Element.Idless object)
    (found : fields.lookup field = some (.array items))
    (selected : Query.satisfies (.object fields) base = true) :
    Operation.result [.under (Element.describe (.root base field) object).filters base
      (Update.set (Element.describe (.root base field) object).assignments)] (.object fields) =
        .ok (.object (Fields.put field (.array (items.map fun item =>
          if recognises object item then Upsert.assign object item else item)) fields)) := by
  -- The one operation selects the document, and its update is that of all leaves.
  obtain ⟨changed, set⟩ := assign_at_field base named idless found
  rw [Operation.result_cons, Operation.applyTo_of_satisfies selected]
  simp only [Operation.under, set]
  rfl

/-- On a document that the base filter selects by other fields, adding an object without an id
    changes the array as described. -/
theorem result_idless (named : Path.Field field) (idless : Element.Idless object)
    (held : fields.lookup field = some (.array items) ∨ fields.lookup field = none ∧ items = [])
    (selected : Query.satisfies (.object fields) base = true) (avoids : Query.Avoids [field] base)
    {ops : List Operation}
    (compiled : operations base [(field, .array [.object object])] = .ok ops) :
    Operation.result ops (.object fields) =
      .ok (.object (Fields.put field (.array (appended object items)) fields)) := by
  rw [operations_idless base field idless] at compiled
  obtain rfl := Except.ok.inj compiled
  have inserted := result_insert named idless held selected
  rw [← List.singleton_append, Operation.result_append, inserted, appended]
  cases recognised : items.any (recognises object) with
  | true =>
    -- The array is there, since some element is.
    have found : fields.lookup field = some (.array items) := by
      rcases held with found | ⟨-, rfl⟩
      · exact found
      · simp at recognised
    exact result_assign named idless found selected
  | false =>
    -- The base filter still selects the document, and the object is recognised by itself alone.
    have still : Query.satisfies
        (.object (Fields.put field (.array (items ++ [.object object])) fields)) base = true := by
      rw [← selected]
      exact avoids.blind (List.mem_singleton_self field) _ (.object fields)
    have assigned := result_assign named idless
      (Fields.lookup_put_self field (.array (items ++ [.object object])) fields) still
    have others : (items.map fun item =>
        if recognises object item then Upsert.assign object item else item) = items := by
      rw [List.any_eq_false] at recognised
      exact (List.map_congr_left fun item member => by simp [recognised item member]).trans
        items.map_id
    obtain ⟨mine, same⟩ := self_idless idless
    rw [Fields.put_put, List.map_append, others, List.map_singleton, if_pos mine, same] at assigned
    exact assigned

/-- On a document that the base filter selects by other fields, adding an object without an id to an
    array, or to a missing field, appends it unless some elements are recognised. Otherwise its
    leaves are set in these, which changes nothing just where each leaf stands in each of them at
    its own names, or has something in its way. -/
theorem bulkUpdate_appends {base fields : Fields} {field : String} {object : Fields}
    {items : List Json} (named : Path.Field field) (idless : Element.Idless object)
    (held : fields.lookup field = some (.array items) ∨ fields.lookup field = none ∧ items = [])
    (selected : Query.satisfies (.object fields) base = true) (avoids : Query.Avoids [field] base) :
    ∃ ops outcome, operations base [(field, .array [.object object])] = .ok ops ∧
      (Collection.ofDocuments [.object fields]).bulkUpdate ops = (.ok outcome,
        ⟨[.object (Fields.put field (.array (appended object items)) fields)],
          [ops], none, false⟩) ∧
      ((∀ item ∈ items, recognises object item = false) →
        appended object items = items ++ [.object object]) ∧
      ((∃ item ∈ items, recognises object item = true) →
        (.object (Fields.put field (.array (appended object items)) fields) = Json.object fields ↔
          ∀ item ∈ items, recognises object item = true → ∀ leaf ∈ namedLeaves [] object,
            obstructed leaf.1 item = true ∨ lookup leaf.1 item = some leaf.2)) := by
  have compiled := operations_idless base field idless
  obtain ⟨outcome, done⟩ :=
    Collection.bulkUpdate_of_result (result_idless named idless held selected avoids compiled) []
  refine ⟨_, outcome, compiled, done, fun none => ?_, fun ⟨item, member, recognised⟩ => ?_⟩
  · rw [appended, if_neg (by simpa using none)]
  · have some_recognised : items.any (recognises object) = true :=
      List.any_eq_true.mpr ⟨item, member, recognised⟩
    have found : fields.lookup field = some (.array items) :=
      held.resolve_right fun missing => by simp [missing.2] at member
    rw [appended, if_pos some_recognised]
    -- The document stays as it is when its array does, and that item by item.
    have by_item (change : Json → Json) :
        items.map change = items ↔ ∀ item ∈ items, change item = item := by
      simpa using @List.map_inj_left _ _ items change id
    rw [Json.object.injEq, Fields.put_eq_self_iff found, Json.array.injEq, by_item]
    refine forall₂_congr fun item _ => ?_
    rw [← idless.assigned_eq]
    by_cases mine : recognises object item = true
    · simp [mine, Upsert.assign_eq_self_iff idless.regular]
    · simp [mine]

end Field

/-- An object without an id. -/
def lone : Fields := [("k", .string "a")]

/-- An element that the object recognises, since it has the value among others. -/
def several : Json := .object [("k", .array [.string "a", .string "b"])]

/-- The object has one leaf, and that is no id. -/
theorem idless_lone : Element.Idless lone := by
  -- The leaf is at the key, and its value is a string.
  have plain : Path.Plain "k" := ⟨by decide, by decide, by decide, by decide⟩
  have leaves : namedLeaves [] lone = [(["k"], .string "a")] := rfl
  constructor
  · constructor
    · simp [lone, Json.FieldsWellKeyed, Json.WellKeyed]
    · simp [lone, Json.FieldsPlainNamed, Json.PlainNamed, plain]
  · simp [leaves]
  · simp [leaves, Json.items?]
  · simp [leaves, Element.idField]

/-- The field of the sample documents is read as one, and the base filter reads another one. -/
theorem field_lone : Path.Field "x" ∧ Query.Avoids ["x"] [("k", .string "d")] := by
  have other : ∀ first ∈ (Path.segments "k").head?, first ∉ ["x"] := by decide
  exact ⟨⟨by decide, by decide, by decide, by decide⟩, by simpa [Query.Avoids] using other⟩

/-- Adding the object to an array in which it recognises two elements overwrites the values of the
    one, and finds the other one as it should be. -/
theorem bulkUpdate_appends_lone :
    ∃ ops outcome, operations [("k", .string "d")] [("x", .array [.object lone])] = .ok ops ∧
      (Collection.ofDocuments [.object [("k", .string "d"), ("x", .array
        [several, .object [("k", .string "c")],
          .object [("k", .string "a"), ("m", .null)]])]]).bulkUpdate
          ops = (.ok outcome, ⟨[.object [("k", .string "d"), ("x", .array [.object lone,
            .object [("k", .string "c")], .object [("k", .string "a"), ("m", .null)]])]],
            [ops], none, false⟩) := by
  -- The first and the last element hold the string that the object holds, alone or among others.
  have selected : Query.satisfies (.object [("k", .string "d"), ("x", .array [several,
      .object [("k", .string "c")], .object [("k", .string "a"), ("m", .null)]])])
        [("k", .string "d")] = true := by decide +kernel
  obtain ⟨ops, outcome, compiled, done, -, -⟩ :=
    bulkUpdate_appends field_lone.1 idless_lone (Or.inl rfl) selected field_lone.2
  exact ⟨ops, outcome, compiled, done⟩

/-- An element that the object recognises loses a value when the object is added, although the base
    filter selects the document by another field. -/
theorem operations_overwrite_several :
    Element.Idless lone ∧ recognises lone several = true ∧ Query.Avoids ["x"] [("k", .string "d")] ∧
      Query.satisfies (.object [("k", .string "d"), ("x", .array [several])])
        [("k", .string "d")] = true ∧
      ∃ ops, operations [("k", .string "d")] [("x", .array [.object lone])] = .ok ops ∧
        Operation.result ops (.object [("k", .string "d"), ("x", .array [several])]) =
          .ok (.object [("k", .string "d"), ("x", .array [.object lone])]) ∧
        Json.object [("k", .string "d"), ("x", .array [.object lone])] ≠
          .object [("k", .string "d"), ("x", .array [several])] := by
  -- A list that contains the string is recognised like the string itself, and is then overwritten.
  have selected : Query.satisfies (.object [("k", .string "d"), ("x", .array [several])])
      [("k", .string "d")] = true := by decide +kernel
  have compiled := operations_idless [("k", .string "d")] "x" idless_lone
  refine ⟨idless_lone, by decide +kernel, field_lone.2, selected, _, compiled, ?_, by
    simp [lone, several]⟩
  exact result_idless field_lone.1 idless_lone (Or.inl rfl) selected field_lone.2 compiled

end Insertion

end DocPatch
