import DocPatch.Proofs.Plan.Entry
import DocPatch.Proofs.Plan.Carries
import DocPatch.Proofs.Store.Single

/-! What the operations for an array do to the one element that its stages lead to. -/

namespace DocPatch

open Projection (lookup place obstructed)
open Update (ActsBy applyAt applyPath carry itemsOf)

namespace Update

/-- Behind `$each` stands the list of the values themselves. -/
theorem eachValue_each (values : List Json) :
    eachValue (.single "$each" (.array values)) = values := rfl

/-- An object with plain keys is one value. -/
theorem eachValue_object {object : Fields} (plain : Json.FieldsPlainNamed object) :
    eachValue (.object object) = [.object object] := by
  -- The key that would make it a list of values is an operator, and plain keys are none.
  have missing : object.lookup "$each" = none := by
    cases found : object.lookup "$each" with
    | none => rfl
    | some value =>
      have key := (plain.of_mem (Fields.mem_of_lookup found)).1.noOperator
      exact absurd key (by decide)
  simp [eachValue, Json.fields?, missing]

end Update

namespace Stage

variable {stages : List Stage} {document element : Json} {back : Json → Json}
  {filters : List Fields} {names : List String}

/-- An operator that makes its way changes the value at names in the one element. -/
theorem Reaches.applyPath_eq (reaches : Reaches stages document element back)
    (sound : ∀ stage ∈ stages, stage.Sound)
    (known : ∀ stage ∈ stages, Update.conditions? filters stage.aliasName = some stage.identity)
    (leads : Path.Leads names) {path : String}
    (segments : Path.segments path = stages.flatMap Stage.segments ++ names)
    {operator : String} (creates : Update.creates operator = true) {argument : Json}
    {change : Option Json → Except UpdateError (Change Json)}
    (acts : ActsBy (applyAt operator argument) (names.getLast leads.some_name) change) :
    applyPath filters operator path argument document =
      carry back (if obstructed names element then .ok (element, false)
        else carry (fun value => place value names element) (change (lookup names element))) := by
  -- The way leads to the one element, and from there names lead to the value.
  obtain ⟨name, more, start⟩ := List.exists_cons_of_ne_nil leads.some_name
  rw [applyPath, segments, reaches.descend_eq sound known
    ⟨name, more, start, leads.plain name (by simp [start])⟩, creates,
    Update.descend_leaf leads.some_name leads.plain acts]

/-- Setting puts the argument at its names in the one element. -/
theorem Reaches.set_eq (reaches : Reaches stages document element back)
    (sound : ∀ stage ∈ stages, stage.Sound)
    (known : ∀ stage ∈ stages, Update.conditions? filters stage.aliasName = some stage.identity)
    (leads : Path.Leads names) {path : String}
    (segments : Path.segments path = stages.flatMap Stage.segments ++ names) (argument : Json) :
    ∃ changed, applyPath filters "$set" path argument document =
      .ok (back (place argument names element), changed) := by
  -- Behind an obstacle nothing is placed, and setting does nothing either.
  rw [reaches.applyPath_eq sound known leads segments rfl (Update.actsBy_set argument _)]
  cases obstacle : obstructed names element with
  -- The obstacle leaves the element as it is.
  | true => exact ⟨false, by simp [Projection.place_of_obstructed obstacle]⟩
  | false => exact ⟨_, rfl⟩

/-- Setting a scalar that stands at its names already changes nothing. -/
theorem Reaches.set_idle (reaches : Reaches stages document element back)
    (sound : ∀ stage ∈ stages, stage.Sound)
    (known : ∀ stage ∈ stages, Update.conditions? filters stage.aliasName = some stage.identity)
    (leads : Path.Leads names) {path : String}
    (segments : Path.segments path = stages.flatMap Stage.segments ++ names) {argument : Json}
    (scalar : argument.Scalar)
    (stands : obstructed names element = true ∨ lookup names element = some argument) :
    applyPath filters "$set" path argument document = .ok (document, false) := by
  -- What stands there equals the argument, so putting it there is no change.
  rw [reaches.applyPath_eq sound known leads segments rfl (Update.actsBy_set argument _)]
  rcases stands with obstacle | found
  · -- Behind an obstacle nothing is set.
    simp [obstacle, reaches.back_self]
  · -- The argument is there, and equals itself.
    have same := Json.equal_self argument scalar.wellKeyed
    simp [Projection.obstructed_of_lookup found, found, same, Projection.place_lookup found,
      reaches.back_self]

end Stage

namespace Site

variable {site : Site} {stages : List Stage} {names : List String} {document element : Json}
  {back : Json → Json}

/-- The last of some names, with or without a value in case there is none. -/
theorem getLast_eq_getLastD {names : List String} (some_name : names ≠ []) :
    names.getLast some_name = names.getLastD "" := by
  simp [List.getLastD_eq_getLast?, List.getLast?_eq_some_getLast some_name]

/-- The addition of values at a site does to the element what adding them means. -/
theorem At.addEach_eq (at_site : site.At stages names)
    (reaches : Stage.Reaches stages document element back) {added : List Json}
    (some_value : added ≠ []) :
    (Update.apply (site.inherited.map AliasFilter.toFields) (Update.addEach site.path added)
      document).map Prod.fst = (Upsert.values names added element).map back := by
  -- Operator and meaning make the same change of the array, or stop at the same obstacle.
  rw [Update.addEach, Update.apply_single, reaches.applyPath_eq at_site.sound at_site.known
    at_site.leads at_site.path rfl (Update.actsBy_addToSet _ _), Update.eachValue_each,
    getLast_eq_getLastD at_site.leads.some_name]
  cases obstacle : obstructed names element with
  | true =>
    rw [Upsert.values_blocked obstacle]
    rfl
  -- The array is found, made or refused by both in the same way.
  | false =>
    rw [Upsert.values_free some_value obstacle]
    simp only [Bool.false_eq_true, ↓reduceIte]
    cases itemsOf "$addToSet" (names.getLastD "") (lookup names element) <;> rfl

/-- Where the element holds the values already, their addition changes nothing. -/
theorem At.addEach_idle (at_site : site.At stages names)
    (reaches : Stage.Reaches stages document element back) {added : List Json}
    (some_value : added ≠ []) (held : ∀ value ∈ added, Upsert.HasValue names value element) :
    Update.apply (site.inherited.map AliasFilter.toFields) (Update.addEach site.path added)
      document = .ok (document, false) := by
  rw [Update.addEach, Update.apply_single, reaches.applyPath_eq at_site.sound at_site.known
    at_site.leads at_site.path rfl (Update.actsBy_addToSet _ _), Update.eachValue_each]
  cases obstacle : obstructed names element with
  | true => simp [reaches.back_self]
  | false =>
    -- All values are held by the same array.
    have stands : ∃ items, lookup names element = some (.array items) ∧
        ∀ value ∈ added, Json.within items value = true := by
      obtain ⟨first, member⟩ := List.exists_mem_of_ne_nil added some_value
      obtain ⟨items, array, -⟩ : ∃ items, lookup names element = some (.array items) ∧
          Json.within items first = true := by
        simpa [Upsert.HasValue, obstacle] using held first member
      refine ⟨items, array, fun value member => ?_⟩
      simpa [Upsert.HasValue, obstacle, array] using held value member
    obtain ⟨items, array, within⟩ := stands
    have union := Upsert.union_of_within within
    simp [array, itemsOf, union, Bind.bind, Except.bind, Pure.pure, Except.pure,
      Projection.place_lookup array, reaches.back_self]

/-- The insertion of an object at a site appends it to the array of the element. -/
theorem At.push_eq (at_site : site.At stages names)
    (reaches : Stage.Reaches stages document element back) {object : Fields}
    (regular : Element.Regular object) (free : obstructed names element = false) :
    (Update.apply (site.inherited.map AliasFilter.toFields)
      (Update.push site.path (.object object)) document).map Prod.fst =
      (itemsOf "$push" (names.getLastD "") (lookup names element)).map fun items =>
        back (place (.array (items ++ [.object object])) names element) := by
  -- The object is one value, since it has no key for a list of values.
  rw [Update.push, Update.apply_single, reaches.applyPath_eq at_site.sound at_site.known
    at_site.leads at_site.path rfl (Update.actsBy_push _ _), Update.eachValue_object regular.plain,
    getLast_eq_getLastD at_site.leads.some_name, free]
  simp only [Bool.false_eq_true, ↓reduceIte]
  cases itemsOf "$push" (names.getLastD "") (lookup names element) <;> rfl

/-- The predicate that an object is absent is true of a document where no element of the array has
    the id. -/
theorem At.absent_eq (at_site : site.At stages names)
    (reaches : Stage.Reaches stages document element back) {object : Fields} {id : Json}
    (addable : Upsert.Addable object id) (distinct : element.IdsDistinct)
    (free : obstructed names element = false) :
    Query.satisfies document (Element.describe site object).absent =
      !(lookup names element).any fun found =>
        (found.items?.getD []).any fun item => item.hasId id := by
  -- The predicate asks for an array without an object that satisfies the query for the id.
  have identified := Element.identifiedBy_id addable.regular addable.scalar addable.found
  have named := (identified.spread addable.regular).named
  show Query.satisfies document (Guard.predicate site.ancestry site.field
    (Element.describe site object).identity .absent) = _
  rw [at_site.ancestry, at_site.field, identified.identity,
    Stage.satisfies_predicate at_site.sound at_site.leads at_site.clear named, reaches.meets_eq,
    Guard.tells, Query.resolve_names free]
  cases found : lookup names element with
  -- Without an array no element has the id.
  | none => rfl
  | some value =>
    have inner := distinct.of_lookup found
    -- In an array whose ids are no arrays, the query for the id finds the elements that have it.
    have same : ∀ item ∈ value.items?.getD [],
        (item.isObject && Query.satisfies item [(Element.idField, id)]) = item.hasId id := by
      intro item member
      cases value with
      | array items =>
        simp only [Json.IdsDistinct] at inner
        by_cases object : item.isObject = true
        · rw [object, Bool.true_and]
          exact Json.satisfies_id addable.scalar object fun held stands =>
            inner.1.single held (List.mem_filterMap.mpr ⟨item, member, stands⟩)
        · have none : item.hasId id = false := by
            rw [← Bool.not_eq_true]
            exact fun has => object (Json.isObject_of_hasId has)
          simp [object, none]
      | _ => simp [Json.items?] at member
    -- So the test of the predicate and that for the id agree on all items.
    have any_same : ((value.items?.getD []).any fun item =>
        item.isObject && Query.satisfies item [(Element.idField, id)]) =
        (value.items?.getD []).any fun item => item.hasId id := by
      rw [Bool.eq_iff_iff, List.any_eq_true, List.any_eq_true]
      constructor
      · intro given
        obtain ⟨item, member, met⟩ := given
        exact ⟨item, member, same item member ▸ met⟩
      · intro given
        obtain ⟨item, member, met⟩ := given
        exact ⟨item, member, (same item member).trans met⟩
    simp only [Presence.agrees, Query.someElement, Element.dottedLeaf, List.map_cons, List.map_nil,
      Path.dotted_singleton, Option.toList_some, List.any_cons, List.any_nil, Bool.or_false,
      Option.any_some, any_same]

/-- The stage by which the element with an id is entered. -/
def stageOf (site : Site) (names : List String) (id : Json) : Stage :=
  site.stage names [([Element.idField], id)]

/-- By its id an element of the array is reached, where ids tell the elements apart. -/
theorem At.enter (reaches : Stage.Reaches stages document element back) (site : Site)
    (distinct : element.IdsDistinct) {id : Json} (scalar : id.Scalar) {before after : List Json}
    {entered : Json} (array : lookup names element = some (.array (before ++ entered :: after)))
    (has : entered.hasId id = true) :
    Stage.Reaches (stages ++ [site.stageOf names id]) document entered
      (back ∘ fun value => place (.array (before ++ value :: after)) names element) := by
  -- The query for the id finds the elements that have it, and one element alone does.
  have inner := distinct.of_lookup array
  simp only [Json.IdsDistinct] at inner
  -- To be recognised by the stage is to have the id.
  have read : ∀ item ∈ before ++ entered :: after, item.isObject = true →
      Query.satisfies item (site.stageOf names id).identity = item.hasId id := by
    intro item member object
    exact Json.satisfies_id scalar object fun held stands =>
      inner.1.single held (List.mem_filterMap.mpr ⟨item, member, stands⟩)
  have object := Json.isObject_of_hasId has
  have chosen : Query.satisfies entered (site.stageOf names id).identity = true := by
    rw [read entered (by simp) object]
    exact has
  -- No other element has the id.
  apply reaches.append_singleton array object chosen
  intro item member isObject
  have listed : item ∈ before ++ entered :: after := by
    rcases List.mem_append.mp member with earlier | later
    · simp [earlier]
    · simp [later]
  rw [read item listed isObject]
  exact Json.hasId_unique inner.1.differ scalar has item member

/-- Stages by ids go on with the stage of an id. -/
theorem byId_append {stages : List Stage} (byId : Stage.ById stages) (site : Site)
    (names : List String) {id : Json} (scalar : id.Scalar) :
    Stage.ById (stages ++ [site.stageOf names id]) := by
  -- The last stage has the id for its only mark.
  have last : ∃ held : Json, held.Scalar ∧
      (site.stageOf names id).marks = [([Element.idField], held)] := ⟨id, scalar, rfl⟩
  exact List.forall_mem_append.mpr ⟨byId, List.forall_mem_singleton.mpr last⟩

section Inside

variable {object : Fields} {id : Json}

/-- Setting some of the leaves that are assigned places them in the element, one after the other. -/
theorem At.setLeaves_eq (at_site : site.At stages names) (byId : Stage.ById stages)
    (addable : Upsert.Addable object id) {leaves : List (List String × Json)}
    (within : ∀ leaf ∈ leaves, leaf ∈ Element.assigned object)
    (reaches : Stage.Reaches (stages ++ [site.stageOf names id]) document element back)
    (isObject : element.isObject = true) : ∃ changed,
      Update.applyPaths ((Element.describe site object).filters.map AliasFilter.toFields) "$set"
        (leaves.map fun leaf =>
          (Path.join (site.memberPath (Element.describe site object).aliasName)
            (Path.dotted leaf.1), leaf.2)) document =
      .ok (back (leaves.foldl (fun element leaf => place leaf.2 leaf.1 element) element),
        changed) := by
  have identified := Element.identifiedBy_id addable.regular addable.scalar addable.found
  have sound := at_site.sound_inside addable.regular identified
  have known := at_site.known_inside addable.regular identified
  induction leaves generalizing document element with
  -- Without leaves the element is put back as it was.
  | nil => exact ⟨false, by simp [Update.applyPaths, reaches.back_self]⟩
  | cons leaf rest ih =>
    obtain ⟨listed, whole, other⟩ := Element.mem_assigned.mp (within leaf (by simp))
    have leads := Element.leads_of_leaf addable.regular.plain listed
    obtain ⟨here, first⟩ :=
      reaches.set_eq sound known leads (at_site.segments_inside identified leads) leaf.2
    -- The leaf lies apart from the id, so the element is still reached.
    have apart := addable.apart_id listed other
    have clear : Stage.Clear (stages ++ [site.stageOf names id]) leaf.1 :=
      at_site.clear.append_singleton (by simpa [stageOf, stage] using apart)
    have shape : (place leaf.2 leaf.1 element).isObject = true := by simpa using isObject
    have again := reaches.replace sound (byId_append byId site names addable.scalar) clear shape
      fun _ => Stage.id?_place apart leaf.2 element
    obtain ⟨there, later⟩ := ih (fun other member => within other (by simp [member])) again shape
    refine ⟨here || there, ?_⟩
    rw [List.map_cons, Update.applyPaths_cons, first]
    simp only [Except.bind, later, List.foldl_cons]

/-- The assignment of an object sets its scalar leaves on the element. -/
theorem At.assign_eq (at_site : site.At stages names) (byId : Stage.ById stages)
    (addable : Upsert.Addable object id)
    (reaches : Stage.Reaches (stages ++ [site.stageOf names id]) document element back)
    (isObject : element.isObject = true) :
    ∃ changed, Update.apply ((Element.describe site object).filters.map AliasFilter.toFields)
      (Update.set (Element.describe site object).assignments) document =
        .ok (back (Upsert.assign object element), changed) := by
  -- The update lists the scalar leaves behind the path of the element.
  rw [Update.set, Update.apply_operator, addable.regular.legible.assignments_eq site]
  exact at_site.setLeaves_eq byId addable (fun _ member => member) reaches isObject

/-- The assignment of an object changes nothing on an element that carries the object. -/
theorem At.assign_idle (at_site : site.At stages names) (addable : Upsert.Addable object id)
    (reaches : Stage.Reaches (stages ++ [site.stageOf names id]) document element back)
    (carries : Upsert.Carries object element) :
    Update.apply ((Element.describe site object).filters.map AliasFilter.toFields)
      (Update.set (Element.describe site object).assignments) document = .ok (document, false) := by
  -- Every leaf that is set stands at its names already.
  have identified := Element.identifiedBy_id addable.regular addable.scalar addable.found
  have sound := at_site.sound_inside addable.regular identified
  have known := at_site.known_inside addable.regular identified
  rw [Update.set, Update.apply_operator, addable.regular.legible.assignments_eq site]
  apply Update.applyPaths_idle
  intro entry member
  obtain ⟨leaf, among, rfl⟩ := List.mem_map.mp member
  obtain ⟨listed, whole, -⟩ := Element.mem_assigned.mp among
  have leads := Element.leads_of_leaf addable.regular.plain listed
  have scalar := Element.scalar_of_mem_scalarsOf (Element.mem_scalarsOf.mpr ⟨listed, whole⟩)
  -- What the element carries are in particular its scalar leaves.
  exact reaches.set_idle sound known leads (at_site.segments_inside identified leads) scalar
    ((Upsert.carries_iff.mp carries).1 leaf among)

end Inside

end Site

end DocPatch
