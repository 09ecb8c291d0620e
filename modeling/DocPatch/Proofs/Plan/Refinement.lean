import DocPatch.Proofs.Plan.Settling
import DocPatch.Proofs.Store.Selection

/-! The operations for a tree do to a document what adding the tree means, as long as the base
    filter goes on selecting it. -/

namespace DocPatch

open Projection (Apart lookup place obstructed)
open Upsert (Addable Listing Separate Touches)

namespace Operation

/-- Two batches that do what two steps mean do together what the steps mean together. -/
theorem result_append_eq {first second : List Operation} {document element : Json}
    {f g : Json → Except UpdateError Json} {back : Json → Json}
    (here : result first document = (f element).map back)
    (there : ∀ between, f element = .ok between →
      result second (back between) = (g between).map back) :
    result (first ++ second) document = ((f element).bind g).map back := by
  -- The second batch starts from what the first one left.
  rw [result_append, here]
  cases reached : f element with
  | error => rfl
  | ok between => exact there between reached

end Operation

/-- Stages by ids are clear of the id wherever they lead. -/
theorem Stage.Clear.apart_id {stages : List Stage} {names : List String}
    (clear : Stage.Clear stages names) (byId : Stage.ById stages) (some_stage : stages ≠ []) :
    Apart [Element.idField] names := by
  -- The last stage touches the names, and its one mark is the id.
  induction stages with
  | nil => exact absurd rfl some_stage
  | cons stage rest ih =>
    cases rest with
    -- This is the last stage.
    | nil =>
      obtain ⟨id, _, marks⟩ := byId stage (by simp)
      exact clear.1 ([Element.idField], id) (by simp [marks])
    | cons other more =>
      exact ih clear.2 (fun last member => byId last (by simp [member])) (by simp)

/-- The one element of a document that stages by ids lead to: an object in which ids tell elements
    apart. -/
structure Spot (stages : List Stage) (document element : Json) (back : Json → Json) : Prop where
  byId : Stage.ById stages
  reaches : Stage.Reaches stages document element back
  isObject : element.isObject = true
  distinct : element.IdsDistinct

/-- An element that was only touched at an array further down is reached as before. -/
theorem Spot.touched {stages : List Stage} {document element changed : Json} {back : Json → Json}
    (spot : Spot stages document element back) {site : Site} {names : List String}
    (at_site : site.At stages names) (touches : Touches names element changed) :
    Spot stages (back changed) changed back where
  -- The names lie apart from every id on the way, so all elements are recognised as before.
  byId := spot.byId
  reaches := spot.reaches.replace at_site.sound spot.byId at_site.clear
    (touches.isObject.trans spot.isObject)
    fun some_stage => touches.id? (at_site.clear.apart_id spot.byId some_stage)
  isObject := touches.isObject.trans spot.isObject
  distinct := touches.idsDistinct spot.distinct

namespace Insertion

open Element (namedLeaves)
open Operation (Stays result)

/-- The operations for an object do what adding the object means. -/
def ItemRefines (object : Fields) : Prop :=
  ∀ {site : Site} {stages : List Stage} {names : List String} {ops : List Operation}
    {document element : Json} {back : Json → Json}, site.At stages names →
    Spot stages document element back → item site (.object object) = .ok ops →
    Stays site.base ops document →
    -- The object is added to the element, and this is put back where it stood.
    result ops document = (Upsert.item names (.object object) element).map back

section Arrays

variable {stages : List Stage} {document element : Json} {back : Json → Json}

/-- The operations for the objects of an array do what adding the objects means. -/
theorem objects_refine {site : Site} {names : List String} (at_site : site.At stages names)
    (spot : Spot stages document element back) {items : List Json} (listing : Listing items)
    (each : ∀ inner, .object inner ∈ items → ItemRefines inner) {ops : List Operation}
    (compiled : objects site items = .ok ops) (stays : Stays site.base ops document) :
    result ops document = (Upsert.objects names items element).map back := by
  -- What an object touches leaves a spot for the next one.
  induction items generalizing document element ops with
  | nil =>
    obtain rfl : [] = ops := by simpa [objects] using compiled
    simp [Upsert.objects, Except.map, spot.reaches.back_self]
  | cons first rest ih =>
    obtain ⟨here, others, compiledHere, compiledOthers, rfl⟩ := objects_cons_eq_ok.mp compiled
    rw [Operation.stays_append] at stays
    -- The first item does what it means, if it means anything.
    have mine : result here document = (Upsert.item names first element).map back := by
      cases first with
      | object inner => exact each inner (by simp) at_site spot compiledHere stays.1
      | _ =>
        obtain rfl : [] = here := by simpa [item] using compiledHere
        simp [Upsert.item, Except.map, spot.reaches.back_self]
    unfold Upsert.objects
    apply Operation.result_append_eq mine
    intro between reached
    -- It touches the names of the array only, so the rest start from a spot again.
    have touches : Touches names element between := by
      cases first with
      | object inner =>
        obtain ⟨id, addable⟩ := listing.addable inner (by simp)
        exact addable.touches spot.distinct reached
      | _ =>
        obtain rfl : element = between := by simpa [Upsert.item] using reached
        exact Or.inl rfl
    -- The base filter still selects what the first item left.
    exact ih (spot.touched at_site touches) listing.tail
      (fun inner member => each inner (by simp [member])) compiledOthers
      (stays.2 _ (by rw [mine, reached]; rfl))

/-- The addition of the scalars of an array does what adding its values means. -/
theorem scalars_refine {site : Site} {names : List String} (at_site : site.At stages names)
    (spot : Spot stages document element back) {items : List Json}
    (stays : Stays site.base (scalars site items) document) :
    result (scalars site items) document =
      (Upsert.values names (items.filter fun item => !item.isObject) element).map back := by
  -- The base filter selects the document, so the addition is carried out.
  by_cases none : items.filter (fun item => !item.isObject) = []
  · -- There is nothing to add, and no operation.
    simp [scalars, none, Upsert.values_nil, Except.map, spot.reaches.back_self]
  · -- There is one operation, which adds the values.
    have some_value := List.isEmpty_eq_false_iff.mpr none
    simp only [scalars, some_value, Bool.false_eq_true, ↓reduceIte] at stays ⊢
    rw [Operation.result_cons, Operation.applyTo_of_satisfies stays.1]
    have effect := at_site.addEach_eq spot.reaches none
    rw [← effect]
    simp only [Operation.under]
    cases Update.apply (site.inherited.map AliasFilter.toFields)
      (Update.addEach site.path (items.filter fun item => !item.isObject)) document <;> rfl

/-- The operations for an array do what adding the array means. -/
theorem array_refines {site : Site} {names : List String} (at_site : site.At stages names)
    (spot : Spot stages document element back) {items : List Json} (listing : Listing items)
    (each : ∀ inner, .object inner ∈ items → ItemRefines inner) {ops : List Operation}
    (compiled : array site items = .ok ops) (stays : Stays site.base ops document) :
    result ops document = (Upsert.array names items element).map back := by
  -- The values touch the names of the array only, and leave a spot for the objects.
  obtain ⟨below, compiledBelow, rfl⟩ := array_eq_ok.mp compiled
  rw [Operation.stays_append] at stays
  have first := scalars_refine at_site spot stays.1
  rw [Upsert.array, Upsert.nestedAt]
  apply Operation.result_append_eq first
  intro between reached
  have touches : Touches names element between :=
    Upsert.values_touches (fun value member => by simpa using (List.mem_filter.mp member).2)
      spot.distinct reached
  exact objects_refine at_site (spot.touched at_site touches) listing each compiledBelow
    (stays.2 _ (by rw [first, reached]; rfl))

/-- The operations for separate leaves do what adding their arrays means. -/
theorem listed_refine {site : String → Site} {base : Fields}
    (spot : Spot stages document element back) {leaves : List (List String × Json)}
    (separate : Separate leaves)
    (sites : ∀ names items, (names, .array items) ∈ leaves →
      (site (Path.dotted names)).At stages names ∧ (site (Path.dotted names)).base = base)
    (each : ∀ names items, (names, .array items) ∈ leaves → ∀ inner, .object inner ∈ items →
      ItemRefines inner)
    {ops : List Operation} (compiled : listed site leaves = .ok ops)
    (stays : Stays base ops document) :
    result ops document = (Upsert.listed leaves element).map back := by
  -- An array touches its own names only, and leaves a spot for the next leaf.
  induction leaves generalizing document element ops with
  | nil =>
    obtain rfl : [] = ops := by simpa [listed] using compiled
    simp [Upsert.listed, Except.map, spot.reaches.back_self]
  | cons leaf rest ih =>
    rcases leaf with ⟨names, value⟩
    have laterSites : ∀ names items, (names, .array items) ∈ rest →
        (site (Path.dotted names)).At stages names ∧ (site (Path.dotted names)).base = base :=
      fun names items member => sites names items (by simp [member])
    have laterEach : ∀ names items, (names, .array items) ∈ rest →
        ∀ inner, .object inner ∈ items → ItemRefines inner :=
      fun names items member => each names items (by simp [member])
    cases value with
    | array items =>
      obtain ⟨here, others, compiledHere, compiledOthers, rfl⟩ := listed_cons_eq_ok.mp compiled
      rw [Operation.stays_append] at stays
      -- The array is where its site says, behind the same stages.
      obtain ⟨at_site, owner⟩ := sites names items (by simp)
      have listing := separate.listing names items (by simp)
      have mine := array_refines at_site spot listing (each names items (by simp)) compiledHere
        (owner.symm ▸ stays.1)
      unfold Upsert.listed
      apply Operation.result_append_eq mine
      intro between reached
      have touches := listing.touches at_site.leads.some_name spot.distinct reached
      exact ih (spot.touched at_site touches) separate.tail laterSites laterEach compiledOthers
        (stays.2 _ (by rw [mine, reached]; rfl))
    -- A leaf that is no array means nothing, and has no operations.
    | _ =>
      simp only [listed] at compiled
      simpa only [Upsert.listed] using
        ih spot separate.tail laterSites laterEach compiled stays

end Arrays

section Item

variable {stages : List Stage} {document element : Json} {back : Json → Json} {site : Site}
  {names : List String} {object : Fields} {id : Json}

/-- The insertion of an object appends it to the array of the element, where the base filter selects
    the document and the object is absent. -/
theorem insert_appends (at_site : site.At stages names)
    (reaches : Stage.Reaches stages document element back) (regular : Element.Regular object)
    (free : obstructed names element = false)
    (based : Query.satisfies document site.base = true)
    (absent : Query.satisfies document (Element.describe site object).absent = true) :
    ((insert site (Element.describe site object) object).applyTo document).map Prod.fst =
      (Update.itemsOf "$push" (names.getLastD "") (lookup names element)).map fun items =>
        back (place (.array (items ++ [.object object])) names element) := by
  -- The filter of the insertion is the base filter together with the predicate.
  have selected : Query.satisfies document
      (insert site (Element.describe site object) object).filter = true := by
    have both := Query.satisfies_both document site.base (Element.describe site object).absent
    rw [based, absent] at both
    exact both
  rw [Operation.applyTo_of_satisfies selected, ← at_site.push_eq reaches regular free]
  simp only [insert, Operation.under]
  cases Update.apply (site.inherited.map AliasFilter.toFields)
    (Update.push site.path (.object object)) document <;> rfl

/-- The assignment of an object does what setting its scalar leaves means. -/
theorem assign_refines (at_site : site.At stages names) (byId : Stage.ById stages)
    (addable : Addable object id)
    (reaches : Stage.Reaches (stages ++ [site.stageOf names id]) document element back)
    (isObject : element.isObject = true)
    (stays : Stays site.base (assign site (Element.describe site object)) document) :
    result (assign site (Element.describe site object)) document =
      .ok (back (Upsert.assign object element)) := by
  rw [assign] at stays ⊢
  split
  · rename_i none
    -- Without assignments there are no leaves to set.
    rw [addable.regular.legible.assignments_eq site] at none
    have empty : Element.assigned object = [] := by simpa using none
    simp [Upsert.assign, empty, reaches.back_self]
  · rename_i some_assignment
    rw [if_neg some_assignment] at stays
    obtain ⟨changed, effect⟩ := at_site.assign_eq byId addable reaches isObject
    rw [Operation.result_cons, Operation.applyTo_of_satisfies stays.1]
    simp only [Operation.under, effect]
    rfl

/-- To what is no array an object cannot be added, and its insertion fails as well. -/
theorem refused_refines (at_site : site.At stages names) (spot : Spot stages document element back)
    (addable : Addable object id) (based : Query.satisfies document site.base = true)
    (free : obstructed names element = false) {error : UpdateError}
    (other : Update.itemsOf "$push" (names.getLastD "") (lookup names element) = .error error)
    (later : List Operation) :
    result (insert site (Element.describe site object) object :: later) document =
      (Upsert.item names (.object object) element).map back := by
  -- What is no array has no element with the id, so the insertion is carried out.
  have absent : Query.satisfies document (Element.describe site object).absent = true := by
    rw [at_site.absent_eq spot.reaches addable spot.distinct free]
    cases found : lookup names element with
    -- A missing array would not have been refused.
    | none => rfl
    | some value => cases value <;> simp_all [Update.itemsOf, Json.items?]
  rw [Upsert.item_refused free other, Operation.result_cons,
    insert_appends at_site spot.reaches addable.regular free based absent, other]
  rfl

/-- An object whose id no element has is appended, and then the rest of its operations find nothing
    to do. -/
theorem absent_refines (at_site : site.At stages names) (spot : Spot stages document element back)
    (addable : Addable object id) (based : Query.satisfies document site.base = true)
    (free : obstructed names element = false) {items : List Json}
    (array : Update.itemsOf "$push" (names.getLastD "") (lookup names element) = .ok items)
    (missing : ∀ item ∈ items, item.hasId id = false) {inner : List Operation}
    (compiled : listed (site.child (Element.describe site object)) (namedLeaves [] object) =
      .ok inner) :
    result (insert site (Element.describe site object) object ::
        (assign site (Element.describe site object) ++ inner)) document =
      (Upsert.item names (.object object) element).map back := by
  -- No element has the id, so the predicate holds.
  have absent : Query.satisfies document (Element.describe site object).absent = true := by
    rw [at_site.absent_eq spot.reaches addable spot.distinct free]
    rcases Upsert.itemsOf_eq_ok.mp array with found | ⟨found, -⟩
    · simpa [found, Json.items?] using missing
    · simp [found]
  have added := Upsert.item_absent addable.found free array missing
  -- The appended object is now the element with the id, and it carries itself.
  have moved := spot.touched at_site (addable.touches spot.distinct added)
  have has : (Json.object object).hasId id = true := by
    simp [Json.hasId, addable.found, Json.equal_self id addable.scalar.wellKeyed]
  have inside := Site.At.enter moved.reaches site moved.distinct addable.scalar
    (Projection.lookup_place at_site.leads.some_name free _) has
  have ids : (Json.object object).IdsDistinct :=
    Json.Identified.idsDistinct _ (by simpa [Json.Identified] using addable.identified)
  -- Whatever the object lists, it has itself.
  have settles : ∀ names items, (names, .array items) ∈ namedLeaves [] object →
      ∀ inner, .object inner ∈ items → ItemSettles inner := by
    intro names items leaf inner listed
    obtain ⟨innerId, below⟩ := (addable.separate.listing names items leaf).addable inner listed
    exact item_settles below
  -- So neither the assignment nor what is listed inside has anything to do.
  have quiet : result (assign site (Element.describe site object) ++ inner)
      (back (place (.array (items ++ [.object object])) names element)) =
        .ok (back (place (.array (items ++ [.object object])) names element)) := by
    apply Operation.result_of_settled
    intro op member
    rcases List.mem_append.mp member with mine | theirs
    · exact assign_settles at_site addable inside addable.carries_self op mine
    · exact inside_settles at_site addable settles inside ids addable.carries_self
        compiled op theirs
  rw [added, Operation.result_cons,
    insert_appends at_site spot.reaches addable.regular free based absent, array]
  exact quiet

/-- An object whose id one element has is not inserted; its scalar leaves are set on that element,
    and its arrays are added to it. -/
theorem present_refines (at_site : site.At stages names) (spot : Spot stages document element back)
    (addable : Addable object id)
    (each : ∀ names items, (names, .array items) ∈ namedLeaves [] object →
      ∀ inner, .object inner ∈ items → ItemRefines inner)
    (free : obstructed names element = false) {before after : List Json} {entered : Json}
    (array : lookup names element = some (.array (before ++ entered :: after)))
    (has : entered.hasId id = true) (others : ∀ item ∈ before ++ after, item.hasId id = false)
    {inner : List Operation}
    (compiled : listed (site.child (Element.describe site object)) (namedLeaves [] object) =
      .ok inner)
    (stays : Stays site.base (insert site (Element.describe site object) object ::
      (assign site (Element.describe site object) ++ inner)) document) :
    result (insert site (Element.describe site object) object ::
        (assign site (Element.describe site object) ++ inner)) document =
      (Upsert.item names (.object object) element).map back := by
  have identified := Element.identifiedBy_id addable.regular addable.scalar addable.found
  have inside := Site.At.enter spot.reaches site spot.distinct addable.scalar array has
  have isObject := Json.isObject_of_hasId has
  have ids := (spot.distinct.of_lookup array).element (by simp) isObject
  -- The object is there, so the insertion passes the document by.
  have settled := insert_settles at_site addable spot.reaches spot.distinct array (by simp) has
  have later := stays.of_settled settled
  rw [Operation.stays_append] at later
  have first := assign_refines at_site spot.byId addable inside isObject later.1
  -- The assignment keeps the id of the element, so the same stages lead to it afterwards; for the
  -- names behind the last stage any will do that lie apart from the id.
  obtain ⟨shape, idsStill, sameId⟩ := addable.assign_keeps ids
  have byId := Site.byId_append spot.byId site names addable.scalar
  have clear : Stage.Clear (stages ++ [site.stageOf names id]) [""] :=
    at_site.clear.append_singleton (by
      simpa [Site.stageOf, Site.stage] using .here (by decide) [] [])
  have moved : Spot (stages ++ [site.stageOf names id]) _ _ _ :=
    ⟨byId, inside.replace (at_site.sound_inside addable.regular identified) byId clear
      (shape.trans isObject) fun _ => sameId, shape.trans isObject, idsStill⟩
  -- The arrays of the object are one stage further down, at the same base filter.
  have sites : ∀ inside items, (inside, .array items) ∈ namedLeaves [] object →
      (site.child (Element.describe site object) (Path.dotted inside)).At
          (stages ++ [site.stageOf names id]) inside ∧
        (site.child (Element.describe site object) (Path.dotted inside)).base = site.base :=
    fun inside items leaf => ⟨at_site.child addable.regular identified leaf, rfl⟩
  have second := listed_refine moved addable.separate sites each compiled (later.2 _ first)
  rw [settled.result_cons, Operation.result_append, first, Upsert.item_present addable.found free
    array has others, Upsert.nested_eq]
  simp only [Except.bind, second]
  cases Upsert.listed (namedLeaves [] object) (Upsert.assign object entered) <;> rfl

end Item

/-- The operations for an object that can be added do what adding it means. -/
theorem item_refines {object : Fields} {id : Json} (addable : Addable object id) :
    ItemRefines object := by
  refine addable.induction (motive := ItemRefines) fun object id addable ih => ?_
  intro site stages names ops document element back at_site spot compiled stays
  have identified := Element.identifiedBy_id addable.regular addable.scalar addable.found
  have emitted := item_emits object addable.regular at_site compiled
  obtain ⟨inner, compiledInner, rfl⟩ := (item_eq_ok (identified.identity_ne site)).mp compiled
  -- The array of the object cannot be reached, is none, lacks the object, or has it.
  rcases Upsert.found_cases names addable.scalar spot.distinct with
    obstacle | ⟨free, other⟩ | ⟨free, array, missing⟩ | ⟨free, array, has, others⟩
  · -- Nothing passes the obstacle, and nothing is added behind it.
    rw [Upsert.item_blocked obstacle, Operation.result_of_settled fun op member =>
      (emitted op member).through.settled spot.reaches at_site.sound at_site.leads obstacle]
    simp [Except.map, spot.reaches.back_self]
  · exact refused_refines at_site spot addable stays.1 free other _
  · exact absent_refines at_site spot addable stays.1 free array missing compiledInner
  · exact present_refines at_site spot addable ih free array has others compiledInner stays

end Insertion

end DocPatch
