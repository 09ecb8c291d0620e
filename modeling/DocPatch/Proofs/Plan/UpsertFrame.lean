import DocPatch.Proofs.Plan.Origin
import DocPatch.Proofs.Plan.UpsertLaws

/-! Adding a tree only touches what the tree lists: objects stay objects, ids go on telling elements
    apart, and other paths lead to what they led to. -/

namespace DocPatch.Upsert

open Element (namedLeaves)
open Projection (Apart Keeps lookup place obstructed)
open Update (itemsOf)

/-- An object that can be added to an array: it has a scalar id, and so have the objects in it. -/
structure Addable (object : Fields) (id : Json) : Prop where
  regular : Element.Regular object
  identified : Json.FieldsIdentified object
  found : object.lookup Element.idField = some id
  scalar : id.Scalar

/-- An array of a tree that can be added: so can its objects, and their ids differ. -/
structure Listing (items : List Json) : Prop where
  keyed : Json.ItemsWellKeyed items
  addable : ∀ inner, .object inner ∈ items → ∃ id, Addable inner id
  differ : (items.filterMap Json.id?).Pairwise fun left right => left.equal right = false

/-- Leaves whose arrays can be added one after the other, without disturbing one another. -/
structure Separate (leaves : List (List String × Json)) : Prop where
  apart : leaves.Pairwise fun left right => Apart left.1 right.1
  leads : ∀ names items, (names, .array items) ∈ leaves → Path.Leads names
  listing : ∀ names items, (names, .array items) ∈ leaves → Listing items

/-- Without its first leaf the others can still be added. -/
theorem Separate.tail {leaf : List String × Json} {rest : List (List String × Json)}
    (separate : Separate (leaf :: rest)) : Separate rest :=
  -- All that is asked of the leaves is asked of each or of each two.
  ⟨(List.pairwise_cons.mp separate.apart).2,
    fun names items member => separate.leads names items (by simp [member]),
    fun names items member => separate.listing names items (by simp [member])⟩

/-- An array can be added when it is identified, and its objects are regular. -/
theorem Listing.of_identified {items : List Json} (keyed : Json.ItemsWellKeyed items)
    (identified : (Json.array items).Identified)
    (regular : ∀ inner, .object inner ∈ items → Element.Regular inner) : Listing items := by
  -- Every object of an identified array has an id and is identified inside.
  simp only [Json.Identified] at identified
  refine ⟨keyed, fun inner member => ?_, identified.1⟩
  obtain ⟨⟨id, found, scalar⟩, below⟩ := identified.2.of_mem member
  exact ⟨id, regular inner member, below, found, scalar⟩

/-- The arrays of an object that can be added can be added to it. -/
theorem Addable.separate {object : Fields} {id : Json} (addable : Addable object id) :
    Separate (namedLeaves [] object) where
  -- The leaves of an object part, and each array among them is identified like the object.
  apart := Element.namedLeaves_apart [] object addable.regular.keyed
  leads := fun _ _ leaf => Element.leads_of_leaf addable.regular.plain leaf
  listing := by
    intro names items leaf
    have identified : (Json.array items).Identified := Json.Identified.of_lookup
      (by simpa [Json.Identified] using addable.identified)
      (Element.lookup_of_leaf addable.regular.keyed leaf)
    exact .of_identified (Element.wellKeyed_of_leaf addable.regular.keyed leaf) identified
      fun inner listed => addable.regular.visited leaf listed

/-- A leaf of an object that can be added lies apart from the id, unless it is the id. -/
theorem Addable.apart_id {object : Fields} {id : Json} (addable : Addable object id)
    {leaf : List String × Json} (member : leaf ∈ namedLeaves [] object)
    (other : leaf.1 ≠ [Element.idField]) : Apart [Element.idField] leaf.1 := by
  -- The id is a leaf itself, and different leaves part.
  have symmetric : Std.Symm fun left right : List String × Json => Apart left.1 right.1 :=
    ⟨fun _ _ apart => apart.symm⟩
  have mark := Element.leaf_of_lookup addable.found (Or.inr addable.scalar)
  have differ : ([Element.idField], id) ≠ leaf := by
    intro same
    subst same
    exact other rfl
  exact addable.separate.apart.forall mark member differ

/-- The arrays of an object that can be added lie apart from the id. -/
theorem Addable.arrays_apart_id {object : Fields} {id : Json} (addable : Addable object id)
    (names : List String) (items : List Json)
    (leaf : (names, .array items) ∈ namedLeaves [] object) : Apart [Element.idField] names := by
  -- The id is no array.
  refine addable.apart_id leaf ?_
  intro same
  subst same
  have stands := Element.lookup_of_leaf addable.regular.keyed leaf
  rw [Projection.lookup_singleton, addable.found] at stands
  obtain rfl : id = .array items := by simpa using stands
  exact addable.scalar

/-- A property of objects that can be added holds of all, when it holds of each whose arrays list
    only objects with it. -/
theorem Addable.induction {motive : Fields → Prop}
    (visit : ∀ object id, Addable object id →
      (∀ names items, (names, .array items) ∈ namedLeaves [] object →
        ∀ inner, .object inner ∈ items → motive inner) → motive object)
    {object : Fields} {id : Json} (addable : Addable object id) : motive object := by
  -- Objects listed inside have ids of their own, so they can be added as well.
  induction object using Element.visit_induction generalizing id with
  | visit object ih =>
    apply visit object id addable
    intro names items leaf inner listed
    -- An inner object is one that can be added, with an id of its own.
    obtain ⟨innerId, below⟩ := (addable.separate.listing names items leaf).addable inner listed
    exact ih names items inner leaf listed below

/-- What stays the same when the arrays among some leaves are added. -/
structure Frame (leaves : List (List String × Json)) (before after : Json) : Prop where
  isObject : after.isObject = before.isObject
  idsDistinct : after.IdsDistinct
  keeps : ∀ path, (∀ names items, (names, .array items) ∈ leaves → Apart path names) →
    Keeps path before after
  id? : (∀ names items, (names, .array items) ∈ leaves → Apart [Element.idField] names) →
    after.id? = before.id?

/-- Arrays that each touch their names only, keep everything else together. -/
theorem listed_frame {leaves : List (List String × Json)}
    (touches : ∀ names items, (names, .array items) ∈ leaves → ∀ before after,
      before.IdsDistinct → array names items before = .ok after → Touches names before after)
    {before after : Json} (distinct : before.IdsDistinct)
    (added : listed leaves before = .ok after) : Frame leaves before after := by
  -- What one array leaves distinct is distinct for the next one.
  induction leaves generalizing before with
  | nil =>
    obtain rfl : before = after := by simpa [listed] using added
    exact ⟨rfl, distinct, fun path _ => .refl path before, fun _ => rfl⟩
  | cons leaf rest ih =>
    rcases leaf with ⟨names, value⟩
    have later := @ih fun names items member => touches names items (by simp [member])
    cases value with
    | array items =>
      rw [listed, bind_eq_ok] at added
      obtain ⟨between, here, added⟩ := added
      -- The first array touches its names, and what is apart from them stays.
      have first := touches names items (by simp) before between distinct here
      have frame := later (first.idsDistinct distinct) added
      refine ⟨frame.isObject.trans first.isObject, frame.idsDistinct,
        fun path apart => ?_, fun apart => ?_⟩
      · -- A path apart from all arrays is apart from the first and from the others.
        have mine := first.keeps (apart names items (by simp))
        exact mine.trans (frame.keeps path fun names items member => apart names items
          (by simp [member]))
      · -- The same goes for the id.
        have mine := first.id? (apart names items (by simp))
        exact (frame.id? fun names items member => apart names items (by simp [member])).trans mine
    | _ =>
      have frame := later distinct (by simpa only [listed] using added)
      exact ⟨frame.isObject, frame.idsDistinct,
        fun path apart => frame.keeps path fun names items member =>
        apart names items (by simp [member]),
        fun apart => frame.id? fun names items member => apart names items (by simp [member])⟩

section Assign

/-- Placing leaves one after the other leaves every path untouched that is apart from them all. -/
theorem keeps_all {leaves : List (List String × Json)} {path : List String}
    (parted : ∀ leaf ∈ leaves, Apart path leaf.1) (element : Json) :
    Keeps path element
      (leaves.foldl (fun element leaf => place leaf.2 leaf.1 element) element) := by
  induction leaves generalizing element with
  | nil => exact .refl path element
  | cons leaf rest ih =>
    -- The first leaf leaves the path alone, and so do the others.
    have here := Projection.keeps_place (parted leaf (by simp)) leaf.2 element
    exact here.trans (ih (fun other member => parted other (by simp [member])) _)

/-- Placing scalars at paths apart leaves each of them at its path, unless something is
    in the way. -/
theorem place_all {leaves : List (List String × Json)}
    (apart : leaves.Pairwise fun left right => Apart left.1 right.1)
    (some_name : ∀ leaf ∈ leaves, leaf.1 ≠ []) (element : Json) : ∀ leaf ∈ leaves,
      obstructed leaf.1 (leaves.foldl (fun element leaf => place leaf.2 leaf.1 element) element) =
        true ∨
      lookup leaf.1 (leaves.foldl (fun element leaf => place leaf.2 leaf.1 element) element) =
        some leaf.2 := by
  -- Later leaves are placed apart from the earlier ones.
  induction leaves generalizing element with
  | nil => simp
  | cons first rest ih =>
    obtain ⟨parted, others⟩ := List.pairwise_cons.mp apart
    intro leaf member
    rcases List.mem_cons.mp member with rfl | later
    · -- What is placed first stays, since the others are placed apart from it.
      have stays := keeps_all parted (place leaf.2 leaf.1 element)
      cases obstacle : obstructed leaf.1 element with
      -- Something was in the way of the leaf, and still is.
      | true =>
        rw [List.foldl_cons, Projection.place_of_obstructed obstacle] at *
        exact Or.inl (stays.1 obstacle)
      | false =>
        exact Or.inr (stays.2 _
          (Projection.lookup_place (some_name leaf (by simp)) obstacle leaf.2))
    · -- What is placed later is treated by the induction.
      exact ih others (fun other among => some_name other (by simp [among])) _ leaf later

variable {object : Fields} {id : Json}

/-- What is assigned lies apart from one another. -/
theorem Addable.assigned_apart (addable : Addable object id) :
    (Element.assigned object).Pairwise fun left right => Apart left.1 right.1 :=
  addable.separate.apart.sublist (List.filter_sublist.trans List.filter_sublist)

/-- Setting some of the leaves that are assigned keeps the id and the shape of an element, and the
    ids in it. -/
theorem Addable.leaves_keep (addable : Addable object id) {leaves : List (List String × Json)}
    (within : ∀ leaf ∈ leaves, leaf ∈ Element.assigned object) {element : Json}
    (distinct : element.IdsDistinct) :
    (leaves.foldl (fun element leaf => place leaf.2 leaf.1 element) element).isObject =
        element.isObject ∧
      (leaves.foldl (fun element leaf => place leaf.2 leaf.1 element) element).IdsDistinct ∧
      (leaves.foldl (fun element leaf => place leaf.2 leaf.1 element) element).id? =
        element.id? := by
  -- Every leaf that is set is a scalar apart from the id.
  induction leaves generalizing element with
  | nil => exact ⟨rfl, distinct, rfl⟩
  | cons leaf rest ih =>
    obtain ⟨listed, whole, other⟩ := Element.mem_assigned.mp (within leaf (by simp))
    -- The leaf brings no arrays, and it is not the id.
    have scalar := Element.scalar_of_mem_scalarsOf (Element.mem_scalarsOf.mpr ⟨listed, whole⟩)
    have apart := addable.apart_id listed other
    have placed : (place leaf.2 leaf.1 element).IdsDistinct := distinct.place scalar.idsDistinct
    obtain ⟨shape, ids, id⟩ := ih (fun other member => within other (by simp [member])) placed
    exact ⟨shape.trans (Projection.isObject_place ..), ids, id.trans (Stage.id?_place apart ..)⟩

/-- An assignment keeps the id and the shape of an element, and the ids in it. -/
theorem Addable.assign_keeps (addable : Addable object id) {element : Json}
    (distinct : element.IdsDistinct) :
    (assign object element).isObject = element.isObject ∧ (assign object element).IdsDistinct ∧
      (assign object element).id? = element.id? :=
  -- Each leaf is set on its own, and none of them is the id.
  addable.leaves_keep (fun _ member => member) distinct

/-- After an assignment every scalar leaf stands at its names, unless something is in the way. -/
theorem Addable.assign_stands (addable : Addable object id) (element : Json) :
    ∀ leaf ∈ Element.assigned object, obstructed leaf.1 (assign object element) = true ∨
      lookup leaf.1 (assign object element) = some leaf.2 := by
  -- What is assigned are leaves apart from one another.
  refine place_all addable.assigned_apart (fun leaf member => ?_) element
  exact (Element.leads_of_leaf addable.regular.plain (Element.mem_assigned.mp member).1).some_name

end Assign

/-- Only objects have ids, so the objects of a list have all ids of the list. -/
theorem filterMap_id?_objects (items : List Json) :
    (items.filter Json.isObject).filterMap Json.id? = items.filterMap Json.id? := by
  -- What is no object is passed over on both sides.
  rw [List.filterMap_filter]
  apply List.filterMap_congr
  intro item _
  cases item <;> rfl

/-- Lists with the same objects tell their elements apart alike. -/
theorem idsDistinct_of_objects {items others : List Json}
    (same : items.filter Json.isObject = others.filter Json.isObject)
    (distinct : (Json.array others).IdsDistinct) : (Json.array items).IdsDistinct := by
  -- All that counts of an array are its objects.
  rw [Json.idsDistinct_array_iff] at distinct ⊢
  refine ⟨?_, fun item member object => ?_⟩
  · -- Only objects have ids, so both lists have the same ones.
    rw [← filterMap_id?_objects, same, filterMap_id?_objects]
    exact distinct.1
  · -- An object of the one list is an object of the other.
    have among : item ∈ others.filter Json.isObject := same ▸ List.mem_filter.mpr ⟨member, object⟩
    exact distinct.2 item (List.mem_filter.mp among).1 object

/-- The array that an operator finds tells its elements apart. -/
theorem idsDistinct_of_itemsOf {operator field : String} {names : List String} {target : Json}
    {items : List Json} (distinct : target.IdsDistinct)
    (found : itemsOf operator field (lookup names target) = .ok items) :
    (Json.array items).IdsDistinct := by
  -- A missing field has an empty array, in which there are no ids.
  rcases itemsOf_eq_ok.mp found with stands | ⟨-, rfl⟩
  · exact distinct.of_lookup stands
  · simp only [Json.IdsDistinct, Json.ItemsIdsDistinct, and_true]
    exact ⟨by simp, by simp⟩

section Touches

variable {names : List String} {before after : Json}

/-- Adding values that are no objects touches their names only. -/
theorem values_touches {added : List Json} (plain : ∀ value ∈ added, value.isObject = false)
    (distinct : before.IdsDistinct) (done : values names added before = .ok after) :
    Touches names before after := by
  -- Values that are no objects change no ids.
  by_cases none : added = []
  · subst none
    obtain rfl : before = after := by simpa [values_nil] using done
    exact Or.inl rfl
  · cases obstacle : obstructed names before with
    -- Something is in the way, and nothing was done.
    | true =>
      rw [values_blocked obstacle] at done
      exact Or.inl (Except.ok.inj done).symm
    -- The array has grown by values that are no objects.
    | false =>
      rw [values_free none obstacle, map_eq_ok] at done
      obtain ⟨items, found, rfl⟩ := done
      refine Or.inr ⟨_, ?_, rfl⟩
      exact idsDistinct_of_objects (objects_union plain items)
        (idsDistinct_of_itemsOf distinct found)

/-- Adding an object touches the names of its array only. -/
def ItemTouches (object : Fields) : Prop :=
  ∀ {names : List String} {before after : Json}, before.IdsDistinct →
    item names (.object object) before = .ok after → Touches names before after

/-- An array is added in two parts: its values, and then its objects. -/
theorem array_eq_ok {items : List Json} :
    array names items before = .ok after ↔
      ∃ between, values names (items.filter fun item => !item.isObject) before = .ok between ∧
        objects names items between = .ok after := by
  -- The second part is added to what the first one left.
  rw [array, nestedAt, bind_eq_ok]

/-- Objects are added one after the other. -/
theorem objects_cons_ok {first : Json} {rest : List Json} :
    objects names (first :: rest) before = .ok after ↔
      ∃ between, item names first before = .ok between ∧
        objects names rest between = .ok after := by
  -- The others are added to what the first one left.
  rw [objects, bind_eq_ok]

/-- Adding objects touches the names of their array only. -/
theorem objects_touches (some_name : names ≠ []) {items : List Json}
    (each : ∀ inner, .object inner ∈ items → ItemTouches inner) (distinct : before.IdsDistinct)
    (added : objects names items before = .ok after) : Touches names before after := by
  -- The second of two changes at the same names stands for both.
  induction items generalizing before with
  | nil =>
    obtain rfl : before = after := by simpa [objects] using added
    exact Or.inl rfl
  | cons first rest ih =>
    obtain ⟨between, here, later⟩ := objects_cons_ok.mp added
    -- The first item touches the names if it is an object, and does nothing otherwise.
    have mine : Touches names before between := by
      cases first with
      | object inner => exact each inner (by simp) distinct here
      | _ =>
        obtain rfl : before = between := by simpa [item] using here
        exact Or.inl rfl
    exact mine.trans some_name
      (ih (fun inner member => each inner (by simp [member])) (mine.idsDistinct distinct) later)

/-- Adding an array touches its names only. -/
theorem array_touches (some_name : names ≠ []) {items : List Json}
    (each : ∀ inner, .object inner ∈ items → ItemTouches inner) (distinct : before.IdsDistinct)
    (added : array names items before = .ok after) : Touches names before after := by
  -- Values and objects are added at the same names.
  obtain ⟨between, valued, later⟩ := array_eq_ok.mp added
  have first := values_touches (fun value member => by simpa using (List.mem_filter.mp member).2)
    distinct valued
  exact first.trans some_name (objects_touches some_name each (first.idsDistinct distinct) later)

/-- What is added to an element: its shape, its id and the ids in it stay as they are. -/
theorem Addable.inside_frame {object : Fields} {id : Json} (addable : Addable object id)
    (each : ∀ names items, (names, .array items) ∈ namedLeaves [] object →
      ∀ inner, .object inner ∈ items → ItemTouches inner) {element changed : Json}
    (distinct : element.IdsDistinct)
    (added : nested [] object (assign object element) = .ok changed) :
    changed.isObject = element.isObject ∧ changed.IdsDistinct ∧ changed.id? = element.id? := by
  -- First the scalar leaves are set, and then the arrays are added, all apart from the id.
  obtain ⟨shape, ids, same⟩ := addable.assign_keeps distinct
  rw [nested_eq] at added
  have frame := listed_frame (fun names items leaf before after distinct added =>
    array_touches (addable.separate.leads names items leaf).some_name (each names items leaf)
      distinct added) ids added
  exact ⟨frame.isObject.trans shape, frame.idsDistinct,
    (frame.id? addable.arrays_apart_id).trans same⟩

/-- One element of an array can be exchanged for another with the same id. -/
theorem idsDistinct_exchange {before after : List Json} {element changed : Json}
    (distinct : (Json.array (before ++ element :: after)).IdsDistinct)
    (same : changed.id? = element.id?) (inner : changed.IdsDistinct) :
    (Json.array (before ++ changed :: after)).IdsDistinct := by
  -- The list of ids is the same, and so are the other elements.
  rw [Json.idsDistinct_array_iff] at distinct ⊢
  refine ⟨?_, fun item member object => ?_⟩
  · -- The element has the id that the other one had.
    simpa only [List.filterMap_append, List.filterMap_cons, same] using distinct.1
  · rcases List.mem_append.mp member with earlier | later
    · exact distinct.2 item (by simp [earlier]) object
    · rcases List.mem_cons.mp later with rfl | later
      · exact inner
      · exact distinct.2 item (by simp [later]) object

/-- An element with another id can be appended to an array. -/
theorem idsDistinct_append {items : List Json} {object : Fields} {id : Json}
    (distinct : (Json.array items).IdsDistinct) (addable : Addable object id)
    (missing : ∀ item ∈ items, item.hasId id = false) :
    (Json.array (items ++ [.object object])).IdsDistinct := by
  -- The new id is no array, and no element has it.
  have inner : (Json.object object).IdsDistinct :=
    Json.Identified.idsDistinct _ (by simpa [Json.Identified] using addable.identified)
  rw [Json.idsDistinct_array_iff] at distinct ⊢
  have ids : (items ++ [Json.object object]).filterMap Json.id? =
      items.filterMap Json.id? ++ [id] := by
    simp [addable.found]
  refine ⟨⟨?_, ?_⟩, fun item member object => ?_⟩
  · -- None of the ids is an array.
    intro other member
    rw [ids, List.mem_append, List.mem_singleton] at member
    rcases member with old | rfl
    · exact distinct.1.single other old
    · exact addable.scalar.items?_eq_none
  · -- The new id comes last, and differs from all before it.
    rw [ids, List.pairwise_append]
    refine ⟨distinct.1.differ, by simp, fun other old new among => ?_⟩
    obtain ⟨item, listed, found⟩ := List.mem_filterMap.mp old
    rw [List.mem_singleton.mp among]
    simpa [Json.hasId, found] using missing item listed
  · -- Inside of each element, ids tell elements apart as well.
    rcases List.mem_append.mp member with old | new
    · exact distinct.2 item old object
    · rw [List.mem_singleton.mp new]
      exact inner

/-- Adding an object that can be added touches the names of its array only. -/
theorem Addable.touches {object : Fields} {id : Json} (addable : Addable object id) :
    ItemTouches object := by
  -- The object stays out, is appended, or goes into the one element that has its id.
  refine addable.induction (motive := ItemTouches) fun object id addable ih => ?_
  intro names before after distinct added
  rcases found_cases names addable.scalar distinct with
    obstacle | ⟨free, other⟩ | ⟨free, array, missing⟩ | ⟨free, array, has, others⟩
  · rw [item_blocked obstacle] at added
    exact Or.inl (Except.ok.inj added).symm
  · -- A refused addition leaves nothing.
    rw [item_refused free other] at added
    contradiction
  · -- The array grows by an object with another id.
    rw [item_absent addable.found free array missing] at added
    obtain rfl := Except.ok.inj added
    exact Or.inr ⟨_, idsDistinct_append (idsDistinct_of_itemsOf distinct array) addable missing,
      rfl⟩
  · -- One element is exchanged for another with the same id.
    rw [item_present addable.found free array has others, map_eq_ok] at added
    obtain ⟨changed, done, rfl⟩ := added
    have held := distinct.of_lookup array
    have ids := held.element (by simp) (Json.isObject_of_hasId has)
    obtain ⟨shape, inner, same⟩ := addable.inside_frame (fun names items leaf inner listed =>
      ih names items leaf inner listed) ids done
    exact Or.inr ⟨_, idsDistinct_exchange held same inner, rfl⟩

/-- Adding an array that can be added touches its names only. -/
theorem Listing.touches {items : List Json} (listing : Listing items) (some_name : names ≠ [])
    (distinct : before.IdsDistinct) (added : array names items before = .ok after) :
    Touches names before after := by
  -- Each object has an id, so that its own addition touches only what is below it.
  refine array_touches some_name (fun inner member => ?_) distinct added
  obtain ⟨id, addable⟩ := listing.addable inner member
  exact addable.touches

/-- Adding the arrays among separate leaves keeps everything else. -/
theorem Separate.frame {leaves : List (List String × Json)} (separate : Separate leaves)
    (distinct : before.IdsDistinct) (added : listed leaves before = .ok after) :
    Frame leaves before after := by
  -- Each array touches its own names.
  refine listed_frame (fun names items leaf before after distinct added => ?_) distinct added
  exact (separate.listing names items leaf).touches (separate.leads names items leaf).some_name
    distinct added

/-- The fields of a tree can be added, when its keys are plain and its arrays are identified. -/
theorem separate_rootLeaves {tree : Fields} (regular : Element.Regular tree)
    (identified : ∀ field items, (field, .array items) ∈ tree → (Json.array items).Identified) :
    Separate (Insertion.rootLeaves tree) where
  -- The keys of the root stand once each, so the leaves part at their first names.
  apart := by
    have once := regular.keyed.nodup
    rw [List.Nodup, List.pairwise_map] at once
    rw [Insertion.rootLeaves, List.pairwise_map]
    exact once.imp fun differ => Apart.here differ [] []
  leads := by
    intro names items member
    exact Element.leads_of_leaf regular.plain (Insertion.leaf_of_mem_rootLeaves regular member).1
  listing := by
    intro names items member
    -- The array stands at one field of the tree, which identifies its objects.
    obtain ⟨leaf, field, rfl, listed⟩ := Insertion.leaf_of_mem_rootLeaves regular member
    have keyed := regular.keyed.of_mem listed
    simp only [Json.WellKeyed] at keyed
    exact .of_identified keyed (identified field items listed)
      fun inner member => regular.visited leaf member

end Touches

end DocPatch.Upsert
