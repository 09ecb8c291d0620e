import DocPatch.Proofs.Plan.UpsertFrame

/-! What a document holds once a tree was added: every listed value, and every listed object with
    all that is listed in it. -/

namespace DocPatch.Upsert

open Element (namedLeaves)
open Projection (Apart Keeps lookup place obstructed)
open Update (itemsOf)

/-- The array at names holds a value, unless something is in the way of the names. -/
def HasValue (names : List String) (value holder : Json) : Prop :=
  obstructed names holder = true ∨
    ∃ items, lookup names holder = some (.array items) ∧ Json.within items value = true

mutual

/-- An element carries an object: its scalar leaves stand at their names, and its arrays hold what
    the arrays of the object list, unless something is in the way. -/
inductive Carries : Fields → Json → Prop where
  | intro {object : Fields} {element : Json}
      (assigned : ∀ leaf ∈ Element.assigned object, obstructed leaf.1 element = true ∨
        lookup leaf.1 element = some leaf.2)
      (values : ∀ names items, (names, .array items) ∈ namedLeaves [] object →
        ∀ value ∈ items, value.isObject = false → HasValue names value element)
      (objects : ∀ names items, (names, .array items) ∈ namedLeaves [] object →
        ∀ inner, .object inner ∈ items → Has names inner element) : Carries object element

/-- The array at names has an element with the id of an object that carries the object, unless
    something is in the way of the names. -/
inductive Has : List String → Fields → Json → Prop where
  | blocked {names : List String} {object : Fields} {holder : Json}
      (obstacle : obstructed names holder = true) : Has names object holder
  | there {names : List String} {object : Fields} {holder element : Json} {items : List Json}
      (array : lookup names holder = some (.array items)) (member : element ∈ items)
      (has : element.hasId (idOf object) = true) (carries : Carries object element) :
      Has names object holder

end

/-- The array at names holds what an array of the tree lists. -/
structure Holds (names : List String) (items : List Json) (holder : Json) : Prop where
  values : ∀ value ∈ items, value.isObject = false → HasValue names value holder
  objects : ∀ inner, .object inner ∈ items → Has names inner holder

/-- What an element carries, array by array. -/
theorem carries_iff {object : Fields} {element : Json} :
    Carries object element ↔
      (∀ leaf ∈ Element.assigned object, obstructed leaf.1 element = true ∨
        lookup leaf.1 element = some leaf.2) ∧
      ∀ names items, (names, .array items) ∈ namedLeaves [] object → Holds names items element := by
  -- What is asked of each array is only grouped by values and objects.
  constructor
  · intro given
    obtain ⟨assigned, values, objects⟩ := given
    exact ⟨assigned, fun names items leaf => ⟨values names items leaf, objects names items leaf⟩⟩
  · intro given
    obtain ⟨assigned, arrays⟩ := given
    exact .intro assigned (fun names items leaf => (arrays names items leaf).values)
      fun names items leaf => (arrays names items leaf).objects

section Keeps

variable {names : List String} {before after : Json}

/-- A value that is held stays where its names are not touched. -/
theorem HasValue.keeps {value : Json} (has : HasValue names value before)
    (keeps : Keeps names before after) : HasValue names value after := by
  rcases has with obstacle | ⟨items, array, held⟩
  · -- The obstacle stays where it is.
    exact Or.inl (keeps.1 obstacle)
  · exact Or.inr ⟨items, keeps.2 _ array, held⟩

/-- An object that is held stays where its names are not touched. -/
theorem Has.keeps {object : Fields} (has : Has names object before)
    (keeps : Keeps names before after) : Has names object after := by
  cases has with
  | blocked obstacle => exact .blocked (keeps.1 obstacle)
  -- The same array stands there, with the same element.
  | there array member has carries => exact .there (keeps.2 _ array) member has carries

/-- An array that is held stays where its names are not touched. -/
theorem Holds.keeps {items : List Json} (holds : Holds names items before)
    (keeps : Keeps names before after) : Holds names items after :=
  -- Values and objects are both held at the names of the array.
  ⟨fun value member plain => (holds.values value member plain).keeps keeps,
    fun inner member => (holds.objects inner member).keeps keeps⟩

end Keeps

/-- An object that can be added carries itself. -/
theorem Addable.carries_self {object : Fields} {id : Json} (addable : Addable object id) :
    Carries object (.object object) := by
  -- Every leaf of the object stands at its own names, and every value equals itself.
  refine addable.induction (motive := fun object => Carries object (.object object))
    fun object id addable ih => ?_
  have stands : ∀ {names : List String} {value : Json}, (names, value) ∈ namedLeaves [] object →
      lookup names (.object object) = some value :=
    fun leaf => Element.lookup_of_leaf addable.regular.keyed leaf
  refine carries_iff.mpr ⟨fun leaf member => ?_, fun names items leaf => ⟨?_, ?_⟩⟩
  · -- A scalar leaf is what stands at its names.
    exact Or.inr (stands (Element.mem_assigned.mp member).1)
  · -- A value of an array is in the array and equals itself.
    intro value member _
    have same := Json.equal_self value
      ((addable.separate.listing names items leaf).keyed.of_mem member)
    exact Or.inr ⟨items, stands leaf, List.any_eq_true.mpr ⟨value, member, same⟩⟩
  · -- An object of an array is its own element there, since its id equals itself.
    intro inner member
    obtain ⟨innerId, below⟩ := (addable.separate.listing names items leaf).addable inner member
    refine .there (stands leaf) member ?_ (ih names items leaf inner member)
    have same := Json.equal_self innerId below.scalar.wellKeyed
    simp [Json.hasId, below.found, idOf, same]

section Added

variable {names : List String} {before after : Json}

/-- What became of the array at names when an object was added: nothing, it grew by the object, or
    the object went into one of its elements. -/
theorem Addable.item_cases {object : Fields} {id : Json} (addable : Addable object id)
    (some_name : names ≠ []) (distinct : before.IdsDistinct)
    (added : item names (.object object) before = .ok after) :
    (obstructed names before = true ∧ after = before) ∨
    (∃ items, obstructed names before = false ∧
      (∀ held, lookup names before = some (.array held) → held = items) ∧
      lookup names after = some (.array (items ++ [.object object]))) ∨
    ∃ earlier element later changed,
      lookup names before = some (.array (earlier ++ element :: later)) ∧
      element.hasId id = true ∧
      nested [] object (assign object element) = .ok changed ∧
      lookup names after = some (.array (earlier ++ changed :: later)) := by
  -- A refused addition is none that was made, so three of the four cases remain.
  rcases found_cases names addable.scalar distinct with
    obstacle | ⟨free, other⟩ | ⟨free, array, missing⟩ | ⟨free, array, has, others⟩
  · rw [item_blocked obstacle] at added
    exact Or.inl ⟨obstacle, (Except.ok.inj added).symm⟩
  · rw [item_refused free other] at added
    contradiction
  · -- The array of the object has grown by it.
    rw [item_absent addable.found free array missing] at added
    obtain rfl := Except.ok.inj added
    refine Or.inr (Or.inl ⟨_, free, fun held stands => ?_,
      Projection.lookup_place some_name free _⟩)
    simpa [stands, itemsOf] using array
  · -- One of its elements took the object in.
    rw [item_present addable.found free array has others, map_eq_ok] at added
    obtain ⟨changed, done, rfl⟩ := added
    exact Or.inr (Or.inr ⟨_, _, _, changed, array, has, done,
      Projection.lookup_place some_name free _⟩)

/-- Where one element of a list is exchanged, the others stay. -/
theorem mem_exchange {earlier later : List Json} {kept element changed : Json}
    (member : kept ∈ earlier ++ element :: later) (other : kept ≠ element) :
    kept ∈ earlier ++ changed :: later := by
  -- The item is not the one that was exchanged, so it stands before it or after it.
  simp only [List.mem_append, List.mem_cons, other, false_or] at member
  rcases member with earlier | later
  · simp [earlier]
  · simp [later]

/-- Values stay held when an object is added to their array. -/
theorem Addable.item_keeps_value {object : Fields} {id : Json} (addable : Addable object id)
    (some_name : names ≠ []) (distinct : before.IdsDistinct)
    (added : item names (.object object) before = .ok after) {value : Json}
    (plain : value.isObject = false) (has : HasValue names value before) :
    HasValue names value after := by
  -- The array has only grown, or one of its objects has changed.
  rcases has with obstacle | ⟨held, there, within⟩
  · rcases addable.item_cases some_name distinct added with
      ⟨-, rfl⟩ | ⟨items, free, -, -⟩ | ⟨_, _, _, _, array, -, -, -⟩
    · -- Behind the obstacle nothing was added.
      exact Or.inl obstacle
    · simp [obstacle] at free
    · simp [Projection.lookup_of_obstructed obstacle] at array
  · obtain ⟨equal, member, same⟩ := List.any_eq_true.mp within
    rcases addable.item_cases some_name distinct added with
      ⟨-, rfl⟩ | ⟨items, -, found, grown⟩ | ⟨earlier, element, later, changed, array,
        hasId, -, stands⟩
    · exact Or.inr ⟨held, there, within⟩
    · -- The array has grown, and holds what it held.
      obtain rfl := found held there
      exact Or.inr ⟨_, grown, List.any_eq_true.mpr ⟨equal, by simp [member], same⟩⟩
    · -- The element that changed is an object, so it is not the one that equals the value.
      obtain rfl : held = earlier ++ element :: later := by simpa [there] using array
      have other : equal ≠ element := by
        intro equal
        subst equal
        have object := Json.isObject_of_hasId hasId
        cases equal <;> cases value <;> simp [Json.isObject, Json.equal] at object plain same
      exact Or.inr ⟨_, stands, List.any_eq_true.mpr ⟨equal, mem_exchange member other, same⟩⟩

/-- Objects stay held when an object with another id is added to their array. -/
theorem Addable.item_keeps_has {object inner : Fields} {id innerId : Json}
    (addable : Addable object id) (below : Addable inner innerId)
    (differ : innerId.equal id = false) (some_name : names ≠ []) (distinct : before.IdsDistinct)
    (added : item names (.object object) before = .ok after) (has : Has names inner before) :
    Has names inner after := by
  -- The array has only grown, or another one of its objects has changed.
  cases has with
  | blocked obstacle =>
    rcases addable.item_cases some_name distinct added with
      ⟨-, rfl⟩ | ⟨items, free, -, -⟩ | ⟨_, _, _, _, array, -, -, -⟩
    · exact .blocked obstacle
    · simp [obstacle] at free
    · simp [Projection.lookup_of_obstructed obstacle] at array
  | @there _ _ _ kept held there member hasInner carries =>
    rcases addable.item_cases some_name distinct added with
      ⟨-, rfl⟩ | ⟨items, -, found, grown⟩ | ⟨earlier, element, later, changed, array,
        hasId, -, stands⟩
    · exact .there there member hasInner carries
    · -- The array has grown, and the element is still in it.
      obtain rfl := found held there
      exact .there grown (by simp [member]) hasInner carries
    · -- One element does not have both ids, so it was another one that changed.
      obtain rfl : held = earlier ++ element :: later := by simpa [there] using array
      have other : kept ≠ element := by
        intro equal
        subst equal
        rw [idOf_eq below.found] at hasInner
        have same := Json.equal_of_hasId_both below.scalar hasInner hasId
        simp [same] at differ
      exact .there stands (mem_exchange member other) hasInner carries

/-- Without its first item an array can still be added. -/
theorem Listing.tail {first : Json} {rest : List Json} (listing : Listing (first :: rest)) :
    Listing rest := by
  -- Ids that differ in the whole list differ in a part of it.
  have keyed := listing.keyed
  simp only [Json.ItemsWellKeyed] at keyed
  refine ⟨keyed.2, fun inner member => listing.addable inner (by simp [member]), ?_⟩
  exact listing.differ.sublist ((List.sublist_cons_self first rest).filterMap Json.id?)

/-- The first object of an array has another id than those after it. -/
theorem Listing.head_differs {object inner : Fields} {id innerId : Json} {rest : List Json}
    (listing : Listing (.object object :: rest)) (addable : Addable object id)
    (below : Addable inner innerId) (later : .object inner ∈ rest) : id.equal innerId = false := by
  -- The ids of the array are listed in its order.
  have differ := listing.differ
  rw [List.filterMap_cons, Json.id?_object, addable.found] at differ
  exact (List.pairwise_cons.mp differ).1 innerId
    (List.mem_filterMap.mpr ⟨_, later, by simp [below.found]⟩)

/-- Values stay held when objects are added to their array. -/
theorem objects_keep_value (some_name : names ≠ []) {items : List Json} (listing : Listing items)
    (distinct : before.IdsDistinct) (added : objects names items before = .ok after) {value : Json}
    (plain : value.isObject = false) (has : HasValue names value before) :
    HasValue names value after := by
  -- Each object keeps the value, and leaves the ids distinct for the next one.
  induction items generalizing before with
  | nil =>
    obtain rfl : before = after := by simpa [objects] using added
    exact has
  | cons first rest ih =>
    obtain ⟨between, here, later⟩ := objects_cons_ok.mp added
    cases first with
    -- The ids stay distinct when an object is added, as the next one needs it.
    | object inner =>
      obtain ⟨id, addable⟩ := listing.addable inner (by simp)
      exact ih listing.tail ((addable.touches distinct here).idsDistinct distinct) later
        (addable.item_keeps_value some_name distinct here plain has)
    | _ =>
      obtain rfl : before = between := by simpa [item] using here
      exact ih listing.tail distinct later has

/-- An object stays held when objects with other ids are added to its array. -/
theorem objects_keep_has (some_name : names ≠ []) {items : List Json} (listing : Listing items)
    (distinct : before.IdsDistinct) (added : objects names items before = .ok after)
    {object : Fields} {id : Json} (addable : Addable object id)
    (differ : ∀ inner innerId, .object inner ∈ items → Addable inner innerId →
      id.equal innerId = false) (has : Has names object before) : Has names object after := by
  -- Each object has another id, and leaves the ids distinct for the next one.
  induction items generalizing before with
  | nil =>
    obtain rfl : before = after := by simpa [objects] using added
    exact has
  | cons first rest ih =>
    obtain ⟨between, here, later⟩ := objects_cons_ok.mp added
    have others := @ih between listing.tail
    cases first with
    -- The inner object has another id than the one that is held.
    | object inner =>
      obtain ⟨innerId, below⟩ := listing.addable inner (by simp)
      exact others ((below.touches distinct here).idsDistinct distinct) later
        (fun inner innerId member => differ inner innerId (by simp [member]))
        (below.item_keeps_has addable (differ inner innerId (by simp) below) some_name
          distinct here has)
    | _ =>
      obtain rfl : before = between := by simpa [item] using here
      exact others distinct later
        (fun inner innerId member => differ inner innerId (by simp [member])) has

/-- Once an object was added to an array, the array has it. -/
def ItemHas (object : Fields) : Prop :=
  ∀ {names : List String} {before after : Json}, names ≠ [] → before.IdsDistinct →
    item names (.object object) before = .ok after → Has names object after

/-- Once objects were added to an array, the array has them. -/
theorem objects_have (some_name : names ≠ []) {items : List Json} (listing : Listing items)
    (each : ∀ inner, .object inner ∈ items → ItemHas inner) (distinct : before.IdsDistinct)
    (added : objects names items before = .ok after) :
    ∀ inner, .object inner ∈ items → Has names inner after := by
  -- Each object is there once it was added, and those after it have other ids.
  induction items generalizing before with
  | nil => simp
  | cons first rest ih =>
    obtain ⟨between, here, later⟩ := objects_cons_ok.mp added
    have others := @ih between listing.tail fun inner member => each inner (by simp [member])
    intro inner member
    cases first with
    | object head =>
      obtain ⟨id, addable⟩ := listing.addable head (by simp)
      have still := (addable.touches distinct here).idsDistinct distinct
      rcases List.mem_cons.mp member with same | member
      · -- The first object is there, and those that follow have other ids.
        obtain rfl : inner = head := by simpa using same
        exact objects_keep_has some_name listing.tail still later addable
          (fun _ _ among below => listing.head_differs addable below among)
          (each inner (by simp) some_name distinct here)
      · exact others still later inner member
    | _ =>
      obtain rfl : before = between := by simpa [item] using here
      exact others distinct later inner (by simpa using member)

/-- Once an array was added, the array at its names holds what it lists. -/
theorem array_holds (some_name : names ≠ []) {items : List Json} (listing : Listing items)
    (each : ∀ inner, .object inner ∈ items → ItemHas inner) (distinct : before.IdsDistinct)
    (added : array names items before = .ok after) : Holds names items after := by
  obtain ⟨between, valued, later⟩ := array_eq_ok.mp added
  have plain : ∀ value ∈ items.filter (fun item => !item.isObject), value.isObject = false :=
    fun value member => by simpa using (List.mem_filter.mp member).2
  have still := (values_touches plain distinct valued).idsDistinct distinct
  -- The values were added before the objects, so they have to stay while the objects are added.
  refine ⟨fun value member none => ?_, objects_have some_name listing each still later⟩
  refine objects_keep_value some_name listing still later none ?_
  have among : value ∈ items.filter fun item => !item.isObject :=
    List.mem_filter.mpr ⟨member, by simp [none]⟩
  -- The value was added if its names were free.
  cases obstacle : obstructed names before with
  | true =>
    rw [values_blocked obstacle] at valued
    exact Or.inl (Except.ok.inj valued ▸ obstacle)
  | false =>
    rw [values_free (List.ne_nil_of_mem among) obstacle, map_eq_ok] at valued
    obtain ⟨held, _, rfl⟩ := valued
    refine Or.inr ⟨_, Projection.lookup_place some_name obstacle _, ?_⟩
    exact within_union_of_mem (fun other member =>
      listing.keyed.of_mem (List.mem_filter.mp member).1) among held

/-- Once the arrays among separate leaves were added, each of them is held. -/
theorem listed_holds {leaves : List (List String × Json)} (separate : Separate leaves)
    (each : ∀ names items, (names, .array items) ∈ leaves →
      ∀ inner, .object inner ∈ items → ItemHas inner) (distinct : before.IdsDistinct)
    (added : listed leaves before = .ok after) :
    ∀ names items, (names, .array items) ∈ leaves → Holds names items after := by
  induction leaves generalizing before with
  | nil => simp
  | cons leaf rest ih =>
    rcases leaf with ⟨first, value⟩
    have others := @ih
    intro names items member
    cases value with
    | array list =>
      rw [listed, bind_eq_ok] at added
      obtain ⟨between, here, later⟩ := added
      have leads := separate.leads first list (by simp)
      have listing := separate.listing first list (by simp)
      have still := (listing.touches leads.some_name distinct here).idsDistinct distinct
      rcases List.mem_cons.mp member with same | member
      · obtain ⟨rfl, rfl⟩ : names = first ∧ items = list := by simpa using same
        have holds := array_holds leads.some_name listing (each names items (by simp)) distinct here
        -- The arrays after it are elsewhere.
        exact holds.keeps ((separate.tail.frame still later).keeps names fun other among leaf =>
          (List.pairwise_cons.mp separate.apart).1 _ leaf)
      · -- Another array is one of the later ones.
        exact others separate.tail (fun other among leaf => each other among (by simp [leaf])) still
          later names items member
    | _ =>
      exact others separate.tail
        (fun other among leaf => each other among (by simp [leaf])) distinct
        (by simpa only [listed] using added) names items (by simpa using member)

/-- Once an object that can be added was added, its array has it. -/
theorem Addable.item_has {object : Fields} {id : Json} (addable : Addable object id) :
    ItemHas object := by
  -- In the end the array has grown by the object, which carries itself, or an element took it in.
  refine addable.induction (motive := ItemHas) fun object id addable ih => ?_
  intro names before after some_name distinct added
  rcases addable.item_cases some_name distinct added with
    ⟨obstacle, rfl⟩ | ⟨items, -, -, grown⟩ | ⟨earlier, element, later, changed, array,
      has, done, stands⟩
  · exact .blocked obstacle
  · -- The object was appended, and carries itself.
    have same := Json.equal_self id addable.scalar.wellKeyed
    have has : (Json.object object).hasId (idOf object) = true := by
      simp [Json.hasId, addable.found, idOf, same]
    exact .there grown (by simp) has addable.carries_self
  · have inner := (distinct.of_lookup array).element (by simp) (Json.isObject_of_hasId has)
    obtain ⟨-, -, sameId⟩ := addable.inside_frame (fun names items leaf inner listed => by
      obtain ⟨innerId, below⟩ := (addable.separate.listing names items leaf).addable inner listed
      exact below.touches) inner done
    have assigned := (addable.assign_keeps inner).2.1
    rw [nested_eq] at done
    -- The element still has the id that the object is recognised by.
    have stillHas : changed.hasId (idOf object) = true := by
      rw [idOf_eq addable.found]
      simpa only [Json.hasId, sameId] using has
    refine .there stands (by simp) stillHas (carries_iff.mpr ⟨fun leaf member => ?_, ?_⟩)
    · -- The scalar leaves were assigned first, and the arrays are apart from them.
      obtain ⟨listed, whole, -⟩ := Element.mem_assigned.mp member
      have symmetric : Std.Symm fun left right : List String × Json => Apart left.1 right.1 :=
        ⟨fun _ _ apart => apart.symm⟩
      have keeps := (addable.separate.frame assigned done).keeps leaf.1 fun names items array =>
        addable.separate.apart.forall listed array (by
          intro equal
          subst equal
          simp [Json.items?] at whole)
      rcases addable.assign_stands element leaf member with obstacle | placed
      · exact Or.inl (keeps.1 obstacle)
      · exact Or.inr (keeps.2 _ placed)
    · exact listed_holds addable.separate
        (fun names items leaf => ih names items leaf) assigned done

/-- Once the arrays of separate leaves were added, each of them is held. -/
theorem Separate.holds {leaves : List (List String × Json)} (separate : Separate leaves)
    (distinct : before.IdsDistinct) (added : listed leaves before = .ok after) :
    ∀ names items, (names, .array items) ∈ leaves → Holds names items after := by
  -- Each object has an id, and once it was added it is held by its own array.
  refine listed_holds separate (fun names items leaf inner member => ?_) distinct added
  obtain ⟨id, addable⟩ := (separate.listing names items leaf).addable inner member
  exact addable.item_has

end Added

end DocPatch.Upsert
