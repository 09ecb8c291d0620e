import DocPatch.Proofs.Plan.Description

/-! Elements by their ids: documents whose ids tell elements apart, and trees whose objects have
    them. -/

namespace DocPatch

open Projection (lookup place obstructed)

namespace Json

/-- The id of an element, if it is an object that has one. -/
def id? (element : Json) : Option Json := element.fields?.bind (·.lookup Element.idField)

/-- Whether an element has an id equal to the given one. -/
def hasId (element id : Json) : Bool := element.id?.any fun found => found.equal id

/-- Ids that tell elements apart: none of them is an array, and no two are equal. -/
structure Distinct (ids : List Json) : Prop where
  single : ∀ id ∈ ids, id.items? = none
  differ : ids.Pairwise fun left right => left.equal right = false

mutual

/-- In every array, the ids of the elements that have one tell them apart. An array that stands
    directly in an array is not looked into, since no path leads there. -/
def IdsDistinct : Json → Prop
  | .array items => Distinct (items.filterMap id?) ∧ ItemsIdsDistinct items
  | .object fields => FieldsIdsDistinct fields
  | _ => True
termination_by structural x => x

/-- Every object among the items has distinct ids in its arrays. -/
def ItemsIdsDistinct : List Json → Prop
  | [] => True
  | .object fields :: rest => FieldsIdsDistinct fields ∧ ItemsIdsDistinct rest
  | _ :: rest => ItemsIdsDistinct rest
termination_by structural x => x

/-- Every value has distinct ids in its arrays. -/
def FieldsIdsDistinct : List (String × Json) → Prop
  | [] => True
  | (_, value) :: rest => value.IdsDistinct ∧ FieldsIdsDistinct rest
termination_by structural x => x

end

mutual

/-- In every array that the walk through a tree visits, each object has a scalar id, and the ids
    differ from one another. -/
def Identified : Json → Prop
  -- The ids of the elements are compared as the update does, by equality of values.
  | .array items => ((items.filterMap id?).Pairwise fun left right => left.equal right = false) ∧
      ItemsIdentified items
  | .object fields => FieldsIdentified fields
  | _ => True
termination_by structural x => x

/-- Every object among the items has a scalar id, and so have the objects in its arrays. -/
def ItemsIdentified : List Json → Prop
  | [] => True
  | .object fields :: rest =>
    -- The id may be any value that has no parts.
    (∃ id, fields.lookup Element.idField = some id ∧ id.Scalar) ∧ FieldsIdentified fields ∧
      ItemsIdentified rest
  | _ :: rest => ItemsIdentified rest
termination_by structural x => x

/-- Every value has scalar ids in its arrays. -/
def FieldsIdentified : List (String × Json) → Prop
  | [] => True
  | (_, value) :: rest => value.Identified ∧ FieldsIdentified rest
termination_by structural x => x

end

@[simp] theorem id?_object (fields : Fields) :
    (Json.object fields).id? = fields.lookup Element.idField := rfl

/-- What has an id is an object. -/
theorem isObject_of_hasId {id element : Json} (has : element.hasId id = true) :
    element.isObject = true := by
  -- Only an object has fields, and with them an id.
  cases element with
  | object fields => rfl
  | _ => simp [hasId, id?, fields?] at has

/-- An object satisfies the query for a scalar id when it has the id. -/
theorem satisfies_id {id : Json} (scalar : id.Scalar) {element : Json}
    (object : element.isObject = true)
    (single : ∀ found, element.id? = some found → found.items? = none) :
    Query.satisfies element [(Element.idField, id)] = element.hasId id := by
  -- The path of the id leads to one value, and a value that is no array is compared itself.
  cases element with
  | object fields =>
    have plain := Element.plain_idField
    rw [Query.satisfies_entry, Query.satisfies_nil, Bool.and_true,
      Query.clause_of_noOperator plain.noOperator, Path.segments_of_dotless plain.dotless,
      Query.holds_scalar scalar, Query.resolve_names (by simp), Projection.lookup_singleton]
    cases found : fields.lookup Element.idField with
    -- An object without an id equals no candidate.
    | none => simp [Query.someEquals, hasId, found]
    -- The id is no array, so it is not searched for an item that equals.
    | some held =>
      have whole := single held found
      simp [Query.someEquals, Query.equalsOrContains, hasId, found, whole]
  | _ => simp [isObject] at object

/-- Objects with the same id satisfy the same query for an id. -/
theorem satisfies_id_congr {left right : Json} (leftObject : left.isObject = true)
    (rightObject : right.isObject = true) (same : left.id? = right.id?) (id : Json) :
    Query.satisfies left [(Element.idField, id)] =
      Query.satisfies right [(Element.idField, id)] := by
  -- All that the query reads of an object is its id.
  have plain := Element.plain_idField
  have read : ∀ element : Json, element.isObject = true →
      Query.resolve (Path.segments Element.idField) element = element.id?.toList := by
    intro element object
    cases element with
    | object fields =>
      rw [Path.segments_of_dotless plain.dotless, Query.resolve_names (by simp),
        Projection.lookup_singleton, id?_object]
    | _ => simp [isObject] at object
  simp only [Query.satisfies_entry, Query.clause_of_noOperator plain.noOperator,
    read left leftObject, read right rightObject, same, Query.satisfies_nil]

/-- Ids that both equal one scalar equal each other. -/
theorem equal_of_hasId {id : Json} (scalar : id.Scalar) {left right leftId rightId : Json}
    (leftFound : left.id? = some leftId) (rightFound : right.id? = some rightId)
    (leftHas : left.hasId id = true) (rightHas : right.hasId id = true) :
    leftId.equal rightId = true := by
  simp only [hasId, leftFound, rightFound, Option.any_some] at leftHas rightHas
  -- Equality with a scalar goes from one side to the other.
  rw [scalar.equal_congr leftHas, scalar.equal_comm]
  exact rightHas

/-- Scalar ids of one element equal each other. -/
theorem equal_of_hasId_both {element id other : Json} (scalar : id.Scalar)
    (has : element.hasId id = true) (also : element.hasId other = true) :
    id.equal other = true := by
  -- Both equal the one id that the element has.
  cases found : element.id? with
  | none => simp [hasId, found] at has
  | some held =>
    simp only [hasId, found, Option.any_some] at has also
    rw [← scalar.equal_congr has]
    exact also

/-- Where ids differ, a scalar id belongs to one element at most. -/
theorem hasId_unique {before after : List Json} {element : Json}
    (differ : ((before ++ element :: after).filterMap id?).Pairwise
      fun left right => left.equal right = false)
    {id : Json} (scalar : id.Scalar) (has : element.hasId id = true) :
    ∀ other ∈ before ++ after, other.hasId id = false := by
  intro other member
  rw [← Bool.not_eq_true]
  intro also
  -- Both elements have some id.
  obtain ⟨mine, found⟩ : ∃ mine, element.id? = some mine := by
    cases found : element.id? with
    | none => simp [hasId, found] at has
    | some mine => exact ⟨mine, rfl⟩
  obtain ⟨theirs, foundToo⟩ : ∃ theirs, other.id? = some theirs := by
    cases found : other.id? with
    | none => simp [hasId, found] at also
    | some theirs => exact ⟨theirs, rfl⟩
  -- The other element stands before this one or after it.
  rw [List.pairwise_filterMap, List.pairwise_append] at differ
  rcases List.mem_append.mp member with earlier | later
  · -- An earlier element would have an id equal to a later one.
    have apart := differ.2.2 other earlier element (by simp) theirs foundToo mine found
    simp [equal_of_hasId scalar foundToo found also has] at apart
  · -- The same with the sides exchanged.
    have apart := (List.pairwise_cons.mp differ.2.1).1 other later mine found theirs foundToo
    simp [equal_of_hasId scalar found foundToo has also] at apart

/-- An array whose ids differ has no element with a scalar id, or one alone. -/
theorem hasId_cases {items : List Json}
    (differ : (items.filterMap id?).Pairwise fun left right => left.equal right = false)
    {id : Json} (scalar : id.Scalar) :
    (∀ item ∈ items, item.hasId id = false) ∨
      ∃ before element after, items = before ++ element :: after ∧ element.hasId id = true ∧
        ∀ other ∈ before ++ after, other.hasId id = false := by
  -- If some element has the id, all others differ from it.
  by_cases some_has : ∃ item ∈ items, item.hasId id = true
  · -- One element has it, and then no other does.
    obtain ⟨element, member, has⟩ := some_has
    obtain ⟨before, after, rfl⟩ := List.append_of_mem member
    exact Or.inr ⟨before, element, after, rfl, has, hasId_unique differ scalar has⟩
  · -- No element has it.
    left
    intro item member
    rw [← Bool.not_eq_true]
    exact fun has => some_has ⟨item, member, has⟩

/-- An entry of entries with distinct ids has a value with distinct ids. -/
theorem FieldsIdsDistinct.of_mem {fields : Fields} (distinct : FieldsIdsDistinct fields)
    {key : String} {value : Json} (member : (key, value) ∈ fields) : value.IdsDistinct := by
  -- Each entry is looked at with those behind it.
  have step : ∀ (first : String × Json) (rest : Fields), FieldsIdsDistinct (first :: rest) →
      first.2.IdsDistinct ∧ FieldsIdsDistinct rest := by
    intro entry rest distinct
    obtain ⟨name, held⟩ := entry
    simp only [FieldsIdsDistinct] at distinct
    exact distinct
  exact each_of_mem step distinct member

/-- Entries keep distinct ids when a key is given a value with distinct ids. -/
theorem FieldsIdsDistinct.put {fields : Fields} (distinct : FieldsIdsDistinct fields)
    (key : String) {value : Json} (given : value.IdsDistinct) :
    FieldsIdsDistinct (Fields.put key value fields) := by
  -- The value takes the place of another, or stands behind them all.
  induction fields with
  | nil => simpa [Fields.put, FieldsIdsDistinct] using given
  | cons entry rest ih =>
    rcases entry with ⟨name, held⟩
    simp only [FieldsIdsDistinct] at distinct
    by_cases same : name = key
    · -- The value takes the place of the first one.
      simpa [Fields.put, same, FieldsIdsDistinct] using ⟨given, distinct.2⟩
    · simpa [Fields.put, same, FieldsIdsDistinct] using ⟨distinct.1, ih distinct.2⟩

/-- What stands in a value with distinct ids has distinct ids. -/
theorem IdsDistinct.of_lookup {names : List String} {target value : Json}
    (distinct : target.IdsDistinct) (found : lookup names target = some value) :
    value.IdsDistinct := by
  -- Distinct ids go from an object to the values of its entries.
  refine Projection.holds_of_lookup (fun fields key value distinct member => ?_) distinct found
  simp only [IdsDistinct] at distinct
  exact distinct.of_mem member

/-- A value keeps distinct ids when a value with distinct ids is placed in it. -/
theorem IdsDistinct.place {names : List String} {target value : Json}
    (distinct : target.IdsDistinct) (given : value.IdsDistinct) :
    (place value names target).IdsDistinct := by
  -- Only the values along the path change, and new objects on it have no arrays.
  induction names generalizing target with
  | nil => exact distinct
  | cons name rest ih =>
    cases target with
    | object fields =>
      simp only [IdsDistinct] at distinct
      by_cases more : rest = []
      · -- At the last name the value itself is put.
        subst more
        simpa [Projection.place, IdsDistinct] using distinct.put name given
      · rw [Projection.place_cons more]
        -- A missing object is made empty, and an empty one has no arrays.
        have child : ((fields.lookup name).getD (.object [])).IdsDistinct := by
          cases found : fields.lookup name with
          | none => simp [IdsDistinct, FieldsIdsDistinct]
          | some child => exact distinct.of_mem (Fields.mem_of_lookup found)
        simpa [IdsDistinct] using distinct.put name (ih child)
    | _ => cases rest <;> exact distinct

/-- Items have distinct ids in their arrays when every object among them has. -/
theorem itemsIdsDistinct_iff {items : List Json} :
    ItemsIdsDistinct items ↔ ∀ item ∈ items, item.isObject = true → item.IdsDistinct := by
  -- Items that are no objects are passed by.
  induction items with
  | nil => simp [ItemsIdsDistinct]
  | cons item rest ih =>
    cases item with
    -- An object has to be looked into.
    | object fields => simp [ItemsIdsDistinct, ih, isObject, IdsDistinct]
    | _ => simp [ItemsIdsDistinct, ih, isObject]

/-- Ids tell the elements of an array apart, and those inside each of its objects. -/
theorem idsDistinct_array_iff {items : List Json} :
    (array items).IdsDistinct ↔
      Distinct (items.filterMap id?) ∧ ∀ item ∈ items, item.isObject = true → item.IdsDistinct := by
  -- The elements of an array are gone through one after the other.
  simp only [IdsDistinct, itemsIdsDistinct_iff]

/-- An object of an array with distinct ids has distinct ids in its arrays. -/
theorem IdsDistinct.element {items : List Json} (distinct : (array items).IdsDistinct) {item : Json}
    (member : item ∈ items) (object : item.isObject = true) : item.IdsDistinct :=
  (idsDistinct_array_iff.mp distinct).2 item member object

/-- A scalar has no arrays. -/
theorem Scalar.idsDistinct {value : Json} (scalar : value.Scalar) : value.IdsDistinct := by
  -- An object without entries has no arrays.
  cases value with
  | object fields =>
    simp only [Scalar] at scalar
    simp [scalar, IdsDistinct, FieldsIdsDistinct]
  | array items => simp [Scalar] at scalar
  | _ => simp [IdsDistinct]

/-- An entry of identified entries has an identified value. -/
theorem FieldsIdentified.of_mem {fields : Fields} (identified : FieldsIdentified fields)
    {key : String} {value : Json} (member : (key, value) ∈ fields) : value.Identified := by
  -- Each entry is looked at with those behind it.
  have step : ∀ (first : String × Json) (rest : Fields), FieldsIdentified (first :: rest) →
      first.2.Identified ∧ FieldsIdentified rest := by
    intro entry rest identified
    obtain ⟨name, held⟩ := entry
    simp only [FieldsIdentified] at identified
    exact identified
  exact each_of_mem step identified member

/-- What stands in an identified value is identified. -/
theorem Identified.of_lookup {names : List String} {target value : Json}
    (identified : target.Identified) (found : lookup names target = some value) :
    value.Identified := by
  -- On each step from an object to a value, the value is identified like the object.
  refine Projection.holds_of_lookup (fun fields key value identified member => ?_) identified found
  simp only [Identified] at identified
  exact identified.of_mem member

/-- An object among identified items has a scalar id and is identified. -/
theorem ItemsIdentified.of_mem {items : List Json} (identified : ItemsIdentified items)
    {object : Fields} (member : .object object ∈ items) :
    (∃ id, object.lookup Element.idField = some id ∧ id.Scalar) ∧ FieldsIdentified object := by
  -- The object is the first item, or one of the others.
  induction items with
  | nil => simp at member
  | cons item rest ih =>
    cases item with
    | object fields =>
      simp only [ItemsIdentified] at identified
      rcases List.mem_cons.mp member with same | later
      · cases same
        exact ⟨identified.1, identified.2.1⟩
      · exact ih identified.2.2 later
    -- What is no object is passed by.
    | _ => exact ih (by simpa [ItemsIdentified] using identified) (by simpa using member)

/-- The ids of identified items are no arrays. -/
theorem ItemsIdentified.single {items : List Json} (identified : ItemsIdentified items) :
    ∀ id ∈ items.filterMap id?, id.items? = none := by
  -- Items that are no objects have no ids.
  intro id member
  obtain ⟨item, listed, found⟩ := List.mem_filterMap.mp member
  cases item with
  -- The id of an object is a scalar.
  | object fields =>
    obtain ⟨held, here, scalar⟩ := (identified.of_mem listed).1
    obtain rfl : held = id := by simpa [here] using found
    exact scalar.items?_eq_none
  | _ => simp [id?, fields?] at found

mutual

/-- The ids of an identified value tell its elements apart. -/
theorem Identified.idsDistinct : ∀ value : Json, value.Identified → value.IdsDistinct
  -- What a tree asks of its arrays is more than what a document does.
  | .null, _ | .bool _, _ | .number _, _ | .string _, _ => by simp [IdsDistinct]
  | .array items, identified => by
    simp only [Identified] at identified
    simp only [IdsDistinct]
    exact ⟨⟨identified.2.single, identified.1⟩, ItemsIdentified.idsDistinct items identified.2⟩
  | .object fields, identified => by
    simp only [Identified] at identified
    simpa [IdsDistinct] using FieldsIdentified.idsDistinct fields identified

/-- The ids of identified items tell their elements apart. -/
theorem ItemsIdentified.idsDistinct :
    ∀ items : List Json, ItemsIdentified items → ItemsIdsDistinct items
  -- Only objects have something inside them to be told apart.
  | [], _ => by simp [ItemsIdsDistinct]
  | .object fields :: rest, identified => by
    simp only [ItemsIdentified] at identified
    simp only [ItemsIdsDistinct]
    exact ⟨FieldsIdentified.idsDistinct fields identified.2.1,
      ItemsIdentified.idsDistinct rest identified.2.2⟩
  | .null :: rest, identified | .bool _ :: rest, identified | .number _ :: rest, identified
  | .string _ :: rest, identified | .array _ :: rest, identified => by
    simp only [ItemsIdentified] at identified
    simpa [ItemsIdsDistinct] using ItemsIdentified.idsDistinct rest identified

/-- The ids of identified entries tell their elements apart. -/
theorem FieldsIdentified.idsDistinct :
    ∀ fields : List (String × Json), FieldsIdentified fields → FieldsIdsDistinct fields
  -- The entries are gone through one after the other, by their values.
  | [], _ => by simp [FieldsIdsDistinct]
  | (key, value) :: rest, identified => by
    simp only [FieldsIdentified] at identified
    simp only [FieldsIdsDistinct]
    exact ⟨Identified.idsDistinct value identified.1,
      FieldsIdentified.idsDistinct rest identified.2⟩

end

end Json

end DocPatch
