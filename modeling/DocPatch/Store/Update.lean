import DocPatch.Store.Query

/-! How an update changes a document. -/

namespace DocPatch

/-- Why an update cannot be carried out. -/
inductive UpdateError where
  | missingFilter (aliasName : String)
  | unsupportedOperator (operator : String)
  | notAnArray (operator field : String)
  deriving DecidableEq, Repr

/-- A changed value, and whether it differs from before. -/
abbrev Change (α : Type) := α × Bool

namespace Update

/-- What an alias filter demands of an element: conditions by path inside it, collected from all
    filter documents. Nothing, when none names the alias. -/
def conditions? (filters : List Fields) (aliasName : String) : Option Fields :=
  -- One alias may get conditions from several filter documents.
  let named := filters.flatten.filterMap fun entry =>
    let (name, field) := Path.aliasAndField entry.1
    if name = aliasName then some (field, entry.2) else none
  if named.isEmpty then none else some (Fields.ofEntries named)

/-- Whether an element meets the conditions; an empty path means the element itself. -/
def accepts (conditions : Fields) (element : Json) : Bool :=
  conditions.all fun entry =>
    -- The element may be a scalar, which has no field to ask for.
    if entry.1.isEmpty then Query.holds [element] entry.2
    else Query.holds (Query.resolve (Path.segments entry.1) element) entry.2

/-- Changes the selected items of a list one after the other. -/
def eachItem (selects : Json → Bool) (change : Json → Except UpdateError (Change Json)) :
    List Json → Except UpdateError (Change (List Json))
  | [] => .ok ([], false)
  | item :: rest => do
    let (item, here) ← if selects item then change item else .ok (item, false)
    let (rest, there) ← eachItem selects change rest
    return (item :: rest, here || there)

/-- Changes the selected elements of an array; nothing else has elements. -/
def inElements (selects : Json → Bool) (change : Json → Except UpdateError (Change Json)) :
    Json → Except UpdateError (Change Json)
  | .array items => do
    let (items, changed) ← eachItem selects change items
    return (.array items, changed)
  | node => .ok (node, false)

/-- Changes the value at a field, if need be an empty object that is made for it. -/
def inField (create : Bool) (name : String) (change : Json → Except UpdateError (Change Json))
    (fields : Fields) : Except UpdateError (Change Fields) :=
  -- An object is made only for a missing field.
  match (fields.lookup name).or (if create then some (.object []) else none) with
  | none => .ok (fields, false)
  | some child => do
    let (child, changed) ← change child
    return (Fields.put name child fields, changed)

/-- Changes the item at an index, if there is one. -/
def atIndex (index : Option Nat) (change : Json → Except UpdateError (Change Json))
    (items : List Json) : Except UpdateError (Change (List Json)) :=
  -- Arrays never grow by an index.
  match index.bind fun index => items[index]?.map (index, ·) with
  | none => .ok (items, false)
  | some (index, item) => do
    let (item, changed) ← change item
    return (items.set index item, changed)

/-- Changes the value that a segment names: a field of an object, or an item of an array. -/
def inNamed (create : Bool) (name : String) (change : Json → Except UpdateError (Change Json)) :
    Json → Except UpdateError (Change Json)
  | .object fields => do
    let (fields, changed) ← inField create name change fields
    return (.object fields, changed)
  -- In an array the name has to be an index.
  | .array items => do
    let (items, changed) ← atIndex (Path.index? name) change items
    return (.array items, changed)
  | node => .ok (node, false)

/-- Goes down a path and runs `leaf` at its last segment in every object it leads to. Placeholders
    lead to array elements, other segments into objects, or by index into arrays. Missing objects
    on the way are made where `create` allows it and no placeholder follows. -/
def descend (filters : List Fields) (create : Bool)
    (leaf : String → Fields → Except UpdateError (Change Fields)) :
    List String → Json → Except UpdateError (Change Json)
  | [], node => .ok (node, false)
  | [last], .object fields => do
    let (fields, changed) ← leaf last fields
    return (.object fields, changed)
  -- Operators act at fields, and only objects have them.
  | [_], node => .ok (node, false)
  | head :: next :: rest, node =>
    -- Whatever the rest of the path does is done to each value that the segment leads to.
    let change := descend filters create leaf (next :: rest)
    match Path.kind head with
    | .every => inElements (fun _ => true) change node
    | .selected aliasName =>
      match conditions? filters aliasName with
      | none => .error (.missingFilter aliasName)
      | some conditions => inElements (accepts conditions) change node
    | .plain => inNamed (create && !Path.isPlaceholder next) head change node

/-- The values that an argument stands for: the list behind `$each`, or the argument itself. -/
def eachValue (argument : Json) : List Json :=
  match (argument.fields?.bind (·.lookup "$each")).bind Json.items? with
  | some values => values
  | none => [argument]

/-- The array at a field, for an operator that needs one; a missing field holds an empty one. -/
def arrayAt (operator field : String) (fields : Fields) : Except UpdateError (List Json) :=
  match fields.lookup field with
  | none => .ok []
  | some (.array items) => .ok items
  | some _ => .error (.notAnArray operator field)

/-- Appends the values that an array does not hold yet. -/
def union (items : List Json) : List Json → List Json
  | [] => items
  | value :: rest => union (if Json.within items value then items else items ++ [value]) rest

/-- Carries an operator out at a field of an object. -/
def applyAt (operator : String) (argument : Json) (field : String) (fields : Fields) :
    Except UpdateError (Change Fields) :=
  match operator with
  | "$set" =>
    let same := match fields.lookup field with
      | some previous => previous.equal argument
      | none => false
    .ok (Fields.put field argument fields, !same)
  | "$unset" => .ok (Fields.remove field fields, (fields.lookup field).isSome)
  | "$push" => do
    let items ← arrayAt operator field fields
    return (Fields.put field (.array (items ++ eachValue argument)) fields, true)
  | "$addToSet" => do
    let items ← arrayAt operator field fields
    let grown := union items (eachValue argument)
    return (Fields.put field (.array grown) fields, grown.length != items.length)
  | "$pull" => do
    let items ← arrayAt operator field fields
    let kept := items.filter fun item => !Query.elementSatisfies item argument
    -- A missing field is not made by taking items out of it.
    if (fields.lookup field).isNone then return (fields, false)
    else return (Fields.put field (.array kept) fields, kept.length != items.length)
  | _ => .error (.unsupportedOperator operator)

/-- Whether an operator makes the objects missing on its way. -/
def creates (operator : String) : Bool :=
  operator = "$set" || operator = "$push" || operator = "$addToSet"

/-- Carries one operator out at one path. -/
def applyPath (filters : List Fields) (operator path : String) (argument document : Json) :
    Except UpdateError (Change Json) :=
  descend filters (creates operator) (applyAt operator argument) (Path.segments path) document

/-- Carries one operator out at its paths in order. -/
def applyPaths (filters : List Fields) (operator : String) :
    Fields → Json → Except UpdateError (Change Json)
  | [], document => .ok (document, false)
  | (path, argument) :: rest, document => do
    let (document, changed) ← applyPath filters operator path argument document
    -- The later paths are taken on what the first one left.
    let (document, others) ← applyPaths filters operator rest document
    return (document, changed || others)

/-- Carries the operators of an update out in order; one without an object of paths does nothing. -/
def apply (filters : List Fields) : Fields → Json → Except UpdateError (Change Json)
  | [], document => .ok (document, false)
  | (operator, .object paths) :: rest, document => do
    let (document, changed) ← applyPaths filters operator paths document
    let (document, others) ← apply filters rest document
    return (document, changed || others)
  | _ :: rest, document => apply filters rest document

end Update

end DocPatch
