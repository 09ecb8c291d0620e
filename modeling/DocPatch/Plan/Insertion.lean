import DocPatch.Operation
import DocPatch.Plan.Element

/-! The operations that add the values of an instruction tree to the arrays of a document. -/

namespace DocPatch

/-- An object that has nested arrays but nothing to identify it, listed in the array at a path. -/
structure Unidentified where
  path : String
  deriving DecidableEq, Repr

namespace Insertion

/-- The items of an array that are no objects, added in one go. -/
def scalars (site : Site) (items : List Json) : List Operation :=
  let values := items.filter fun item => !item.isObject
  if values.isEmpty then []
  else [.under site.inherited site.base (Update.addEach site.path values)]

/-- The object itself, appended unless it is there already. -/
def insert (site : Site) (element : Element) (object : Fields) : Operation :=
  .under site.inherited (Guard.both site.base element.absent)
    (Update.push site.path (.object object))

/-- The fields of the object, set on the element in place. -/
def assign (site : Site) (element : Element) : List Operation :=
  if element.assignments.isEmpty then []
  else [.under element.filters site.base (Update.set element.assignments)]

/-- The operations for the object itself; one that nothing identifies asks for none. -/
def own (site : Site) (element : Element) (object : Fields) : List Operation :=
  if element.identity.isEmpty then [] else insert site element object :: assign site element

mutual

/-- The operations for one item of an array. Nothing can be nested in an object that nothing
    identifies. -/
def item (site : Site) : Json → Except Unidentified (List Operation)
  | .object object => do
    let element := Element.describe site object
    -- With no way to find the element again, what is nested has no place to go.
    if element.identity.isEmpty && !element.nested.isEmpty then throw ⟨site.logicalPath⟩
    let inner ← nested site element "" object
    return own site element object ++ inner
  | _ => .ok []
termination_by structural x => x

/-- The operations for the objects of an array, in order. -/
def objects (site : Site) : List Json → Except Unidentified (List Operation)
  | [] => .ok []
  | first :: rest => do
    let here ← item site first
    let others ← objects site rest
    return here ++ others
termination_by structural x => x

/-- The operations for a value at a path inside an element: for an array, or for those below an
    object. -/
def nestedAt (site : Site) (element : Element) (path : String) :
    Json → Except Unidentified (List Operation)
  | .array items => do
    let child := site.child element path
    let below ← objects child items
    -- The scalars of an array go in together, in front of what its objects need.
    return scalars child items ++ below
  | .object inner => nested site element path inner
  | _ => .ok []
termination_by structural x => x

/-- The operations for the arrays nested in an element, below a path inside it. -/
def nested (site : Site) (element : Element) (path : String) :
    List (String × Json) → Except Unidentified (List Operation)
  | [] => .ok []
  | (key, value) :: rest => do
    -- The path to an array is made of the names of the objects that it stands in.
    let here ← nestedAt site element (Path.join path key) value
    let others ← nested site element path rest
    return here ++ others
termination_by structural x => x

end

/-- The operations for an array: its scalars first, then its objects in order. -/
def array (site : Site) (items : List Json) : Except Unidentified (List Operation) := do
  return scalars site items ++ (← objects site items)

/-- The operations that add a tree; a field that is no array asks for nothing. -/
def operations (base : Fields) : Fields → Except Unidentified (List Operation)
  | [] => .ok []
  -- The fields of the root are taken in the order in which they stand.
  | (field, .array items) :: rest => do
    let here ← array (.root base field) items
    let others ← operations base rest
    return here ++ others
  | _ :: rest => operations base rest

end Insertion

end DocPatch
