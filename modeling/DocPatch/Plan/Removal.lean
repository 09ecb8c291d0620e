import DocPatch.Operation
import DocPatch.Plan.Element

/-! The operations that remove the values of an instruction tree from the arrays of a document. -/

namespace DocPatch.Removal

/-- The items of an array that are no objects, removed in one go. -/
def scalars (site : Site) (items : List Json) : List Operation :=
  let values := items.filter fun item => !item.isObject
  if values.isEmpty then []
  else [.under site.inherited site.base (Update.pullAny site.path values)]

/-- The elements that an object identifies; one that identifies nothing would match all of them. -/
def pull (site : Site) (element : Element) : List Operation :=
  if element.identity.isEmpty then []
  else [.under site.inherited site.base (Update.pullMatching site.path element.identity)]

mutual

/-- The operations for one item of an array. An object with nested arrays stays, and only what they
    list is removed. -/
def item (site : Site) : Json → List Operation
  | .object object =>
    let element := Element.describe site object
    if element.nested.isEmpty then pull site element else nested site element "" object
  | _ => []
termination_by structural x => x

/-- The operations for the objects of an array, in order. -/
def objects (site : Site) : List Json → List Operation
  | [] => []
  | first :: rest => item site first ++ objects site rest
termination_by structural x => x

/-- The operations for a value at a path inside an element: for an array, or for those below an
    object. -/
def nestedAt (site : Site) (element : Element) (path : String) : Json → List Operation
  | .array items =>
    let child := site.child element path
    -- The scalars of an array are taken out together, in front of its objects.
    scalars child items ++ objects child items
  | .object inner => nested site element path inner
  | _ => []
termination_by structural x => x

/-- The operations for the arrays nested in an element, below a path inside it. -/
def nested (site : Site) (element : Element) (path : String) : List (String × Json) → List Operation
  | [] => []
  | (key, value) :: rest =>
    nestedAt site element (Path.join path key) value ++ nested site element path rest
termination_by structural x => x

end

/-- The operations for an array: its scalars first, then its objects in order. -/
def array (site : Site) (items : List Json) : List Operation :=
  scalars site items ++ objects site items

/-- The operations that remove a tree; a field that is no array asks for nothing. -/
def operations (base : Fields) : Fields → List Operation
  | [] => []
  | (field, .array items) :: rest => array (.root base field) items ++ operations base rest
  | _ :: rest => operations base rest

end DocPatch.Removal
