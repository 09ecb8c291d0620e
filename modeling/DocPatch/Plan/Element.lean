import DocPatch.Plan.Site

/-! What is known of an object listed in an instruction tree, as an element of its array. -/

namespace DocPatch

/-- An object listed at a site: what identifies it, the predicates that it is or is not there, what
    is to be set inside it, and the arrays nested in it. -/
structure Element where
  identity : Fields
  present : Fields
  absent : Fields
  assignments : Fields
  nested : List (String × List Json)
  /-- Its alias; without an identity there is none. -/
  aliasName : Option String
  /-- The alias filters that hold inside it. -/
  filters : List AliasFilter

namespace Element

/-- The field that identifies an object alone. -/
def idField : String := "id"

mutual

/-- The leaves of a value at a path. Arrays and empty objects are leaves. -/
def leavesAt (path : String) : Json → List (String × Json)
  | .object fields => if fields.isEmpty then [(path, .object [])] else leaves path fields
  | value => [(path, value)]
termination_by structural x => x

/-- The leaves of an object below a path, in order, by their dotted paths. -/
def leaves (path : String) : List (String × Json) → List (String × Json)
  | [] => []
  | (key, value) :: rest => leavesAt (Path.join path key) value ++ leaves path rest
termination_by structural x => x

end

/-- The leaves that are no arrays. -/
def scalarLeaves (leaves : List (String × Json)) : List (String × Json) :=
  leaves.filter fun leaf => leaf.2.items?.isNone

/-- The leaves that are arrays. -/
def arrayLeaves (leaves : List (String × Json)) : List (String × List Json) :=
  leaves.filterMap fun leaf => leaf.2.items?.map fun items => (leaf.1, items)

/-- What identifies an object: its id, and without one all its scalar leaves. -/
def identityOf (scalars : List (String × Json)) : Fields :=
  match (scalars.filter fun leaf => leaf.1 = idField).getLast? with
  | some leaf => [leaf]
  | none => Fields.ofEntries scalars

/-- Describes an object listed at a site. -/
def describe (site : Site) (object : Fields) : Element :=
  let all := leaves "" object
  let scalars := scalarLeaves all
  let identity := identityOf scalars
  -- Without an identity there is nothing to look for, and no alias is taken.
  let aliasName := if identity.isEmpty then none else some site.aliasName
  let place := site.memberPath aliasName
  -- The id tells which element it is, so it is never assigned.
  let assigned := scalars.filter fun leaf => leaf.1 ≠ idField
  { identity
    present := Guard.predicate site.ancestry site.field identity .present
    absent := Guard.predicate site.ancestry site.field identity .absent
    assignments := Fields.ofEntries (assigned.map fun leaf => (Path.join place leaf.1, leaf.2))
    nested := arrayLeaves all
    aliasName
    filters := site.inherited ++ (aliasName.map fun aliasName => ⟨aliasName, identity⟩).toList }

end Element

/-- The array at a field of an element. -/
def Site.child (site : Site) (element : Element) (field : String) : Site where
  base := site.base
  field
  logicalPath := Path.join site.logicalPath field
  elementPath := site.memberPath element.aliasName
  -- The element becomes the innermost level, and its filters are handed on.
  ancestry := site.ancestry ++ [⟨site.field, element.identity⟩]
  inherited := element.filters

end DocPatch
