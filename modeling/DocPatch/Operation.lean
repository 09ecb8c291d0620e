import DocPatch.Guard
import DocPatch.Json.Record

/-! Update operations, and the update documents they carry. -/

namespace DocPatch

/-- One atomic update of every document that a filter selects. -/
structure Operation where
  filter : Fields
  update : Fields
  arrayFilters : List Fields

namespace Operation

/-- An update under alias filters. -/
def under (aliases : List AliasFilter) (filter update : Fields) : Operation :=
  ⟨filter, update, aliases.map AliasFilter.toFields⟩

/-- The operator of an update that has exactly one. -/
def operator? (operation : Operation) : Option String :=
  match operation.update with
  | [(operator, _)] => some operator
  | _ => none

/-- The operation as a value; an empty list of array filters is left out. -/
def toJson (operation : Operation) : Json :=
  let filters :=
    if operation.arrayFilters.isEmpty then []
    else [("arrayFilters", .array (operation.arrayFilters.map .object))]
  .object ([("filter", .object operation.filter), ("update", .object operation.update)] ++ filters)

/-- How an operation is read. -/
def format : RecordFormat Operation where
  name := "UpdateOperation"
  fields := ["filter", "update", "arrayFilters"]
  required := 2
  empty := ⟨[], [], []⟩
  -- Filter and update have to be objects, and so has every array filter.
  put operation name tree := do
    match name with
    | "filter" => return { operation with filter := ← tree.readFields }
    | "update" => return { operation with update := ← tree.readFields }
    | _ => return { operation with arrayFilters := ← tree.readList Tree.readFields }

/-- The operation that a text holds. -/
def parse (text : String) : Except ReadError Operation := Tree.readText format.read text

end Operation

namespace Update

/-- An update by one operator at one path. -/
def single (operator path : String) (argument : Json) : Fields :=
  [(operator, .single path argument)]

/-- Sets fields. -/
def set (fields : Fields) : Fields := [("$set", .object fields)]

/-- Takes fields away; the values do not matter and are empty strings. -/
def unset (fields : List String) : Fields :=
  [("$unset", .object (Fields.ofEntries (fields.map fun field => (field, .string ""))))]

/-- Adds the values that an array does not hold yet. -/
def addEach (path : String) (values : List Json) : Fields :=
  Update.single "$addToSet" path (.single "$each" (.array values))

/-- Appends a value to an array. -/
def push (path : String) (value : Json) : Fields := Update.single "$push" path value

/-- Takes the listed values out of an array. -/
def pullAny (path : String) (values : List Json) : Fields :=
  Update.single "$pull" path (.single "$in" (.array values))

/-- Takes the elements with these fields out of an array. -/
def pullMatching (path : String) (identity : Fields) : Fields :=
  Update.single "$pull" path (.object identity)

end Update

/-- The filter that both filters have to accept. -/
def Guard.both (left right : Fields) : Fields :=
  [("$and", .array [.object left, .object right])]

end DocPatch
