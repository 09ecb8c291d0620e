import DocPatch.Json.Number

/-! JSON values with ordered objects, and the operations on the entries of an object. -/

namespace DocPatch

/-- A JSON value; an object lists its entries in order. -/
inductive Json where
  | null
  | bool (value : Bool)
  | number (value : Number)
  | string (value : String)
  | array (items : List Json)
  | object (fields : List (String × Json))
  deriving Inhabited, Repr

/-- The entries of an object, which is also a document, a filter or an update. -/
abbrev Fields := List (String × Json)

namespace Fields

/-- Gives a key its value: in place when the key is there, at the end otherwise. -/
def put (key : String) (value : Json) : Fields → Fields
  | [] => [(key, value)]
  | entry :: rest =>
    -- A key that is there keeps its place among the entries.
    if entry.1 = key then (key, value) :: rest else entry :: put key value rest

/-- Puts entries one after the other, so the last value of a repeated key takes its first place. -/
def merge (fields entries : Fields) : Fields :=
  entries.foldl (fun fields entry => put entry.1 entry.2 fields) fields

/-- The object that entries make up. -/
def ofEntries (entries : Fields) : Fields := merge [] entries

/-- Takes a key away; the last entry moves into its place. -/
def remove (key : String) : Fields → Fields
  | [] => []
  | entry :: rest =>
    if entry.1 = key then
      match rest.getLast? with
      | none => []
      | some last => last :: rest.dropLast
    else entry :: remove key rest

end Fields

namespace Json

/-- The entries of an object. -/
def fields? : Json → Option Fields
  | .object fields => some fields
  | _ => none

/-- The items of an array. -/
def items? : Json → Option (List Json)
  | .array items => some items
  | _ => none

/-- Whether the value is an object. -/
def isObject : Json → Bool
  | .object _ => true
  | _ => false

/-- An object with one entry. -/
def single (key : String) (value : Json) : Json := .object [(key, value)]

mutual

/-- Equality of values: the order of items counts, the order of entries does not. -/
def equal : Json → Json → Bool
  | .null, .null => true
  | .bool left, .bool right => left == right
  | .number left, .number right => left.equal right
  | .string left, .string right => left == right
  | .array left, .array right => equalItems left right
  -- Keys stand once each, so with as many entries on both sides one inclusion is enough.
  | .object left, .object right => left.length == right.length && includedIn right left
  | _, _ => false

/-- Equality item by item. -/
def equalItems : List Json → List Json → Bool
  | [], [] => true
  | left :: lefts, right :: rights => left.equal right && equalItems lefts rights
  | _, _ => false

/-- Whether every entry is also found in another object, with an equal value. -/
def includedIn (other : List (String × Json)) : List (String × Json) → Bool
  | [] => true
  | (key, value) :: rest =>
    (match other.lookup key with
      | some found => value.equal found
      | none => false) && includedIn other rest

end

/-- Whether a list holds a value equal to the given one. -/
def within (items : List Json) (value : Json) : Bool := items.any fun item => item.equal value

end Json

end DocPatch
