import DocPatch.Json.Basic
import DocPatch.Path

/-! Projections: the listed paths of a document kept, or dropped. -/

namespace DocPatch.Projection

/-- A value that asks for its path: anything but `false` and zero. -/
def isTruthy : Json → Bool
  | .bool value => value
  | .number value => !value.isZero
  | _ => true

/-- The value at a path through objects. -/
def lookup : List String → Json → Option Json
  | [], value => some value
  | segment :: rest, .object fields => (fields.lookup segment).bind (lookup rest)
  | _, _ => none

/-- Puts a value at a path through objects, made where they are missing; what stands in the way
    stays. -/
def place (value : Json) : List String → Json → Json
  | [last], .object fields => .object (Fields.put last value fields)
  | segment :: rest, .object fields =>
    -- Objects that are missing on the way are made.
    let child := (fields.lookup segment).getD (.object [])
    .object (Fields.put segment (place value rest child) fields)
  | _, target => target

/-- Takes the value at a path through objects away. -/
def drop : List String → Json → Json
  | [last], .object fields => .object (Fields.remove last fields)
  | segment :: rest, .object fields =>
    match fields.lookup segment with
    | some child => .object (Fields.put segment (drop rest child) fields)
    -- There is nothing to take away behind a missing field.
    | none => .object fields
  | _, target => target

/-- A document with nothing but the listed paths. -/
def keep (document : Json) (paths : List (List String)) : Json :=
  paths.foldl (fun kept path =>
    match lookup path document with
    -- Paths are kept in the order in which they are listed.
    | some value => place value path kept
    | none => kept) (.object [])

/-- A document without the listed paths. -/
def dropAll (document : Json) (paths : List (List String)) : Json :=
  paths.foldl (fun left path => drop path left) document

/-- What a projection shows of a document. Nothing, when it both keeps and drops. -/
def apply (projection : Fields) (document : Json) : Option Json :=
  let paths := projection.map fun entry => Path.segments entry.1
  let keeps := projection.any fun entry => isTruthy entry.2
  let drops := projection.any fun entry => !isTruthy entry.2
  -- A projection without entries asks for nothing to be dropped, and so shows everything.
  if keeps && drops then none
  else some (if keeps then keep document paths else dropAll document paths)

end DocPatch.Projection
