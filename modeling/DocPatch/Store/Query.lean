import DocPatch.Json.Basic
import DocPatch.Path

/-! When a document satisfies a query. -/

namespace DocPatch.Query

/-- The values that one segment leads to. In an array the segment may be an index, and it is looked
    up in every item that is an object. -/
def step (segment : String) : Json → List Json
  | .object fields => (fields.lookup segment).toList
  | .array items =>
    -- A segment of digits may name an index and a key of the items.
    ((Path.index? segment).bind (items[·]?)).toList
      ++ items.flatMap fun item => (item.fields?.bind (·.lookup segment)).toList
  | _ => []

/-- The values that a path leads to. -/
def resolve : List String → Json → List Json
  | [], value => [value]
  | segment :: rest, value => (step segment value).flatMap (resolve rest)

/-- Whether an object states operators: it has entries, and all their keys start like operators. -/
def isOperators (fields : Fields) : Bool :=
  !fields.isEmpty && fields.all fun entry => Path.isOperator entry.1

/-- Whether a value equals the expected one or is an array that holds it. -/
def equalsOrContains (value expected : Json) : Bool :=
  value.equal expected || (value.items?.getD []).any fun item => item.equal expected

/-- Whether some candidate equals or contains the expected value. -/
def someEquals (candidates : List Json) (expected : Json) : Bool :=
  candidates.any fun candidate => equalsOrContains candidate expected

/-- Whether some candidate equals or contains one of the options. -/
def someAmong (candidates options : List Json) : Bool := options.any (someEquals candidates)

mutual

/-- Whether a document satisfies every clause of a query. -/
def satisfies (document : Json) : List (String × Json) → Bool
  | [] => true
  | (key, condition) :: rest =>
    (if key = "$and" then
      match condition with
      | .array queries => satisfiesAll document queries
      | _ => false
    else if key = "$or" then
      match condition with
      | .array queries => satisfiesAny document queries
      | _ => false
    -- Any other key is the path of the values that the condition is about.
    else holds (resolve (Path.segments key) document) condition) && satisfies document rest
termination_by structural x => x

/-- Whether a document satisfies all queries of a list; what is no object is satisfied by none. -/
def satisfiesAll (document : Json) : List Json → Bool
  | [] => true
  | .object query :: rest => satisfies document query && satisfiesAll document rest
  | _ :: _ => false
termination_by structural x => x

/-- Whether a document satisfies some query of a list. -/
def satisfiesAny (document : Json) : List Json → Bool
  | [] => false
  | .object query :: rest => satisfies document query || satisfiesAny document rest
  | _ :: rest => satisfiesAny document rest
termination_by structural x => x

/-- Whether the values found at a path meet a condition: operators, or an expected value. -/
def holds (candidates : List Json) : Json → Bool
  | .object fields =>
    -- An object with other keys than operators is an expected value.
    if isOperators fields then operatorsHold candidates fields
    else someEquals candidates (.object fields)
  | expected => someEquals candidates expected
termination_by structural x => x

/-- Whether the values found at a path meet every operator. An unknown operator is never met. -/
def operatorsHold (candidates : List Json) : List (String × Json) → Bool
  | [] => true
  | (operator, argument) :: rest =>
    (match operator with
      | "$eq" => someEquals candidates argument
      | "$ne" => !someEquals candidates argument
      | "$in" =>
        match argument with
        | .array options => someAmong candidates options
        | _ => false
      -- Without a list of options there is nothing that the values could be.
      | "$nin" =>
        match argument with
        | .array options => !someAmong candidates options
        | _ => true
      -- Any argument but false asks for a value to exist.
      | "$exists" =>
        match argument with
        | .bool wanted => wanted != candidates.isEmpty
        | _ => !candidates.isEmpty
      | "$not" => !holds candidates argument
      | "$elemMatch" =>
        candidates.any fun candidate =>
          (candidate.items?.getD []).any fun item => elementSatisfies item argument
      | _ => false) && operatorsHold candidates rest
termination_by structural x => x

/-- Whether one array element meets a condition: operators, a query for an object, or its equal. -/
def elementSatisfies (element : Json) : Json → Bool
  | .object fields =>
    if isOperators fields then operatorsHold [element] fields
    -- The paths of a query start inside the element.
    else if element.isObject then satisfies element fields
    else element.equal (.object fields)
  | expected => element.equal expected
termination_by structural x => x

end

end DocPatch.Query
