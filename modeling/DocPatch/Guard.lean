import DocPatch.Json.Basic
import DocPatch.Path

/-! Predicates that single out elements of nested arrays by what identifies them. -/

namespace DocPatch

/-- An alias, and the fields that the elements it stands for carry. -/
structure AliasFilter where
  aliasName : String
  identity : Fields

/-- The filter as a document: every field behind the alias. -/
def AliasFilter.toFields (filter : AliasFilter) : Fields :=
  Fields.ofEntries (filter.identity.map fun entry => (Path.join filter.aliasName entry.1, entry.2))

/-- Whether an element is wanted to be there. -/
inductive Presence where
  | present
  | absent
  deriving DecidableEq, Repr

/-- One array on the way down from the root, and the identity of the element entered. -/
structure Level where
  field : String
  identity : Fields

/-- The levels on the way down from the root, outermost first. -/
abbrev Ancestry := List Level

namespace Guard

/-- The condition that an array has an element with these fields, or none. -/
def element (identity : Fields) : Presence → Json
  | .present => .single "$elemMatch" (.object identity)
  | .absent => .single "$not" (.single "$elemMatch" (.object identity))

/-- The predicate from one level up: an element of the array is the one entered and satisfies it. -/
def enter (level : Level) (inner : Fields) : Fields :=
  [(level.field, .single "$elemMatch" (.object (Fields.merge level.identity inner)))]

/-- The predicate, from the root, that the array at the end of an ancestry has such an element. -/
def predicate (ancestry : Ancestry) (field : String) (identity : Fields) (presence : Presence) :
    Fields :=
  ancestry.foldr enter [(field, element identity presence)]

end Guard

end DocPatch
