import DocPatch.Plan.Removal
import DocPatch.Proofs.Plan.Emission

/-! The operations that remove the values of a tree: leaf by leaf. -/

namespace DocPatch.Removal

open Element (namedLeaves namedLeavesAt)
open Insertion (rootLeaves)

/-- The operations for the arrays among named leaves, each at the site of its path. -/
def listed (site : String → Site) : List (List String × Json) → List Operation
  | [] => []
  | (names, .array items) :: rest => array (site (Path.dotted names)) items ++ listed site rest
  | _ :: rest => listed site rest

/-- Leaves in two parts are gone through part by part. -/
theorem listed_append (site : String → Site) (first second : List (List String × Json)) :
    listed site (first ++ second) = listed site first ++ listed site second := by
  -- Leaves that are no arrays ask for nothing, on either side.
  induction first with
  | nil => rfl
  | cons leaf rest ih =>
    rcases leaf with ⟨names, value⟩
    cases value with
    | array items => simp only [List.cons_append, listed, ih, List.append_assoc]
    | _ => simpa only [List.cons_append, listed] using ih

mutual

/-- The operations for a value inside an element are those for its leaves. -/
theorem nestedAt_eq (site : Site) (element : Element) (names : List String) : ∀ value : Json,
    nestedAt site element (Path.dotted names) value =
      listed (site.child element) (namedLeavesAt names value)
  -- An array is one leaf, and the leaves of an object are those of its entries.
  | .null | .bool _ | .number _ | .string _ => by simp [nestedAt, namedLeavesAt, listed]
  | .array items => by simp [nestedAt, namedLeavesAt, listed, array]
  | .object [] => by simp [nestedAt, nested, namedLeavesAt, listed]
  | .object (entry :: rest) => by
    simpa [nestedAt, namedLeavesAt] using nested_eq site element names (entry :: rest)

/-- The operations for the arrays nested in an element are those for its leaves. -/
theorem nested_eq (site : Site) (element : Element) (names : List String) :
    ∀ fields : List (String × Json), nested site element (Path.dotted names) fields =
      listed (site.child element) (namedLeaves names fields)
  -- The leaves of an object are those of its entries, one entry after the other.
  | [] => by simp [nested, namedLeaves, listed]
  | (key, value) :: rest => by
    rw [nested, namedLeaves, listed_append, ← nestedAt_eq site element (names ++ [key]) value,
      ← nested_eq site element names rest, Path.dotted_append_singleton]

end

/-- The operations for a tree are those for the fields of its root. -/
theorem operations_eq (base tree : Fields) :
    operations base tree = listed (Site.root base) (rootLeaves tree) := by
  -- The fields of the root are taken as leaves of one name each.
  induction tree with
  | nil => rfl
  | cons entry rest ih =>
    rcases entry with ⟨field, value⟩
    cases value with
    | array items =>
      simp only [operations, ih, rootLeaves, List.map_cons, listed, Path.dotted_singleton]
    | _ => simpa only [operations, rootLeaves, List.map_cons, listed] using ih

/-- An object without arrays is taken out by what identifies it, and of one with arrays only what
    they list. -/
theorem item_eq (site : Site) (object : Fields) :
    item site (.object object) =
      if (Element.describe site object).nested.isEmpty then pull site (Element.describe site object)
      else listed (site.child (Element.describe site object)) (namedLeaves [] object) := by
  -- The walk through the object is one through its leaves.
  have below := nested_eq site (Element.describe site object) [] object
  rw [← below]
  unfold item
  rfl

/-- Items that are no objects have no operations of their own. -/
theorem item_other {site : Site} {value : Json} (other : value.isObject = false) :
    item site value = [] := by
  -- Only objects are described.
  cases value with
  | object => simp [Json.isObject] at other
  | _ => simp [item]

section Forall

variable {motive : Operation → Prop}

/-- What holds of the operations of each object holds of those of all objects of an array. -/
theorem objects_forall {site : Site} {items : List Json}
    (each : ∀ inner, .object inner ∈ items → ∀ op ∈ item site (.object inner), motive op) :
    ∀ op ∈ objects site items, motive op := by
  -- The operations come from the first item or from the others.
  induction items with
  | nil => simp [objects]
  | cons first rest ih =>
    intro op member
    rw [objects, List.mem_append] at member
    rcases member with mine | theirs
    · cases first with
      | object inner => exact each inner (by simp) op mine
      -- Items that are no objects have no operations here.
      | _ => simp [item] at mine
    · exact ih (fun inner among => each inner (by simp [among])) op theirs

/-- What holds of the removal of values, and of the operations of each object, holds of all
    operations for an array. -/
theorem array_forall {site : Site} {items : List Json}
    (values : ∀ listed, (∀ value ∈ listed, value.isObject = false) →
      motive (.under site.inherited site.base (Update.pullAny site.path listed)))
    (each : ∀ inner, .object inner ∈ items → ∀ op ∈ item site (.object inner), motive op) :
    ∀ op ∈ array site items, motive op := by
  intro op member
  rcases List.mem_append.mp member with mine | theirs
  · -- Values are taken out by one operation, if there are any.
    rw [scalars] at mine
    split at mine
    · simp at mine
    · rw [List.mem_singleton.mp mine]
      exact values _ fun value among => by simpa using (List.mem_filter.mp among).2
  · exact objects_forall each op theirs

/-- What holds of the operations of each array among some leaves holds of those of all. -/
theorem listed_forall {site : String → Site} {leaves : List (List String × Json)}
    (each : ∀ names items, (names, .array items) ∈ leaves →
      ∀ op ∈ array (site (Path.dotted names)) items, motive op) :
    ∀ op ∈ listed site leaves, motive op := by
  -- The operations come from the first array or from the others.
  induction leaves with
  | nil => simp [listed]
  | cons leaf rest ih =>
    rcases leaf with ⟨names, value⟩
    have later := ih fun names items member => each names items (by simp [member])
    cases value with
    | array items =>
      intro op member
      rw [listed, List.mem_append] at member
      rcases member with mine | theirs
      · exact each names items (by simp) op mine
      · exact later op theirs
    -- A leaf that is no array is passed by.
    | _ => exact later

/-- What holds of the removal of an object holds of every operation that removes it. -/
theorem pull_forall {site : Site} {element : Element}
    (pulled : motive (.under site.inherited site.base
      (Update.pullMatching site.path element.identity))) :
    ∀ op ∈ pull site element, motive op := by
  -- There is one removal at most.
  intro op member
  unfold pull at member
  split at member
  · simp at member
  · exact List.mem_singleton.mp member ▸ pulled

end Forall

end DocPatch.Removal
