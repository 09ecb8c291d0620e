import DocPatch.Proofs.Plan.Visit
import DocPatch.Proofs.Store.Match
import Mathlib.Data.List.Nodup
import Mathlib.Data.List.Pairwise

/-! Objects whose keys can be read back from the paths of their leaves, and what is known of such an
    object: its identity, and what is to be set inside it. -/

namespace DocPatch

open Projection (Apart lookup)

/-- Joining one path to the keys of entries keeps different keys different. -/
theorem Fields.nodup_join {path : String} (nonempty : path ≠ "") {entries : Fields}
    (once : (entries.map Prod.fst).Nodup) :
    ((entries.map fun entry => (Path.join path entry.1, entry.2)).map Prod.fst).Nodup := by
  -- Keys whose joined paths are the same are the same themselves.
  rw [List.Nodup, List.pairwise_map] at once
  rw [List.map_map, List.Nodup, List.pairwise_map]
  exact once.imp fun differ same => differ (Path.join_injective nonempty same)

/-- The path of an element ends in its placeholder. -/
theorem Site.memberPath_ne_empty (site : Site) (aliasName : Option String) :
    site.memberPath aliasName ≠ "" := by
  -- Both placeholders have characters of their own.
  refine Path.join_ne_empty (.inr ?_)
  cases aliasName <;> simp [Path.selected, Path.everyElement]

/-- The name of the field that identifies an object alone is plain. -/
theorem Element.plain_idField : Path.Plain Element.idField := by
  constructor <;> decide

namespace Element

/-- The scalar leaves of an object by their names. -/
def scalarsOf (object : Fields) : List (List String × Json) :=
  (namedLeaves [] object).filter fun leaf => leaf.2.items?.isNone

/-- The scalar leaves that are set on an element: all but the id. -/
def assigned (object : Fields) : List (List String × Json) :=
  (scalarsOf object).filter fun leaf => leaf.1 ≠ [idField]

/-- A leaf that is no array is a scalar leaf. -/
theorem mem_scalarsOf {object : Fields} {leaf : List String × Json} :
    leaf ∈ scalarsOf object ↔ leaf ∈ namedLeaves [] object ∧ leaf.2.items? = none := by
  simp [scalarsOf]

/-- What is set on an element are the scalar leaves besides the id. -/
theorem mem_assigned {object : Fields} {leaf : List String × Json} :
    leaf ∈ assigned object ↔
      leaf ∈ namedLeaves [] object ∧ leaf.2.items? = none ∧ leaf.1 ≠ [idField] := by
  -- The definition is a filter of the scalar leaves.
  simp [assigned, mem_scalarsOf, and_assoc]

/-- A scalar leaf is a scalar. -/
theorem scalar_of_mem_scalarsOf {object : Fields} {leaf : List String × Json}
    (member : leaf ∈ scalarsOf object) : leaf.2.Scalar := by
  -- A leaf that is an object is an empty one.
  obtain ⟨listed, whole⟩ := mem_scalarsOf.mp member
  rcases (hasLeaf_of_leaf listed).2.whole with array | scalar
  · simp [whole] at array
  · exact scalar

/-- The leaves of an object are those of the names, put together to paths. -/
theorem leaves_eq (object : Fields) :
    leaves "" object = (namedLeaves [] object).map dottedLeaf :=
  -- The leaves of the whole object have no names before them.
  leaves_dotted [] object

/-- The scalar leaves are those of the names, put together to paths. -/
theorem scalarLeaves_eq (object : Fields) :
    scalarLeaves (leaves "" object) = (scalarsOf object).map dottedLeaf := by
  -- Putting the names together does not touch the values.
  rw [leaves_eq, scalarLeaves, List.filter_map, scalarsOf]
  rfl

/-- The identity of an object, by its scalar leaves. It does not depend on the site. -/
theorem identity_eq (site : Site) (object : Fields) :
    (describe site object).identity = identityOf ((scalarsOf object).map dottedLeaf) := by
  -- The site only decides where the element is, and not how it is recognised.
  rw [← scalarLeaves_eq]
  rfl

/-- What identifies an object are scalar leaves. -/
theorem mem_scalarsOf_of_identity {site : Site} {object : Fields} {entry : String × Json}
    (member : entry ∈ (describe site object).identity) :
    ∃ leaf ∈ scalarsOf object, dottedLeaf leaf = entry := by
  -- The id is one of the scalar leaves, and without one they are all taken.
  rw [identity_eq, identityOf] at member
  refine List.mem_map.mp ?_
  split at member
  · rename_i last found
    rw [List.mem_singleton.mp member]
    exact List.mem_of_mem_filter (List.mem_of_getLast? found)
  · exact Fields.mem_ofEntries member

/-- The values that identify an object are scalars. -/
theorem scalar_of_identity {site : Site} {object : Fields} {entry : String × Json}
    (member : entry ∈ (describe site object).identity) : entry.2.Scalar := by
  -- Every entry of the identity is a scalar leaf at its path.
  obtain ⟨leaf, among, rfl⟩ := mem_scalarsOf_of_identity member
  exact scalar_of_mem_scalarsOf among

/-- What identifies an object stands at different paths. -/
theorem nodup_identity (site : Site) (object : Fields) :
    ((describe site object).identity.map Prod.fst).Nodup := by
  -- The identity is the id alone, or entries that were put together by their paths.
  rw [identity_eq, identityOf]
  split
  · exact List.nodup_singleton _
  · exact Fields.nodup_ofEntries _

/-- Leaves whose names part have different paths, if their names can be read back from these. -/
theorem nodup_of_apart {marks : List (List String × Json)}
    (read : ∀ mark ∈ marks, Path.segments (Path.dotted mark.1) = mark.1)
    (apart : marks.Pairwise fun left right => Apart left.1 right.1) :
    ((marks.map dottedLeaf).map Prod.fst).Nodup := by
  rw [List.map_map, List.Nodup, List.pairwise_map]
  -- Two leaves with the same path would have the same names, but theirs part.
  refine apart.imp_of_mem fun {left right} leftMember rightMember parted same => parted.ne ?_
  rw [← read left leftMember, ← read right rightMember]
  exact congrArg Path.segments same

/-- An object with each of its keys once, at any depth, whose keys can be read back from the paths
    of its leaves. -/
structure Legible (object : Fields) : Prop where
  keyed : Json.FieldsWellKeyed object
  legible : Json.FieldsOuterKeysHold Path.Legible object

/-- A regular object is legible. -/
theorem Regular.legible {object : Fields} (regular : Regular object) : Legible object where
  -- A plain name can be read back from a path.
  keyed := regular.keyed
  legible := Json.FieldsKeysHold.outer object
    (regular.plain.keysHold (fun _ plain => plain.legible) object)

namespace Legible

variable {object : Fields} (legible : Legible object)

include legible

/-- The names of a leaf can be read back from its path. -/
theorem segments_dotted {leaf : List String × Json} (member : leaf ∈ namedLeaves [] object) :
    Path.segments (Path.dotted leaf.1) = leaf.1 :=
  -- The names are outer keys of the object, and each of them is legible.
  Path.segments_dotted (names_ne_nil member)
    (outerKeys_of_leaf legible.legible member)

/-- The path of a leaf is not empty. -/
theorem dotted_ne {leaf : List String × Json} (member : leaf ∈ namedLeaves [] object) :
    Path.dotted leaf.1 ≠ "" :=
  -- There is a name, and no legible name is empty.
  Path.dotted_ne_empty (names_ne_nil member) fun name among =>
    (outerKeys_of_leaf legible.legible member name among).nonempty

/-- The path of a leaf leads to nothing but the leaf. -/
theorem resolve_leaf {leaf : List String × Json} (member : leaf ∈ namedLeaves [] object) :
    Query.resolve (Path.segments (Path.dotted leaf.1)) (.object object) = [leaf.2] := by
  -- Only objects stand on the way to a leaf.
  have stands := lookup_of_leaf legible.keyed member
  rw [legible.segments_dotted member, Query.resolve_names (Projection.obstructed_of_lookup stands),
    stands, Option.toList_some]

/-- Leaves of an object have different paths. -/
theorem nodup {marks : List (List String × Json)}
    (sublist : marks.Sublist (namedLeaves [] object)) :
    ((marks.map dottedLeaf).map Prod.fst).Nodup :=
  -- The leaves lie apart from one another, so that no two have the same names.
  nodup_of_apart (fun _ member => legible.segments_dotted (sublist.subset member))
    ((namedLeaves_apart [] object legible.keyed).sublist sublist)

/-- The path of a leaf is the id alone only where its name is. -/
theorem dotted_eq_idField {leaf : List String × Json} (member : leaf ∈ namedLeaves [] object) :
    Path.dotted leaf.1 = idField ↔ leaf.1 = [idField] := by
  constructor
  · -- The name of the id field has no separator, so it is the path of one name only.
    intro same
    rw [← legible.segments_dotted member, same, Path.segments_of_dotless plain_idField.dotless]
  · intro same
    simp [same]

/-- An object with a scalar id is identified by that alone. -/
theorem identity_of_id {id : Json} (found : object.lookup idField = some id) (scalar : id.Scalar) :
    identityOf ((scalarsOf object).map dottedLeaf) = [(idField, id)] := by
  -- The id is a scalar leaf, so the search for one does not fail.
  have leaf := mem_scalarsOf.mpr ⟨leaf_of_lookup found (Or.inr scalar), scalar.items?_eq_none⟩
  have mark : (idField, id) ∈
      ((scalarsOf object).map dottedLeaf).filter fun leaf => leaf.1 = idField :=
    List.mem_filter.mpr ⟨List.mem_map.mpr ⟨([idField], id), leaf, rfl⟩, by simp⟩
  rw [identityOf]
  -- The search takes the last leaf of that name.
  cases last : (((scalarsOf object).map dottedLeaf).filter
      fun leaf => leaf.1 = idField).getLast? with
  | none => simp [List.getLast?_eq_none_iff.mp last] at mark
  | some other =>
    -- Every leaf at the name of the id holds the id.
    obtain ⟨among, named⟩ := List.mem_filter.mp (List.mem_of_getLast? last)
    obtain ⟨⟨names, value⟩, member, rfl⟩ := List.mem_map.mp among
    have listed := (mem_scalarsOf.mp member).1
    have alone := (legible.dotted_eq_idField listed).mp (of_decide_eq_true named)
    have stands := lookup_of_leaf legible.keyed listed
    simp only at alone
    rw [alone, Projection.lookup_singleton, found] at stands
    simp only [Option.some.injEq] at stands
    simp [dottedLeaf, alone, stands]

/-- An object without a scalar id is identified by all its scalar leaves. -/
theorem identity_of_no_id (no_id : ∀ id, object.lookup idField = some id → ¬ id.Scalar) :
    identityOf ((scalarsOf object).map dottedLeaf) = (scalarsOf object).map dottedLeaf := by
  -- A scalar leaf at the name of the id would be a scalar id.
  have none_named : ((scalarsOf object).map dottedLeaf).filter
      (fun leaf => leaf.1 = idField) = [] := by
    simp only [List.filter_eq_nil_iff, decide_eq_true_eq, List.forall_mem_map]
    intro leaf member named
    have listed := (mem_scalarsOf.mp member).1
    have stands := lookup_of_leaf legible.keyed listed
    rw [(legible.dotted_eq_idField listed).mp named, Projection.lookup_singleton] at stands
    exact no_id _ stands (scalar_of_mem_scalarsOf member)
  simp only [identityOf, none_named, List.getLast?_nil]
  -- Each path stands once, so the leaves make up themselves.
  exact Fields.ofEntries_of_nodup (legible.nodup List.filter_sublist)

/-- What is to be set are the scalar leaves at other paths than that of the id. -/
theorem assigned_eq : ((scalarLeaves (leaves "" object)).filter fun leaf => leaf.1 ≠ idField) =
    (assigned object).map dottedLeaf := by
  -- Only the id itself has the path of the id.
  rw [scalarLeaves_eq, List.filter_map, assigned]
  refine congrArg _ (List.filter_congr fun leaf member => ?_)
  have alone := legible.dotted_eq_idField (mem_scalarsOf.mp member).1
  simp [dottedLeaf, alone]

/-- What is to be set: every scalar leaf besides the id, at its path in the element. -/
theorem assignments_eq (site : Site) :
    (describe site object).assignments = (assigned object).map fun leaf =>
      (Path.join (site.memberPath (describe site object).aliasName)
        (Path.dotted leaf.1), leaf.2) := by
  -- In front of each path goes the path of the element.
  have listed : (describe site object).assignments = Fields.ofEntries
      (((assigned object).map dottedLeaf).map fun leaf =>
        (Path.join (site.memberPath (describe site object).aliasName) leaf.1, leaf.2)) := by
    rw [← legible.assigned_eq]
    rfl
  -- No two leaves have the same path, so putting them one after the other lists them all.
  have once : (((assigned object).map dottedLeaf).map Prod.fst).Nodup :=
    legible.nodup (List.filter_sublist.trans List.filter_sublist)
  rw [listed, Fields.ofEntries_of_nodup (Fields.nodup_join (site.memberPath_ne_empty _) once),
    List.map_map]
  rfl

end Legible

/-- A legible object of which no key starts like an operator. -/
structure Queryable (object : Fields) : Prop extends Legible object where
  noOperator : Json.FieldsOuterKeysHold (fun key => Path.isOperator key = false) object

/-- What identifies such an object is a query on fields. -/
theorem Queryable.named {object : Fields} (queryable : Queryable object) (site : Site) :
    Query.Named (describe site object).identity := by
  -- The path of a leaf has a name, and its first name starts no operator.
  intro entry member
  obtain ⟨leaf, among, rfl⟩ := mem_scalarsOf_of_identity member
  have listed := (mem_scalarsOf.mp among).1
  refine ⟨queryable.dotted_ne listed, Path.isOperator_dotted (names_ne_nil listed) ?_ ?_⟩
  · exact fun name inside => (outerKeys_of_leaf queryable.legible listed name inside).nonempty
  · exact outerKeys_of_leaf queryable.noOperator listed

/-- Such an object satisfies the query for what identifies it. -/
theorem Queryable.satisfies_identity {object : Fields} (queryable : Queryable object)
    (site : Site) : Query.satisfies (.object object) (describe site object).identity = true := by
  refine Query.satisfies_of_holds (queryable.named site).onFields fun entry member => ?_
  -- At the path of each condition stands what the condition expects, and nothing else.
  obtain ⟨leaf, among, rfl⟩ := mem_scalarsOf_of_identity member
  rw [dottedLeaf, queryable.resolve_leaf (mem_scalarsOf.mp among).1]
  exact Query.holds_self (scalar_of_mem_scalarsOf among)

/-- A regular object is queryable. -/
theorem Regular.queryable {object : Fields} (regular : Regular object) : Queryable object where
  -- A plain name starts no operator.
  toLegible := regular.legible
  noOperator := Json.FieldsKeysHold.outer object
    (regular.plain.keysHold (fun _ plain => plain.noOperator) object)

end Element

end DocPatch
