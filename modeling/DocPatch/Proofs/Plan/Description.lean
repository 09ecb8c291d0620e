import DocPatch.Proofs.Plan.Alias
import DocPatch.Proofs.Plan.Legible

/-! What is known of a listed object with plain names: the leaves that identify it, and how it is
    recognised by them. -/

namespace DocPatch

open Projection (Apart lookup)

namespace Element

/-- Leaves to recognise an element by: their names lead to places apart. -/
structure Spread (marks : List (List String × Json)) : Prop where
  leads : ∀ mark ∈ marks, Path.Leads mark.1
  apart : marks.Pairwise fun left right => Apart left.1 right.1

/-- Such leaves are a query on fields. -/
theorem Spread.named {marks : List (List String × Json)} (spread : Spread marks) :
    Query.Named (marks.map dottedLeaf) := by
  -- The path of a leaf starts like its first name.
  intro entry member
  obtain ⟨mark, among, rfl⟩ := List.mem_map.mp member
  have leads := spread.leads mark among
  exact ⟨leads.dotted_ne, leads.noOperator⟩

/-- What is placed apart from such leaves does not decide whether an element has them. -/
theorem Spread.satisfies_place {marks : List (List String × Json)} (spread : Spread marks)
    {names : List String} (apart : ∀ mark ∈ marks, Apart mark.1 names) (value element : Json) :
    Query.satisfies (Projection.place value names element) (marks.map dottedLeaf) =
      Query.satisfies element (marks.map dottedLeaf) := by
  -- Each clause reads the values at the names of its leaf.
  obtain ⟨leads, -⟩ := spread
  induction marks with
  | nil => simp
  | cons mark rest ih =>
    have first := leads mark (by simp)
    rw [List.map_cons, dottedLeaf, Query.satisfies_entry, Query.satisfies_entry,
      Query.clause_of_noOperator first.noOperator, Query.clause_of_noOperator first.noOperator,
      first.segments, Query.resolve_place (apart mark (by simp)),
      ih (fun other member => apart other (by simp [member]))
        fun other member => leads other (by simp [member])]

/-- An element that has such leaves has them after one of them was placed there again. -/
theorem Spread.satisfies_place_self {marks : List (List String × Json)} (spread : Spread marks)
    {leaf : List String × Json} (scalar : leaf.2.Scalar) (leads : Path.Leads leaf.1)
    (related : ∀ mark ∈ marks, mark = leaf ∨ Apart mark.1 leaf.1) {element : Json}
    (has : Query.satisfies element (marks.map dottedLeaf) = true) :
    Query.satisfies (Projection.place leaf.2 leaf.1 element) (marks.map dottedLeaf) = true := by
  by_cases blocked : Projection.obstructed leaf.1 element = true
  · -- Behind an obstacle nothing is placed.
    rwa [Projection.place_of_obstructed blocked]
  · obtain ⟨each, -⟩ := spread
    have free : Projection.obstructed leaf.1 element = false := by simpa using blocked
    have stands := Projection.lookup_place leads.some_name free leaf.2
    have found := Query.resolve_names (Projection.obstructed_of_lookup stands)
    induction marks with
    | nil => simp
    | cons mark rest ih =>
      have first := each mark (by simp)
      rw [List.map_cons, dottedLeaf, Query.satisfies_entry,
        Query.clause_of_noOperator first.noOperator, first.segments, Bool.and_eq_true] at has ⊢
      refine ⟨?_, ih (fun other member => related other (by simp [member])) has.2
        fun other member => each other (by simp [member])⟩
      rcases related mark (by simp) with rfl | apart
      · -- The leaf stands where it was placed, and equals itself.
        rw [found, stands]
        exact Query.holds_self scalar
      · -- At other places stands what stood there before.
        rw [Query.resolve_place apart]
        exact has.1

/-- Such leaves have different paths. -/
theorem Spread.nodup {marks : List (List String × Json)} (spread : Spread marks) :
    ((marks.map dottedLeaf).map Prod.fst).Nodup :=
  nodup_of_apart (fun mark member => (spread.leads mark member).segments) spread.apart

/-- Leaves of one object are spread. -/
theorem spread_of_sublist {object : Fields} (regular : Regular object)
    {marks : List (List String × Json)} (sublist : marks.Sublist (namedLeaves [] object)) :
    Spread marks :=
  -- Leaves of a regular object part before they end, and so do those of a selection.
  ⟨fun _ member => leads_of_leaf regular.plain (sublist.subset member),
    (namedLeaves_apart [] object regular.keyed).sublist sublist⟩

/-- The query for what identifies an object, wherever it is listed. -/
def identityFilter (object : Fields) : Fields := identityOf (scalarLeaves (leaves "" object))

/-- What identifies an object: some scalar leaves, one at least. -/
structure IdentifiedBy (object : Fields) (marks : List (List String × Json)) : Prop where
  sublist : marks.Sublist (scalarsOf object)
  some_mark : marks ≠ []
  identity : ∀ site, (describe site object).identity = marks.map dottedLeaf

/-- An object with a scalar id is identified by that alone. -/
theorem identifiedBy_id {object : Fields} (regular : Regular object) {id : Json}
    (scalar : id.Scalar) (found : object.lookup idField = some id) :
    IdentifiedBy object [([idField], id)] := by
  -- The id is a leaf of its own, and the description prefers it to all others.
  have leaf := leaf_of_lookup found (Or.inr scalar)
  have member := mem_scalarsOf.mpr ⟨leaf, scalar.items?_eq_none⟩
  refine ⟨List.singleton_sublist.mpr member, by simp, fun site => ?_⟩
  rw [identity_eq, regular.legible.identity_of_id found scalar]
  rfl

/-- An object with an identity is identified by scalar leaves. -/
theorem exists_identifiedBy {object : Fields} (regular : Regular object) {site : Site}
    (identified : (describe site object).identity ≠ []) : ∃ marks, IdentifiedBy object marks := by
  -- There is a scalar id, and it is the one mark, or all scalar leaves are.
  by_cases alone : ∃ id, object.lookup idField = some id ∧ id.Scalar
  · obtain ⟨id, found, scalar⟩ := alone
    exact ⟨_, identifiedBy_id regular scalar found⟩
  · have whole := regular.legible.identity_of_no_id fun id found scalar => alone ⟨id, found, scalar⟩
    rw [identity_eq, whole] at identified
    exact ⟨scalarsOf object, List.Sublist.refl _, by simpa using identified, fun other => by
      rw [identity_eq, whole]⟩

/-- The identity of an identified object is not empty. -/
theorem IdentifiedBy.identity_ne {object : Fields} {marks : List (List String × Json)}
    (identified : IdentifiedBy object marks) (site : Site) :
    (describe site object).identity ≠ [] := by
  -- There is some mark, and the identity has as many entries as there are marks.
  simpa [identified.identity] using identified.some_mark

/-- An object with an identity has the alias of the site. -/
theorem aliasName_of_identity_ne {object : Fields} {site : Site}
    (nonempty : (describe site object).identity ≠ []) :
    (describe site object).aliasName = some site.aliasName := by
  -- The identity is not empty, so the element gets the alias of its site.
  show (if (describe site object).identity.isEmpty then none else some site.aliasName) = _
  rw [List.isEmpty_eq_false_iff.mpr nonempty]
  rfl

/-- An object without an identity has no alias. -/
theorem aliasName_of_identity_eq {object : Fields} {site : Site}
    (empty : (describe site object).identity = []) : (describe site object).aliasName = none := by
  -- The alias is made for an identity only.
  show (if (describe site object).identity.isEmpty then none else some site.aliasName) = _
  simp [empty]

/-- To what a site inherits comes the filter of the element, if it has an alias. -/
theorem filters_eq (site : Site) (object : Fields) :
    (describe site object).filters = site.inherited ++
      ((describe site object).aliasName.map fun aliasName =>
        (⟨aliasName, (describe site object).identity⟩ : AliasFilter)).toList := rfl

/-- If no two of the filters that a site inherits have one alias, no two do so inside
    its elements. -/
theorem nodup_filters {site : Site} (object : Fields)
    (once : (site.inherited.map AliasFilter.aliasName).Nodup) :
    ((describe site object).filters.map AliasFilter.aliasName).Nodup := by
  rw [filters_eq]
  by_cases empty : (describe site object).identity = []
  · simpa [aliasName_of_identity_eq empty] using once
  · -- The alias of the site is not among those that it inherits.
    rw [aliasName_of_identity_ne empty, Option.map_some, Option.toList_some, List.map_append,
      List.map_singleton, ← List.concat_eq_append]
    exact once.concat site.aliasName_spec.2

/-- An identified object has the alias of the site. -/
theorem IdentifiedBy.aliasName {object : Fields} {marks : List (List String × Json)}
    (identified : IdentifiedBy object marks) (site : Site) :
    (describe site object).aliasName = some site.aliasName :=
  -- An identity that is not empty comes with the alias.
  aliasName_of_identity_ne (identified.identity_ne site)

/-- Inside an identified object its alias holds besides those of the site. -/
theorem IdentifiedBy.filters {object : Fields} {marks : List (List String × Json)}
    (identified : IdentifiedBy object marks) (site : Site) :
    (describe site object).filters =
      site.inherited ++ [⟨site.aliasName, marks.map dottedLeaf⟩] := by
  -- The identity of the object is what its marks say.
  rw [filters_eq, identified.aliasName, identified.identity]
  rfl

/-- The leaves that identify an object are spread. -/
theorem IdentifiedBy.spread {object : Fields} (regular : Regular object)
    {marks : List (List String × Json)} (identified : IdentifiedBy object marks) : Spread marks :=
  spread_of_sublist regular (identified.sublist.trans List.filter_sublist)

/-- A regular object satisfies the query for what identifies it. -/
theorem Regular.satisfies_self {object : Fields} (regular : Regular object) :
    Query.satisfies (.object object) (identityFilter object) = true :=
  -- The site does not matter.
  regular.queryable.satisfies_identity (.root [] "")

/-- A leaf that identifies an object is any other leaf itself, or lies apart from it. -/
theorem IdentifiedBy.related {object : Fields} (regular : Regular object)
    {marks : List (List String × Json)} (identified : IdentifiedBy object marks)
    {leaf : List String × Json} (member : leaf ∈ namedLeaves [] object) :
    ∀ mark ∈ marks, mark = leaf ∨ Apart mark.1 leaf.1 := by
  -- The marks are leaves of the object too.
  intro mark among
  have listed := (mem_scalarsOf.mp (identified.sublist.subset among)).1
  have symmetric : Std.Symm fun left right : List String × Json => Apart left.1 right.1 :=
    ⟨fun _ _ apart => apart.symm⟩
  by_cases same : mark = leaf
  · exact Or.inl same
  · exact Or.inr ((namedLeaves_apart [] object regular.keyed).forall listed member same)

/-- The leaves that identify an object lie apart from its arrays. -/
theorem IdentifiedBy.apart {object : Fields} (regular : Regular object)
    {marks : List (List String × Json)} (identified : IdentifiedBy object marks)
    {names : List String} {items : List Json}
    (leaf : (names, .array items) ∈ namedLeaves [] object) :
    ∀ mark ∈ marks, Apart mark.1 names := by
  -- The marks are scalar leaves, and a scalar is no array.
  intro mark member
  have whole := (mem_scalarsOf.mp (identified.sublist.subset member)).2
  refine (identified.related regular leaf mark member).resolve_left fun same => ?_
  subst same
  simp [Json.items?] at whole

end Element

end DocPatch
