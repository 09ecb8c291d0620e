import DocPatch.Proofs.Plan.Stage

/-! How the elements entered on the way to an array are recognised: by the conditions of their
    aliases, by the predicate that they are there, and when they are taken out, always with the
    same answer. -/

namespace DocPatch

namespace Query

/-- In what is neither an array nor an object a path leads nowhere. -/
theorem resolve_of_no_parts {value : Json} (no_items : value.items? = none)
    (no_object : value.isObject = false) {path : List String} (some_segment : path ≠ []) :
    resolve path value = [] := by
  -- The first step of the path already finds nothing.
  obtain ⟨segment, rest, rfl⟩ := List.exists_cons_of_ne_nil some_segment
  cases value with
  | array items => simp [Json.items?] at no_items
  | object fields => simp [Json.isObject] at no_object
  | _ => simp [resolve, step]

/-- What is neither an array nor an object does not satisfy a query for scalars at some paths. -/
theorem satisfies_of_no_parts {value : Json} (no_items : value.items? = none)
    (no_object : value.isObject = false) {query : Fields} (some_entry : query ≠ [])
    (onFields : OnFields query) (scalars : ∀ entry ∈ query, entry.2.Scalar) :
    satisfies value query = false := by
  -- The first clause finds no candidates.
  obtain ⟨⟨key, expected⟩, rest, rfl⟩ := List.exists_cons_of_ne_nil some_entry
  have missing : resolve (Path.segments key) value = [] :=
    resolve_of_no_parts no_items no_object (Path.segments_ne_nil key)
  have plain := onFields (key, expected) (by simp)
  have scalar := scalars (key, expected) (by simp)
  rw [satisfies_entry, clause_of_noOperator plain, missing, holds_scalar scalar]
  rfl

/-- A query that says the same of each element but arrays in the three ways of selecting
    elements: as the conditions of an alias, as the predicate that an element is there, and as
    what is taken out. -/
structure Uniform (query : Fields) : Prop where
  asked : ∀ element : Json, element.items? = none →
    holds [.array [element]] (Guard.element query .present) = Update.accepts query element
  taken : ∀ element : Json, element.items? = none →
    elementSatisfies element (.object query) = Update.accepts query element

/-- A query for scalars at some named fields is uniform. -/
theorem uniform {query : Fields} (some_entry : query ≠ []) (named : Named query)
    (scalars : ∀ entry ∈ query, entry.2.Scalar) : Uniform query := by
  -- All three ask for an object that satisfies the query.
  have accepts : ∀ element : Json, element.items? = none →
      Update.accepts query element = (element.isObject && satisfies element query) := by
    intro element no_items
    rw [accepts_eq_satisfies named]
    cases object : element.isObject with
    | true => rfl
    | false => exact satisfies_of_no_parts no_items object some_entry named.onFields scalars
  constructor
  · intro element no_items
    rw [holds_element named.onFields, accepts element no_items]
    simp [someElement, Presence.agrees, Json.items?]
  · intro element no_items
    rw [elementSatisfies_object named.onFields, accepts element no_items]

end Query

namespace Element

/-- The alias filter that an object adds to those of its site, if it has an identity. -/
def filter? (site : Site) (object : Fields) : Option AliasFilter :=
  (describe site object).aliasName.map fun aliasName => ⟨aliasName, (describe site object).identity⟩

/-- The alias filter of an object has the alias of its site, and its identity, which
    is not empty. -/
theorem mem_filter? {site : Site} {object : Fields} {filter : AliasFilter} :
    filter ∈ filter? site object ↔ (describe site object).identity ≠ [] ∧
      filter = ⟨site.aliasName, (describe site object).identity⟩ := by
  -- There is a filter just when there is an identity.
  by_cases empty : (describe site object).identity = []
  · simp [filter?, aliasName_of_identity_eq empty, empty]
  · simp [filter?, aliasName_of_identity_ne empty, empty, eq_comm]

/-- The alias filter of an object is sound. -/
theorem sound_of_mem_filter? {site : Site} {object : Fields} {filter : AliasFilter}
    (own : filter ∈ filter? site object) : filter.Sound := by
  -- The alias of a site is proper, and an identity lists each path once.
  obtain ⟨some_entry, rfl⟩ := mem_filter?.mp own
  obtain ⟨nonempty, dotless⟩ := site.aliasName_sound
  exact ⟨some_entry, nodup_identity site object, nonempty, dotless⟩

end Element

namespace Site

/-- Objects entered one inside the other on the way from the root to a site, outermost first, each
    with the site that lists it. -/
inductive Reached (base : Fields) : List (Site × Fields) → Site → Prop where
  | root (field : String) : Reached base [] (.root base field)
  | child {visits : List (Site × Fields)} {site : Site} (reached : Reached base visits site)
      (object : Fields) (field : String) :
      Reached base (visits ++ [(site, object)]) (site.child (Element.describe site object) field)

namespace Reached

variable {base : Fields} {visits : List (Site × Fields)} {site : Site}

/-- Inside an object hold the alias filters of the objects entered, and its own. -/
theorem filters_eq (reached : Reached base visits site) (object : Fields) :
    (Element.describe site object).filters =
      (visits ++ [(site, object)]).filterMap fun visit => Element.filter? visit.1 visit.2 := by
  -- A site inherits what holds inside the object that it is reached through.
  have own : ∀ (site : Site) object, [(site, object)].filterMap
      (fun visit => Element.filter? visit.1 visit.2) = (Element.filter? site object).toList := by
    intro site object
    cases held : Element.filter? site object <;> simp [held]
  induction reached generalizing object with
  | root field =>
    rw [Element.filters_eq, List.nil_append, own]
    rfl
  | child _ entered field ih =>
    rw [Element.filters_eq, List.filterMap_append, own, ← ih entered]
    rfl

/-- No two of the filters that a site inherits have one alias. -/
theorem distinct (reached : Reached base visits site) :
    (site.inherited.map AliasFilter.aliasName).Nodup := by
  -- The induction is on the way: each element adds its alias to others that avoid it.
  induction reached with
  | root field => exact List.nodup_nil
  | child _ object field ih => exact Element.nodup_filters object ih

/-- On the way through some objects, the alias filters that hold inside the last one are read back
    as the identities of all of them that have one, each under its own alias, and there are no
    others. If the keys of the object are legible and no operators, its identity says the same of
    all elements but arrays, as the conditions of its alias, as the predicate that an element is
    there, and as what is taken out. -/
theorem selects_uniformly (reached : Reached base visits site) (object : Fields) :
    (∀ aliasName identity, Update.conditions?
        ((Element.describe site object).filters.map AliasFilter.toFields)
          aliasName = some identity ↔
      ∃ visit ∈ visits ++ [(site, object)],
        (Element.describe visit.1 visit.2).aliasName = some aliasName ∧
        (Element.describe visit.1 visit.2).identity = identity) ∧
    ∀ visit ∈ visits ++ [(site, object)], Element.Queryable visit.2 →
      (Element.describe visit.1 visit.2).identity ≠ [] →
      Query.Uniform (Element.describe visit.1 visit.2).identity := by
  have filters := reached.filters_eq object
  -- Each filter comes from an object with an identity.
  have sound : ∀ filter ∈ (Element.describe site object).filters, filter.Sound := by
    rw [filters]
    intro filter member
    obtain ⟨visit, among, own⟩ := List.mem_filterMap.mp member
    exact Element.sound_of_mem_filter? own
  refine ⟨fun aliasName identity => ?_, fun visit member queryable some_entry => ?_⟩
  · rw [AliasFilter.conditions?_iff sound (Element.nodup_filters object reached.distinct), filters]
    constructor
    · rintro ⟨filter, member, rfl, rfl⟩
      obtain ⟨visit, among, own⟩ := List.mem_filterMap.mp member
      obtain ⟨some_entry, rfl⟩ := Element.mem_filter?.mp own
      exact ⟨visit, among, Element.aliasName_of_identity_ne some_entry, rfl⟩
    · rintro ⟨visit, among, named, rfl⟩
      refine ⟨⟨aliasName, _⟩, List.mem_filterMap.mpr ⟨visit, among, ?_⟩, rfl, rfl⟩
      rw [Element.filter?, named]
      rfl
  · exact Query.uniform some_entry (queryable.named visit.1)
      fun _ among => Element.scalar_of_identity among

/-- An object identified by all its scalars, one of them an empty object, by dotted paths. -/
def tagged : Fields := [("n", .object [("a", .bool true), ("b", .object [])])]

/-- An object identified by its id, which comes last. -/
def numbered : Fields := [("z", .null), ("id", .string "k")]

/-- The site below the first object. -/
def inner : Site := (Site.root [] "x").child (Element.describe (.root [] "x") tagged) "x"

/-- The site below both. -/
def innermost : Site := inner.child (Element.describe inner numbered) "x"

/-- Three arrays of one name lie inside one another, and their elements get different aliases. -/
theorem selects_uniformly_nested :
    Reached [] [(.root [] "x", tagged), (inner, numbered)] innermost ∧ Element.Queryable tagged ∧
      Update.conditions?
        ((Element.describe innermost tagged).filters.map AliasFilter.toFields) "x1" =
        some [("id", .string "k")] ∧
      Query.Uniform [("n.a", .bool true), ("n.b", .object [])] := by
  -- The alias of the second array is the one with its depth behind it.
  have reached : Reached [] [(.root [] "x", tagged), (inner, numbered)] innermost :=
    .child (.child (.root "x") tagged "x") numbered "x"
  have queryable : Element.Queryable tagged := by
    refine ⟨⟨?_, ?_⟩, ?_⟩ <;>
      simp [tagged, Json.FieldsWellKeyed, Json.WellKeyed, Json.FieldsOuterKeysHold,
        Json.OuterKeysHold, Path.isOperator, Path.legible_iff]
  obtain ⟨conditions, uniform⟩ := reached.selects_uniformly tagged
  exact ⟨reached, queryable, (conditions "x1" _).mpr ⟨(inner, numbered), by simp, rfl, rfl⟩,
    uniform (innermost, tagged) (by simp) queryable (List.cons_ne_nil _ _)⟩

end Reached

end Site

end DocPatch
