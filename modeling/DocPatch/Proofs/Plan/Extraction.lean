import DocPatch.Proofs.Plan.Legible
import DocPatch.Proofs.Store.Unordered

/-! Describing an object loses nothing of it and makes nothing up: its leaves rebuild it, and what
    identifies it, what is set inside it and what is nested in it are shares of these leaves. -/

namespace DocPatch

open Projection (lookup place)

/-- What holds of the outer keys of a value holds of those of a value that is the same. -/
theorem Json.Same.outerKeysHold {property : String → Prop} {left right : Json}
    (same : Same left right) (holds : left.OuterKeysHold property) :
    right.OuterKeysHold property := by
  induction left using parts_induction generalizing right with
  | object fields ih =>
    cases same.matched with
    | object entries =>
      rw [OuterKeysHold, fieldsOuterKeysHold_iff] at holds ⊢
      intro entry member
      -- Each entry has its counterpart under the same key.
      obtain ⟨value, found, values⟩ := exists_of_rel_some
        (Fields.lookup_of_mem entries.right member ▸ flip_rel (entries.lookup entry.1))
      have among := Fields.mem_of_lookup found
      exact ⟨(holds _ among).1, ih _ among values (holds _ among).2⟩
  | array items =>
    cases same.matched with
    | array => simp [OuterKeysHold]
  | other value _ no_fields =>
    cases same.matched with
    | object => simp [Json.fields?] at no_fields
    | _ => simp [OuterKeysHold]

namespace Element

mutual

/-- The leaves of a value behind further names are its leaves, with these names in front. -/
theorem namedLeavesAt_append (start names : List String) : ∀ value : Json,
    namedLeavesAt (start ++ names) value =
      (namedLeavesAt names value).map fun leaf => (start ++ leaf.1, leaf.2)
  -- A value that is no object is a leaf itself, at the names alone.
  | .null | .bool _ | .number _ | .string _ | .array _ => by simp [namedLeavesAt]
  | .object [] => by simp [namedLeavesAt]
  | .object (entry :: rest) => by
    simpa [namedLeavesAt] using namedLeaves_append start names (entry :: rest)

/-- The leaves of an object behind further names are its leaves, with these names in front. -/
theorem namedLeaves_append (start names : List String) : ∀ fields : List (String × Json),
    namedLeaves (start ++ names) fields =
      (namedLeaves names fields).map fun leaf => (start ++ leaf.1, leaf.2)
  -- The induction follows the entries, and goes into their values.
  | [] => by simp [namedLeaves]
  | (key, value) :: rest => by
    rw [namedLeaves, namedLeaves, List.map_append, List.append_assoc,
      namedLeavesAt_append start (names ++ [key]) value, namedLeaves_append start names rest]

end

/-- Every value has leaves. -/
theorem namedLeavesAt_ne_nil (value : Json) (names : List String) :
    namedLeavesAt names value ≠ [] := by
  induction value using Json.parts_induction generalizing names with
  | object fields ih =>
    cases fields with
    | nil => simp [namedLeavesAt]
    | cons entry rest =>
      -- The leaves of the first entry come first.
      simp only [namedLeavesAt, List.isEmpty_cons, Bool.false_eq_true, ↓reduceIte, namedLeaves]
      exact List.append_ne_nil_of_left_ne_nil (ih entry (by simp) _) _
  | array items => simp [namedLeavesAt]
  | other value _ no_fields => cases value <;> simp_all [namedLeavesAt, Json.fields?]

/-- A scalar or an array that stands somewhere in an object is a leaf. -/
theorem leaf_of_lookup_names {object : Fields} {names : List String} {value : Json}
    (some_name : names ≠ []) (found : lookup names (.object object) = some value)
    (whole : value.items?.isSome ∨ value.Scalar) : (names, value) ∈ namedLeaves [] object := by
  induction names generalizing object with
  | nil => exact absurd rfl some_name
  | cons key rest ih =>
    rw [Projection.lookup_cons, Option.bind_eq_some_iff] at found
    obtain ⟨child, here, inside⟩ := found
    by_cases last : rest = []
    · subst last
      obtain rfl : child = value := by simpa [lookup] using inside
      exact leaf_of_lookup here whole
    · -- The child is an object, and the value is a leaf of it.
      cases child with
      | object fields =>
        rw [namedLeaves_eq_flatMap]
        refine List.mem_flatMap.mpr ⟨(key, .object fields), Fields.mem_of_lookup here, ?_⟩
        have leaf := ih last inside
        have some_entry : fields.isEmpty = false := by
          cases fields with
          | nil => simp [namedLeaves] at leaf
          | cons => rfl
        simp only [namedLeavesAt, some_entry, Bool.false_eq_true, ↓reduceIte, List.nil_append]
        rw [← List.append_nil [key], namedLeaves_append]
        exact List.mem_map.mpr ⟨_, leaf, rfl⟩
      | _ =>
        obtain ⟨next, others, rfl⟩ := List.exists_cons_of_ne_nil last
        simp [lookup] at inside

/-- Places leaves in a value, one after the other. -/
def placeAll (leaves : List (List String × Json)) (target : Json) : Json :=
  leaves.foldl (fun built leaf => place leaf.2 leaf.1 built) target

/-- Without leaves nothing is placed. -/
@[simp] theorem placeAll_nil (target : Json) : placeAll [] target = target := rfl

/-- The first leaf is placed before the others. -/
@[simp] theorem placeAll_cons (leaf : List String × Json) (rest : List (List String × Json))
    (target : Json) : placeAll (leaf :: rest) target = placeAll rest (place leaf.2 leaf.1 target) :=
  rfl

/-- Some leaves are placed before the others. -/
theorem placeAll_append (first rest : List (List String × Json)) (target : Json) :
    placeAll (first ++ rest) target = placeAll rest (placeAll first target) :=
  List.foldl_append

/-- Leaves whose names start with one key are placed in the value of that key. -/
theorem placeAll_under (key : String) {leaves : List (List String × Json)}
    (some_leaf : leaves ≠ []) (named : ∀ leaf ∈ leaves, leaf.1 ≠ []) (fields : Fields) :
    placeAll (leaves.map fun leaf => (key :: leaf.1, leaf.2)) (.object fields) =
      .object (Fields.put key
        (placeAll leaves ((fields.lookup key).getD (.object []))) fields) := by
  induction leaves generalizing fields with
  | nil => exact absurd rfl some_leaf
  | cons leaf rest ih =>
    rw [List.map_cons, placeAll_cons, placeAll_cons, Projection.place_cons (named leaf (by simp))]
    by_cases last : rest = []
    · subst last
      rfl
    · -- The other leaves find what the first one has left at the key.
      rw [ih last fun other member => named other (by simp [member]), Fields.lookup_put_self,
        Option.getD_some, Fields.put_put]

mutual

/-- The leaves of a value at a new key, placed one after the other, add the entry. -/
theorem placeAll_namedLeavesAt {fields : Fields} {key : String}
    (missing : fields.lookup key = none) : ∀ value : Json, value.WellKeyed →
      placeAll (namedLeavesAt [key] value) (.object fields) = .object (fields ++ [(key, value)])
  -- A value that is a leaf itself is put as it is.
  | .null, _ | .bool _, _ | .number _, _ | .string _, _ | .array _, _ => by
    simp [namedLeavesAt, place, Fields.put_of_lookup_none missing]
  | .object [], _ => by simp [namedLeavesAt, place, Fields.put_of_lookup_none missing]
  | .object (entry :: rest), keyed => by
    -- The leaves of an object with entries are placed in the object that the first one makes.
    have inside := placeAll_namedLeaves [] (entry :: rest)
      (by simpa only [Json.WellKeyed] using keyed) (by simp)
    have some_leaf := namedLeavesAt_ne_nil (.object (entry :: rest)) []
    have shifted := namedLeavesAt_append [key] [] (.object (entry :: rest))
    simp only [namedLeavesAt, List.isEmpty_cons, Bool.false_eq_true, ↓reduceIte, List.append_nil,
      List.singleton_append] at some_leaf shifted ⊢
    rw [shifted, placeAll_under key some_leaf fun leaf member => names_ne_nil member, missing,
      Option.getD_none, inside, List.nil_append, Fields.put_of_lookup_none missing]

/-- The leaves of new entries, placed one after the other, add the entries. -/
theorem placeAll_namedLeaves (fields : Fields) : ∀ entries : List (String × Json),
    Json.FieldsWellKeyed entries → (∀ key ∈ entries.map Prod.fst, fields.lookup key = none) →
      placeAll (namedLeaves [] entries) (.object fields) = .object (fields ++ entries)
  | [], _, _ => by simp [namedLeaves]
  | (key, value) :: rest, keyed, missing => by
    simp only [Json.FieldsWellKeyed] at keyed
    -- The keys of the later entries are new to the first one as well.
    have fresh : ∀ other ∈ rest.map Prod.fst, (fields ++ [(key, value)]).lookup other = none := by
      intro other member
      rw [Fields.lookup_eq_none, List.map_append, List.mem_append, not_or]
      refine ⟨Fields.lookup_eq_none.mp (missing other (List.mem_cons_of_mem _ member)),
        fun same => ?_⟩
      simp only [List.map_singleton, List.mem_singleton] at same
      exact Fields.lookup_eq_none.mp keyed.1 (same ▸ member)
    rw [namedLeaves, List.nil_append, placeAll_append,
      placeAll_namedLeavesAt (missing key (by simp)) value keyed.2.1,
      placeAll_namedLeaves (fields ++ [(key, value)]) rest keyed.2.2 fresh, List.append_assoc,
      List.singleton_append]

end

/-- The leaves of an object, placed at their paths in an empty object, rebuild it. -/
theorem Legible.rebuild {object : Fields} (legible : Legible object) :
    (leaves "" object).foldl
      (fun built leaf => place leaf.2 (Path.segments leaf.1) built) (.object []) =
      .object object := by
  -- The segments of a path are the names of its leaf.
  have named : ∀ built, ∀ leaf ∈ namedLeaves [] object,
      place (dottedLeaf leaf).2 (Path.segments (dottedLeaf leaf).1) built =
      place leaf.2 leaf.1 built := by
    intro built leaf member
    rw [dottedLeaf, legible.segments_dotted member]
  rw [leaves_eq, List.foldl_map, List.foldl_ext _ _ _ named]
  exact placeAll_namedLeaves [] object legible.keyed fun _ _ => rfl

/-- An object that is the same as a legible one is legible. -/
theorem Legible.of_same {object other : Fields} (legible : Legible object)
    (same : Fields.Same object other) : Legible other where
  -- Equal objects have the same keys, at the root and inside.
  keyed := by simpa only [Json.WellKeyed] using (Json.same_object_iff.mpr same).right
  legible := by
    simpa only [Json.OuterKeysHold] using (Json.same_object_iff.mpr same).outerKeysHold
      (by simpa only [Json.OuterKeysHold] using legible.legible)

/-- Objects that are the same have the same scalars at the same paths. -/
theorem Legible.scalar_of_same {object other : Fields} (legible : Legible object)
    (same : Fields.Same object other) {path : String} {value : Json}
    (found : ((scalarsOf object).map dottedLeaf).lookup path = some value) :
    ∃ held, ((scalarsOf other).map dottedLeaf).lookup path = some held ∧ Json.Same value held := by
  obtain ⟨⟨names, scalar⟩, among, here⟩ := List.mem_map.mp (Fields.mem_of_lookup found)
  obtain ⟨rfl, rfl⟩ := Prod.mk.inj here
  have listed := (mem_scalarsOf.mp among).1
  -- At the names of the leaf, the other object has a scalar that is the same.
  obtain ⟨held, stands, values⟩ := exists_of_rel_some (lookup_of_leaf legible.keyed listed ▸
    Projection.lookup_same names (Json.same_object_iff.mpr same))
  have isScalar := values.scalar (scalar_of_mem_scalarsOf among)
  have leaf := mem_scalarsOf.mpr
    ⟨leaf_of_lookup_names (names_ne_nil listed) stands (Or.inr isScalar), isScalar.items?_eq_none⟩
  exact ⟨held, Fields.lookup_of_mem ((legible.of_same same).nodup List.filter_sublist)
    (List.mem_map_of_mem leaf), values⟩

/-- Objects that are the same are identified by the same. -/
theorem Legible.identity_same {object other : Fields} (legible : Legible object) (site : Site)
    (same : Fields.Same object other) :
    Fields.Same (describe site object).identity (describe site other).identity := by
  have also := legible.of_same same
  have back : Fields.Same other object :=
    Json.same_object_iff.mp (Json.same_object_iff.mpr same).symm
  rw [identity_eq, identity_eq]
  by_cases alone : ∃ id, object.lookup idField = some id ∧ id.Scalar
  · -- A scalar id is one in the other object as well.
    obtain ⟨id, found, scalar⟩ := alone
    obtain ⟨held, stands, values⟩ := exists_of_rel_some (found ▸ same.lookup idField)
    rw [legible.identity_of_id found scalar, also.identity_of_id stands (values.scalar scalar)]
    exact Fields.Same.put (@Fields.Same.refl [] trivial) values
  · -- Without one, all scalars identify the objects.
    rw [legible.identity_of_no_id fun id found scalar => alone ⟨id, found, scalar⟩,
      also.identity_of_no_id fun held stands scalar => by
        obtain ⟨id, found, values⟩ := exists_of_rel_some (stands ▸ back.lookup idField)
        exact alone ⟨id, found, values.scalar scalar⟩]
    refine ⟨legible.nodup List.filter_sublist, also.nodup List.filter_sublist, fun path =>
      rel_of_exists (fun value found => legible.scalar_of_same same found) fun held found => ?_⟩
    obtain ⟨value, stands, -⟩ := also.scalar_of_same back found
    exact Option.isSome_of_eq_some stands

/-- The arrays among some leaves are those leaves that are arrays. -/
theorem arrayLeaves_eq (listed : List (String × Json)) :
    (arrayLeaves listed).map (fun array => (array.1, Json.array array.2)) =
      listed.filter fun leaf => leaf.2.items?.isSome := by
  -- Leaf by leaf, only an array is listed on either side.
  induction listed with
  | nil => rfl
  | cons leaf rest ih =>
    rcases leaf with ⟨path, value⟩
    rw [arrayLeaves] at ih ⊢
    cases value <;> simpa [Json.items?] using ih

/-- What an object is by its leaves, and what its description at a site makes of them. -/
structure Extracted (site : Site) (object : Fields) : Prop where
  /-- The path of each leaf leads to the leaf alone. -/
  resolves : ∀ leaf ∈ leaves "" object,
    Query.resolve (Path.segments leaf.1) (.object object) = [leaf.2]
  /-- The leaves, placed at their paths in an empty object, rebuild the object. -/
  rebuilds : (leaves "" object).foldl
    (fun built leaf => place leaf.2 (Path.segments leaf.1) built) (.object []) = .object object
  /-- What is nested in the object are the leaves that are arrays, in order. -/
  nested : (describe site object).nested.map (fun array => (array.1, Json.array array.2)) =
    (leaves "" object).filter fun leaf => leaf.2.items?.isSome
  /-- What is set are the other leaves besides the id, at their paths inside the element. -/
  assigned : (describe site object).assignments =
    ((scalarLeaves (leaves "" object)).filter fun leaf => leaf.1 ≠ idField).map fun leaf =>
      (site.memberPath (describe site object).aliasName ++ "." ++ leaf.1, leaf.2)
  /-- Each of them is set once. -/
  once : ((describe site object).assignments.map Prod.fst).Nodup
  /-- A scalar id identifies the object alone, wherever it stands. -/
  byId : ∀ id, object.lookup idField = some id → id.Scalar →
    (describe site object).identity = [(idField, id)]
  /-- Without one, all leaves that are no arrays identify it. -/
  byLeaves : (∀ id, object.lookup idField = some id → ¬ id.Scalar) →
    (describe site object).identity = scalarLeaves (leaves "" object)
  /-- The order of entries does not matter to what identifies it. -/
  unordered : ∀ other, Fields.Same object other →
    Fields.Same (describe site object).identity (describe site other).identity
  /-- Without operators among its keys, the object is recognised by what identifies it. -/
  recognised : Json.FieldsOuterKeysHold (fun key => Path.isOperator key = false) object →
    Query.satisfies (.object object) (describe site object).identity = true

/-- Whatever object is described at whatever site, nothing of it is lost and nothing is made up, if
    the keys of the object and of the objects directly inside it are not empty and hold no dots. -/
theorem Legible.extracted {object : Fields} (legible : Legible object) (site : Site) :
    Extracted site object where
  -- Each part of the statement is the lemma about its own share of the leaves.
  resolves := by
    rw [leaves_eq, List.forall_mem_map]
    exact fun leaf member => legible.resolve_leaf member
  rebuilds := legible.rebuild
  nested := arrayLeaves_eq _
  assigned := by
    rw [legible.assigned_eq, legible.assignments_eq, List.map_map]
    simp only [Path.join_of_ne (site.memberPath_ne_empty _)]
    rfl
  once := Fields.nodup_ofEntries _
  byId id found scalar := by rw [identity_eq, legible.identity_of_id found scalar]
  byLeaves no_id := by rw [identity_eq, legible.identity_of_no_id no_id, scalarLeaves_eq]
  unordered _ same := legible.identity_same site same
  recognised noOperator := Queryable.satisfies_identity ⟨legible, noOperator⟩ site

/-- An object whose id comes behind other leaves, with arrays and an empty object among them. -/
def late : Fields :=
  [("a", .object [("b", .bool true), ("c", .object []), ("d", .array [.null])]),
    ("id", .string "k"), ("l", .array [])]

/-- Its five leaves rebuild it, and its id identifies it alone, also when its entries are listed
    from the last to the first. -/
theorem Legible.extracted_late :
    Legible late ∧
      (leaves "" late).map Prod.fst = ["a.b", "a.c", "a.d", "id", "l"] ∧
      Extracted (.root [] "x") late ∧
      (describe (.root [] "x") late).identity = [("id", .string "k")] ∧
      Fields.Same [("id", .string "k")] (describe (.root [] "x") late.reverse).identity := by
  -- All keys are legible, and the id is a string.
  have legible : Legible late := by
    constructor <;>
      simp [late, Json.FieldsWellKeyed, Json.WellKeyed, Json.ItemsWellKeyed,
        Json.FieldsOuterKeysHold, Json.OuterKeysHold, Path.legible_iff]
  have extracted := legible.extracted (.root [] "x")
  have identity := extracted.byId (.string "k") rfl trivial
  exact ⟨legible, by decide, extracted, identity, identity ▸ extracted.unordered late.reverse
    (.of_perm legible.keyed (List.reverse_perm late).symm)⟩

end Element

end DocPatch
