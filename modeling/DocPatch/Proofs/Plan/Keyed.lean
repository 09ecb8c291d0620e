import DocPatch.Plan.Patch
import DocPatch.Proofs.Instruction
import DocPatch.Proofs.Plan.Legible
import DocPatch.Proofs.Plan.Removal
import DocPatch.Proofs.Store.Changes

/-! The operations of a patch repeat no key, if its filter and its instruction do not. -/

namespace DocPatch

open Json (FieldsWellKeyed ItemsWellKeyed)

/-- What identifies an object repeats no key. -/
theorem Element.wellKeyed_identity (site : Site) (object : Fields) :
    FieldsWellKeyed (describe site object).identity :=
  -- Every entry of the identity is a scalar, at a path of its own.
  Json.fieldsWellKeyed_iff.mpr
    ⟨nodup_identity site object, fun _ member => (scalar_of_identity member).wellKeyed⟩

/-- An array at the root of a well keyed tree is well keyed. -/
theorem Insertion.wellKeyed_of_rootLeaf {tree : Fields} (keyed : FieldsWellKeyed tree)
    {names : List String} {items : List Json} (leaf : (names, .array items) ∈ rootLeaves tree) :
    ItemsWellKeyed items := by
  -- The array is the value of an entry of the tree.
  obtain ⟨field, -, member⟩ := field_of_mem_rootLeaves leaf
  simpa only [Json.WellKeyed] using keyed.of_mem member

/-- An update by one operator at one path repeats no key, if its argument does not. -/
theorem Update.wellKeyed_single (operator path : String) {argument : Json}
    (keyed : argument.WellKeyed) : FieldsWellKeyed (single operator path argument) := by
  simpa [single, Json.single, FieldsWellKeyed, Json.WellKeyed] using keyed

/-- A list of well keyed values behind a modifier is well keyed. -/
theorem Json.wellKeyed_single_array (modifier : String) {values : List Json}
    (keyed : ∀ value ∈ values, value.WellKeyed) : (single modifier (.array values)).WellKeyed := by
  simpa [single, WellKeyed, Json.FieldsWellKeyed, itemsWellKeyed_iff] using keyed

/-- A predicate on an element repeats no key, if the identities that it asks for do not. -/
theorem Guard.wellKeyed_predicate {ancestry : Ancestry}
    (levels : ∀ level ∈ ancestry, FieldsWellKeyed level.identity) (field : String)
    {identity : Fields} (keyed : FieldsWellKeyed identity) (presence : Presence) :
    FieldsWellKeyed (predicate ancestry field identity presence) := by
  -- From the innermost level outwards, the conditions are merged into the identity of the level.
  induction ancestry with
  | nil =>
    cases presence <;>
      simpa [predicate, element, Json.single, FieldsWellKeyed, Json.WellKeyed] using keyed
  | cons level rest ih =>
    have inner := ih fun other member => levels other (by simp [member])
    have merged := (levels level (by simp)).merge fun entry member => inner.of_mem member
    simpa [predicate, enter, Json.single, FieldsWellKeyed, Json.WellKeyed] using merged

/-- A site whose filter and identities repeat no key. -/
structure Site.WellKeyed (site : Site) : Prop where
  base : FieldsWellKeyed site.base
  ancestry : ∀ level ∈ site.ancestry, FieldsWellKeyed level.identity
  inherited : ∀ filter ∈ site.inherited, FieldsWellKeyed filter.identity

/-- An array at the root repeats no key, if the filter does not. -/
theorem Site.wellKeyed_root {base : Fields} (filter : FieldsWellKeyed base) (field : String) :
    (root base field).WellKeyed where
  -- Nothing was entered before the root.
  base := filter
  ancestry := by simp [root]
  inherited := by simp [root]

/-- The filters that hold inside an element repeat no key. -/
theorem Site.WellKeyed.filters {site : Site} (keyed : site.WellKeyed) (object : Fields) :
    ∀ filter ∈ (Element.describe site object).filters, FieldsWellKeyed filter.identity := by
  -- They are the inherited ones and the filter of the element itself.
  rw [Element.filters_eq]
  intro filter member
  rcases List.mem_append.mp member with before | own
  · exact keyed.inherited filter before
  · obtain ⟨_, -, rfl⟩ := Option.map_eq_some_iff.mp (Option.mem_toList.mp own)
    exact Element.wellKeyed_identity site object

/-- The arrays nested in an object repeat no key, if the site that lists the object does not. -/
theorem Site.WellKeyed.child {site : Site} (keyed : site.WellKeyed) (object : Fields)
    (field : String) : (site.child (Element.describe site object) field).WellKeyed where
  -- The element adds one level, with its identity.
  base := keyed.base
  ancestry := List.forall_mem_append.mpr ⟨keyed.ancestry,
    List.forall_mem_singleton.mpr (Element.wellKeyed_identity site object)⟩
  inherited := keyed.filters object

/-- An operation repeats no key, if its parts do not. -/
theorem Operation.wellKeyed_under {aliases : List AliasFilter} {filter update : Fields}
    (filters : ∀ filter ∈ aliases, FieldsWellKeyed filter.identity)
    (selects : FieldsWellKeyed filter) (updates : FieldsWellKeyed update) :
    (under aliases filter update).WellKeyed where
  -- An array filter is put together from the conditions of its alias.
  filter := selects
  update := updates
  arrayFilters := by
    intro fields member
    obtain ⟨filter, among, rfl⟩ := List.mem_map.mp member
    refine Json.fieldsWellKeyed_ofEntries fun entry member => ?_
    obtain ⟨before, inside, rfl⟩ := List.mem_map.mp member
    exact (filters filter among).of_mem inside

/-- What is set on an element repeats no key. -/
theorem Element.wellKeyed_assignments (site : Site) (object : Fields) :
    FieldsWellKeyed (describe site object).assignments := by
  -- Every value that is set is a scalar leaf of the object.
  refine Json.fieldsWellKeyed_ofEntries fun entry member => ?_
  obtain ⟨leaf, assigned, rfl⟩ := List.mem_map.mp member
  rw [scalarLeaves_eq] at assigned
  obtain ⟨named, scalar, rfl⟩ := List.mem_map.mp (List.mem_filter.mp assigned).1
  exact (scalar_of_mem_scalarsOf scalar).wellKeyed

/-- An update that sets well keyed fields is well keyed. -/
theorem Update.wellKeyed_set {fields : Fields} (keyed : FieldsWellKeyed fields) :
    FieldsWellKeyed (set fields) := by
  simpa [set, FieldsWellKeyed, Json.WellKeyed] using keyed

/-- An update that takes fields away is well keyed. -/
theorem Update.wellKeyed_unset (fields : List String) : FieldsWellKeyed (unset fields) := by
  -- The fields to take away are put together as entries.
  have keyed : FieldsWellKeyed (Fields.ofEntries (fields.map fun field => (field, .string ""))) :=
    Json.fieldsWellKeyed_ofEntries (by simp [Json.WellKeyed])
  simpa [unset, FieldsWellKeyed, Json.WellKeyed] using keyed

namespace Insertion

variable {site : Site} {ops : List Operation}

/-- The operation that inserts an object repeats no key. -/
theorem wellKeyed_insert (keyed : site.WellKeyed) {object : Fields}
    (whole : FieldsWellKeyed object) :
    (insert site (Element.describe site object) object).WellKeyed := by
  -- The filter is the base filter with the predicate, and the object is pushed as it is.
  refine Operation.wellKeyed_under keyed.inherited ?_ (Update.wellKeyed_single _ _ ?_)
  · have absent : FieldsWellKeyed (Element.describe site object).absent :=
      Guard.wellKeyed_predicate keyed.ancestry site.field
        (Element.wellKeyed_identity site object) .absent
    simpa [Guard.both, FieldsWellKeyed, Json.WellKeyed, ItemsWellKeyed] using ⟨keyed.base, absent⟩
  · simpa only [Json.WellKeyed] using whole

/-- The operation that sets the fields of an object repeats no key. -/
theorem wellKeyed_assign (keyed : site.WellKeyed) (object : Fields) :
    (Operation.under (Element.describe site object).filters site.base
      (Update.set (Element.describe site object).assignments)).WellKeyed :=
  -- The update is put together from the scalar leaves.
  Operation.wellKeyed_under (keyed.filters object) keyed.base
    (Update.wellKeyed_set (Element.wellKeyed_assignments site object))

/-- The operations for an array repeat no key, if those for the objects in it do not. -/
theorem wellKeyed_array (keyed : site.WellKeyed) {items : List Json}
    (whole : ItemsWellKeyed items)
    (each : ∀ inner, .object inner ∈ items → ∀ ops, item site (.object inner) = .ok ops →
      ∀ op ∈ ops, op.WellKeyed)
    (compiled : array site items = .ok ops) : ∀ op ∈ ops, op.WellKeyed := by
  -- The operation for the values lists some of the items.
  refine array_forall (fun _ => ?_)
    (fun inner ops listed compiled => each inner listed ops compiled) compiled
  refine Operation.wellKeyed_under keyed.inherited keyed.base (Update.wellKeyed_single _ _ ?_)
  exact Json.wellKeyed_single_array _ fun value member =>
    whole.of_mem (List.mem_of_mem_filter member)

/-- The operations for an object in an array, and for the arrays in it, repeat no key. -/
theorem wellKeyed_item (object : Fields) :
    FieldsWellKeyed object → ∀ {site : Site}, site.WellKeyed →
    ∀ ops, item site (.object object) = .ok ops → ∀ op ∈ ops, op.WellKeyed := by
  induction object using Element.visit_induction with
  | visit object ih =>
    intro whole site keyed ops compiled
    by_cases nonempty : (Element.describe site object).identity = []
    · -- An object that nothing identifies has no operations.
      simp [item_unidentified nonempty compiled]
    · refine item_forall nonempty (wellKeyed_insert keyed whole)
        (assign_forall (wellKeyed_assign keyed object)) (fun inner compiled => ?_) compiled
      refine listed_forall (fun names items ops leaf compiled => ?_) compiled
      have items_keyed := Element.wellKeyed_of_leaf whole leaf
      have below := keyed.child object (Path.dotted names)
      exact wellKeyed_array below items_keyed (fun inner listed ops compiled =>
        ih names items inner leaf listed (items_keyed.object listed) below ops compiled) compiled

/-- The operations that add a tree repeat no key. -/
theorem wellKeyed_operations {base tree : Fields} (filter : FieldsWellKeyed base)
    (whole : FieldsWellKeyed tree) (compiled : operations base tree = .ok ops) :
    ∀ op ∈ ops, op.WellKeyed := by
  -- The walk starts at the sites of the fields.
  rw [operations_eq] at compiled
  refine listed_forall (fun names items ops leaf compiled => ?_) compiled
  have root := Site.wellKeyed_root filter (Path.dotted names)
  have items_keyed := wellKeyed_of_rootLeaf whole leaf
  exact wellKeyed_array root items_keyed (fun inner listed =>
    wellKeyed_item inner (items_keyed.object listed) root) compiled

end Insertion

namespace Removal

variable {site : Site}

/-- The operations for an array repeat no key, if those for the objects in it do not. -/
theorem wellKeyed_array (keyed : site.WellKeyed) {items : List Json} (whole : ItemsWellKeyed items)
    (each : ∀ inner, .object inner ∈ items → ∀ op ∈ item site (.object inner), op.WellKeyed) :
    ∀ op ∈ array site items, op.WellKeyed := by
  intro op member
  rcases List.mem_append.mp member with mine | theirs
  · -- Values are taken out by one operation, if there are any.
    rw [scalars] at mine
    split at mine
    · simp at mine
    · rw [List.mem_singleton.mp mine]
      refine Operation.wellKeyed_under keyed.inherited keyed.base (Update.wellKeyed_single _ _ ?_)
      exact Json.wellKeyed_single_array _ fun value among =>
        whole.of_mem (List.mem_of_mem_filter among)
  · exact objects_forall each op theirs

/-- The operations for an object in an array, or for the arrays in it, repeat no key. -/
theorem wellKeyed_item (object : Fields) :
    FieldsWellKeyed object → ∀ {site : Site}, site.WellKeyed →
    ∀ op ∈ item site (.object object), op.WellKeyed := by
  -- The induction follows the visits; an object is pulled by its identity, or its arrays
  -- are gone into.
  induction object using Element.visit_induction with
  | visit object ih =>
    intro whole site keyed
    rw [item_eq]
    split
    · exact pull_forall (Operation.wellKeyed_under keyed.inherited keyed.base
        (Update.wellKeyed_single _ _ (by
          simpa only [Json.WellKeyed] using Element.wellKeyed_identity site object)))
    · refine listed_forall fun names items leaf => ?_
      have items_keyed := Element.wellKeyed_of_leaf whole leaf
      have below := keyed.child object (Path.dotted names)
      exact wellKeyed_array below items_keyed fun inner listed =>
        ih names items inner leaf listed (items_keyed.object listed) below

/-- The operations that remove a tree repeat no key. -/
theorem wellKeyed_operations {base tree : Fields} (filter : FieldsWellKeyed base)
    (whole : FieldsWellKeyed tree) : ∀ op ∈ operations base tree, op.WellKeyed := by
  -- The walk starts at the sites of the fields.
  rw [operations_eq]
  refine listed_forall fun names items leaf => ?_
  have root := Site.wellKeyed_root filter (Path.dotted names)
  have items_keyed := Insertion.wellKeyed_of_rootLeaf whole leaf
  exact wellKeyed_array root items_keyed fun inner listed =>
    wellKeyed_item inner (items_keyed.object listed) root

end Removal

/-- The operations of a patch repeat no key, if the filter and the values of the
    instruction do not. -/
theorem Patch.wellKeyed_operations {base : Fields} (filter : FieldsWellKeyed base)
    {instruction : Instruction} (keyed : instruction.WellKeyed) {field : String}
    {time : Timestamp} {batch : List Operation}
    (compiled : Patch.operations base instruction field time = .ok batch) :
    ∀ op ∈ batch, op.WellKeyed := by
  -- A tree that is missing, or no object, has no entries at all.
  have tree : ∀ {tree : Option Json}, (∀ held ∈ tree, held.WellKeyed) →
      FieldsWellKeyed ((tree.bind Json.fields?).getD []) := by
    intro tree held
    cases tree with
    | none => simp [FieldsWellKeyed]
    | some value =>
      have whole := held value rfl
      cases value with
      | object fields => simpa [Json.fields?, Json.WellKeyed] using whole
      | _ => simp [Json.fields?, FieldsWellKeyed]
  obtain ⟨added, compiledAdd, same⟩ := bind_eq_ok.mp compiled
  obtain rfl := Except.ok.inj same
  intro op member
  simp only [List.cons_append, List.mem_cons, List.mem_append] at member
  -- The batch sets fields, adds, removes and takes fields away, in this order.
  rcases member with rfl | (mine | removed) | unset
  · have stamp : (Json.string time.text).WellKeyed := by simp [Json.WellKeyed]
    refine ⟨filter, Update.wellKeyed_set (Json.FieldsWellKeyed.put ?_ field stamp), by simp⟩
    cases held : instruction.set with
    | none => simp [FieldsWellKeyed]
    | some fields => exact keyed.set fields held
  · exact Insertion.wellKeyed_operations filter (tree keyed.add) compiledAdd op mine
  · exact Removal.wellKeyed_operations filter (tree keyed.remove) op removed
  · split at unset
    · simp at unset
    · rw [List.mem_singleton.mp unset]
      exact ⟨filter, Update.wellKeyed_unset _, by simp⟩

end DocPatch
