import DocPatch.Proofs.Plan.Erasure
import DocPatch.Proofs.Plan.Filters
import DocPatch.Proofs.Store.Pruning

/-! Removing a tree once more: the first removal leaves nothing for the second. -/

namespace DocPatch

/-- An alias that stands for elements with given scalars. -/
structure AliasFilter.OnScalars (filter : AliasFilter) : Prop where
  nonempty : filter.aliasName ≠ ""
  dotless : '.' ∉ filter.aliasName.toList
  identity : Query.OnScalars filter.identity

/-- What such filters demand of the elements of an alias are scalars. -/
theorem AliasFilter.conditions_onScalars {filters : List AliasFilter}
    (each : ∀ filter ∈ filters, filter.OnScalars) {aliasName : String} {conditions : Fields}
    (known : Update.conditions? (filters.map AliasFilter.toFields) aliasName = some conditions) :
    Query.OnScalars conditions := by
  -- Every condition comes from an entry of one of the filters, behind its alias.
  intro entry member
  simp only [Update.conditions?] at known
  split at known
  · simp at known
  · obtain rfl := Option.some.inj known
    obtain ⟨source, listed, named⟩ := List.mem_filterMap.mp (Fields.mem_ofEntries member)
    obtain ⟨document, among, inside⟩ := List.mem_flatten.mp listed
    obtain ⟨filter, known, rfl⟩ := List.mem_map.mp among
    obtain ⟨original, own, rfl⟩ := List.mem_map.mp (Fields.mem_ofEntries inside)
    have onScalars := each filter known
    -- Without the alias, it is the entry of the identity again.
    rw [Path.aliasAndField_join onScalars.nonempty onScalars.dotless] at named
    simp only [Option.ite_none_right_eq_some, Option.some.injEq] at named
    obtain ⟨-, rfl⟩ := named
    exact onScalars.identity original own

/-- What identifies an object with plain keys are scalars. -/
theorem Element.identity_onScalars (site : Site) {object : Fields}
    (keys : Json.FieldsKeysHold Path.Plain object) :
    Query.OnScalars (describe site object).identity := by
  -- Whether the id or all scalars identify it, each entry is a scalar leaf of the object.
  intro entry member
  obtain ⟨named, among, rfl⟩ := mem_scalarsOf_of_identity member
  have listed := (mem_scalarsOf.mp among).1
  have plain := (keysHold_of_mem_namedLeaves keys listed).1
  exact ⟨named.1, ⟨names_ne_nil listed, plain⟩, rfl, scalar_of_mem_scalarsOf among⟩

namespace Site

/-- A site that elements can be taken out at: its path is a way, and its aliases stand for elements
    with given scalars. -/
structure Prunable (site : Site) : Prop where
  nonempty : site.path ≠ ""
  way : Path.Way (Path.segments site.path)
  filters : ∀ filter ∈ site.inherited, filter.OnScalars

/-- The elements of a site are entered by one placeholder. -/
theorem exists_placeholder (site : Site) (object : Fields) :
    ∃ place, site.memberPath (Element.describe site object).aliasName = Path.join site.path place ∧
      Path.segments place = [place] ∧ Path.kind place ≠ .plain := by
  -- Without an identity all elements are entered, and with one those under the alias.
  by_cases empty : (Element.describe site object).identity = []
  · rw [Element.aliasName_of_identity_eq empty]
    exact ⟨Path.everyElement, rfl, by decide, by decide⟩
  · obtain ⟨someName, dotless⟩ := site.aliasName_sound
    rw [Element.aliasName_of_identity_ne empty]
    exact ⟨Path.selected site.aliasName, rfl, Path.segments_selected dotless, by
      simp [Path.kind_selected someName]⟩

/-- Inside an element, its alias stands for elements with given scalars as well. -/
theorem Prunable.element {site : Site} (prunable : site.Prunable) {object : Fields}
    (keys : Json.FieldsKeysHold Path.Plain object) :
    ∀ filter ∈ (Element.describe site object).filters, filter.OnScalars := by
  rw [Element.filters_eq]
  refine List.forall_mem_append.mpr ⟨prunable.filters, fun filter member => ?_⟩
  -- An element without an identity has no alias.
  by_cases empty : (Element.describe site object).identity = []
  · simp [Element.aliasName_of_identity_eq empty] at member
  · obtain ⟨someName, dotless⟩ := site.aliasName_sound
    rw [Element.aliasName_of_identity_ne empty, Option.map_some, Option.toList_some,
      List.mem_singleton] at member
    exact member ▸ ⟨someName, dotless, Element.identity_onScalars site keys⟩

/-- A field of the document needs no alias. -/
theorem Prunable.root (base : Fields) {field : String} (plain : Path.Plain field) :
    (Site.root base field).Prunable := by
  -- The path is the field itself.
  have path : (Site.root base field).path = field := by simp [Site.root, Site.path]
  refine ⟨path ▸ plain.nonempty, ?_, by simp [Site.root]⟩
  rw [path, Path.segments_of_dotless plain.dotless]
  exact .last plain

/-- An array nested in an element is reached through the element. -/
theorem Prunable.child {site : Site} (prunable : site.Prunable) {object : Fields}
    (keys : Json.FieldsKeysHold Path.Plain object) {names : List String}
    (leads : Path.Leads names) :
    (site.child (Element.describe site object) (Path.dotted names)).Prunable := by
  -- The way goes on through the placeholder of the element and then along the names.
  obtain ⟨place, entered, alone, enters⟩ := site.exists_placeholder object
  have member : Path.join site.path place ≠ "" := Path.join_ne_empty (Or.inl prunable.nonempty)
  have path : (site.child (Element.describe site object) (Path.dotted names)).path =
      Path.join (Path.join site.path place) (Path.dotted names) := entered ▸ rfl
  refine ⟨path ▸ Path.join_ne_empty (Or.inl member), ?_, prunable.element keys⟩
  rw [path, Path.segments_join member, Path.segments_join prunable.nonempty, alone, leads.segments,
    List.append_assoc]
  exact prunable.way.append enters leads

/-- Taking elements out at such a site prunes. -/
theorem Prunable.prunes {site : Site} (prunable : site.Prunable) {argument : Json}
    (fading : Json.Fading fun element => Query.elementSatisfies element argument) :
    (Operation.under site.inherited site.base (Update.single "$pull" site.path argument)).Prunes :=
  -- The filters of the site ask for scalars, which thinning does not bring about.
  .pull prunable.way fading fun _ _ known =>
    (AliasFilter.conditions_onScalars prunable.filters known).accepts_fading

end Site

namespace Removal

/-- The operations that remove a tree with plain keys prune. -/
theorem operations_prune {base tree : Fields} (plain : Json.FieldsPlainNamed tree) :
    ∀ op ∈ operations base tree, op.Prunes := by
  -- Sites that can be pruned are kept on the walk, and every operation is a pull at one of them.
  have invariant : Invariant Path.Plain Site.Prunable Operation.Prunes :=
    { child := fun prunable keys _ some_name named => prunable.child keys ⟨some_name, named⟩
      values := fun prunable _ plain => prunable.prunes (Query.elementSatisfies_in_fading plain)
      pull := fun {site} prunable {_} keys =>
        prunable.prunes (Element.identity_onScalars site keys).elementSatisfies_fading }
  exact invariant.operations (plain.keysHold fun _ named => named) fun _ named => .root base named

/-- Once a batch that removes a tree succeeded, it succeeds again, modifies nothing, and leaves the
    documents as they are. The base filter may select by anything, and stop selecting half way. -/
theorem bulkUpdate_removes_once {base tree : Fields} (plain : Json.FieldsPlainNamed tree)
    {collection after : Collection} {outcome : Outcome}
    (done : collection.bulkUpdate (operations base tree) = (.ok outcome, after)) :
    ∃ again last, after.bulkUpdate (operations base tree) = (.ok again, last) ∧ again.modified = 0 ∧
      last.documents = after.documents := by
  obtain ⟨-, left, applied, rfl⟩ := Collection.bulkUpdate_eq_ok.mp done
  -- Each document went through the batch alone, and the batch is settled on what became of it.
  have settled : ∀ document ∈ (if collection.vanishing then [] else left),
      ∀ op ∈ operations base tree, op.Settled document := by
    intro document member
    have stays : document ∈ left := by
      split at member
      · simp at member
      · exact member
    obtain ⟨before, -, became⟩ := Operation.exists_before_of_mem applied stays
    exact Operation.settled_of_prunes (operations_prune plain) operations_filter became
  obtain ⟨matched, again⟩ := Operation.applyBatch_of_settled settled
  exact ⟨⟨matched, 0⟩, _, Collection.bulkUpdate_eq_ok.mpr ⟨rfl, _, again, rfl⟩, rfl, rfl⟩

/-- On the sample document the batch that removes the sample tree succeeds, and again without a
    change. -/
theorem bulkUpdate_removes_once_sample :
    ∃ outcome after, (Collection.ofDocuments [sampleDocument]).bulkUpdate
        (operations [("k", .string "d")] sampleTree) = (.ok outcome, after) ∧
      ∃ again last, after.bulkUpdate (operations [("k", .string "d")] sampleTree) =
        (.ok again, last) ∧
        again.modified = 0 ∧ last.documents = after.documents := by
  -- The first run succeeds, and with it the second one.
  have succeeds : ((Collection.ofDocuments [sampleDocument]).bulkUpdate
      (operations [("k", .string "d")] sampleTree)).1.isOk = true := by decide +kernel
  cases done : (Collection.ofDocuments [sampleDocument]).bulkUpdate
      (operations [("k", .string "d")] sampleTree) with
  | mk result after =>
    cases result with
    | ok outcome =>
      exact ⟨outcome, after, rfl, bulkUpdate_removes_once sampleTree_regular.plain done⟩
    | error error => simp [done, Except.isOk, Except.toBool] at succeeds

end Removal

end DocPatch
