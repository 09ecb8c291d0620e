import DocPatch.Proofs.Plan.Alias
import DocPatch.Proofs.Plan.Invariant
import DocPatch.Proofs.Plan.Upsert
import DocPatch.Proofs.Store.Faults

/-! The aliases of an operation: its paths name just those that its alias filters define. -/

namespace DocPatch

/-- The alias filters of an operation define these names, one filter for each, and its paths name
    them in the same order. -/
structure Operation.ScopedBy (names : List String) (op : Operation) : Prop where
  distinct : names.Nodup
  paths : ∀ path ∈ Update.paths op.update, Path.aliases path = names
  filters : List.Forall₂ (fun name filter => filter ≠ [] ∧
    ∀ entry ∈ filter, (name ++ ".").toList <+: entry.1.toList) names op.arrayFilters

/-- The paths of an operation name the aliases that its filters define. -/
def Operation.Scoped (op : Operation) : Prop := ∃ names, op.ScopedBy names

namespace Operation

variable {op : Operation} {names : List String}

/-- Every alias that the paths of such an operation name has conditions. -/
theorem ScopedBy.conditioned (defined : op.ScopedBy names) {path : String}
    (among : path ∈ Update.paths op.update) {name : String} (named : name ∈ Path.aliases path) :
    Update.conditions? op.arrayFilters name ≠ none := by
  -- The filter that defines the alias has some entry, and its key starts with the alias.
  have dotless := Path.dot_not_mem_of_mem_aliases named
  rw [defined.paths path among] at named
  obtain ⟨position, within, same⟩ := List.getElem_of_mem named
  have length := defined.filters.length_eq
  obtain ⟨some_entry, keys⟩ := defined.filters.get within (by omega)
  obtain ⟨entry, member⟩ := List.exists_mem_of_ne_nil _ some_entry
  obtain ⟨field, text⟩ := keys entry member
  have split := @Path.aliasAndField_of_toList entry.1 name field dotless (by
    simpa [same, String.toList_append] using text.symm)
  -- So the entry is one of the conditions of the alias.
  have listed : (String.ofList field, entry.2) ∈ op.arrayFilters.flatten.filterMap fun entry =>
      if (Path.aliasAndField entry.1).1 = name
      then some ((Path.aliasAndField entry.1).2, entry.2) else none :=
    List.mem_filterMap.mpr
      ⟨entry, List.mem_flatten.mpr ⟨_, List.getElem_mem _, member⟩, by simp [split]⟩
  have nonempty := List.isEmpty_eq_false_iff.mpr (List.ne_nil_of_mem listed)
  simp only [Update.conditions?, nonempty, Bool.false_eq_true, ↓reduceIte, ne_eq, reduceCtorEq,
    not_false_eq_true]

/-- Such an operation is refused for want of an array, if at all. -/
theorem Scoped.error (wellScoped : op.Scoped) (known : ∀ entry ∈ op.update, Update.Known entry.1)
    {document : Json} {error : UpdateError}
    (failed : Update.apply op.arrayFilters op.update document = .error error) :
    ∃ operator field, error = .notAnArray operator field := by
  -- Every alias that a path names has conditions, and every operator is known.
  obtain ⟨names, defined⟩ := wellScoped
  exact Update.apply_error known
    (fun path among name named => defined.conditioned among named) failed

end Operation

/-- Alias filters that define the aliases of a path. -/
structure Scope (filters : List AliasFilter) (path : String) : Prop where
  aliases : Path.aliases path = filters.map AliasFilter.aliasName
  distinct : (filters.map AliasFilter.aliasName).Nodup
  identity : ∀ filter ∈ filters, filter.identity ≠ []
  nonempty : ∀ filter ∈ filters, filter.aliasName ≠ ""

namespace Scope

variable {filters : List AliasFilter} {path : String}

/-- Behind a path, field names without placeholders name no further alias. -/
theorem join (scope : Scope filters path) {field : String} (unplaced : Path.Unplaced field) :
    Scope filters (Path.join path field) where
  -- Only the path itself names aliases.
  aliases := by rw [Path.aliases_join, unplaced.aliases, List.append_nil, scope.aliases]
  distinct := scope.distinct
  identity := scope.identity
  nonempty := scope.nonempty

/-- Inside an element, its alias is named besides those of the site. -/
theorem member {site : Site} (scope : Scope site.inherited site.path) (object : Fields) :
    Scope (Element.describe site object).filters
      (site.memberPath (Element.describe site object).aliasName) := by
  have distinct := Element.nodup_filters object scope.distinct
  rw [Element.filters_eq] at distinct ⊢
  by_cases empty : (Element.describe site object).identity = []
  · -- Without an identity all elements are entered, and no alias is named.
    have named : Path.aliases (site.memberPath none) = Path.aliases site.path := by
      rw [Site.memberPath, Path.aliases_join, Path.aliases_everyElement, List.append_nil]
    rw [Element.aliasName_of_identity_eq empty]
    simpa [named] using Scope.mk (named.trans scope.aliases) scope.distinct
      scope.identity scope.nonempty
  · -- With an identity the alias of the site comes last.
    obtain ⟨someName, dotless⟩ := site.aliasName_sound
    rw [Element.aliasName_of_identity_ne empty, Option.map_some, Option.toList_some] at distinct ⊢
    constructor
    · rw [Site.memberPath, Path.aliases_join, (Path.aliases_selected someName dotless).1,
        scope.aliases, List.map_append, List.map_singleton]
    · exact distinct
    · exact List.forall_mem_append.mpr ⟨scope.identity, List.forall_mem_singleton.mpr empty⟩
    · exact List.forall_mem_append.mpr ⟨scope.nonempty, List.forall_mem_singleton.mpr someName⟩

/-- The filters of a scope, as documents, define its aliases one by one. -/
theorem forall₂ (scope : Scope filters path) :
    List.Forall₂ (fun name filter => filter ≠ [] ∧
      ∀ entry ∈ filter, (name ++ ".").toList <+: entry.1.toList)
      (filters.map AliasFilter.aliasName) (filters.map AliasFilter.toFields) := by
  rw [List.forall₂_map_left_iff, List.forall₂_map_right_iff, List.forall₂_same]
  intro filter member
  refine ⟨Fields.ofEntries_ne_nil (by simpa using scope.identity filter member),
    fun entry among => ?_⟩
  -- Every key of the document is the alias joined with a key of the identity.
  have key := Fields.mem_keys_ofEntries (List.mem_map_of_mem among)
  rw [List.map_map, List.mem_map] at key
  obtain ⟨field, -, text⟩ := key
  rw [← text]
  show _ <+: (Path.join filter.aliasName field.1).toList
  rw [Path.join_of_ne (scope.nonempty filter member)]
  exact ⟨field.1.toList, String.toList_append.symm⟩

/-- An operation under such filters is scoped, if all of its paths name their aliases. -/
theorem operation (scope : Scope filters path) {base update : Fields}
    (each : ∀ other ∈ Update.paths update, Path.aliases other = Path.aliases path) :
    (Operation.under filters base update).Scoped :=
  -- Path by path, the aliases are those of the filters.
  ⟨_, scope.distinct, fun other member => (each other member).trans scope.aliases, scope.forall₂⟩

end Scope

/-- What is known of the operations for a tree whose keys have no placeholders: they are scoped, and
    their operators are known. -/
structure Operation.Sound (op : Operation) : Prop where
  wellScoped : op.Scoped
  known : ∀ entry ∈ op.update, Update.Known entry.1

/-- A sound operation is refused for want of an array, if at all. -/
theorem Operation.Sound.error {op : Operation} (sound : op.Sound) {document : Json}
    {error : UpdateError}
    (failed : Update.apply op.arrayFilters op.update document = .error error) :
    Upsert.NoArray error :=
  -- A sound operation is scoped, and its operators are known.
  sound.wellScoped.error sound.known failed

/-- An update by one known operator, at a path of the scope, is sound. -/
theorem Scope.single {filters : List AliasFilter} {path : String} (scope : Scope filters path)
    {base : Fields} {operator : String} (known : Update.Known operator) (argument : Json) :
    (Operation.under filters base (Update.single operator path argument)).Sound where
  -- The one path of the update is that of the scope.
  wellScoped := scope.operation (by simp [Update.paths_single])
  known := by
    intro entry member
    rwa [List.mem_singleton.mp member]

namespace Element

/-- What is assigned to an object is set behind the path of its element, at names without
    placeholders. -/
theorem assignments_path {site : Site} {object : Fields}
    (keys : Json.FieldsKeysHold Path.Unplaced object) {path : String}
    (among : path ∈ Update.paths (Update.set (describe site object).assignments)) :
    ∃ field, Path.Unplaced field ∧
      path = Path.join (site.memberPath (describe site object).aliasName) field := by
  rw [Update.paths_set] at among
  have key := Fields.mem_keys_ofEntries among
  rw [List.map_map, List.mem_map] at key
  obtain ⟨leaf, assigned, rfl⟩ := key
  -- What is assigned is a scalar leaf of the object, and so its path is made of keys.
  have scalar := (List.mem_filter.mp assigned).1
  rw [scalarLeaves_eq] at scalar
  obtain ⟨named, listed, rfl⟩ := List.mem_map.mp scalar
  have names := (keysHold_of_mem_namedLeaves keys (mem_scalarsOf.mp listed).1).1
  exact ⟨Path.dotted named.1, Path.unplaced_dotted names, rfl⟩

end Element

/-- A field without placeholders needs no alias filters. -/
theorem Scope.root (base : Fields) {field : String} (unplaced : Path.Unplaced field) :
    Scope (Site.root base field).inherited (Site.root base field).path where
  -- The path of the field names no alias.
  aliases := by simpa [Site.root, Site.path] using unplaced.aliases
  distinct := by simp [Site.root]
  identity := by simp [Site.root]
  nonempty := by simp [Site.root]

/-- Elements of an object with an identity are entered under an alias, and not all of them. -/
theorem Site.memberPath_not_everywhere {site : Site} {object : Fields}
    (outside : ¬ Path.Everywhere site.path)
    (nonempty : (Element.describe site object).identity ≠ []) :
    ¬ Path.Everywhere (site.memberPath (Element.describe site object).aliasName) := by
  -- The placeholder of an alias is none for every element.
  obtain ⟨someName, dotless⟩ := site.aliasName_sound
  rw [Element.aliasName_of_identity_ne nonempty, Site.memberPath, Path.everywhere_join, not_or]
  exact ⟨outside, (Path.aliases_selected someName dotless).2⟩

/-- The operations that add a tree are sound, and none of their paths goes into every element of an
    array. -/
theorem Insertion.operations_sound {base tree : Fields}
    (unplaced : Json.FieldsKeysHold Path.Unplaced tree) {ops : List Operation}
    (compiled : operations base tree = .ok ops) :
    ∀ op ∈ ops, op.Sound ∧ ∀ path ∈ Update.paths op.update, ¬ Path.Everywhere path := by
  have invariant : Invariant Path.Unplaced
      (fun site => Scope site.inherited site.path ∧ ¬ Path.Everywhere site.path)
      (fun op => op.Sound ∧ ∀ path ∈ Update.paths op.update, ¬ Path.Everywhere path) := by
    constructor
    · -- The names behind an element have no placeholders of their own.
      intro site object names at_site _ nonempty _ named
      refine ⟨(at_site.1.member object).join (Path.unplaced_dotted named), ?_⟩
      show ¬ Path.Everywhere (Path.join (site.memberPath _) (Path.dotted names))
      rw [Path.everywhere_join, not_or]
      exact ⟨Site.memberPath_not_everywhere at_site.2 nonempty,
        (Path.unplaced_dotted named).not_everywhere⟩
    · intro site at_site values
      refine ⟨at_site.1.single (by simp [Update.Known]) _, ?_⟩
      simpa [Operation.under, Update.addEach] using at_site.2
    · intro site at_site object
      refine ⟨at_site.1.single (by simp [Update.Known]) _, ?_⟩
      simpa [Operation.under, insert, Update.push] using at_site.2
    · -- The paths of an assignment go on from that of the element.
      intro site at_site object keys nonempty
      have path := @Element.assignments_path site object keys
      refine ⟨⟨(at_site.1.member object).operation fun other among => ?_, ?_⟩,
        fun other among => ?_⟩
      · obtain ⟨field, unplaced, rfl⟩ := path among
        rw [Path.aliases_join, unplaced.aliases, List.append_nil]
      · simp [Operation.under, Update.set, Update.Known]
      · obtain ⟨field, unplaced, rfl⟩ := path among
        rw [Path.everywhere_join, not_or]
        exact ⟨Site.memberPath_not_everywhere at_site.2 nonempty, unplaced.not_everywhere⟩
  refine invariant.operations unplaced (fun field named => ⟨.root base named, ?_⟩) compiled
  simpa [Site.root, Site.path] using named.not_everywhere

/-- The operations that remove a tree are sound. -/
theorem Removal.operations_sound {base tree : Fields}
    (unplaced : Json.FieldsKeysHold Path.Unplaced tree) :
    ∀ op ∈ operations base tree, op.Sound := by
  -- The scope of a site is kept on the walk, and makes each operation sound.
  have invariant : Invariant Path.Unplaced (fun site => Scope site.inherited site.path)
      Operation.Sound :=
    { child := fun {site} {object} {names} scope _ _ _ named =>
        (scope.member object).join (Path.unplaced_dotted named)
      values := fun scope _ _ => scope.single (by simp [Update.Known]) _
      pull := fun {_} scope {_} _ => scope.single (by simp [Update.Known]) _ }
  exact invariant.operations unplaced fun field named => .root base named

/-- In a tree of which no key has a part that starts like a placeholder: the paths of every
    operation name just the aliases that its filters define, an insertion goes into no element
    without an alias, and an operation is refused for want of an array only. -/
theorem operations_scoped (base : Fields) {tree : Fields}
    (unplaced : Json.FieldsKeysHold Path.Unplaced tree) :
    (∀ ops, Insertion.operations base tree = .ok ops → ∀ op ∈ ops, op.Scoped ∧
      (∀ path ∈ Update.paths op.update, ¬ Path.Everywhere path) ∧
      ∀ document error, Update.apply op.arrayFilters op.update document = .error error →
        Upsert.NoArray error) ∧
    ∀ op ∈ Removal.operations base tree, op.Scoped ∧
      ∀ document error, Update.apply op.arrayFilters op.update document = .error error →
        Upsert.NoArray error := by
  -- Both lists of operations are sound, one by one.
  constructor
  · intro ops compiled op member
    obtain ⟨sound, outside⟩ := Insertion.operations_sound unplaced compiled op member
    exact ⟨sound.wellScoped, outside, fun _ _ failed => sound.error failed⟩
  · intro op member
    have sound := Removal.operations_sound unplaced op member
    exact ⟨sound.wellScoped, fun _ _ failed => sound.error failed⟩

/-- A tree with a dotted key, and with an array in an array. -/
def dottedTree : Fields :=
  [("a.b", .array [.null, .object [("id", .string "x"), ("s", .array [.object [("n", .null)]])]])]

/-- The operations for the tree with a dotted key are scoped: four that add a value and two objects,
    and two that remove the value and the inner object. -/
theorem operations_scoped_dottedTree :
    (∃ ops, Insertion.operations [] dottedTree = .ok ops ∧ ops.length = 4 ∧ ∀ op ∈ ops, op.Scoped ∧
      (∀ path ∈ Update.paths op.update, ¬ Path.Everywhere path) ∧
      ∀ document error, Update.apply op.arrayFilters op.update document = .error error →
        Upsert.NoArray error) ∧
    (Removal.operations [] dottedTree).length = 2 ∧
    ∀ op ∈ Removal.operations [] dottedTree, op.Scoped ∧
      ∀ document error, Update.apply op.arrayFilters op.update document = .error error →
        Upsert.NoArray error := by
  -- The operations are counted by computing them.
  have unplaced : Json.FieldsKeysHold Path.Unplaced dottedTree := by
    simp only [dottedTree, Json.FieldsKeysHold, Json.KeysHold, Json.ItemsKeysHold, Path.Unplaced]
    decide
  obtain ⟨adds, removes⟩ := operations_scoped [] unplaced
  refine ⟨?_, by decide, removes⟩
  have count : ((Insertion.operations [] dottedTree).toOption.map List.length) = some 4 := by
    decide +kernel
  cases compiled : Insertion.operations [] dottedTree with
  | error reason => simp [compiled, Except.toOption] at count
  | ok ops => exact ⟨ops, rfl, by simpa [compiled, Except.toOption] using count, adds ops compiled⟩

end DocPatch
