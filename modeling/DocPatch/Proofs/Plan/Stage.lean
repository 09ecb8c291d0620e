import DocPatch.Proofs.Plan.Alias
import DocPatch.Proofs.Plan.Description

/-! The way from the root of a document to an array: the elements entered, stage by stage, and how
    the site of the array records them. -/

namespace DocPatch

open Projection (Apart)

namespace AliasFilter

/-- An alias filter that is read as it was meant: it has a name without dots, and conditions at
    different paths. -/
structure Sound (filter : AliasFilter) : Prop where
  some_entry : filter.identity ≠ []
  once : (filter.identity.map Prod.fst).Nodup
  nonempty : filter.aliasName ≠ ""
  dotless : '.' ∉ filter.aliasName.toList

/-- Such a filter lists its conditions behind the alias. -/
theorem Sound.toFields {filter : AliasFilter} (sound : filter.Sound) :
    filter.toFields =
      filter.identity.map fun entry => (Path.join filter.aliasName entry.1, entry.2) := by
  -- Behind one alias, different paths stay different.
  rw [AliasFilter.toFields, Fields.ofEntries_of_nodup (Fields.nodup_join sound.nonempty sound.once)]

/-- What a filter contributes to the conditions of an alias: all of its own, or nothing. -/
theorem Sound.contribution {filter : AliasFilter} (sound : filter.Sound) (aliasName : String) :
    (filter.toFields.filterMap fun entry =>
      if (Path.aliasAndField entry.1).1 = aliasName
      then some ((Path.aliasAndField entry.1).2, entry.2) else none) =
      if filter.aliasName = aliasName then filter.identity else [] := by
  -- Every key of the filter is taken apart into the alias and a path of the identity.
  have split : ∀ key, Path.aliasAndField (Path.join filter.aliasName key) =
      (filter.aliasName, key) :=
    Path.aliasAndField_join sound.nonempty sound.dotless
  rw [sound.toFields, List.filterMap_map]
  by_cases same : filter.aliasName = aliasName
  · simp [split, ← same]
  · simp [split, same]

/-- What some filters contribute to the conditions of an alias, one after the other. -/
theorem contributions {filters : List AliasFilter} (sound : ∀ filter ∈ filters, filter.Sound)
    (aliasName : String) :
    ((filters.map AliasFilter.toFields).flatten.filterMap fun entry =>
      if (Path.aliasAndField entry.1).1 = aliasName
      then some ((Path.aliasAndField entry.1).2, entry.2) else none) =
      filters.flatMap fun filter => if filter.aliasName =
        aliasName then filter.identity else [] := by
  induction filters with
  | nil => simp
  -- The keys of the first filter come first, and then those of the rest.
  | cons first rest ih =>
    have others := ih fun other member => sound other (by simp [member])
    simp only [List.map_cons, List.flatten_cons, List.filterMap_append, List.flatMap_cons,
      (sound first (by simp)).contribution, others]

/-- The conditions of an alias are those of its filter. -/
theorem conditions?_toFields {filters : List AliasFilter}
    (sound : ∀ filter ∈ filters, filter.Sound)
    (distinct : (filters.map AliasFilter.aliasName).Nodup) {filter : AliasFilter}
    (member : filter ∈ filters) :
    Update.conditions? (filters.map AliasFilter.toFields) filter.aliasName =
      some filter.identity := by
  -- Only the filter itself has its alias, so the others contribute nothing.
  obtain ⟨before, after, rfl⟩ := List.append_of_mem member
  -- Aliases stand once each, so no other filter has this one.
  have differ : ∀ other ∈ before ++ after, other.aliasName ≠ filter.aliasName := by
    simp only [List.map_append, List.map_cons] at distinct
    intro other among same
    have moved := List.nodup_middle.mp distinct
    rw [← List.map_append, List.nodup_cons] at moved
    exact moved.1 (same ▸ List.mem_map_of_mem among)
  -- Neither part of the rest contributes anything.
  have none_of : ∀ among : List AliasFilter, (∀ other ∈ among, other ∈ before ++ after) →
      (among.flatMap fun other =>
        if other.aliasName = filter.aliasName then other.identity else []) = [] := by
    intro among within
    apply List.flatMap_eq_nil_iff.mpr
    intro other member
    simp [differ other (within other member)]
  -- A filter without conditions would not be known, but each has some.
  have nonempty := (sound filter member).some_entry
  have alone := contributions sound filter.aliasName
  rw [List.flatMap_append, List.flatMap_cons, none_of before (by simp +contextual),
    none_of after (by simp +contextual), if_pos rfl, List.nil_append, List.append_nil] at alone
  simp only [Update.conditions?, alone, List.isEmpty_eq_false_iff.mpr nonempty, Bool.false_eq_true,
    ↓reduceIte, Fields.ofEntries_of_nodup (sound filter member).once]

/-- An alias has conditions just when it is that of a filter, and they are those of the filter. -/
theorem conditions?_iff {filters : List AliasFilter} (sound : ∀ filter ∈ filters, filter.Sound)
    (distinct : (filters.map AliasFilter.aliasName).Nodup) {aliasName : String}
    {conditions : Fields} :
    Update.conditions? (filters.map AliasFilter.toFields) aliasName = some conditions ↔
      ∃ filter ∈ filters, filter.aliasName = aliasName ∧ filter.identity = conditions := by
  constructor
  · intro known
    by_cases named : ∃ filter ∈ filters, filter.aliasName = aliasName
    · obtain ⟨filter, member, rfl⟩ := named
      rw [conditions?_toFields sound distinct member, Option.some.injEq] at known
      exact ⟨filter, member, rfl, known⟩
    · -- The filters of other aliases contribute nothing.
      have nothing := contributions sound aliasName
      rw [List.flatMap_eq_nil_iff.mpr fun filter member =>
        if_neg fun same => named ⟨filter, member, same⟩] at nothing
      simp [Update.conditions?, nothing] at known
  · rintro ⟨filter, member, rfl, rfl⟩
    exact conditions?_toFields sound distinct member

end AliasFilter

/-- One element entered on the way down: the names that lead from its holder to its array, the
    leaves that it is recognised by there, and its alias. -/
structure Stage where
  names : List String
  marks : List (List String × Json)
  aliasName : String

namespace Stage

/-- What identifies the element, by dotted paths. -/
def identity (stage : Stage) : Fields := stage.marks.map Element.dottedLeaf

/-- The stage as predicates know it. -/
def level (stage : Stage) : Level := ⟨Path.dotted stage.names, stage.identity⟩

/-- The stage as updates know it. -/
def filter (stage : Stage) : AliasFilter := ⟨stage.aliasName, stage.identity⟩

/-- The segments by which an update passes through the stage. -/
def segments (stage : Stage) : List String := stage.names ++ [Path.selected stage.aliasName]

/-- The first names after some stages: those of the next stage, or those that follow them all. -/
def next : List Stage → List String → List String
  | [], names => names
  | stage :: _, _ => stage.names

/-- Nothing that is done behind a stage touches the leaves that its element is recognised by. -/
def Clear : List Stage → List String → Prop
  | [], _ => True
  | stage :: rest, names =>
    -- The marks lie apart from the way that leads on from the element.
    (∀ mark ∈ stage.marks, Apart mark.1 (next rest names)) ∧ Clear rest names

/-- A stage of which both predicates and updates make sense. -/
structure Sound (stage : Stage) : Prop where
  leads : Path.Leads stage.names
  some_mark : stage.marks ≠ []
  spread : Element.Spread stage.marks
  aliasNonempty : stage.aliasName ≠ ""
  aliasDotless : '.' ∉ stage.aliasName.toList

/-- The identity of a sound stage is a query on fields. -/
theorem Sound.named {stage : Stage} (sound : stage.Sound) : Query.Named stage.identity :=
  sound.spread.named

/-- The alias filter of a sound stage is sound. -/
theorem Sound.filter {stage : Stage} (sound : stage.Sound) : stage.filter.Sound where
  -- The filter has the alias and the identity of the stage.
  some_entry := by simpa [Stage.filter, identity] using sound.some_mark
  once := sound.spread.nodup
  nonempty := sound.aliasNonempty
  dotless := sound.aliasDotless

/-- The conditions of an alias are the identity of its stage. -/
theorem conditions?_filters {stages : List Stage} (sound : ∀ stage ∈ stages, stage.Sound)
    (distinct : (stages.map Stage.aliasName).Nodup) {stage : Stage} (member : stage ∈ stages) :
    Update.conditions? ((stages.map Stage.filter).map AliasFilter.toFields) stage.aliasName =
      some stage.identity := by
  -- The filters are looked up by their aliases, which are all different.
  have once : ((stages.map Stage.filter).map AliasFilter.aliasName).Nodup := by
    rw [List.map_map]
    exact distinct
  refine AliasFilter.conditions?_toFields (fun filter among => ?_) once (List.mem_map_of_mem member)
  obtain ⟨other, listed, rfl⟩ := List.mem_map.mp among
  exact (sound other listed).filter

/-- The names after a longer way are those after its beginning. -/
@[simp] theorem next_append_singleton (stages : List Stage) (stage : Stage) (names : List String) :
    next (stages ++ [stage]) names = next stages stage.names := by
  cases stages <;> rfl

/-- A longer way is clear when its beginning is, and its last stage. -/
theorem Clear.append_singleton {stages : List Stage} {stage : Stage} {names : List String}
    (clear : Clear stages stage.names) (last : ∀ mark ∈ stage.marks, Apart mark.1 names) :
    Clear (stages ++ [stage]) names := by
  -- What follows the earlier stages are the names of the last one.
  induction stages with
  | nil => exact ⟨last, trivial⟩
  | cons first rest ih =>
    refine ⟨fun mark member => ?_, ih clear.2⟩
    have apart := clear.1 mark member
    rwa [← next_append_singleton rest stage names] at apart

end Stage

/-- A way that starts like another one, to the same array or further down through it. -/
def Stage.Below (stages : List Stage) (names : List String) (further : List Stage)
    (last : List String) : Prop :=
  ∃ more, further = stages ++ more ∧ Stage.next more last = names

namespace Stage

/-- A way is below itself. -/
theorem Below.refl (stages : List Stage) (names : List String) : Below stages names stages names :=
  ⟨[], by simp, rfl⟩

/-- What is below an array inside an element is below the array of the element. -/
theorem Below.of_inside {stages further : List Stage} {stage : Stage} {inner last : List String}
    (below : Below (stages ++ [stage]) inner further last) :
    Below stages stage.names further last := by
  -- The stage of the element is one more on the way.
  obtain ⟨more, whole, -⟩ := below
  exact ⟨stage :: more, by simp [whole], rfl⟩

/-- The segments of a way below an array go on from those of the array. -/
theorem Below.segments {stages further : List Stage} {names last : List String}
    (below : Below stages names further last) :
    ∃ tail, further.flatMap segments ++ last = stages.flatMap segments ++ names ++ tail := by
  -- Either nothing follows, or the alias of the next stage does.
  obtain ⟨more, rfl, rfl⟩ := below
  cases more with
  -- Nothing follows: the way ends at the array.
  | nil => exact ⟨[], by simp [next]⟩
  -- The alias of the next stage follows, and then whatever is behind it.
  | cons stage rest =>
    refine ⟨[Path.selected stage.aliasName] ++ (rest.flatMap Stage.segments ++ last), ?_⟩
    simp only [List.flatMap_append, List.flatMap_cons, Stage.segments, next, List.append_assoc]

/-- The stages on the way to an array are stages of every way below it. -/
theorem Below.subset {stages further : List Stage} {names last : List String}
    (below : Below stages names further last) : stages ⊆ further := by
  -- The longer way begins with the stages.
  obtain ⟨more, rfl, -⟩ := below
  exact List.subset_append_left stages more

end Stage

/-- How a site records the way to its array: stage by stage, and the names behind the last one. -/
structure Site.At (site : Site) (stages : List Stage) (names : List String) : Prop where
  leads : Path.Leads names
  sound : ∀ stage ∈ stages, stage.Sound
  distinct : (stages.map Stage.aliasName).Nodup
  clear : Stage.Clear stages names
  field : site.field = Path.dotted names
  nonempty : site.path ≠ ""
  path : Path.segments site.path = stages.flatMap Stage.segments ++ names
  ancestry : site.ancestry = stages.map Stage.level
  inherited : site.inherited = stages.map Stage.filter

namespace Site

/-- No stage leads to a field of the document itself. -/
theorem At.root (base : Fields) {field : String} (plain : Path.Plain field) :
    (Site.root base field).At [] [field] where
  -- The path of a field is its name, and nothing has been entered.
  leads := ⟨by simp, by simpa using plain⟩
  sound := by simp
  distinct := by simp
  clear := trivial
  field := by simp [Site.root]
  nonempty := by simpa [Site.root, Site.path] using plain.nonempty
  path := by simpa [Site.root, Site.path] using Path.segments_of_dotless plain.dotless
  ancestry := rfl
  inherited := rfl

section Child

variable {site : Site} {stages : List Stage} {names : List String} {object : Fields}
  {marks : List (List String × Json)}

/-- The stage by which an element of the array of a site is entered. -/
def stage (site : Site) (names : List String) (marks : List (List String × Json)) : Stage :=
  ⟨names, marks, site.aliasName⟩

/-- The stage of an identified object is sound. -/
theorem At.stage_sound (at_site : site.At stages names) (regular : Element.Regular object)
    (identified : Element.IdentifiedBy object marks) : (site.stage names marks).Sound where
  -- The marks are scalar leaves of the object, and the alias is made of letters and digits.
  leads := at_site.leads
  some_mark := identified.some_mark
  spread := identified.spread regular
  aliasNonempty := site.aliasName_sound.1
  aliasDotless := site.aliasName_sound.2

/-- The alias of a site is none of those on the way. -/
theorem At.aliasName_fresh (at_site : site.At stages names) :
    site.aliasName ∉ stages.map Stage.aliasName := by
  -- The aliases on the way are those that the site inherits, and its own avoids them.
  have unused := site.aliasName_spec.2
  rw [at_site.inherited, List.map_map] at unused
  exact unused

/-- The path of the elements of a site goes on from the site with their alias. -/
theorem At.memberPath (at_site : site.At stages names)
    (identified : Element.IdentifiedBy object marks) :
    site.memberPath (Element.describe site object).aliasName ≠ "" ∧
      Path.segments (site.memberPath (Element.describe site object).aliasName) =
        (stages ++ [site.stage names marks]).flatMap Stage.segments := by
  -- The alias is put behind the path of the array, as its last segment.
  rw [identified.aliasName]
  refine ⟨Path.join_ne_empty (Or.inl at_site.nonempty), ?_⟩
  rw [Site.memberPath, Path.segments_join at_site.nonempty, at_site.path,
    Path.segments_selected site.aliasName_sound.2]
  simp [Stage.segments, Site.stage]

/-- The path of a leaf inside an element leads through the stages to its names. -/
theorem At.segments_inside (at_site : site.At stages names)
    (identified : Element.IdentifiedBy object marks) {inner : List String}
    (leads : Path.Leads inner) :
    Path.segments (Path.join (site.memberPath (Element.describe site object).aliasName)
        (Path.dotted inner)) =
      (stages ++ [site.stage names marks]).flatMap Stage.segments ++ inner := by
  -- The path of the element ends in its placeholder, and the names come behind it.
  obtain ⟨nonempty, segments⟩ := at_site.memberPath identified
  rw [Path.segments_join nonempty, segments, leads.segments]

/-- All stages inside an identified object are sound. -/
theorem At.sound_inside (at_site : site.At stages names) (regular : Element.Regular object)
    (identified : Element.IdentifiedBy object marks) :
    ∀ stage ∈ stages ++ [site.stage names marks], stage.Sound := by
  -- Only the last stage is new.
  have last := at_site.stage_sound regular identified
  exact List.forall_mem_append.mpr ⟨at_site.sound, List.forall_mem_singleton.mpr last⟩

/-- The aliases inside an element differ from one another. -/
theorem At.distinct_inside (at_site : site.At stages names)
    (marks : List (List String × Json)) :
    ((stages ++ [site.stage names marks]).map Stage.aliasName).Nodup := by
  -- The alias of the site was chosen so that no entered element has it.
  rw [List.map_append, List.map_singleton, ← List.concat_eq_append]
  exact at_site.distinct.concat at_site.aliasName_fresh

/-- The alias filters inside an identified object are those of the stages. -/
theorem At.filters_inside (at_site : site.At stages names)
    (identified : Element.IdentifiedBy object marks) :
    (Element.describe site object).filters =
      (stages ++ [site.stage names marks]).map Stage.filter := by
  -- The filter of the object comes behind the inherited ones.
  rw [identified.filters, at_site.inherited, List.map_append]
  rfl

/-- Every alias on the way to an array selects by the identity of its stage. -/
theorem At.known (at_site : site.At stages names) :
    ∀ stage ∈ stages, Update.conditions? (site.inherited.map AliasFilter.toFields)
      stage.aliasName = some stage.identity := by
  -- The inherited filters are those of the stages.
  intro stage member
  rw [at_site.inherited]
  exact Stage.conditions?_filters at_site.sound at_site.distinct member

/-- Every alias on the way into an element selects by the identity of its stage. -/
theorem At.known_inside (at_site : site.At stages names) (regular : Element.Regular object)
    (identified : Element.IdentifiedBy object marks) :
    ∀ stage ∈ stages ++ [site.stage names marks],
      Update.conditions? ((Element.describe site object).filters.map AliasFilter.toFields)
        stage.aliasName = some stage.identity := by
  -- The element adds its own filter to those of the way.
  intro stage member
  rw [at_site.filters_inside identified]
  exact Stage.conditions?_filters (at_site.sound_inside regular identified)
    (at_site.distinct_inside marks) member

/-- An array nested in an identified object is one stage further down. -/
theorem At.child (at_site : site.At stages names) (regular : Element.Regular object)
    (identified : Element.IdentifiedBy object marks) {inner : List String} {items : List Json}
    (leaf : (inner, .array items) ∈ Element.namedLeaves [] object) :
    (site.child (Element.describe site object) (Path.dotted inner)).At
      (stages ++ [site.stage names marks]) inner := by
  -- The way to the nested array goes on through the element.
  have leads := Element.leads_of_leaf regular.plain leaf
  constructor
  · exact leads
  · exact at_site.sound_inside regular identified
  · exact at_site.distinct_inside marks
  · exact at_site.clear.append_singleton (identified.apart regular leaf)
  · rfl
  · exact Path.join_ne_empty (Or.inl (at_site.memberPath identified).1)
  · exact at_site.segments_inside identified leads
  · -- The array of the site becomes the last level of the chain.
    rw [List.map_append, ← at_site.ancestry]
    simp [Site.child, Stage.level, Site.stage, Stage.identity, at_site.field, identified.identity]
  · exact at_site.filters_inside identified

end Child

end Site

end DocPatch
