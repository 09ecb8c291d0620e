import DocPatch.Proofs.Plan.Origin
import DocPatch.Proofs.Plan.Passage
import DocPatch.Proofs.Plan.Removal
import DocPatch.Proofs.Plan.Scope

/-! Removing a whole tree through a collection: the batch does what removing the tree means. -/

namespace DocPatch

open Element (namedLeaves)
open Projection (Altered Apart lookup place)

namespace Stage

/-- The stage of elements that nothing identifies: it is open to every object, and has no alias. -/
def every (names : List String) : Stage := ⟨names, [], ""⟩

/-- Whether elements are recognised at a stage, by some mark. -/
def named (stage : Stage) : Bool := !stage.marks.isEmpty

end Stage

/-- How a site records the way to its array through stages of which some may be open. -/
structure Site.Via (site : Site) (stages : List Stage) (names : List String) : Prop where
  leads : Path.Leads names
  passable : ∀ stage ∈ stages, stage.Passable
  sound : ∀ stage ∈ stages.filter Stage.named, stage.Sound
  everyStage : ∀ stage ∈ stages, stage.marks = [] → stage.aliasName = ""
  distinct : ((stages.filter Stage.named).map Stage.aliasName).Nodup
  clear : Stage.Clear stages names
  nonempty : site.path ≠ ""
  path : Path.segments site.path = stages.flatMap Stage.segments ++ names
  inherited : site.inherited = (stages.filter Stage.named).map Stage.filter

namespace Site

variable {site : Site} {stages : List Stage} {names : List String}

/-- Updates with the filters of a site enter by the stages on the way to it. -/
theorem Via.enters (via : site.Via stages names) :
    ∀ stage ∈ stages, stage.Enters (site.inherited.map AliasFilter.toFields) := by
  intro stage member
  by_cases unmarked : stage.marks = []
  · exact Or.inl ⟨via.everyStage stage member unmarked, unmarked⟩
  · -- A stage with marks has an alias filter of its own.
    have among : stage ∈ stages.filter Stage.named :=
      List.mem_filter.mpr ⟨member, by simpa [Stage.named] using unmarked⟩
    refine Or.inr ⟨(via.sound stage among).aliasNonempty, ?_⟩
    rw [via.inherited]
    exact Stage.conditions?_filters via.sound via.distinct among

/-- No stage leads to a field of the document itself. -/
theorem Via.root (base : Fields) {field : String} (plain : Path.Plain field) :
    (Site.root base field).Via [] [field] := by
  -- There are no aliases to be told apart, and the field is the whole path.
  have at_root := At.root base plain
  exact ⟨at_root.leads, by simp, by simp, by simp, by simp, trivial, at_root.nonempty, at_root.path,
    rfl⟩

/-- The stage by which the elements that an object recognises are entered, as its description at a
    site records it. -/
structure Opens (site : Site) (names : List String) (object : Fields) (stage : Stage) : Prop where
  names_eq : stage.names = names
  passable : stage.Passable
  sound : stage.named = true → stage.Sound
  everyStage : stage.marks = [] → stage.aliasName = ""
  dotless : '.' ∉ stage.aliasName.toList
  fresh : stage.aliasName ∉ site.inherited.map AliasFilter.aliasName ∨ stage.named = false
  memberPath : site.memberPath (Element.describe site object).aliasName =
    Path.join site.path (Path.selected stage.aliasName)
  filters : (Element.describe site object).filters =
    site.inherited ++ ([stage].filter Stage.named).map Stage.filter
  admits : stage.admits = Deletion.recognises object
  apart : ∀ inner items, (inner, .array items) ∈ namedLeaves [] object →
    ∀ mark ∈ stage.marks, Apart mark.1 inner

/-- Every regular object has such a stage: by its marks and the alias of the site, or
    an open one. -/
theorem exists_opens (site : Site) (leads : Path.Leads names) {object : Fields}
    (regular : Element.Regular object) : ∃ stage, site.Opens names object stage := by
  by_cases empty : (Element.describe site object).identity = []
  · -- Nothing identifies the object, so it goes into all objects.
    have noAlias := Element.aliasName_of_identity_eq empty
    refine ⟨.every names, rfl, ⟨leads, ⟨by simp [Stage.every], by simp [Stage.every]⟩⟩,
      ?_, fun _ => rfl, by simp [Stage.every], Or.inr rfl, ?_, ?_, ?_, by simp [Stage.every]⟩
    · simp [Stage.every, Stage.named]
    · rw [noAlias]
      rfl
    · rw [Element.filters_eq, noAlias]
      rfl
    · have none : Element.identityFilter object = [] := empty
      funext element
      simp [Stage.admits, Deletion.recognises, none, Stage.identity, Stage.every]
  · -- The marks identify the object, and the alias of the site stands for it.
    obtain ⟨marks, identified⟩ := Element.exists_identifiedBy regular empty
    obtain ⟨someName, dotless⟩ := site.aliasName_sound
    have spread := identified.spread regular
    have marked : (site.stage names marks).named = true := by
      simp [Stage.named, Site.stage, identified.some_mark]
    refine ⟨site.stage names marks, rfl, ⟨leads, spread⟩,
      fun _ => ⟨leads, identified.some_mark, spread, someName, dotless⟩,
      fun unmarked => absurd unmarked identified.some_mark, dotless,
      Or.inl site.aliasName_spec.2, ?_, ?_,
      identified.admits site names, fun inner items leaf => identified.apart regular leaf⟩
    · rw [identified.aliasName]
      rfl
    · rw [identified.filters, List.filter_cons_of_pos marked]
      rfl

/-- An array nested in an object is one stage further down. -/
theorem Via.child (via : site.Via stages names) {object : Fields}
    (regular : Element.Regular object) {stage : Stage} (opens : site.Opens names object stage)
    {inner : List String} {items : List Json}
    (leaf : (inner, .array items) ∈ namedLeaves [] object) :
    (site.child (Element.describe site object) (Path.dotted inner)).Via
      (stages ++ [stage]) inner := by
  have leads := Element.leads_of_leaf regular.plain leaf
  -- Only the last stage is new.
  have each : ∀ {holds : Stage → Prop}, (∀ other ∈ stages, holds other) → holds stage →
      ∀ other ∈ stages ++ [stage], holds other := fun before last =>
    List.forall_mem_append.mpr ⟨before, List.forall_mem_singleton.mpr last⟩
  constructor
  · exact leads
  · exact each via.passable opens.passable
  · intro other member
    obtain ⟨among, marked⟩ := List.mem_filter.mp member
    have sound : ∀ other ∈ stages ++ [stage], other.named = true → other.Sound :=
      each (fun other member marked => via.sound other (List.mem_filter.mpr ⟨member, marked⟩))
        opens.sound
    exact sound other among marked
  · exact each via.everyStage opens.everyStage
  · -- A stage with an alias has another one than those before it.
    rw [List.filter_append, List.map_append, List.nodup_append]
    refine ⟨via.distinct, (List.filter_sublist.map Stage.aliasName).nodup
      (List.nodup_singleton _), ?_⟩
    intro name among other last same
    subst same
    obtain ⟨found, member, rfl⟩ := List.mem_map.mp last
    obtain ⟨here, marked⟩ := List.mem_filter.mp member
    rw [List.mem_singleton.mp here] at among marked
    have unused := opens.fresh.resolve_right (by simp [marked])
    rw [via.inherited, List.map_map] at unused
    exact unused among
  · exact Stage.Clear.append_singleton (opens.names_eq ▸ via.clear) (opens.apart inner items leaf)
  · exact Path.join_ne_empty (Or.inr leads.dotted_ne)
  · -- The path of the nested array goes on from that of the element.
    have member : site.memberPath (Element.describe site object).aliasName ≠ "" := by
      rw [opens.memberPath]
      exact Path.join_ne_empty (Or.inl via.nonempty)
    show Path.segments (Path.join (site.memberPath _) (Path.dotted inner)) = _
    rw [Path.segments_join member, leads.segments, opens.memberPath,
      Path.segments_join via.nonempty, Path.segments_selected opens.dotless, via.path]
    simp [Stage.segments, opens.names_eq]
  · show (Element.describe site object).filters = _
    rw [opens.filters, via.inherited, List.filter_append, List.map_append]

end Site

/-- A query that the value at a path does not decide. -/
def Query.Blind (path : List String) (query : Fields) : Prop :=
  ∀ value target, Query.satisfies (place value path target) query = Query.satisfies target query

/-- Such a query is satisfied as before when the value was replaced. -/
theorem Query.Blind.altered {path : List String} {query : Fields} (blind : Query.Blind path query)
    {before after : Json} (altered : Altered path before after) :
    Query.satisfies after query = Query.satisfies before query := by
  -- The value is still there, or another one was put in its place.
  rcases altered with rfl | ⟨value, rfl⟩
  · rfl
  · exact blind value before

/-- A query that reads no field of a set is not decided by what stands in one of them. -/
theorem Query.Avoids.blind {fields : List String} {query : Fields}
    (avoids : Query.Avoids fields query) {field : String} (member : field ∈ fields) :
    Query.Blind [field] query := by
  -- Putting a value at the field leaves every other field as it was.
  intro value target
  cases target with
  | object entries =>
    refine Query.satisfies_congr (fun name outside => ?_) query avoids
    have differ : name ≠ field := fun same => outside (same ▸ member)
    exact Fields.lookup_put_of_ne differ value entries
  | _ => rfl

namespace Operation

/-- The document that a batch leaves, if it succeeds. -/
def left? (batch : List Operation) (document : Json) : Option Json :=
  (result batch document).toOption

/-- A batch leaves a document when it succeeds with it. -/
theorem left?_eq_some {batch : List Operation} {document after : Json} :
    left? batch document = some after ↔ result batch document = .ok after := by
  -- An error leaves no document.
  rw [left?]
  cases result batch document <;> simp [Except.toOption]

@[simp] theorem left?_nil (document : Json) : left? [] document = some document := rfl

/-- A batch in two parts leaves what the second part leaves of what the first part left. -/
theorem left?_append (first second : List Operation) (document : Json) :
    left? (first ++ second) document = (left? first document).bind (left? second) := by
  -- An error of the first part is one of the whole.
  rw [left?, result_append, left?]
  cases result first document <;> rfl

/-- One operation leaves what its update leaves, where its filter selects. -/
theorem left?_singleton {op : Operation} {document : Json}
    (selected : Query.satisfies document op.filter = true) :
    left? [op] document = Update.left? (Update.apply op.arrayFilters op.update document) := by
  -- The filter selects, so that the update decides.
  rw [left?, result_cons, applyTo_of_satisfies selected]
  cases Update.apply op.arrayFilters op.update document <;> rfl

end Operation

namespace Removal

open Operation (left?)
open Stage (within)

variable {site : Site} {stages : List Stage} {names : List String} {document : Json}

/-- Pulling along the way to an array takes the elements out of every array that it leads to. -/
theorem pull_left (via : site.Via stages names) {argument : Json} {test : Json → Bool}
    (tests : ∀ item, Query.elementSatisfies item argument = test item)
    (selected : Query.satisfies document site.base = true) :
    left? [.under site.inherited site.base (Update.single "$pull" site.path argument)] document =
      within (Deletion.delete names test) stages document := by
  -- The update is led along the stages, and what it does at their end is a deletion.
  rw [Operation.left?_singleton selected]
  simp only [Operation.under]
  rw [Update.apply_single, Update.applyPath, via.path]
  show Update.left? (Update.descend _ false _ _ document) = _
  rw [Stage.left?_descend via.passable via.enters via.leads]
  exact congrArg (within · stages document) (funext (Update.left?_pull tests via.leads))

/-- The operations for an object do what removing the object means, inside of every element that the
    stages lead to. -/
def ItemErases (object : Fields) : Prop :=
  ∀ {site : Site} {stages : List Stage} {names : List String} {document : Json},
    -- The base filter has to be blind to what the removal changes.
    site.Via stages names → Query.Blind (Stage.next stages names) site.base →
    Query.satisfies document site.base = true →
    left? (item site (.object object)) document =
      within (Deletion.item names (.object object)) stages document

/-- What comes after operations that do what they mean still finds the document selected. -/
theorem left?_append_within {first second : List Operation} {f g : Json → Option Json}
    (via : site.Via stages names) (blind : Query.Blind (Stage.next stages names) site.base)
    (selected : Query.satisfies document site.base = true)
    (alters : ∀ before after, f before = some after → Altered names before after)
    (here : left? first document = within f stages document)
    (there : ∀ between, Query.satisfies between site.base = true →
      left? second between = within g stages between) :
    left? (first ++ second) document =
      within (fun element => (f element).bind g) stages document := by
  -- The first part alters only the array at the names, to which the filter is blind.
  rw [Operation.left?_append, here, ← Stage.within_bind alters via.passable via.clear]
  cases changed : within f stages document with
  | none => rfl
  | some between =>
    rw [Option.bind_some, Option.bind_some]
    apply there
    rw [blind.altered (Stage.within_altered alters changed)]
    exact selected

/-- The operations for the objects of an array do what removing the objects means. -/
theorem objects_left (via : site.Via stages names)
    (blind : Query.Blind (Stage.next stages names) site.base)
    (selected : Query.satisfies document site.base = true) {items : List Json}
    (each : ∀ inner, .object inner ∈ items → ItemErases inner) :
    left? (objects site items) document =
      within (Deletion.objects names items) stages document := by
  induction items generalizing document with
  | nil => rw [Deletion.objects_nil, Stage.within_some, objects, Operation.left?_nil]
  | cons first rest ih =>
    have mine : left? (item site first) document =
        within (Deletion.item names first) stages document := by
      cases first with
      | object inner => exact each inner (by simp) via blind selected
      -- Items that are no objects ask for nothing here.
      | _ => rw [Deletion.item_other rfl, Stage.within_some, item_other rfl, Operation.left?_nil]
    rw [Deletion.objects_cons, objects]
    exact left?_append_within via blind selected (fun _ _ removed => Deletion.item_altered removed)
      mine fun between selected => ih selected fun inner member => each inner (by simp [member])

/-- The removal of the values of an array does what taking them out means. -/
theorem scalars_left (via : site.Via stages names)
    (selected : Query.satisfies document site.base = true) (items : List Json) :
    left? (scalars site items) document =
      within (Deletion.values names (items.filter fun item => !item.isObject)) stages document := by
  -- Without values there is no operation; otherwise all of them are taken out at once.
  unfold scalars
  by_cases none : (items.filter fun item => !item.isObject) = []
  · have nothing : Deletion.values names [] = some := rfl
    simp only [none, List.isEmpty_nil, ↓reduceIte]
    rw [nothing, Stage.within_some, Operation.left?_nil]
  · have some_value := List.isEmpty_eq_false_iff.mpr none
    have meaning : Deletion.values names (items.filter fun item => !item.isObject) =
        Deletion.delete names fun item =>
          (items.filter fun item => !item.isObject).any (Query.equalsOrContains item) := by
      funext element
      simp [Deletion.values, some_value]
    simp only [some_value, Bool.false_eq_true, ↓reduceIte]
    rw [meaning]
    exact pull_left via (Query.elementSatisfies_in _) selected

/-- The removal of an object without arrays does what taking out what it recognises means. -/
theorem pull_left_item (via : site.Via stages names) {object : Fields}
    (regular : Element.Regular object) (alone : (Deletion.arrays object).isEmpty = true)
    (selected : Query.satisfies document site.base = true) :
    left? (pull site (Element.describe site object)) document =
      within (Deletion.item names (.object object)) stages document := by
  unfold pull
  by_cases empty : (Element.describe site object).identity = []
  · rw [Deletion.item_empty alone empty, Stage.within_some, empty]
    rfl
  · -- The query for the identity finds the elements that the object recognises.
    obtain ⟨marks, identified⟩ := Element.exists_identifiedBy regular empty
    have named : Query.Named (Element.describe site object).identity :=
      identified.identity site ▸ (identified.spread regular).named
    rw [Deletion.item_alone alone empty, if_neg (by simpa using empty)]
    exact pull_left via (Query.elementSatisfies_object named.onFields) selected

/-- The operations for an array do what removing the array means. -/
theorem array_left (via : site.Via stages names)
    (blind : Query.Blind (Stage.next stages names) site.base)
    (selected : Query.satisfies document site.base = true) {items : List Json}
    (each : ∀ inner, .object inner ∈ items → ItemErases inner) :
    left? (array site items) document = within (Deletion.array names items) stages document := by
  -- The values come first, and the objects are removed from what they left.
  rw [Deletion.array_eq, array]
  exact left?_append_within via blind selected (fun _ _ removed => Deletion.values_altered removed)
    (scalars_left via selected items) fun between selected => objects_left via blind selected each

/-- The operations for the arrays among some leaves do what removing these arrays means. -/
theorem listed_left {site : String → Site} {base : Fields}
    {leaves : List (List String × Json)}
    (via : ∀ names items, (names, .array items) ∈ leaves →
      (site (Path.dotted names)).Via stages names ∧ (site (Path.dotted names)).base = base)
    (blind : ∀ names items, (names, .array items) ∈ leaves →
      Query.Blind (Stage.next stages names) base)
    (each : ∀ names items, (names, .array items) ∈ leaves → ∀ inner, .object inner ∈ items →
      ItemErases inner)
    (selected : Query.satisfies document base = true) :
    left? (listed site leaves) document = within (Deletion.listed leaves) stages document := by
  induction leaves generalizing document with
  | nil =>
    show left? [] document = within some stages document
    rw [Stage.within_some, Operation.left?_nil]
  | cons leaf rest ih =>
    rcases leaf with ⟨names, value⟩
    have later := fun document =>
      @ih document (fun names items member => via names items (by simp [member]))
      (fun names items member => blind names items (by simp [member]))
      fun names items member => each names items (by simp [member])
    cases value with
    | array items =>
      obtain ⟨here, rfl⟩ := via names items (by simp)
      rw [Deletion.listed_cons, listed]
      exact left?_append_within here (blind names items (by simp)) selected
        (fun _ _ removed => Deletion.array_altered here.leads.some_name removed)
        (array_left here (blind names items (by simp)) selected (each names items (by simp)))
        later
    -- A leaf that is no array is passed by.
    | _ => exact later document selected

/-- The operations for every regular object do what removing the object means. -/
theorem item_left (object : Fields) : Element.Regular object → ItemErases object := by
  induction object using Element.visit_induction with
  | visit object ih =>
    intro regular site stages names document via blind selected
    obtain ⟨stage, opens⟩ := site.exists_opens via.leads regular
    rw [item_eq]
    by_cases alone : (Deletion.arrays object).isEmpty = true
    · -- An object without arrays takes out what it recognises, unless nothing identifies it.
      rw [if_pos (show (Element.describe site object).nested.isEmpty = true from alone)]
      exact pull_left_item via regular alone selected
    · rw [if_neg (show ¬(Element.describe site object).nested.isEmpty = true from alone),
        Deletion.item_arrays
        alone, ← opens.admits, ← opens.names_eq, ← Stage.within_append_singleton]
      -- The arrays of the object are one stage further down.
      refine listed_left
        (fun inner items leaf => ⟨via.child regular opens leaf, rfl⟩) ?_ ?_ selected
      · intro inner items leaf
        rw [Stage.next_append_singleton, opens.names_eq]
        exact blind
      · intro inner items leaf listed member
        exact ih inner items listed leaf member (regular.visited leaf member)

/-- A base filter that reads no field of a tree leaves it to the operations to do what removing the
    tree means. -/
theorem operations_left {base tree : Fields} (regular : Element.Regular tree)
    (selected : Query.satisfies document base = true)
    (avoids : Query.Avoids (tree.map Prod.fst) base) :
    left? (operations base tree) document = Deletion.tree tree document := by
  rw [operations_eq, Deletion.tree_eq]
  -- The arrays of the tree stand at fields of the document, behind no stages.
  refine @listed_left [] document _ base _ ?_ ?_ ?_ selected
  · intro names items leaf
    obtain ⟨name, rfl, member⟩ := Insertion.field_of_mem_rootLeaves leaf
    rw [Path.dotted_singleton]
    exact ⟨.root base (regular.plain.of_mem member).1, rfl⟩
  · intro names items leaf
    obtain ⟨name, rfl, member⟩ := Insertion.field_of_mem_rootLeaves leaf
    exact avoids.blind (List.mem_map_of_mem member)
  · intro names items leaf inner listed
    have visited := (Insertion.leaf_of_mem_rootLeaves regular leaf).1
    exact @item_left inner (regular.visited visited listed)

/-- On a document that the base filter selects by other fields, the batch for a tree leaves what
    removing the tree leaves, or fails where removing it finds something that is no array. -/
theorem bulkUpdate_removes {base tree : Fields} (regular : Element.Regular tree) {document : Json}
    (selected : Query.satisfies document base = true)
    (avoids : Query.Avoids (tree.map Prod.fst) base) :
    match Deletion.tree tree document with
    | some after => ∃ outcome, (Collection.ofDocuments [document]).bulkUpdate
        (operations base tree) = (.ok outcome, ⟨[after], [operations base tree], none, false⟩)
    | none => ∃ error, Upsert.NoArray error ∧
        (Collection.ofDocuments [document]).bulkUpdate (operations base tree) =
          (.error (.update error), ⟨[document], [operations base tree], none, false⟩) := by
  have called := Collection.bulkUpdate_singleton (operations base tree) document []
  rw [← operations_left regular selected avoids, Operation.left?, Operation.result,
    Collection.ofDocuments, called]
  cases ran : Operation.run (operations base tree) document with
  | ok left => exact ⟨left.2, rfl⟩
  -- An operation of the batch was refused, and that for want of an array.
  | error error =>
    obtain ⟨op, member, between, refused⟩ := Operation.exists_of_run_error ran
    have unplaced := regular.plain.keysHold (fun _ plain => plain.unplaced)
    exact ⟨error, (operations_sound unplaced op member).error refused, rfl⟩

/-- A tree that lists a value, an object without arrays inside an identified one, and a value inside
    an object that nothing identifies. -/
def sampleTree : Fields :=
  [("g", .array [.string "v", .object [("id", .string "a"), ("s", .array [.object [("n", .null)]])],
    .object [("t", .array [.string "x"])]])]

/-- A document with two objects, and with the value alone and in an array. -/
def sampleDocument : Json :=
  .object [("k", .string "d"), ("g", .array [.string "v", .array [.string "v"],
    .object [("id", .string "a"), ("s", .array [.object [("n", .null), ("m", .null)],
      .object [("m", .null)]]), ("t", .array [.string "x", .string "y"])],
    .object [("id", .string "c"), ("t", .array [.string "x"])]])]

/-- The sample tree has plain keys, each once. -/
theorem sampleTree_regular : Element.Regular sampleTree := by
  -- There are five keys, and each of them is plain.
  have plain : ∀ name ∈ ["g", "id", "s", "n", "t"], Path.Plain name := by
    intro name member
    simp only [List.mem_cons, List.not_mem_nil, or_false] at member
    rcases member with rfl | rfl | rfl | rfl | rfl <;>
      exact ⟨by decide, by decide, by decide, by decide⟩
  constructor
  · simp [sampleTree, Json.FieldsWellKeyed, Json.WellKeyed, Json.ItemsWellKeyed]
  · simp [sampleTree, Json.FieldsPlainNamed, Json.PlainNamed, Json.ItemsPlainNamed, plain]

/-- The batch for the sample tree takes the value out twice, the inner object out of the object with
    the id, and the inner value out of both objects. -/
theorem bulkUpdate_removes_sample :
    ∃ outcome, (Collection.ofDocuments [sampleDocument]).bulkUpdate
        (operations [("k", .string "d")] sampleTree) =
      (.ok outcome, ⟨[.object [("k", .string "d"), ("g", .array [
          .object [("id", .string "a"), ("s", .array [.object [("m", .null)]]),
            ("t", .array [.string "y"])],
          .object [("id", .string "c"), ("t", .array [])]])]],
        [operations [("k", .string "d")] sampleTree], none, false⟩) := by
  -- The filter reads another field than the tree removes from.
  have avoids : Query.Avoids (sampleTree.map Prod.fst) [("k", .string "d")] := by
    have other : ∀ first ∈ (Path.segments "k").head?, first ∉ sampleTree.map Prod.fst := by decide
    simpa [Query.Avoids] using other
  have selected : Query.satisfies sampleDocument [("k", .string "d")] = true := by decide +kernel
  exact bulkUpdate_removes sampleTree_regular selected avoids

end Removal

end DocPatch
