import DocPatch.Proofs.Plan.Emission
import DocPatch.Proofs.Plan.Entry
import DocPatch.Proofs.Store.Footprint

/-! Where the operations for a tree come from, and what they have in common: whose documents they
    select, and through which elements they pass. -/

namespace DocPatch

namespace Insertion

open Element (namedLeaves)

/-- What the walk emits at an array: the addition of its scalars, or the insertion and the
    assignment of an object that is identified. -/
inductive Emits (base : Fields) : List Stage → List String → Operation → Prop where
  | scalars {site : Site} {stages : List Stage} {names : List String}
      (at_site : site.At stages names) (owner : site.base = base) (values : List Json) :
      Emits base stages names (.under site.inherited site.base (Update.addEach site.path values))
  | insert {site : Site} {stages : List Stage} {names : List String}
      (at_site : site.At stages names) (owner : site.base = base) {object : Fields}
      (regular : Element.Regular object) {marks : List (List String × Json)}
      (identified : Element.IdentifiedBy object marks) :
      Emits base stages names (insert site (Element.describe site object) object)
  | assign {site : Site} {stages : List Stage} {names : List String}
      (at_site : site.At stages names) (owner : site.base = base) {object : Fields}
      (regular : Element.Regular object) {marks : List (List String × Json)}
      (identified : Element.IdentifiedBy object marks) :
      Emits base stages names (.under (Element.describe site object).filters site.base
        (Update.set (Element.describe site object).assignments))

/-- An operation that the walk emits at an array or below it. -/
def EmitsBelow (base : Fields) (stages : List Stage) (names : List String) (op : Operation) :
    Prop :=
  ∃ further last, Stage.Below stages names further last ∧ Emits base further last op

/-- All operations for an object listed at an array are emitted there or below. -/
def EmitsItem (object : Fields) : Prop :=
  -- The site may be any that the stages lead to.
  ∀ {site : Site} {stages : List Stage} {names : List String} {ops : List Operation},
    site.At stages names → item site (.object object) = .ok ops →
      ∀ op ∈ ops, EmitsBelow site.base stages names op

/-- All operations for an array are emitted there or below. -/
theorem array_emits {site : Site} {stages : List Stage} {names : List String}
    (at_site : site.At stages names) {items : List Json}
    (each : ∀ inner, .object inner ∈ items → EmitsItem inner) {ops : List Operation}
    (compiled : array site items = .ok ops) :
    ∀ op ∈ ops, EmitsBelow site.base stages names op := by
  refine array_forall (fun _ => ?_) (fun inner ops listed compiled => ?_) compiled
  · -- The values are added at the array itself.
    exact ⟨stages, names, .refl stages names, .scalars at_site rfl _⟩
  · -- The objects are the business of the hypothesis.
    exact each inner listed at_site compiled

/-- All operations for a regular object are emitted at its array or below. -/
theorem item_emits (object : Fields) : Element.Regular object → EmitsItem object := by
  induction object using Element.visit_induction with
  | visit object ih =>
    intro regular site stages names ops at_site compiled
    by_cases identified : (Element.describe site object).identity = []
    · -- An object that nothing identifies has no operations.
      simp [item_unidentified identified compiled]
    · -- An identified object is inserted and assigned at its array.
      obtain ⟨marks, identified⟩ := Element.exists_identifiedBy regular identified
      have here : ∀ {op}, Emits site.base stages names op → EmitsBelow site.base stages names op :=
        fun emitted => ⟨stages, names, .refl stages names, emitted⟩
      refine item_forall (identified.identity_ne site)
        (here (.insert at_site rfl regular identified))
        (assign_forall (here (.assign at_site rfl regular identified)))
          (fun inner compiled => ?_) compiled
      -- What is nested in the object is emitted behind the stage that enters it.
      refine listed_forall (fun names items ops leaf compiled op member => ?_) compiled
      obtain ⟨further, last, below, emitted⟩ := array_emits (at_site.child regular identified leaf)
        (fun inner listed => ih names items inner leaf listed (regular.visited leaf listed))
        compiled op member
      exact ⟨further, last, below.of_inside, emitted⟩

/-- An array among the fields of a tree is one of its leaves, behind a single name. -/
theorem leaf_of_mem_rootLeaves {tree : Fields} (regular : Element.Regular tree)
    {names : List String} {items : List Json} (member : (names, .array items) ∈ rootLeaves tree) :
    (names, .array items) ∈ namedLeaves [] tree ∧
      ∃ field, names = [field] ∧ (field, .array items) ∈ tree := by
  -- A field of the root has a name of its own, and an array is never looked into.
  obtain ⟨field, rfl, listed⟩ := field_of_mem_rootLeaves member
  have found := Fields.lookup_of_mem regular.keyed.nodup listed
  exact ⟨Element.leaf_of_lookup found (by simp [Json.items?]), field, rfl, listed⟩

/-- The array at a field of a tree is reached without entering an element. -/
theorem root_at {tree : Fields} (regular : Element.Regular tree) (base : Fields)
    {names : List String} {items : List Json} (member : (names, .array items) ∈ rootLeaves tree) :
    (Site.root base (Path.dotted names)).At [] names := by
  -- The names of a field of the root are its one key.
  obtain ⟨-, field, rfl, listed⟩ := leaf_of_mem_rootLeaves regular member
  rw [Path.dotted_singleton]
  exact Site.At.root base (regular.plain.of_mem listed).1

/-- All operations for a tree are emitted below its fields. -/
theorem operations_emits {base tree : Fields} (regular : Element.Regular tree)
    {ops : List Operation} (compiled : operations base tree = .ok ops) :
    ∀ op ∈ ops, ∃ field ∈ tree.map Prod.fst, Path.Plain field ∧ EmitsBelow base [] [field] op := by
  -- The fields of the root are reached without any stage.
  rw [operations_eq] at compiled
  refine listed_forall (fun names items ops leaf compiled op member => ?_) compiled
  -- Each array among them is a leaf of the tree, so its objects are regular.
  obtain ⟨visited, field, rfl, listed⟩ := leaf_of_mem_rootLeaves regular leaf
  refine ⟨field, List.mem_map_of_mem listed, (regular.plain.of_mem listed).1, ?_⟩
  exact array_emits (root_at regular base leaf)
    (fun inner among => item_emits inner (regular.visited visited among)) compiled op member

end Insertion

/-- An operation whose update passes through the elements of some stages and on along names. -/
structure Operation.Through (op : Operation) (stages : List Stage) (names : List String) :
    Prop where
  known : ∀ stage ∈ stages,
    Update.conditions? op.arrayFilters stage.aliasName = some stage.identity
  paths : ∃ operator entries, op.update = [(operator, .object entries)] ∧
    Update.creates operator = true ∧ ∀ entry ∈ entries, ∃ tail,
      Path.segments entry.1 = stages.flatMap Stage.segments ++ names ++ tail

namespace Insertion

variable {base : Fields} {stages : List Stage} {names : List String} {op : Operation}

/-- An emitted operation passes through the stages of its array. -/
theorem Emits.through (emits : Emits base stages names op) : op.Through stages names := by
  -- An assignment goes one stage further, into the element itself.
  cases emits with
  | scalars at_site owner values =>
    exact ⟨at_site.known, _, _, rfl, rfl, by simp [at_site.path]⟩
  | insert at_site owner regular identified =>
    exact ⟨at_site.known, _, _, rfl, rfl, by simp [at_site.path]⟩
  | @assign site _ _ at_site owner object regular marks identified =>
    -- The paths go on behind the alias of the element with the names of a leaf.
    refine ⟨fun stage member => at_site.known_inside regular identified stage
      (List.mem_append_left _ member), _, _, rfl, rfl, fun entry member => ?_⟩
    rw [regular.legible.assignments_eq site] at member
    obtain ⟨leaf, among, rfl⟩ := List.mem_map.mp member
    have leads := Element.leads_of_leaf regular.plain (Element.mem_assigned.mp among).1
    refine ⟨Path.selected site.aliasName :: leaf.1, ?_⟩
    rw [at_site.segments_inside identified leads]
    simp [Stage.segments, Site.stage]

/-- What is emitted below an array passes through its stages, and on along its names. -/
theorem EmitsBelow.through (emits : EmitsBelow base stages names op) : op.Through stages names := by
  -- A way further down starts with the same segments.
  obtain ⟨further, last, below, emitted⟩ := emits
  obtain ⟨known, operator, entries, update, makes, paths⟩ := emitted.through
  obtain ⟨between, start⟩ := below.segments
  refine ⟨fun stage member => known stage (below.subset member), operator, entries,
    update, makes, ?_⟩
  intro entry member
  obtain ⟨tail, segments⟩ := paths entry member
  exact ⟨between ++ tail, by rw [segments, start, List.append_assoc]⟩

end Insertion

/-- Where something stands in the way of an array, nothing that passes through to it has anything
    to do. -/
theorem Operation.Through.settled {op : Operation} {stages : List Stage} {names : List String}
    (through : op.Through stages names) {document element : Json} {back : Json → Json}
    (reaches : Stage.Reaches stages document element back) (sound : ∀ stage ∈ stages, stage.Sound)
    (leads : Path.Leads names) (blocked : Projection.obstructed names element = true) :
    op.Settled document := by
  -- Every path of the update ends at the obstacle.
  obtain ⟨known, operator, entries, update, -, paths⟩ := through
  refine .of_update fun _ => ?_
  rw [update, Update.apply_operator]
  apply Update.applyPaths_idle
  intro entry member
  obtain ⟨tail, segments⟩ := paths entry member
  -- The names of the array come right behind the stages, and that is where the obstacle is.
  obtain ⟨name, more, start⟩ := List.exists_cons_of_ne_nil leads.some_name
  rw [Update.applyPath, segments, List.append_assoc, reaches.descend_eq sound known
    ⟨name, more ++ tail, by simp [start], leads.plain name (by simp [start])⟩,
    Update.descend_of_obstructed leads.plain blocked, Update.carry_ok, reaches.back_self]

/-- What passes through to a field of the document writes that field only. -/
theorem Operation.Through.writes {op : Operation} {field : String} (through : op.Through [] [field])
    (plain : Path.Plain field) {written : List String} (among : field ∈ written) :
    op.Writes written := by
  -- Without stages every path starts with the field.
  obtain ⟨-, operator, entries, update, makes, paths⟩ := through
  refine ⟨operator, entries, update, makes, fun entry member => ?_⟩
  obtain ⟨tail, segments⟩ := paths entry member
  exact ⟨field, among, plain, tail, by simpa using segments⟩

end DocPatch
