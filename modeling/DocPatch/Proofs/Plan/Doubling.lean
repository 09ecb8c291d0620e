import DocPatch.Proofs.Plan.Origin

/-! When an insertion appends an object to an array that has the object already: its predicate asks
    for one array without it, and its update goes into all of them. -/

namespace DocPatch

open Projection (lookup place)

namespace Update

/-- A last step that changes nothing, and reports whether the array at the field has an object that
    satisfies a query. -/
def holding (query : Fields) (last : String) (fields : Fields) :
    Except UpdateError (Change Fields) :=
  .ok (fields, Query.someElement (fields.lookup last).toList query)

/-- Whether the way of an operator along a path ends at an array with an object that satisfies a
    query. -/
def finds (filters : List Fields) (path : String) (query : Fields) (document : Json) : Prop :=
  ∃ after, descend filters true (holding query) (Path.segments path) document = .ok (after, true)

section Names

variable {filters : List Fields} {leaf : String → Fields → Except UpdateError (Change Fields)}

/-- Field names lead to the array where they end, or to a new object that has none. -/
theorem descend_holding {names : List String} (leads : Path.Leads names) (query : Fields)
    (node : Json) : ∃ after, descend filters true (holding query) names node =
      .ok (after, Query.someElement (lookup names node).toList query) := by
  obtain ⟨some_name, plain⟩ := leads
  -- Objects made on the way are empty, so nothing is reported behind them.
  induction names generalizing node with
  | nil => exact absurd rfl some_name
  | cons name rest ih =>
    have first := plain name (by simp)
    cases node with
    | object fields =>
      cases rest with
      -- The last name is a field of the object, and what it holds is looked at.
      | nil => exact ⟨.object fields, by rw [descend, Projection.lookup_singleton]; rfl⟩
      -- Another name leads on, through a child or through a new object.
      | cons next others =>
        have later := fun child => ih child (by simp)
          fun other member => plain other (List.mem_cons_of_mem _ member)
        rw [Projection.lookup_cons]
        cases found : fields.lookup name with
        | none =>
          have closed := Path.isPlaceholder_of_noOperator (plain next (by simp)).noOperator
          obtain ⟨after, inner⟩ := later (.object [])
          rw [descend_missing first others found, inner]
          exact ⟨.object (Fields.put name after fields), by simp [closed, lookup]⟩
        | some child =>
          obtain ⟨after, inner⟩ := later child
          rw [descend_field first (by simp) found, inner]
          exact ⟨_, rfl⟩
    -- In what is no object the way ends, and no array is found.
    | _ => exact ⟨_, descend_of_not_object first rest rfl⟩

/-- Names that lead to no value leave nothing to do behind a placeholder. -/
theorem descend_of_missing {names : List String} (plain : ∀ name ∈ names, Path.Plain name)
    {aliasName : String} {tail : List String} {node : Json} (missing : lookup names node = none) :
    ∃ after, descend filters true leaf (names ++ Path.selected aliasName :: tail) node =
      .ok (after, false) := by
  induction names generalizing node with
  | nil => simp [lookup] at missing
  | cons name rest ih =>
    have first := plain name (by simp)
    have later := @ih fun other member => plain other (List.mem_cons_of_mem _ member)
    cases node with
    | object fields =>
      rw [Projection.lookup_cons] at missing
      cases found : fields.lookup name with
      | none =>
        cases rest with
        | nil =>
          -- Right before a placeholder no object is made.
          rw [List.singleton_append, descend_missing first tail found, Path.isPlaceholder_selected]
          exact ⟨.object fields, rfl⟩
        -- An object is made for the name, but the missing value stays missing in it.
        | cons next others =>
          have closed := Path.isPlaceholder_of_noOperator (plain next (by simp)).noOperator
          have nothing : lookup (next :: others) (.object []) = none := by simp [lookup]
          obtain ⟨after, inner⟩ := later nothing
          rw [List.cons_append] at inner
          rw [List.cons_append, List.cons_append, descend_missing first _ found, inner]
          exact ⟨.object (Fields.put name after fields), by simp [closed]⟩
      -- The child is there, so it is further inside that something is missing.
      | some child =>
        rw [found, Option.bind_some] at missing
        obtain ⟨after, inner⟩ := later missing
        rw [List.cons_append, descend_field first (by simp) found, inner]
        exact ⟨_, rfl⟩
    | _ => exact ⟨_, descend_of_not_object first _ rfl⟩

end Names

/-- Changes that all succeed report together whether one of the selected items reports. -/
theorem eachItem_reports {selects flag : Json → Bool}
    {change : Json → Except UpdateError (Change Json)}
    (each : ∀ item, ∃ after, change item = .ok (after, flag item)) (items : List Json) :
    ∃ after, eachItem selects change items =
      .ok (after, items.any fun item => selects item && flag item) := by
  -- Items that are not selected are left alone and report nothing.
  induction items with
  | nil => exact ⟨[], rfl⟩
  | cons item rest ih =>
    obtain ⟨others, later⟩ := ih
    obtain ⟨changed, here⟩ := each item
    rw [eachItem_cons, later]
    by_cases chosen : selects item = true
    · exact ⟨changed :: others, by simp [chosen, here, Except.bind]⟩
    · exact ⟨item :: others, by simp [chosen, Except.bind]⟩

end Update

namespace Stage

/-- Whether one of the elements that stages lead to passes a test. The search is that of updates,
    which only goes through objects and into the arrays that are named. -/
def walks (test : Json → Bool) : List Stage → Json → Bool
  | [], holder => test holder
  | stage :: rest, holder =>
    (lookup stage.names holder).any fun found =>
      (found.items?.getD []).any fun item =>
        -- An item is gone into if it has the identity of the stage.
        Query.satisfies item stage.identity && walks test rest item

/-- An update along a path finds an object where its stages lead to an array that has one. -/
theorem descend_walks {filters : List Fields} {stages : List Stage}
    (sound : ∀ stage ∈ stages, stage.Sound)
    (known : ∀ stage ∈ stages, Update.conditions? filters stage.aliasName = some stage.identity)
    {names : List String} (leads : Path.Leads names) (query : Fields) (document : Json) :
    ∃ after, Update.descend filters true (Update.holding query)
        (stages.flatMap segments ++ names) document =
      .ok (after, walks (fun holder => Query.someElement (lookup names holder).toList query) stages
        document) := by
  -- Every stage leads into the elements of its array, and behind it the same holds of each.
  induction stages generalizing document with
  | nil => exact Update.descend_holding leads query document
  | cons stage rest ih =>
    have first := sound stage (by simp)
    have later : ∀ other ∈ rest, other.Sound := fun other member => sound other (by simp [member])
    have inner := ih later fun other member => known other (by simp [member])
    have more : rest.flatMap segments ++ names ≠ [] := by simp [leads.some_name]
    rw [List.flatMap_cons, segments, List.append_assoc, List.append_assoc, List.singleton_append]
    cases found : lookup stage.names document with
    -- The array of the stage is missing, so there are no elements to go through.
    | none =>
      obtain ⟨after, missed⟩ := @Update.descend_of_missing filters (Update.holding query) _
        first.leads.plain stage.aliasName (rest.flatMap segments ++ names) document found
      exact ⟨after, by simp [missed, walks, found]⟩
    | some child =>
      rw [Update.descend_names first.leads.some_name first.leads.plain (by simp) found,
        Update.descend_selected first.aliasNonempty (known stage (by simp)) more]
      cases child with
      -- Each element that the alias selects is gone through in turn.
      | array items =>
        obtain ⟨after, reported⟩ := Update.eachItem_reports inner items
        have accepted : (Update.accepts stage.identity) =
            fun item => Query.satisfies item stage.identity :=
          funext fun item => Query.accepts_eq_satisfies first.named item
        refine ⟨place (.array after) stage.names document, ?_⟩
        rw [accepted, Update.inElements, reported]
        simp [walks, found, Json.items?, Bind.bind, Except.bind, Pure.pure, Except.pure]
      -- What is no array has no elements.
      | _ =>
        exact ⟨document, by
          simp [Update.inElements, walks, found, Json.items?, Projection.place_lookup found]⟩

end Stage

namespace Operation

/-- An operation appends an object to an array of a document that has an object like it: its filter
    selects the document, its update succeeds, and on its way there is an array with an object that
    satisfies what identifies the appended one. -/
def Doubles (op : Operation) (document : Json) : Prop :=
  ∃ path object, op.update = Update.push path (.object object) ∧
    Query.satisfies document op.filter = true ∧
    (∃ after, (op.applyTo document).map Prod.fst = .ok after) ∧
    Update.finds op.arrayFilters path (Element.identityFilter object) document

/-- One of the operations of a batch doubles an object, at what those before it left. -/
def DoublesIn (batch : List Operation) (document : Json) : Prop :=
  ∃ before op after between, batch = before ++ op :: after ∧
    result before document = .ok between ∧ op.Doubles between

end Operation

namespace Insertion

/-- What the predicate of an insertion asks for: some way to the array leads to one without an
    object like the inserted one. -/
def lacks (stages : List Stage) (names : List String) (object : Fields) (document : Json) : Bool :=
  Stage.meets (fun holder =>
    !Query.someElement (Query.resolve names holder) (Element.identityFilter object)) stages document

/-- What the update of an insertion finds: some way to the array leads to one with
    such an object. -/
def has (stages : List Stage) (names : List String) (object : Fields) (document : Json) : Bool :=
  Stage.walks (fun holder =>
    Query.someElement (lookup names holder).toList (Element.identityFilter object)) stages document

/-- An operation that inserts an object into the arrays to which some stages and names lead. -/
structure Inserts (base : Fields) (stages : List Stage) (names : List String) (object : Fields)
    (op : Operation) : Prop where
  site : ∃ site : Site, site.At stages names ∧ site.base = base ∧
    op = insert site (Element.describe site object) object
  regular : Element.Regular object
  identified : Element.identityFilter object ≠ []

/-- Of the operations for a tree, those that push are insertions. -/
theorem operations_insert {base tree : Fields} (regular : Element.Regular tree)
    {ops : List Operation} (compiled : operations base tree = .ok ops) {op : Operation}
    (member : op ∈ ops) {path : String} {value : Json} (push : op.update = Update.push path value) :
    ∃ stages names object, Inserts base stages names object op := by
  -- Of the three forms of operations, two have other operators.
  obtain ⟨_, _, _, stages, names, _, emitted⟩ := operations_emits regular compiled op member
  cases emitted with
  -- The addition of values has another operator.
  | scalars => simp [Operation.under, Update.addEach, Update.push, Update.single] at push
  -- The assignment has another operator as well.
  | assign => simp [Operation.under, Update.set, Update.push, Update.single] at push
  | @insert site _ _ at_site owner object regular marks identified =>
    exact ⟨stages, names, object, ⟨site, at_site, owner, rfl⟩, regular, identified.identity_ne site⟩

section Inserted

variable {base : Fields} {stages : List Stage} {names : List String} {object : Fields}
  {op : Operation}

/-- An insertion doubles its object just where its predicate is met by one array and its update
    finds another. -/
theorem Inserts.doubles_iff (inserts : Inserts base stages names object op) (document : Json) :
    op.Doubles document ↔ Query.satisfies document base = true ∧
      lacks stages names object document = true ∧ has stages names object document = true ∧
      ∃ after, (op.applyTo document).map Prod.fst = .ok after := by
  obtain ⟨⟨site, at_site, rfl, rfl⟩, regular, some_identity⟩ := inserts
  obtain ⟨marks, identified⟩ := @Element.exists_identifiedBy object regular site some_identity
  have named : Query.Named (Element.describe site object).identity :=
    identified.identity site ▸ (identified.spread regular).named
  -- The filter says what the base filter and the predicate say.
  have selects :
      Query.satisfies document (insert site (Element.describe site object) object).filter =
        (Query.satisfies document site.base && lacks stages names object document) := by
    show Query.satisfies document (Guard.both site.base (Guard.predicate site.ancestry site.field
      (Element.describe site object).identity .absent)) = _
    rw [Query.satisfies_both, at_site.ancestry, at_site.field,
      Stage.satisfies_predicate at_site.sound at_site.leads at_site.clear named]
    rfl
  -- The update reports what the walk through its stages finds.
  obtain ⟨after, walked⟩ := Stage.descend_walks at_site.sound at_site.known at_site.leads
    (Element.identityFilter object) document
  rw [← at_site.path] at walked
  constructor
  · intro given
    obtain ⟨path, other, update, selected, succeeds, last, found⟩ := given
    -- The update tells the path and the object.
    obtain ⟨rfl, rfl⟩ : site.path = path ∧ object = other := by
      simpa [insert, Operation.under, Update.push, Update.single, Json.single] using update
    rw [selects, Bool.and_eq_true] at selected
    have same := Except.ok.inj (walked.symm.trans found)
    exact ⟨selected.1, selected.2, congrArg Prod.snd same, succeeds⟩
  · -- Where the conditions hold, the filter selects and the walk reports.
    intro given
    obtain ⟨based, lacking, having, succeeds⟩ := given
    refine ⟨site.path, object, rfl, ?_, succeeds, after, ?_⟩
    · rw [selects, based, lacking]
      rfl
    · unfold has at having
      rw [having] at walked
      exact walked

end Inserted

/-- An object that is recognised by its kind alone. -/
def kindOnly : Fields := [("kind", .string "x"), ("s", .array [.object [("id", .string "b")]])]

/-- A tree that lists the object. -/
def kindTree : Fields := [("g", .array [.object kindOnly])]

/-- A document with two elements of the kind, of which one has the inner object already. -/
def kindDocument : Json :=
  .object [("g", .array [
    .object [("id", .string "a"), ("kind", .string "x"),
      ("s", .array [.object [("id", .string "b")]])],
    .object [("id", .string "c"), ("kind", .string "x")]])]

/-- The array inside the elements of the kind. -/
def kindSite : Site :=
  (Site.root [] "g").child (Element.describe (Site.root [] "g") kindOnly) "s"

/-- The document after the batch: both elements got the inner object. -/
def kindResult : Json :=
  .object [("g", .array [
    .object [("id", .string "a"), ("kind", .string "x"),
      ("s", .array [.object [("id", .string "b")], .object [("id", .string "b")]])],
    .object [("id", .string "c"), ("kind", .string "x"),
      ("s", .array [.object [("id", .string "b")]])]])]

/-- The operations for the object itself: its insertion and its assignment. -/
def kindOwn : List Operation :=
  [insert (.root [] "g") (Element.describe (.root [] "g") kindOnly) kindOnly,
    .under [⟨"g", [("kind", .string "x")]⟩] [] (Update.set [("g.$[g].kind", .string "x")])]

/-- The insertion of the inner object. -/
def kindInner : Operation :=
  insert kindSite (Element.describe kindSite [("id", .string "b")]) [("id", .string "b")]

/-- The batch for the tree. -/
def kindOperations : List Operation := kindOwn ++ [kindInner]

theorem operations_kindTree : operations [] kindTree = .ok kindOperations := rfl

/-- The keys of the tree are plain, and stand once each. -/
theorem regular_kindTree : Element.Regular kindTree := by
  -- There are four keys, and each of them is plain.
  have plain : ∀ name ∈ ["g", "kind", "s", "id"], Path.Plain name := by
    intro name member
    simp only [List.mem_cons, List.not_mem_nil, or_false] at member
    rcases member with rfl | rfl | rfl | rfl <;> exact ⟨by decide, by decide, by decide, by decide⟩
  constructor
  · simp [kindTree, kindOnly, Json.FieldsWellKeyed, Json.WellKeyed, Json.ItemsWellKeyed]
  · simp [kindTree, kindOnly, Json.FieldsPlainNamed, Json.PlainNamed, Json.ItemsPlainNamed, plain]

theorem result_kindOwn : Operation.result kindOwn kindDocument = .ok kindDocument := by rfl

theorem applyTo_kindInner : (kindInner.applyTo kindDocument).map Prod.fst = .ok kindResult := by rfl

/-- The last operation of the batch doubles the inner object in the document. -/
theorem kindOperations_double : Operation.DoublesIn kindOperations kindDocument := by
  -- The operations before it leave the document, in which the first element has the object already.
  have selected : Query.satisfies kindDocument kindInner.filter = true := by decide +kernel
  exact ⟨kindOwn, kindInner, [], kindDocument, rfl, result_kindOwn, kindSite.path,
    [("id", .string "b")], rfl, selected, ⟨kindResult, applyTo_kindInner⟩, kindDocument, by rfl⟩

/-- While the batch for a tree runs, an object is doubled just where an insertion is reached whose
    stages lead from a selected document to an array without the object and to one with it. -/
theorem doublesIn_operations_iff {base tree : Fields} (regular : Element.Regular tree)
    {ops : List Operation} (compiled : operations base tree = .ok ops) (document : Json) :
    Operation.DoublesIn ops document ↔
      ∃ before op after between, ops = before ++ op :: after ∧
        Operation.result before document = .ok between ∧
        ∃ stages names object, Inserts base stages names object op ∧
          Query.satisfies between base = true ∧ lacks stages names object between = true ∧
          has stages names object between = true ∧
          ∃ left, (op.applyTo between).map Prod.fst = .ok left := by
  -- An operation that doubles pushes, so it is an insertion, and its conditions are known.
  constructor
  · -- The operation that doubles is one of the batch, and it pushes.
    intro given
    obtain ⟨before, op, after, between, parts, reached, doubles⟩ := given
    have pushes := doubles
    obtain ⟨path, value, push, -⟩ := pushes
    obtain ⟨stages, names, object, inserts⟩ :=
      operations_insert regular compiled (by simp [parts]) push
    exact ⟨before, op, after, between, parts, reached, stages, names, object, inserts,
      (inserts.doubles_iff between).mp doubles⟩
  · -- An insertion with these conditions doubles its object.
    intro given
    obtain ⟨before, op, after, between, parts, reached, _, _, _, inserts, conditions⟩ := given
    exact ⟨before, op, after, between, parts, reached, (inserts.doubles_iff between).mpr conditions⟩

/-- In the document of the batch, the elements of the kind are such a way. -/
theorem doublesIn_operations_iff_kindTree :
    ∃ before op after between, kindOperations = before ++ op :: after ∧
      Operation.result before kindDocument = .ok between ∧
      ∃ stages names object, Inserts [] stages names object op ∧
        Query.satisfies between [] = true ∧ lacks stages names object between = true ∧
        has stages names object between = true ∧
        ∃ left, (op.applyTo between).map Prod.fst = .ok left :=
  -- The general condition is read at the operation that doubles.
  (doublesIn_operations_iff regular_kindTree operations_kindTree kindDocument).mp
    kindOperations_double

/-- All elements of a kind are inserted into where one of them lacks an object, so that another one
    has it twice in the end. -/
theorem operations_double_kindTree :
    operations [] kindTree = .ok kindOperations ∧
      Operation.DoublesIn kindOperations kindDocument ∧
      Operation.result kindOperations kindDocument = .ok kindResult := by
  -- The first two operations change nothing, and the last one pushes into both elements.
  refine ⟨operations_kindTree, kindOperations_double, ?_⟩
  rw [kindOperations, Operation.result_append, result_kindOwn, Except.bind, Operation.result_cons,
    applyTo_kindInner]
  rfl

end Insertion

end DocPatch
