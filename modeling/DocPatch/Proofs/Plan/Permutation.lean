import DocPatch.Proofs.Plan.Invariant
import DocPatch.Proofs.Store.Reordering

/-! The fields of a tree are independent: the operations for each of them touch that field only, so
    the order of the fields only shows in the order of the entries of the documents. -/

namespace DocPatch

/-- A predicate is one condition on the outermost field of its ancestry. -/
theorem Guard.exists_predicate {ancestry : Ancestry} {last field : String}
    (outermost : (ancestry.map Level.field ++ [last]).head? = some field) (identity : Fields)
    (presence : Presence) :
    ∃ condition, predicate ancestry last identity presence = [(field, condition)] := by
  -- With levels the condition is on the first array entered, and without any on the last one.
  cases ancestry with
  | nil =>
    obtain rfl : last = field := by simpa using outermost
    exact ⟨_, rfl⟩
  | cons level rest =>
    obtain rfl : level.field = field := by simpa using outermost
    exact ⟨_, rfl⟩

/-- A site below a field of the documents of a base filter: its path starts at the field, and so
    does every predicate about its elements. -/
structure Site.Below (base : Fields) (field : String) (site : Site) : Prop where
  base : site.base = base
  path_ne : site.path ≠ ""
  path : (Path.segments site.path).head? = some field
  outermost : (site.ancestry.map Level.field ++ [site.field]).head? = some field

namespace Site.Below

variable {base : Fields} {field : String} {site : Site}

/-- The array at a plain field stands below that field. -/
theorem root (base : Fields) (plain : Path.Plain field) : Below base field (.root base field) where
  -- The path is the field itself.
  base := rfl
  path_ne := by simpa [Site.root, Site.path] using plain.nonempty
  path := by simp [Site.root, Site.path, Path.segments_of_dotless plain.dotless]
  outermost := rfl

/-- The path of an element is not empty and starts at the field. -/
theorem memberPath (below : site.Below base field) (aliasName : Option String) :
    site.memberPath aliasName ≠ "" ∧
      (Path.segments (site.memberPath aliasName)).head? = some field :=
  -- Joining a placeholder leaves the first segment.
  ⟨Path.join_ne_empty (Or.inl below.path_ne),
    (Path.head_segments_join below.path_ne _).trans below.path⟩

/-- An array nested in an element stands below the field, too. -/
theorem child (below : site.Below base field) (element : Element) (name : String) :
    (site.child element name).Below base field where
  -- The path and the outermost level stay those of the element.
  base := below.base
  path_ne := Path.join_ne_empty (Or.inl (below.memberPath _).1)
  path := (Path.head_segments_join (below.memberPath _).1 name).trans (below.memberPath _).2
  outermost := by
    have outermost := below.outermost
    simp only [Site.child, List.map_append, List.map_cons, List.map_nil]
    rwa [List.head?_append_of_ne_nil _ (by simp)]

/-- One operator other than `$unset` at the array of the site touches the field. -/
theorem single (below : site.Below base field) {operator : String} (keeps : operator ≠ "$unset")
    (argument : Json) {filter : Fields}
    (filtered : filter = base ∨ ∃ condition, filter = Guard.both base [(field, condition)]) :
    (Operation.under site.inherited filter (Update.single operator site.path argument)).Touches
      base field where
  -- The one path of the update is that of the site.
  filter := filtered
  update := ⟨operator, [(site.path, argument)], rfl, keeps, fun entry member => by
    rw [List.mem_singleton.mp member]
    exact below.path⟩

/-- An object is inserted under a guard on the field. -/
theorem insert (below : site.Below base field) (object : Fields) :
    (Insertion.insert site (Element.describe site object) object).Touches base field := by
  -- The predicate of the guard asks about the outermost level, which is the field.
  obtain ⟨condition, guard⟩ := Guard.exists_predicate below.outermost
    (Element.describe site object).identity .absent
  have absent : (Element.describe site object).absent = [(field, condition)] := guard
  exact below.single (by decide) _ (Or.inr ⟨condition, by rw [below.base, absent]⟩)

/-- What is assigned to an object is set below the field. -/
theorem assign (below : site.Below base field) (object : Fields) :
    (Operation.under (Element.describe site object).filters site.base
      (Update.set (Element.describe site object).assignments)).Touches base field where
  filter := Or.inl below.base
  update := by
    refine ⟨"$set", _, rfl, by decide, fun entry member => ?_⟩
    -- Every path goes on from that of the element.
    obtain ⟨leaf, -, rfl⟩ := List.mem_map.mp (Fields.mem_ofEntries member)
    exact (Path.head_segments_join (below.memberPath _).1 _).trans (below.memberPath _).2

end Site.Below

namespace Insertion

/-- The operations for an array below a field touch that field. -/
theorem array_touches {base : Fields} {field : String} {site : Site} (below : site.Below base field)
    {items : List Json} {ops : List Operation} (compiled : array site items = .ok ops) :
    ∀ op ∈ ops, op.Touches base field := by
  -- Being below the field is kept on the walk, and gives what each operation touches.
  have invariant : Invariant (fun _ => True) (Site.Below base field)
      (Operation.Touches base field) :=
    { child := fun below _ _ _ _ => below.child _ _
      values := fun below _ => below.single (by decide) _ (Or.inl below.base)
      insert := fun below object => below.insert object
      assign := fun {_} below {object} _ _ => below.assign object }
  exact invariant.keyed below
    (fun inner _ => Json.fieldsKeysHold_of_forall (fun _ => trivial) inner)
    compiled

/-- The operations for one field of a tree; what is no array asks for nothing. -/
def ofField (base : Fields) (entry : String × Json) : Except Unidentified (List Operation) :=
  match entry.2 with
  | .array items => array (.root base entry.1) items
  | _ => .ok []

/-- The operations for one field of a tree, if it is accepted. -/
def block (base : Fields) (entry : String × Json) : List Operation :=
  (ofField base entry).toOption.getD []

/-- A tree is gone through field by field. -/
theorem operations_cons (base : Fields) (entry : String × Json) (rest : Fields) :
    operations base (entry :: rest) = do
      let here ← ofField base entry
      let others ← operations base rest
      return here ++ others := by
  rcases entry with ⟨field, value⟩
  cases value with
  | array items => rfl
  -- A field that is no array is passed by.
  | _ =>
    rw [operations]
    · cases operations base rest <;> rfl
    · simp

/-- A tree is accepted when each of its fields is, and its operations are those for its fields. -/
theorem operations_eq_ok {base tree : Fields} {ops : List Operation} :
    operations base tree = .ok ops ↔
      (∀ entry ∈ tree, ∃ here, ofField base entry = .ok here) ∧ ops =
        tree.flatMap (block base) := by
  -- The first field is accepted with its own operations, and so are the others.
  induction tree generalizing ops with
  | nil => simp [operations, eq_comm]
  | cons entry rest ih =>
    rw [operations_cons, append_eq_ok, List.forall_mem_cons, List.flatMap_cons]
    constructor
    · intro given
      obtain ⟨here, others, accepted, later, rfl⟩ := given
      obtain ⟨each, rfl⟩ := ih.mp later
      exact ⟨⟨⟨here, accepted⟩, each⟩, by rw [block, accepted]; rfl⟩
    · intro given
      obtain ⟨⟨⟨here, accepted⟩, each⟩, rfl⟩ := given
      exact ⟨here, _, accepted, ih.mpr ⟨each, rfl⟩, by rw [block, accepted]; rfl⟩

/-- The operations for a field of a tree touch that field. -/
theorem block_touches (base : Fields) {entry : String × Json} (plain : Path.Plain entry.1) :
    ∀ op ∈ block base entry, op.Touches base entry.1 := by
  -- Only an array has operations, and only if none of its objects is refused.
  rcases entry with ⟨field, value⟩
  cases value with
  | array items =>
    intro op member
    cases compiled : ofField base (field, .array items) with
    | error => simp [block, compiled, Except.toOption] at member
    | ok ops =>
      rw [block, compiled] at member
      exact array_touches (.root base plain) compiled op member
  | _ => simp [block, ofField, Except.toOption]

end Insertion

namespace Removal

/-- The operations for an array below a field touch that field. -/
theorem array_touches {base : Fields} {field : String} {site : Site} (below : site.Below base field)
    (items : List Json) : ∀ op ∈ array site items, op.Touches base field := by
  -- Being below the field is kept on the walk, and gives what each operation touches.
  have invariant : Invariant (fun _ => True) (Site.Below base field)
      (Operation.Touches base field) :=
    { child := fun below _ _ _ _ => below.child _ _
      values := fun below _ _ => below.single (by decide) _ (Or.inl below.base)
      pull := fun {_} below {_} _ => below.single (by decide) _ (Or.inl below.base) }
  exact invariant.keyed below fun inner _ => Json.fieldsKeysHold_of_forall (fun _ => trivial) inner

/-- The operations for one field of a tree; what is no array asks for nothing. -/
def block (base : Fields) (entry : String × Json) : List Operation :=
  match entry.2 with
  | .array items => array (.root base entry.1) items
  | _ => []

/-- The operations for a tree are those for its fields. -/
theorem operations_eq_flatMap (base tree : Fields) :
    operations base tree = tree.flatMap (block base) := by
  -- Only an array among the fields has operations.
  induction tree with
  | nil => rfl
  | cons entry rest ih =>
    rcases entry with ⟨field, value⟩
    cases value <;> simp [operations, block, ih]

/-- The operations for a field of a tree touch that field. -/
theorem block_touches (base : Fields) {entry : String × Json} (plain : Path.Plain entry.1) :
    ∀ op ∈ block base entry, op.Touches base entry.1 := by
  -- Only an array has operations.
  rcases entry with ⟨field, value⟩
  cases value with
  | array items => exact array_touches (.root base plain) items
  | _ => simp [block]

end Removal

/-- Blocks of operations for the fields of a tree with plain fields, each of which touches its
    field, are independent when the base filter reads none of the fields. -/
theorem independent_of_touches {base tree : Fields} (plain : ∀ entry ∈ tree, Path.Plain entry.1)
    (distinct : (tree.map Prod.fst).Nodup) (avoids : Query.Avoids (tree.map Prod.fst) base)
    {block : String × Json → List Operation}
    (touches : ∀ entry ∈ tree, ∀ op ∈ block entry, op.Touches base entry.1) :
    Operation.Independent base (tree.map Prod.fst) block tree where
  -- A block of operations is confined to its field, and the fields are different.
  avoids := avoids
  among := fun _ member => List.mem_map_of_mem member
  distinct := distinct
  confined := fun entry member =>
    Operation.confined_run (touches entry member) (plain entry member) avoids
      (List.mem_map_of_mem member)

/-- The order of the fields of a tree does not matter, if the base filter reads none of them: a
    tree is accepted in every order or in none, and both its addition and its removal fail in
    every order, or succeed with the same counts and leave the same documents but for the order of
    their entries. -/
theorem bulkUpdate_permuted {base tree other : Fields} (plain : ∀ entry ∈ tree, Path.Plain entry.1)
    (distinct : (tree.map Prod.fst).Nodup) (perm : tree.Perm other)
    (avoids : Query.Avoids (tree.map Prod.fst) base) {collection : Collection}
    (objects : ∀ document ∈ collection.documents, document.isObject = true) :
    ((∃ ops, Insertion.operations base tree = .ok ops) ↔
        ∃ ops, Insertion.operations base other = .ok ops) ∧
      (∀ ops others, Insertion.operations base tree = .ok ops →
        Insertion.operations base other = .ok others →
        Collection.Alike (collection.bulkUpdate ops) (collection.bulkUpdate others)) ∧
      Collection.Alike (collection.bulkUpdate (Removal.operations base tree))
        (collection.bulkUpdate (Removal.operations base other)) := by
  refine ⟨?_, fun ops others compiled also => ?_, ?_⟩
  · -- Each field is accepted or refused on its own.
    simp only [Insertion.operations_eq_ok, exists_and_left, exists_eq, and_true]
    exact ⟨fun each entry member => each entry (perm.mem_iff.mpr member),
      fun each entry member => each entry (perm.mem_iff.mp member)⟩
  · obtain ⟨-, rfl⟩ := Insertion.operations_eq_ok.mp compiled
    obtain ⟨-, rfl⟩ := Insertion.operations_eq_ok.mp also
    exact Collection.bulkUpdate_perm (independent_of_touches plain distinct avoids
      fun entry member => Insertion.block_touches base (plain entry member)) perm objects
  · rw [Removal.operations_eq_flatMap, Removal.operations_eq_flatMap]
    exact Collection.bulkUpdate_perm (independent_of_touches plain distinct avoids
      fun entry member => Removal.block_touches base (plain entry member)) perm objects

/-- A tree of two fields, with a value for the one and an object with an array for the other. -/
def twoFields : Fields :=
  [("x", .array [.string "v"]),
    ("y", .array [.object [("id", .string "a"), ("z", .array [.null])]])]

/-- One document in which both arrays are missing, one that holds the object, and one that is not
    selected. -/
def threeDocuments : Collection :=
  .ofDocuments [.object [("k", .string "d")],
    .object [("y", .array [.object [("id", .string "a")]]), ("k", .string "d")], .object []]

/-- Adding and removing the tree of two fields succeeds in either order, with the same effect. -/
theorem bulkUpdate_permuted_twoFields :
    ∃ ops others, Insertion.operations [("k", .string "d")] twoFields = .ok ops ∧
      Insertion.operations [("k", .string "d")] twoFields.reverse = .ok others ∧
      (threeDocuments.bulkUpdate ops).1.isOk = true ∧
      Collection.Alike (threeDocuments.bulkUpdate ops) (threeDocuments.bulkUpdate others) ∧
      Collection.Alike
        (threeDocuments.bulkUpdate (Removal.operations [("k", .string "d")] twoFields))
        (threeDocuments.bulkUpdate
          (Removal.operations [("k", .string "d")] twoFields.reverse)) := by
  -- The two fields are plain, and the filter reads neither of them.
  have plain : ∀ entry ∈ twoFields, Path.Plain entry.1 := by
    intro entry member
    simp only [twoFields, List.mem_cons, List.not_mem_nil, or_false] at member
    rcases member with rfl | rfl <;> exact ⟨by decide, by decide, by decide, by decide⟩
  have avoids : Query.Avoids (twoFields.map Prod.fst) [("k", .string "d")] := by
    have other : ∀ first ∈ (Path.segments "k").head?, first ∉ ["x", "y"] := by decide
    simpa [Query.Avoids, twoFields] using other
  have objects : ∀ document ∈ threeDocuments.documents, document.isObject = true := by
    simp [threeDocuments, Collection.ofDocuments, Json.isObject]
  have succeeds : ((Insertion.operations [("k", .string "d")] twoFields).toOption.map
      fun ops => (threeDocuments.bulkUpdate ops).1.isOk) = some true := by decide +kernel
  obtain ⟨accepted, added, removed⟩ :=
    bulkUpdate_permuted plain (by decide) twoFields.reverse_perm.symm avoids objects
  cases compiled : Insertion.operations [("k", .string "d")] twoFields with
  | error error => simp [compiled, Except.toOption] at succeeds
  | ok ops =>
    obtain ⟨others, also⟩ := accepted.mp ⟨ops, compiled⟩
    rw [compiled] at succeeds
    exact ⟨ops, others, rfl, also, Option.some.inj succeeds,
      added ops others compiled also, removed⟩

end DocPatch
