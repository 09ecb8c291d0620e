import DocPatch.Plan.Insertion
import DocPatch.Proofs.Plan.Stage
import DocPatch.Proofs.Store.Outcome

/-! The operations that the walk through a tree emits: leaf by leaf, and where each comes from. -/

namespace DocPatch

namespace Insertion

open Element (namedLeaves namedLeavesAt)

/-- The operations for the arrays among named leaves, each at the site of its path. -/
def listed (site : String → Site) :
    List (List String × Json) → Except Unidentified (List Operation)
  | [] => .ok []
  | (names, .array items) :: rest => do
    let here ← array (site (Path.dotted names)) items
    let others ← listed site rest
    return here ++ others
  -- Leaves that are no arrays belong to the element itself.
  | _ :: rest => listed site rest

/-- The leaves of a tree: the fields of its root. -/
def rootLeaves (tree : Fields) : List (List String × Json) :=
  tree.map fun entry => ([entry.1], entry.2)

/-- A leaf of a tree has the one name of its field. -/
theorem field_of_mem_rootLeaves {tree : Fields} {names : List String} {value : Json}
    (leaf : (names, value) ∈ rootLeaves tree) :
    ∃ field, names = [field] ∧ (field, value) ∈ tree := by
  -- The leaves at the root are the entries of the tree.
  obtain ⟨⟨field, held⟩, member, same⟩ := List.mem_map.mp leaf
  obtain ⟨rfl, rfl⟩ := Prod.mk.inj same
  exact ⟨field, rfl, member⟩

/-- Leaves in two parts are gone through part by part. -/
theorem listed_append (site : String → Site) (first second : List (List String × Json)) :
    listed site (first ++ second) = do
      let here ← listed site first
      let others ← listed site second
      return here ++ others := by
  -- Leaves that are no arrays ask for nothing, on either side.
  induction first with
  | nil =>
    rw [List.nil_append, listed]
    cases listed site second <;> rfl
  | cons leaf rest ih =>
    rcases leaf with ⟨names, value⟩
    cases value with
    -- The array comes first, and may be refused before the rest is looked at.
    | array items =>
      simp only [List.cons_append, listed, ih]
      cases array (site (Path.dotted names)) items with
      | error => rfl
      | ok here =>
        cases listed site rest with
        | error => rfl
        | ok others =>
          cases listed site second with
          | error => rfl
          | ok more => simp [Bind.bind, Except.bind, Pure.pure, Except.pure]
    | _ => simpa only [List.cons_append, listed] using ih

mutual

/-- The operations for a value inside an element are those for its leaves. -/
theorem nestedAt_eq (site : Site) (element : Element) (names : List String) : ∀ value : Json,
    nestedAt site element (Path.dotted names) value =
      listed (site.child element) (namedLeavesAt names value)
  -- An array is one leaf, and the leaves of an object are those of its entries.
  | .null | .bool _ | .number _ | .string _ => by simp [nestedAt, namedLeavesAt, listed]
  | .array items => by
    simp only [nestedAt, namedLeavesAt, listed, array]
    cases objects (site.child element (Path.dotted names)) items with
    | error => rfl
    | ok below => simp [Bind.bind, Except.bind, Pure.pure, Except.pure]
  | .object [] => by simp [nestedAt, nested, namedLeavesAt, listed]
  | .object (entry :: rest) => by
    simpa [nestedAt, namedLeavesAt] using nested_eq site element names (entry :: rest)

/-- The operations for the arrays nested in an element are those for its leaves. -/
theorem nested_eq (site : Site) (element : Element) (names : List String) :
    ∀ fields : List (String × Json), nested site element (Path.dotted names) fields =
      listed (site.child element) (namedLeaves names fields)
  -- The leaves of an object are those of its entries, one entry after the other.
  | [] => by simp [nested, namedLeaves, listed]
  | (key, value) :: rest => by
    rw [nested, namedLeaves, listed_append, ← nestedAt_eq site element (names ++ [key]) value,
      ← nested_eq site element names rest, Path.dotted_append_singleton]

end

/-- The operations for a tree are those for the fields of its root. -/
theorem operations_eq (base tree : Fields) :
    operations base tree = listed (Site.root base) (rootLeaves tree) := by
  -- The fields of the root are taken as leaves of one name each.
  induction tree with
  | nil => rfl
  | cons entry rest ih =>
    rcases entry with ⟨field, value⟩
    cases value with
    | array items =>
      simp only [operations, ih, rootLeaves, List.map_cons, listed, Path.dotted_singleton]
    | _ => simpa only [operations, rootLeaves, List.map_cons, listed] using ih

/-- The operations for an array: the addition of its scalars, and those for its objects. -/
theorem array_eq_ok {site : Site} {items : List Json} {ops : List Operation} :
    array site items = .ok ops ↔
      ∃ below, objects site items = .ok below ∧ ops = scalars site items ++ below := by
  -- Only the objects can be refused.
  rw [array, bind_eq_ok]
  simp only [pure_eq_ok, Except.ok.injEq, eq_comm]

/-- The operations for objects: those for the first, and those for the others. -/
theorem objects_cons_eq_ok {site : Site} {first : Json} {rest : List Json} {ops : List Operation} :
    objects site (first :: rest) = .ok ops ↔
      ∃ here others, item site first = .ok here ∧ objects site rest = .ok others ∧
        ops = here ++ others := by
  -- The operations of both are put one behind the other.
  rw [objects, append_eq_ok]

/-- The operations for leaves that start with an array: those for the array, and those for the
    others. -/
theorem listed_cons_eq_ok {site : String → Site} {names : List String} {items : List Json}
    {rest : List (List String × Json)} {ops : List Operation} :
    listed site ((names, .array items) :: rest) = .ok ops ↔
      ∃ here others, array (site (Path.dotted names)) items = .ok here ∧
        listed site rest = .ok others ∧ ops = here ++ others := by
  -- The site is that of the path of the leaf.
  rw [listed, append_eq_ok]

/-- The operations for an object with an identity: its own, and then those for its arrays. -/
theorem item_of_identity_ne {site : Site} {object : Fields}
    (nonempty : (Element.describe site object).identity ≠ []) :
    item site (.object object) = do
      let inner ← listed (site.child (Element.describe site object)) (namedLeaves [] object)
      return insert site (Element.describe site object) object ::
        assign site (Element.describe site object) ++ inner := by
  -- An object with an identity is not refused itself, and asks for its insertion and assignment.
  have filled := List.isEmpty_eq_false_iff.mpr nonempty
  have below := nested_eq site (Element.describe site object) [] object
  unfold item
  simp only [filled, Bool.false_and, Bool.false_eq_true, ↓reduceIte, ← below, own]
  rfl

/-- The operations for an object with an identity: its insertion, its assignment, and those for its
    arrays. -/
theorem item_eq_ok {object : Fields} {site : Site}
    (nonempty : (Element.describe site object).identity ≠ []) {ops : List Operation} :
    item site (.object object) = .ok ops ↔
      ∃ inner, listed (site.child (Element.describe site object)) (namedLeaves [] object) =
        .ok inner ∧ ops = insert site (Element.describe site object) object ::
          (assign site (Element.describe site object) ++ inner) := by
  -- Only what is nested in the object can be refused.
  rw [item_of_identity_ne nonempty, bind_eq_ok]
  simp only [pure_eq_ok, Except.ok.injEq, List.cons_append, eq_comm]

/-- The nested arrays of an object are its leaves that are arrays. -/
theorem describe_nested (site : Site) (object : Fields) :
    (Element.describe site object).nested = (namedLeaves [] object).filterMap fun leaf =>
      leaf.2.items?.map fun items => (Path.dotted leaf.1, items) := by
  -- The description lists its leaves by their paths.
  have listed := Element.leaves_dotted [] object
  show Element.arrayLeaves (Element.leaves (Path.dotted []) object) = _
  rw [listed, Element.arrayLeaves, List.filterMap_map]
  rfl

/-- Inside an object without arrays there is nothing to add. -/
theorem listed_alone {object : Fields} {site : Site}
    (alone : (Element.describe site object).nested = []) :
    listed (site.child (Element.describe site object)) (namedLeaves [] object) = .ok [] := by
  rw [describe_nested] at alone
  -- Leaves without an array among them list nothing.
  generalize namedLeaves [] object = leaves at alone ⊢
  induction leaves with
  | nil => rfl
  | cons leaf rest ih =>
    rcases leaf with ⟨names, value⟩
    cases value with
    | array items => simp [Json.items?] at alone
    | _ => simpa only [listed] using ih (by simpa [Json.items?] using alone)

/-- An object without arrays is only asked for itself. -/
theorem item_alone {object : Fields} {site : Site}
    (alone : (Element.describe site object).nested = []) :
    item site (.object object) = .ok (own site (Element.describe site object) object) := by
  -- The walk through its leaves finds no array.
  have quiet : nested site (Element.describe site object) "" object = .ok [] :=
    (nested_eq site (Element.describe site object) [] object).trans (listed_alone alone)
  unfold item
  simp only [alone, quiet, List.isEmpty_nil, Bool.not_true, Bool.and_false, Bool.false_eq_true,
    ↓reduceIte]
  exact congrArg Except.ok (List.append_nil _)

/-- An object that nothing identifies asks for nothing, unless it is refused. -/
theorem item_unidentified {object : Fields} {site : Site}
    (unidentified : (Element.describe site object).identity = []) {ops : List Operation}
    (compiled : item site (.object object) = .ok ops) : ops = [] := by
  by_cases alone : (Element.describe site object).nested = []
  · -- Without nested arrays it is only asked for itself, and that for nothing.
    rw [item_alone alone, own, unidentified] at compiled
    exact (Except.ok.inj compiled).symm
  · -- With nested arrays the object is refused.
    unfold item at compiled
    simp only [unidentified, List.isEmpty_eq_false_iff.mpr alone, List.isEmpty_nil, Bool.not_false,
      Bool.and_true, ↓reduceIte] at compiled
    contradiction

section Forall

variable {motive : Operation → Prop}

/-- What holds of the operations of each object holds of those of all objects of an array. -/
theorem objects_forall {site : Site} {items : List Json}
    (each : ∀ inner ops, .object inner ∈ items → item site (.object inner) = .ok ops →
      ∀ op ∈ ops, motive op) {ops : List Operation} (compiled : objects site items = .ok ops) :
    ∀ op ∈ ops, motive op := by
  -- The operations come from the first item or from the others.
  induction items generalizing ops with
  | nil =>
    obtain rfl : [] = ops := by simpa [objects] using compiled
    simp
  | cons first rest ih =>
    obtain ⟨here, others, compiledHere, compiledOthers, rfl⟩ := objects_cons_eq_ok.mp compiled
    have later := ih (fun inner ops member => each inner ops (by simp [member])) compiledOthers
    intro op member
    rcases List.mem_append.mp member with mine | theirs
    · cases first with
      | object inner => exact each inner here (by simp) compiledHere op mine
      -- Items that are no objects have no operations here.
      | _ =>
        obtain rfl : [] = here := by simpa [item] using compiledHere
        simp at mine
    · exact later op theirs

/-- What holds of the addition of the scalars of an array, and of the operations of each of its
    objects, holds of all its operations. -/
theorem array_forall {site : Site} {items : List Json}
    (values : items.filter (fun item => !item.isObject) ≠ [] →
      motive (.under site.inherited site.base
        (Update.addEach site.path (items.filter fun item => !item.isObject))))
    (each : ∀ inner ops, .object inner ∈ items → item site (.object inner) = .ok ops →
      ∀ op ∈ ops, motive op) {ops : List Operation} (compiled : array site items = .ok ops) :
    ∀ op ∈ ops, motive op := by
  -- The operations come from the scalars of the array or from its objects.
  obtain ⟨below, compiledBelow, rfl⟩ := array_eq_ok.mp compiled
  intro op member
  rcases List.mem_append.mp member with mine | theirs
  · -- Scalars are added by one operation, if there are any.
    rw [scalars] at mine
    split at mine
    · simp at mine
    · rename_i some_value
      rw [List.mem_singleton] at mine
      exact mine ▸ values (by simpa using some_value)
  · exact objects_forall each compiledBelow op theirs

/-- What holds of the operations of each array among some leaves holds of those of all. -/
theorem listed_forall {site : String → Site} {leaves : List (List String × Json)}
    (each : ∀ names items ops, (names, .array items) ∈ leaves →
      array (site (Path.dotted names)) items = .ok ops → ∀ op ∈ ops, motive op)
    {ops : List Operation} (compiled : listed site leaves = .ok ops) : ∀ op ∈ ops, motive op := by
  -- The operations come from the first array or from the others.
  induction leaves generalizing ops with
  | nil =>
    obtain rfl : [] = ops := by simpa [listed] using compiled
    simp
  | cons leaf rest ih =>
    rcases leaf with ⟨names, value⟩
    have later := @ih fun names items ops member => each names items ops (by simp [member])
    cases value with
    | array items =>
      obtain ⟨here, others, compiledHere, compiledOthers, rfl⟩ := listed_cons_eq_ok.mp compiled
      intro op member
      rcases List.mem_append.mp member with mine | theirs
      · exact each names items here (by simp) compiledHere op mine
      · exact later compiledOthers op theirs
    -- A leaf that is no array is passed by.
    | _ => exact later compiled

/-- What holds of the insertion and the assignment of an object with an identity, and of the
    operations for its arrays, holds of all operations for the object. -/
theorem item_forall {site : Site} {object : Fields}
    (nonempty : (Element.describe site object).identity ≠ [])
    (inserted : motive (insert site (Element.describe site object) object))
    (assigned : ∀ op ∈ assign site (Element.describe site object), motive op)
    (inside : ∀ inner, listed (site.child (Element.describe site object)) (namedLeaves [] object) =
      .ok inner → ∀ op ∈ inner, motive op)
    {ops : List Operation} (compiled : item site (.object object) = .ok ops) :
    ∀ op ∈ ops, motive op := by
  -- The operations of the object itself come first, and then those inside.
  obtain ⟨inner, compiledInner, rfl⟩ := (item_eq_ok nonempty).mp compiled
  simp only [List.mem_cons, List.mem_append]
  intro op member
  rcases member with rfl | mine | theirs
  · exact inserted
  · exact assigned op mine
  · exact inside inner compiledInner op theirs

/-- What holds of the assignment of an element, if there is one, holds of all that assign it. -/
theorem assign_forall {site : Site} {element : Element}
    (assigned : motive (.under element.filters site.base (Update.set element.assignments))) :
    ∀ op ∈ assign site element, motive op := by
  -- There is one assignment at most.
  intro op member
  unfold assign at member
  split at member
  · simp at member
  · exact List.mem_singleton.mp member ▸ assigned

end Forall

end Insertion

end DocPatch
