import DocPatch.Proofs.Plan.Keys
import DocPatch.Proofs.Plan.Removal

/-! What holds of every site that the walk through a tree reaches gives what holds of every
    operation. -/

namespace DocPatch

open Element (namedLeaves)

/-- A property of sites that goes from an array to the arrays nested in the objects that are entered
    there. The keys of the objects, and the names that lead to the arrays, have a property. -/
def Site.Inherited (key : String → Prop) (enters : Fields → Prop) (holds : Site → Prop) : Prop :=
  -- Every object that is entered at the site hands the property on.
  ∀ {site : Site} {object : Fields} {names : List String}, holds site →
    Json.FieldsKeysHold key object → enters (Element.describe site object).identity →
    names ≠ [] → (∀ name ∈ names, key name) →
    holds (site.child (Element.describe site object) (Path.dotted names))

namespace Insertion

/-- At the root of a tree, the name of a leaf has the property of the keys, and so has every object
    that is listed there. -/
theorem keysHold_of_mem_rootLeaves {key : String → Prop} {tree : Fields}
    (keys : Json.FieldsKeysHold key tree) {names : List String} {items : List Json}
    (leaf : (names, .array items) ∈ rootLeaves tree) :
    ∃ field, names = [field] ∧ key field ∧
      ∀ inner, .object inner ∈ items → Json.FieldsKeysHold key inner := by
  -- The leaf is an entry of the tree, and its objects stand in the value of the entry.
  obtain ⟨field, rfl, member⟩ := field_of_mem_rootLeaves leaf
  obtain ⟨named, inside⟩ := keys.of_mem member
  simp only [Json.KeysHold] at inside
  exact ⟨field, rfl, named, fun inner listed => by
    simpa only [Json.KeysHold] using inside.of_mem listed⟩

/-- A property of sites that the walk of an insertion keeps, and what it gives for the operations.
    Only objects with an identity are entered. -/
structure Invariant (key : String → Prop) (holds : Site → Prop) (motive : Operation → Prop) :
    Prop where
  child : Site.Inherited key (· ≠ []) holds
  values : ∀ {site : Site}, holds site → ∀ values,
    motive (.under site.inherited site.base (Update.addEach site.path values))
  insert : ∀ {site : Site}, holds site → ∀ object,
    motive (insert site (Element.describe site object) object)
  assign : ∀ {site : Site}, holds site → ∀ {object}, Json.FieldsKeysHold key object →
    (Element.describe site object).identity ≠ [] →
    motive (.under (Element.describe site object).filters site.base
      (Update.set (Element.describe site object).assignments))

variable {key : String → Prop} {holds : Site → Prop} {motive : Operation → Prop}

/-- All operations for an array are as the invariant says, if those for its objects are. -/
theorem Invariant.array (invariant : Invariant key holds motive) {site : Site}
    (at_site : holds site) {items : List Json}
    (each : ∀ inner, .object inner ∈ items → ∀ ops, item site (.object inner) = .ok ops →
      ∀ op ∈ ops, motive op)
    {ops : List Operation} (compiled : array site items = .ok ops) : ∀ op ∈ ops, motive op :=
  -- The values of the array have one operation, and each object has its own.
  array_forall (fun _ => invariant.values at_site _)
    (fun inner ops listed compiled => each inner listed ops compiled) compiled

/-- All operations for an object are as the invariant says. -/
theorem Invariant.item (invariant : Invariant key holds motive) (object : Fields) :
    Json.FieldsKeysHold key object → ∀ {site : Site}, holds site → ∀ ops,
      item site (.object object) = .ok ops → ∀ op ∈ ops, motive op := by
  induction object using Element.visit_induction with
  | visit object ih =>
    intro keys site at_site ops compiled
    by_cases nonempty : (Element.describe site object).identity = []
    · -- An object that nothing identifies has no operations.
      simp [item_unidentified nonempty compiled]
    · refine item_forall nonempty (invariant.insert at_site object)
        (assign_forall (invariant.assign at_site keys nonempty)) (fun inner compiled => ?_) compiled
      -- The arrays nested in the object are one step further down.
      refine listed_forall (fun names items ops leaf compiled => ?_) compiled
      obtain ⟨named, inside⟩ := Element.keysHold_visited keys leaf
      have below := invariant.child at_site keys nonempty (Element.names_ne_nil leaf) named
      exact invariant.array below (fun inner listed ops compiled =>
        ih names items inner leaf listed (inside inner listed) below ops compiled) compiled

/-- All operations for an array of objects with such keys are as the invariant says. -/
theorem Invariant.keyed (invariant : Invariant key holds motive) {site : Site}
    (at_site : holds site) {items : List Json}
    (keys : ∀ inner, .object inner ∈ items → Json.FieldsKeysHold key inner) {ops : List Operation}
    (compiled : Insertion.array site items = .ok ops) : ∀ op ∈ ops, motive op :=
  -- Each object keeps the invariant, whatever site it is listed at.
  invariant.array at_site (fun inner listed ops compiled =>
    invariant.item inner (keys inner listed) at_site ops compiled) compiled

/-- All operations for a tree are as the invariant says, when it holds at the fields of the root. -/
theorem Invariant.operations (invariant : Invariant key holds motive) {base tree : Fields}
    (keys : Json.FieldsKeysHold key tree) (root : ∀ field, key field → holds (.root base field))
    {ops : List Operation} (compiled : operations base tree = .ok ops) : ∀ op ∈ ops, motive op := by
  -- The walk starts at the sites of the fields.
  rw [operations_eq] at compiled
  refine listed_forall (fun names items ops leaf compiled => ?_) compiled
  obtain ⟨field, rfl, named, inside⟩ := keysHold_of_mem_rootLeaves keys leaf
  rw [Path.dotted_singleton] at compiled
  exact invariant.keyed (root field named) inside compiled

end Insertion

namespace Removal

/-- A property of sites that the walk of a removal keeps, and what it gives for the operations. -/
structure Invariant (key : String → Prop) (holds : Site → Prop) (motive : Operation → Prop) :
    Prop where
  child : Site.Inherited key (fun _ => True) holds
  values : ∀ {site : Site}, holds site → ∀ values, (∀ value ∈ values, value.isObject = false) →
    motive (.under site.inherited site.base (Update.pullAny site.path values))
  pull : ∀ {site : Site}, holds site → ∀ {object}, Json.FieldsKeysHold key object →
    motive (.under site.inherited site.base
      (Update.pullMatching site.path (Element.describe site object).identity))

variable {key : String → Prop} {holds : Site → Prop} {motive : Operation → Prop}

/-- All operations for an object are as the invariant says. -/
theorem Invariant.item (invariant : Invariant key holds motive) (object : Fields) :
    Json.FieldsKeysHold key object → ∀ {site : Site}, holds site →
      ∀ op ∈ item site (.object object), motive op := by
  induction object using Element.visit_induction with
  | visit object ih =>
    intro keys site at_site
    rw [item_eq]
    split
    · exact pull_forall (invariant.pull at_site keys)
    · -- The arrays nested in the object are one step further down.
      refine listed_forall fun names items leaf => ?_
      obtain ⟨named, inside⟩ := Element.keysHold_visited keys leaf
      have below : holds (site.child (Element.describe site object) (Path.dotted names)) :=
        invariant.child at_site keys trivial (Element.names_ne_nil leaf) named
      exact array_forall (invariant.values below) fun inner listed =>
        ih names items inner leaf listed (inside inner listed) below

/-- All operations for an array of objects with such keys are as the invariant says. -/
theorem Invariant.keyed (invariant : Invariant key holds motive) {site : Site}
    (at_site : holds site) {items : List Json}
    (keys : ∀ inner, .object inner ∈ items → Json.FieldsKeysHold key inner) :
    ∀ op ∈ array site items, motive op :=
  -- Each object keeps the invariant, whatever site it is listed at.
  array_forall (invariant.values at_site) fun inner listed =>
    invariant.item inner (keys inner listed) at_site

/-- All operations for a tree are as the invariant says, when it holds at the fields of the root. -/
theorem Invariant.operations (invariant : Invariant key holds motive) {base tree : Fields}
    (keys : Json.FieldsKeysHold key tree) (root : ∀ field, key field → holds (.root base field)) :
    ∀ op ∈ operations base tree, motive op := by
  -- The walk starts at the sites of the fields.
  rw [operations_eq]
  refine listed_forall fun names items leaf => ?_
  obtain ⟨field, rfl, named, inside⟩ := Insertion.keysHold_of_mem_rootLeaves keys leaf
  rw [Path.dotted_singleton]
  exact invariant.keyed (root field named) inside

end Removal

end DocPatch
