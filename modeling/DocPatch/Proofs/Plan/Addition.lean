import DocPatch.Proofs.Plan.Filters
import DocPatch.Proofs.Plan.Refinement

/-! Adding a whole tree through a collection: the batch does what adding the tree means, and doing
    it again changes nothing. -/

namespace DocPatch

namespace Insertion

open Element (namedLeaves)
open Operation (Settled Stays result run)
open Upsert (Addable Holds Separate)

/-- A tree with plain keys, each once, in whose arrays scalar ids tell the objects apart. -/
structure ById (tree : Fields) : Prop where
  regular : Element.Regular tree
  identified : ∀ field items, (field, .array items) ∈ tree → (Json.array items).Identified

/-- The arrays of such a tree can be added one after the other. -/
theorem ById.separate {tree : Fields} (byId : ById tree) : Separate (rootLeaves tree) :=
  Upsert.separate_rootLeaves byId.regular byId.identified

section Total

/-- There are operations for the objects of an array, when there are for each. -/
theorem objects_total {site : Site} {items : List Json}
    (each : ∀ inner, .object inner ∈ items → ∃ ops, item site (.object inner) = .ok ops) :
    ∃ ops, objects site items = .ok ops := by
  -- Items that are no objects ask for nothing, so only the objects could be refused.
  induction items with
  | nil => exact ⟨[], by simp [objects]⟩
  | cons first rest ih =>
    obtain ⟨others, later⟩ := ih fun inner member => each inner (by simp [member])
    -- The first item is an object that is not refused, or it asks for nothing.
    have head : ∃ here, item site first = .ok here := by
      cases first with
      | object inner => exact each inner (by simp)
      | _ => exact ⟨[], by simp [item]⟩
    obtain ⟨here, first_ok⟩ := head
    exact ⟨here ++ others, objects_cons_eq_ok.mpr ⟨here, others, first_ok, later, rfl⟩⟩

/-- There are operations for the arrays among some leaves, when there are for all their objects. -/
theorem listed_total {site : String → Site} {leaves : List (List String × Json)}
    (each : ∀ names items, (names, .array items) ∈ leaves → ∀ inner, .object inner ∈ items →
      ∀ site, ∃ ops, item site (.object inner) = .ok ops) :
    ∃ ops, listed site leaves = .ok ops := by
  -- A refusal of an array is the refusal of one of its objects.
  induction leaves with
  | nil => exact ⟨[], rfl⟩
  | cons leaf rest ih =>
    rcases leaf with ⟨names, value⟩
    obtain ⟨others, later⟩ := ih fun names items member => each names items (by simp [member])
    cases value with
    -- The operations for the array are the addition of its values and those for its objects.
    | array items =>
      obtain ⟨below, compiled⟩ := objects_total fun inner member =>
        each names items (by simp) inner member (site (Path.dotted names))
      have here := array_eq_ok.mpr ⟨below, compiled, rfl⟩
      exact ⟨_, listed_cons_eq_ok.mpr ⟨_, others, here, later, rfl⟩⟩
    | _ => exact ⟨others, later⟩

/-- There are operations for every object that can be added, wherever it is listed. -/
theorem item_total {object : Fields} {id : Json} (addable : Addable object id) :
    ∀ site, ∃ ops, item site (.object object) = .ok ops := by
  -- An identified object is refused only for what is listed inside.
  refine addable.induction
    (motive := fun object => ∀ site, ∃ ops, item site (.object object) = .ok ops)
    fun object id addable ih site => ?_
  -- The scalar id identifies the object, so it is not refused for the want of one.
  have identified := Element.identifiedBy_id addable.regular addable.scalar addable.found
  obtain ⟨inner, compiled⟩ := listed_total fun names items leaf inner member site =>
    ih names items leaf inner member site
  exact ⟨_, (item_eq_ok (identified.identity_ne site)).mpr ⟨inner, compiled, rfl⟩⟩

/-- A tree whose objects are all identified is never refused. -/
theorem operations_total {tree : Fields} (byId : ById tree) (base : Fields) :
    ∃ ops, operations base tree = .ok ops := by
  rw [operations_eq]
  apply listed_total
  intro names items leaf inner member
  -- Every object of the tree has an id of its own.
  obtain ⟨id, addable⟩ := (byId.separate.listing names items leaf).addable inner member
  exact item_total addable

end Total

section Compiled

variable {base tree : Fields} {ops : List Operation} {document after : Json}

/-- A base filter that reads no field of a tree goes on selecting a document. -/
theorem operations_stay (regular : Element.Regular tree) (compiled : operations base tree = .ok ops)
    (avoids : Query.Avoids (tree.map Prod.fst) base) (object : document.isObject = true)
    (selected : Query.satisfies document base = true) : Stays base ops document := by
  -- Each operation writes the field that it was emitted for, and no other.
  refine Operation.stays_of_avoids avoids (fun op member => ?_) object selected
  obtain ⟨field, among, plain, emitted⟩ := operations_emits regular compiled op member
  exact emitted.through.writes plain among

/-- The operations for a tree do what adding the tree means. -/
theorem operations_refine (byId : ById tree) (compiled : operations base tree = .ok ops)
    (object : document.isObject = true) (distinct : document.IdsDistinct)
    (stays : Stays base ops document) : result ops document = Upsert.tree tree document := by
  -- The document itself is the one element that no stages lead to.
  have spot : Spot [] document document id :=
    ⟨fun _ member => by simp at member, .here document, object, distinct⟩
  rw [operations_eq] at compiled
  have refined := listed_refine spot byId.separate
    (fun names items leaf => ⟨root_at byId.regular base leaf, rfl⟩)
    (fun names items leaf inner member => by
      obtain ⟨_, addable⟩ := (byId.separate.listing names items leaf).addable inner member
      exact item_refines addable)
    compiled stays
  -- Behind no stages the way back is no way at all.
  rw [refined, Upsert.tree_eq]
  cases Upsert.listed (rootLeaves tree) document <;> rfl

/-- The operations for a tree have nothing to do in a document that holds what the tree lists. -/
theorem operations_settle (byId : ById tree) (compiled : operations base tree = .ok ops)
    (distinct : document.IdsDistinct)
    (holds : ∀ names items, (names, .array items) ∈ rootLeaves tree → Holds names items document) :
    ∀ op ∈ ops, op.Settled document := by
  -- Every array at the root of the tree is held, so nothing below it is left to do.
  rw [operations_eq] at compiled
  refine listed_forall (fun names items ops leaf compiled => ?_) compiled
  refine array_settles (root_at byId.regular base leaf) (.here document) distinct
    (fun inner member => ?_) (holds names items leaf) compiled
  obtain ⟨_, addable⟩ := (byId.separate.listing names items leaf).addable inner member
  exact item_settles addable

/-- What a batch for a tree leaves of a document, the batch has nothing to do in. -/
theorem operations_settle_result (byId : ById tree) (compiled : operations base tree = .ok ops)
    (object : document.isObject = true) (distinct : document.IdsDistinct)
    (done : result ops document = .ok after) : ∀ op ∈ ops, op.Settled after := by
  by_cases stays : Stays base ops document
  · -- The base filter selects the document to the end, so the tree was added.
    rw [operations_refine byId compiled object distinct stays, Upsert.tree_eq] at done
    exact operations_settle byId compiled (byId.separate.frame distinct done).idsDistinct
      (byId.separate.holds distinct done)
  · -- The base filter has stopped selecting the document, and with it every operation has.
    have within : Operation.Within base ops := fun op member _ selected =>
      (operations_based compiled op member).implies selected
    have missed := Operation.missed_of_not_stays within stays done
    exact fun op member => Operation.settled_of_implies (within op member after) missed

end Compiled

/-- A tree that lists a value beside an object, and an object inside that one. -/
def sampleTree : Fields :=
  [("g", .array [.string "v", .object [("id", .string "a"), ("n", .bool true),
    ("s", .array [.object [("id", .string "b")]])]])]

/-- A document that has the outer object only, with another object inside. -/
def sampleDocument : Json :=
  .object [("k", .string "d"), ("g", .array [.object [("id", .string "a"),
    ("s", .array [.object [("id", .string "c")]])]])]

/-- The sample tree has plain keys, and ids that differ. -/
theorem sampleTree_byId : ById sampleTree where
  regular := by
    have plain : ∀ name ∈ ["g", "id", "n", "s"], Path.Plain name := by
      intro name member
      simp only [List.mem_cons, List.not_mem_nil, or_false] at member
      rcases member with rfl | rfl | rfl | rfl <;> exact ⟨by decide, by decide,
        by decide, by decide⟩
    constructor
    · simp [sampleTree, Json.FieldsWellKeyed, Json.WellKeyed, Json.ItemsWellKeyed]
    · simp [sampleTree, Json.FieldsPlainNamed, Json.PlainNamed, Json.ItemsPlainNamed, plain]
  identified := by
    intro field items member
    simp only [sampleTree, List.mem_singleton, Prod.mk.injEq, Json.array.injEq] at member
    obtain ⟨rfl, rfl⟩ := member
    simp only [Json.Identified, Json.ItemsIdentified, Json.FieldsIdentified, and_true, true_and]
    -- There is one object in each of the two arrays.
    exact ⟨List.pairwise_singleton _ _, ⟨_, rfl, trivial⟩, List.pairwise_singleton _ _,
      ⟨_, rfl, trivial⟩⟩

/-- The sample document has ids that differ. -/
theorem sampleDocument_idsDistinct : sampleDocument.IdsDistinct := by
  -- There is one object in each of the two arrays.
  have single : ∀ id : String, Json.Distinct [.string id] := fun id =>
    ⟨by simp [Json.items?], List.pairwise_singleton _ _⟩
  simp only [sampleDocument, Json.IdsDistinct, Json.FieldsIdsDistinct, Json.ItemsIdsDistinct,
    and_true, true_and]
  exact ⟨single "a", single "c"⟩

/-- On a document that the base filter selects by other fields, the batch for a tree leaves what
    adding the tree leaves, or fails where adding it finds something that is no array. -/
theorem bulkUpdate_adds {base tree : Fields} (byId : ById tree) {document : Json}
    (object : document.isObject = true) (distinct : document.IdsDistinct)
    (selected : Query.satisfies document base = true)
    (avoids : Query.Avoids (tree.map Prod.fst) base) :
    ∃ ops, operations base tree = .ok ops ∧
      match Upsert.tree tree document with
      | .ok after => ∃ outcome, (Collection.ofDocuments [document]).bulkUpdate ops =
          (.ok outcome, ⟨[after], [ops], none, false⟩)
      | .error error => Upsert.NoArray error ∧ (Collection.ofDocuments [document]).bulkUpdate ops =
          (.error (.update error), ⟨[document], [ops], none, false⟩) := by
  -- The base filter goes on selecting the document, so the batch does what adding the tree means.
  obtain ⟨ops, compiled⟩ := operations_total byId base
  have stays := operations_stay byId.regular compiled avoids object selected
  have refined := operations_refine byId compiled object distinct stays
  have batch := Operation.applyBatch_singleton ops document
  refine ⟨ops, compiled, ?_⟩
  rw [← refined, result]
  cases ran : run ops document with
  -- The batch succeeds, and so does adding the tree.
  | ok left =>
    rw [ran] at batch
    exact ⟨left.2, by simp only [Collection.bulkUpdate, Collection.ofDocuments, batch]; rfl⟩
  -- The batch fails, and the documents are left as they were.
  | error error =>
    rw [ran] at batch
    rw [result, ran] at refined
    exact ⟨Upsert.tree_error refined.symm,
      by simp only [Collection.bulkUpdate, Collection.ofDocuments, batch]; rfl⟩

/-- The batch for the sample tree goes into the object that is there, and appends the other one. -/
theorem bulkUpdate_adds_sample :
    ∃ ops, operations [("k", .string "d")] sampleTree = .ok ops ∧ ∃ outcome,
      (Collection.ofDocuments [sampleDocument]).bulkUpdate ops =
        (.ok outcome, ⟨[.object [("k", .string "d"), ("g", .array [.object [("id", .string "a"),
          ("s", .array [.object [("id", .string "c")], .object [("id", .string "b")]]),
          ("n", .bool true)], .string "v"])]], [ops], none, false⟩) := by
  -- The filter reads another field than the tree adds to.
  have avoids : Query.Avoids (sampleTree.map Prod.fst) [("k", .string "d")] := by
    have other : ∀ first ∈ (Path.segments "k").head?, first ∉ sampleTree.map Prod.fst := by decide
    simpa [Query.Avoids] using other
  exact bulkUpdate_adds sampleTree_byId rfl sampleDocument_idsDistinct (by decide +kernel) avoids

/-- Once a batch for a tree succeeded, it succeeds again, modifies nothing, and leaves the documents
    as they are. -/
theorem bulkUpdate_adds_once {base tree : Fields} (byId : ById tree) {collection : Collection}
    (objects : ∀ document ∈ collection.documents,
      document.isObject = true ∧ document.IdsDistinct) :
    ∃ ops, operations base tree = .ok ops ∧ ∀ outcome after,
      collection.bulkUpdate ops = (.ok outcome, after) →
      ∃ again last, after.bulkUpdate ops = (.ok again, last) ∧ again.modified = 0 ∧
        last.documents = after.documents := by
  obtain ⟨ops, compiled⟩ := operations_total byId base
  refine ⟨ops, compiled, fun outcome after done => ?_⟩
  obtain ⟨-, left, applied, rfl⟩ := Collection.bulkUpdate_eq_ok.mp done
  -- Each document went through the batch alone, and the batch is settled on what became of it.
  have settled : ∀ document ∈ (if collection.vanishing then [] else left),
      ∀ op ∈ ops, op.Settled document := by
    intro document member
    have stays : document ∈ left := by
      split at member
      · -- If the documents were made to vanish, none is left.
        simp at member
      · exact member
    obtain ⟨before, among, became⟩ := Operation.exists_before_of_mem applied stays
    obtain ⟨object, distinct⟩ := objects before among
    exact operations_settle_result byId compiled object distinct became
  -- So the second run finds nothing to do in any of them.
  obtain ⟨matched, again⟩ := Operation.applyBatch_of_settled settled
  exact ⟨⟨matched, 0⟩, _, Collection.bulkUpdate_eq_ok.mpr ⟨rfl, _, again, rfl⟩, rfl, rfl⟩

/-- On the sample document the batch for the sample tree succeeds, and again without a change. -/
theorem bulkUpdate_adds_once_sample :
    ∃ ops, operations [] sampleTree = .ok ops ∧ ∃ outcome after,
      (Collection.ofDocuments [sampleDocument]).bulkUpdate ops = (.ok outcome, after) ∧
      ∃ again last, after.bulkUpdate ops = (.ok again, last) ∧ again.modified = 0 ∧
        last.documents = after.documents := by
  have objects : ∀ document ∈ (Collection.ofDocuments [sampleDocument]).documents,
      document.isObject = true ∧ document.IdsDistinct := by
    intro document member
    rw [List.mem_singleton.mp member]
    exact ⟨rfl, sampleDocument_idsDistinct⟩
  obtain ⟨ops, compiled, once⟩ := @bulkUpdate_adds_once [] sampleTree sampleTree_byId _ objects
  -- The first run succeeds, which is read off by running it.
  have succeeds : ((operations [] sampleTree).toOption.any fun ops =>
      ((Collection.ofDocuments [sampleDocument]).bulkUpdate ops).1.isOk) = true := by decide +kernel
  rw [compiled] at succeeds
  refine ⟨ops, compiled, ?_⟩
  cases done : (Collection.ofDocuments [sampleDocument]).bulkUpdate ops with
  | mk result after =>
    cases result with
    | ok outcome => exact ⟨outcome, after, rfl, once outcome after done⟩
    | error error => simp [Except.toOption, done, Except.isOk, Except.toBool] at succeeds

end Insertion

end DocPatch
