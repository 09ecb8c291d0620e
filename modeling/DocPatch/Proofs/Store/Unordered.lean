import DocPatch.Proofs.Store.Changes

/-! The order of entries in the documents of a collection cannot be observed: batches, queries and
    projections all do the same, whatever it is. -/

namespace DocPatch

open Json (Same)

namespace Projection

variable {left right value other : Json}

/-- A path leads to the same value on both sides, or to none. -/
theorem lookup_same (path : List String) (same : Same left right) :
    Option.Rel Same (lookup path left) (lookup path right) := by
  -- Only objects lead on, by the values of the segment on both sides.
  induction path generalizing left right with
  | nil => exact .some same
  | cons segment rest ih =>
    cases same.matched with
    | object entries => exact rel_bind (entries.lookup segment) fun _ _ same => ih same
    | _ => exact .none

/-- The empty object is the same as itself. -/
theorem same_empty : Same (.object []) (.object []) :=
  .refl (by simp [Json.WellKeyed, Json.FieldsWellKeyed])

/-- Values that are the same may be placed in values that are. -/
theorem place_same (values : Same value other) (path : List String) (same : Same left right) :
    Same (place value path left) (place other path right) := by
  -- Objects are entered or made on both sides, or something stands in the way on both.
  induction path generalizing left right with
  | nil => cases left <;> cases right <;> exact same
  | cons segment rest ih =>
    cases same.matched with
    | object entries =>
      by_cases last : rest = []
      · subst last
        exact Json.same_object_iff.mpr (entries.put values)
      · -- The path goes on inside the value of a field, or in a new object.
        rw [place_cons last, place_cons last]
        have child := getD_of_rel (entries.lookup segment) same_empty
        exact Json.same_object_iff.mpr (entries.put (ih child))
    | _ => cases rest <;> exact same

/-- The value at a path may be taken away from values that are the same. -/
theorem drop_same (path : List String) (same : Same left right) :
    Same (drop path left) (drop path right) := by
  induction path generalizing left right with
  | nil => cases left <;> cases right <;> exact same
  | cons segment rest ih =>
    cases same.matched with
    | object entries =>
      cases rest with
      | nil => exact Json.same_object_iff.mpr entries.remove
      | cons next others =>
        -- What a field holds is entered, and a missing one is not made.
        have child := entries.lookup segment
        simp only [drop]
        generalize List.lookup segment _ = value at child ⊢
        generalize List.lookup segment _ = other at child ⊢
        cases child with
        | none => exact same
        | some child => exact Json.same_object_iff.mpr (entries.put (ih child))
    | _ => cases rest <;> exact same

/-- Steps that leave values the same do so one after the other. -/
theorem foldl_same {step also : Json → List String → Json}
    (each : ∀ left right path, Same left right → Same (step left path) (also right path))
    (paths : List (List String)) (same : Same left right) :
    Same (paths.foldl step left) (paths.foldl also right) := by
  -- The values stay the same from step to step.
  induction paths generalizing left right with
  | nil => exact same
  | cons path rest ih => exact ih (each _ _ path same)

/-- The same is kept of values that are the same. -/
theorem keep_same (paths : List (List String)) (same : Same left right) :
    Same (keep left paths) (keep right paths) := by
  -- Each path puts the value it finds into what has been kept so far.
  refine foldl_same (fun kept also path before => ?_) paths same_empty
  have found := lookup_same path same
  generalize lookup path left = value at found ⊢
  generalize lookup path right = other at found ⊢
  cases found with
  | none => exact before
  | some values => exact place_same values path before

/-- The same is left of values that are the same. -/
theorem dropAll_same (paths : List (List String)) (same : Same left right) :
    Same (dropAll left paths) (dropAll right paths) :=
  foldl_same (fun _ _ path same => drop_same path same) paths same

/-- A projection shows the same of values that are the same, or nothing of either. -/
theorem apply_same (projection : Fields) (same : Same left right) :
    Option.Rel Same (apply projection left) (apply projection right) := by
  -- The projection alone decides whether it is refused, and whether it keeps or drops.
  simp only [apply]
  split
  · exact .none
  · split
    · exact .some (keep_same _ same)
    · exact .some (dropAll_same _ same)

end Projection

namespace Collection

/-- Collections with documents that are the same, in their order, and with the same plans for the
    next calls. -/
structure Same (left right : Collection) : Prop where
  documents : List.Forall₂ Json.Same left.documents right.documents
  failure : left.failure = right.failure
  vanishing : left.vanishing = right.vanishing

variable {left right : Collection}

/-- A batch has the same outcome, or the same error, and leaves collections that are the same. -/
theorem Same.bulkUpdate (same : left.Same right) {batch : List Operation}
    (keyed : ∀ operation ∈ batch, operation.WellKeyed) :
    (left.bulkUpdate batch).1 = (right.bulkUpdate batch).1 ∧
      (left.bulkUpdate batch).2.Same (right.bulkUpdate batch).2 := by
  -- A failure that was asked for comes first on both sides, and then what the batch itself does.
  have applied := Operation.applyBatch_agree keyed same.documents
  simp only [Collection.bulkUpdate, ← same.failure]
  cases left.failure with
  | some message => exact ⟨rfl, same.documents, rfl, same.vanishing⟩
  | none =>
    simp only
    generalize Operation.applyBatch batch left.documents = changed at applied ⊢
    generalize Operation.applyBatch batch right.documents = also at applied ⊢
    cases applied with
    | error error => exact ⟨rfl, same.documents, rfl, same.vanishing⟩
    | @ok _ _ later =>
      refine ⟨congrArg Except.ok later.2, ?_, rfl, rfl⟩
      simp only [same.vanishing]
      split
      · exact .nil
      · exact later.1

/-- A projection shows the same of documents that are the same, or is refused for both. -/
theorem show?_agree (projection : Option Fields) {document other : Json}
    (same : Json.Same document other) :
    Agree Json.Same (show? projection document) (show? projection other) := by
  -- An empty projection shows the whole document, as no projection does.
  match projection with
  | none | some [] => exact .ok same
  | some (entry :: rest) =>
    have shown := Projection.apply_same (entry :: rest) same
    simp only [show?]
    generalize Projection.apply (entry :: rest) document = value at shown ⊢
    generalize Projection.apply (entry :: rest) other = also at shown ⊢
    cases shown with
    | none => exact .error _
    | some same => exact .ok same

/-- A search has the same error, finds nothing in both collections, or shows documents that are the
    same, and leaves collections that are the same. -/
theorem Same.findOne (same : left.Same right) {filter also : Fields}
    (filters : Fields.Same filter also) (projection : Option Fields) :
    Agree (Option.Rel Json.Same) (left.findOne filter projection).1
      (right.findOne also projection).1 ∧
      (left.findOne filter projection).2.Same (right.findOne also projection).2 := by
  -- The failure is the same in both, and so is the place of the first document that is found.
  have found := rel_find? same.documents fun _ _ document => Query.satisfies_eq document filters
  simp only [Collection.findOne, ← same.failure]
  cases ready : left.failure with
  | some message => exact ⟨.error _, same.documents, rfl, same.vanishing⟩
  | none =>
    simp only
    generalize left.documents.find? _ = value at found ⊢
    generalize right.documents.find? _ = other at found ⊢
    cases found with
    | none => exact ⟨.ok .none, same⟩
    | some document =>
      exact ⟨(show?_agree projection document).map fun _ _ shown => .some shown, same⟩

/-- The order of entries cannot be observed. In collections whose documents differ in nothing else,
    every batch has the same outcome or the same error and leaves collections that are the same
    again; every query has the same answers, also when its own entries are in another order; and
    every search shows documents that are the same. -/
theorem Same.indistinguishable (same : left.Same right) {batch : List Operation}
    (keyed : ∀ operation ∈ batch, operation.WellKeyed) {filter also : Fields}
    (filters : Fields.Same filter also) (projection : Option Fields) :
    ((left.bulkUpdate batch).1 = (right.bulkUpdate batch).1 ∧
        (left.bulkUpdate batch).2.Same (right.bulkUpdate batch).2) ∧
      (∀ document other, Json.Same document other →
        Query.satisfies document filter = Query.satisfies other also) ∧
      Agree (Option.Rel Json.Same) (left.findOne filter projection).1
        (right.findOne also projection).1 :=
  -- The parts are about a run, a query and a search.
  ⟨same.bulkUpdate keyed, fun _ _ document => Query.satisfies_eq document filters,
    (same.findOne filters projection).1⟩

/-- Two documents. -/
def forwards : Collection :=
  .ofDocuments [.object [("id", .string "x"), ("flags", .object [("a", .bool true), ("b", .null)]),
      ("tags", .array [.object [("k", .string "t"), ("v", .null)]])],
    .object [("id", .string "y"), ("n", .null)]]

/-- The same documents, with the entries of their objects from the last to the first. -/
def backwards : Collection :=
  .ofDocuments [.object [("tags", .array [.object [("v", .null), ("k", .string "t")]]),
      ("flags", .object [("b", .null), ("a", .bool true)]), ("id", .string "x")],
    .object [("n", .null), ("id", .string "y")]]

/-- Takes a field away from documents with certain flags, and adds an object to an array of all. -/
def flagBatch : List Operation :=
  [⟨[("flags", .object [("a", .bool true), ("b", .null)])], Update.unset ["id"], []⟩,
    ⟨[], Update.addEach "tags" [.object [("k", .string "t"), ("v", .null)]], []⟩]

/-- A query for certain flags and an array, and what is to be shown. -/
def flagQuery : Fields :=
  [("flags", .object [("a", .bool true), ("b", .null)]), ("tags.k", .string "t")]

/-- The batch succeeds on both collections and leaves the same, and the query finds the first
    document of both, also when it is written in another order. -/
theorem Same.indistinguishable_backwards :
    (forwards.bulkUpdate flagBatch).1 = .ok ⟨3, 2⟩ ∧
      (backwards.bulkUpdate flagBatch).1 = .ok ⟨3, 2⟩ ∧
      (forwards.bulkUpdate flagBatch).2.Same (backwards.bulkUpdate flagBatch).2 ∧
      (∀ document other, Json.Same document other →
        Query.satisfies document flagQuery = Query.satisfies other flagQuery.reverse) ∧
      Agree (Option.Rel Json.Same) (forwards.findOne flagQuery (some [("tags", .bool true)])).1
        (backwards.findOne flagQuery.reverse (some [("tags", .bool true)])).1 := by
  -- The collections, the batch and the queries meet the conditions.
  have same : forwards.Same backwards := by
    refine ⟨.cons ⟨?_, ?_, by decide +kernel⟩
      (.cons ⟨?_, ?_, by decide +kernel⟩ .nil), rfl, rfl⟩ <;>
      simp [Json.WellKeyed, Json.FieldsWellKeyed, Json.ItemsWellKeyed]
  have keyed : ∀ operation ∈ flagBatch, operation.WellKeyed := by
    intro operation member
    simp only [flagBatch, List.mem_cons, List.not_mem_nil, or_false] at member
    rcases member with rfl | rfl <;> constructor <;>
      simp [Update.unset, Update.addEach, Update.single, Json.single, Fields.ofEntries,
        Fields.merge, Fields.put, Json.WellKeyed, Json.FieldsWellKeyed, Json.ItemsWellKeyed]
  have queries : Fields.Same flagQuery flagQuery.reverse := by
    refine Json.same_object_iff.mp ⟨?_, ?_, by decide +kernel⟩ <;>
      simp [flagQuery, Json.WellKeyed, Json.FieldsWellKeyed]
  obtain ⟨⟨answers, left⟩, queried, found⟩ :=
    same.indistinguishable keyed queries (some [("tags", .bool true)])
  have counted : (forwards.bulkUpdate flagBatch).1 = .ok ⟨3, 2⟩ := by decide +kernel
  exact ⟨counted, answers ▸ counted, left, queried, found⟩

end Collection

end DocPatch
