import DocPatch.Proofs.Store.Batch
import Mathlib.Algebra.GroupWithZero.Nat

/-! A batch acts on each document independently: what it does to a collection is what it does to
    each document in a collection of its own. -/

namespace DocPatch

namespace Outcome

/-- The sums of all outcomes of a list. -/
def total (outcomes : List Outcome) : Outcome := outcomes.foldr add zero

/-- The documents matched are added up. -/
@[simp] theorem total_matched (outcomes : List Outcome) :
    (total outcomes).matched = (outcomes.map matched).sum := by
  -- The outcomes are added up one after the other.
  induction outcomes with
  | nil => rfl
  | cons outcome rest ih => simp [total, add, ← ih]

/-- The documents changed are added up. -/
@[simp] theorem total_modified (outcomes : List Outcome) :
    (total outcomes).modified = (outcomes.map modified).sum := by
  -- The outcomes are added up one after the other.
  induction outcomes with
  | nil => rfl
  | cons outcome rest ih => simp [total, add, ← ih]

end Outcome

namespace Operation

/-- A batch succeeds on documents when a run succeeds on each of them; the documents that are left
    are those of the runs, and the outcome is their total. -/
theorem applyBatch_eq_ok_iff {batch : List Operation} {documents left : List Json}
    {outcome : Outcome} :
    applyBatch batch documents = .ok (left, outcome) ↔
      ∃ runs, List.Forall₂ (fun document ran => run batch document = .ok ran) documents runs ∧
        left = runs.map Prod.fst ∧ outcome = Outcome.total (runs.map Prod.snd) := by
  -- The first document can always be split off, with its part of the outcome.
  induction documents generalizing left outcome with
  | nil => simp [Outcome.total, eq_comm]
  | cons document rest ih =>
    simp only [applyBatch_document_ok, ih]
    constructor
    · intro given
      obtain ⟨after, here, _, _, mine, ⟨runs, theirs, rfl, rfl⟩, rfl, rfl⟩ := given
      exact ⟨(after, here) :: runs, .cons mine theirs, rfl, rfl⟩
    · intro given
      obtain ⟨_, paired, rfl, rfl⟩ := given
      obtain ⟨⟨after, here⟩, runs, mine, theirs, rfl⟩ := List.forall₂_cons_left_iff.mp paired
      exact ⟨after, here, _, _, mine, ⟨runs, theirs, rfl, rfl⟩, rfl, rfl⟩

/-- Runs that succeed on every document can be listed. -/
theorem exists_runs {batch : List Operation} {documents : List Json}
    (each : ∀ document ∈ documents, ∃ ran, run batch document = .ok ran) :
    ∃ runs, List.Forall₂ (fun document ran => run batch document = .ok ran) documents runs := by
  -- The runs are listed in the order of the documents.
  induction documents with
  | nil => exact ⟨[], .nil⟩
  | cons document rest ih =>
    obtain ⟨ran, mine⟩ := each document (by simp)
    obtain ⟨runs, theirs⟩ := ih fun other member => each other (by simp [member])
    exact ⟨ran :: runs, .cons mine theirs⟩

end Operation

namespace Collection

/-- A call that no failure was asked for succeeds when a run succeeds on each of the documents. -/
theorem bulkUpdate_succeeds_iff {collection : Collection} (ready : collection.failure = none)
    (batch : List Operation) :
    (∃ outcome, (collection.bulkUpdate batch).1 = .ok outcome) ↔
      ∀ document ∈ collection.documents, ∃ ran, Operation.run batch document = .ok ran := by
  constructor
  · -- Where the batch succeeds, every document has gone through it.
    intro given document member
    obtain ⟨outcome, answered⟩ := given
    obtain ⟨-, left, applied, -⟩ := bulkUpdate_eq_ok.mp (Prod.ext answered rfl)
    obtain ⟨after, -, reached⟩ := Operation.exists_result_of_mem applied member
    obtain ⟨ran, done, -⟩ := map_eq_ok.mp reached
    exact ⟨ran, done⟩
  · -- Where each document goes through it, no error is left to stop the batch.
    intro each
    obtain ⟨runs, paired⟩ := Operation.exists_runs each
    have applied := Operation.applyBatch_eq_ok_iff.mpr ⟨runs, paired, rfl, rfl⟩
    exact ⟨_, congrArg Prod.fst (bulkUpdate_eq_ok.mpr ⟨ready, _, applied, rfl⟩)⟩

/-- A document that is alone in a collection is left as by a run, if the run succeeds. -/
theorem bulkUpdate_alone {batch : List Operation} {document : Json} {ran : Json × Outcome}
    (done : Operation.run batch document = .ok ran) :
    (ofDocuments [document]).bulkUpdate batch = (.ok ran.2, ⟨[ran.1], [batch], none, false⟩) := by
  -- The collection has received no batch before.
  have single := bulkUpdate_singleton batch document []
  rwa [done] at single

/-- A batch acts on each document as if it were alone. It succeeds on a collection just where it
    does so on each document in a collection of its own; then the documents are what they become on
    their own, in their order, and the counts are the sums of the counts for each of them. -/
theorem bulkUpdate_separately {collection : Collection} (ready : collection.failure = none)
    (lasting : collection.vanishing = false) (batch : List Operation) :
    ((∃ outcome, (collection.bulkUpdate batch).1 = .ok outcome) ↔
        ∀ document ∈ collection.documents,
          ∃ outcome, ((ofDocuments [document]).bulkUpdate batch).1 = .ok outcome) ∧
      ∀ outcome, (collection.bulkUpdate batch).1 = .ok outcome →
        ∃ alone : List (Json × Outcome),
          List.Forall₂ (fun document left => (ofDocuments [document]).bulkUpdate batch =
            (.ok left.2, ⟨[left.1], [batch], none, false⟩)) collection.documents alone ∧
          (collection.bulkUpdate batch).2.documents = alone.map Prod.fst ∧
          outcome.matched = (alone.map fun left => left.2.matched).sum ∧
          outcome.modified = (alone.map fun left => left.2.modified).sum := by
  constructor
  · -- On both sides, the calls succeed when the runs do.
    have single (document : Json) := @bulkUpdate_succeeds_iff (ofDocuments [document]) rfl batch
    simp only [bulkUpdate_succeeds_iff ready, single]
    simp [ofDocuments]
  · intro outcome answered
    obtain ⟨-, left, applied, after⟩ := bulkUpdate_eq_ok.mp (Prod.ext answered rfl)
    obtain ⟨runs, paired, rfl, rfl⟩ := Operation.applyBatch_eq_ok_iff.mp applied
    have documents := congrArg Collection.documents after
    refine ⟨runs, paired.imp fun document ran done => bulkUpdate_alone done, ?_, ?_, ?_⟩
    · simpa [lasting] using documents
    · simp [Function.comp_def]
    · simp [Function.comp_def]

/-- A document with an array, one with a text in its place, and one with neither. -/
def assorted : Collection :=
  .ofDocuments [.object [("k", .null), ("tags", .array [.string "b"])],
    .object [("tags", .string "none")], .object [("k", .null)]]

/-- Adds to the array of the documents that have a field, and then takes the field away from all. -/
def tagging : List Operation :=
  [⟨[("k", .null)], Update.push "tags" (.string "a"), []⟩, ⟨[], Update.unset ["k"], []⟩]

/-- The batch leaves the document with the text out of its first operation, and succeeds
    on all three. -/
theorem bulkUpdate_separately_assorted :
    ∃ outcome, (assorted.bulkUpdate tagging).1 = .ok outcome ∧ outcome.matched = 5 ∧
      (∀ document ∈ assorted.documents,
        ∃ outcome, ((ofDocuments [document]).bulkUpdate tagging).1 = .ok outcome) ∧
      ∃ alone : List (Json × Outcome),
        List.Forall₂ (fun document left => (ofDocuments [document]).bulkUpdate tagging =
          (.ok left.2, ⟨[left.1], [tagging], none, false⟩)) assorted.documents alone ∧
        (assorted.bulkUpdate tagging).2.documents = alone.map Prod.fst ∧
        outcome.matched = (alone.map fun left => left.2.matched).sum ∧
        outcome.modified = (alone.map fun left => left.2.modified).sum := by
  -- The batch is computed once, and its success carries over to the single documents.
  have counted : (assorted.bulkUpdate tagging).1.toOption.map Outcome.matched = some 5 := by
    decide +kernel
  obtain ⟨succeeds, separate⟩ := @bulkUpdate_separately assorted rfl rfl tagging
  cases answered : (assorted.bulkUpdate tagging).1 with
  | error error => simp [answered, Except.toOption] at counted
  | ok outcome =>
    rw [answered] at counted
    exact ⟨outcome, rfl, Option.some.inj counted, succeeds.mp ⟨outcome, answered⟩,
      separate outcome answered⟩

end Collection

end DocPatch
