import DocPatch.Proofs.Patcher

/-! What a patch leaves alone: every document that its filter did not select, and the order of
    all of them. -/

namespace DocPatch

open Operation (Within result run)

namespace Operation

/-- What became of a document in a batch: nothing, or what the operations made of it; and nothing
    where a filter does not select it. -/
structure Became (base : Fields) (batch : List Operation) (before after : Json) : Prop where
  made : after = before ∨ result batch before = .ok after
  kept : Query.satisfies before base = false → after = before

/-- A document that is left as it was became nothing else. -/
theorem Became.refl (base : Fields) (batch : List Operation) (document : Json) :
    Became base batch document document :=
  ⟨Or.inl rfl, fun _ => rfl⟩

/-- Operations that select no more than a filter make nothing of a document that it misses. -/
theorem Became.of_run {base : Fields} {batch : List Operation} (within : Within base batch)
    {before after : Json} {outcome : Outcome} (ran : run batch before = .ok (after, outcome)) :
    Became base batch before after where
  made := Or.inr (map_eq_ok.mpr ⟨_, ran, rfl⟩)
  kept := by
    -- On such a document every operation is passed by, so the run returns it.
    intro missed
    rw [run_of_missed within missed] at ran
    exact (Prod.mk.inj (Except.ok.inj ran)).1.symm

end Operation

namespace Collection

/-- A call that no failure was asked for leaves every document in its place, whether it succeeds or
    not. -/
theorem became_of_bulkUpdate {base : Fields} {batch : List Operation} (within : Within base batch)
    {collection : Collection} (ready : collection.failure = none)
    (lasting : collection.vanishing = false) :
    List.Forall₂ (Operation.Became base batch) collection.documents
      (collection.bulkUpdate batch).2.documents := by
  cases called : collection.bulkUpdate batch with
  | mk answer after =>
    cases answer with
    -- Every document of a batch that succeeded went through the operations alone.
    | ok outcome =>
      obtain ⟨-, left, applied, rfl⟩ := bulkUpdate_eq_ok.mp called
      simp only [lasting, Bool.false_eq_true, ↓reduceIte]
      exact (Operation.forall₂_run_of_applyBatch applied).imp fun before after ran =>
        ran.elim fun _ ran => Operation.Became.of_run within ran
    -- A batch that failed has left the documents as they were.
    | error error =>
      have same : after.documents = collection.documents := by
        rw [bulkUpdate, ready] at called
        cases applied : Operation.applyBatch batch collection.documents with
        | ok changed => simp [applied] at called
        | error reason =>
          simp only [applied, Prod.mk.injEq] at called
          rw [← called.2]
      rw [same]
      exact List.forall₂_same.mpr fun document _ => .refl base batch document

end Collection

namespace Patcher

variable {patcher : Patcher} {filter : Fields} {instruction : Instruction}
  {projection : Option Fields} {time : Timestamp} {batch : List Operation}

/-- Reading back leaves the documents. -/
theorem readBack_documents (operations : Nat) :
    (patcher.readBack filter projection operations).2.collection.documents =
      patcher.collection.documents := by
  -- A read only ever takes back the failure that was asked for.
  have read : (patcher.collection.findOne filter projection).2.documents =
      patcher.collection.documents := by
    unfold Collection.findOne
    cases patcher.collection.failure with
    | some message => rfl
    | none =>
      cases patcher.collection.documents.find? fun document =>
        Query.satisfies document filter <;> rfl
  unfold readBack
  rw [← read]
  -- Whatever was found, the collection is the one after the read.
  rcases patcher.collection.findOne filter projection with ⟨_ | _ | _, after⟩ <;> rfl

/-- The documents after a patch are those that its batch leaves. -/
theorem patch_documents (planned : patcher.plan filter instruction time = .ok batch) :
    (patcher.patch filter instruction projection time).2.collection.documents =
      (patcher.collection.bulkUpdate batch).2.documents := by
  -- What follows the batch is at most a read.
  rw [patch, planned]
  simp only [write]
  rcases patcher.collection.bulkUpdate batch with ⟨_ | outcome, after⟩
  · rfl
  · by_cases none_matched : outcome.matched = 0
    · simp [none_matched]
    · simp only [none_matched, ↓reduceIte]
      rw [readBack_documents]

/-- A patch misses its document in the batch just where the batch succeeds and matches nothing. -/
theorem patch_missed_patch_iff (planned : patcher.plan filter instruction time = .ok batch) :
    (∃ target, (patcher.patch filter instruction projection time).1 =
        .error (.notFound .patch target)) ↔
      ∃ outcome, (patcher.collection.bulkUpdate batch).1 = .ok outcome ∧ outcome.matched = 0 := by
  rw [patch, planned]
  simp only [write]
  rcases patcher.collection.bulkUpdate batch with ⟨error | outcome, after⟩
  · -- A batch that failed is a failure of the store.
    simp [storeFailure]
  · by_cases none_matched : outcome.matched = 0
    · simp [none_matched, missed]
    · -- A read after the batch fails in the other phase, if at all.
      simp only [none_matched, ↓reduceIte, readBack, Except.ok.injEq, exists_eq_left', iff_false]
      rcases after.findOne filter projection with ⟨_ | _ | _, _⟩ <;> simp [storeFailure, missed]

/-- A patch touches the documents that its filter selects: all documents keep their places, those
    that were not selected are as they were, and the patch reports that there was nothing to patch
    just where no document was selected. -/
theorem patch_frame (ready : patcher.collection.failure = none)
    (lasting : patcher.collection.vanishing = false)
    (planned : patcher.plan filter instruction time = .ok batch) :
    List.Forall₂ (Operation.Became filter batch) patcher.collection.documents
        (patcher.patch filter instruction projection time).2.collection.documents ∧
      ((∃ target, (patcher.patch filter instruction projection time).1 =
          .error (.notFound .patch target)) ↔
        ∀ document ∈ patcher.collection.documents, Query.satisfies document filter = false) := by
  -- Both parts follow from what the batch does, document by document.
  have compiled := plan_eq_ok planned
  have within := Patch.operations_within compiled
  constructor
  · rw [patch_documents planned]
    exact Collection.became_of_bulkUpdate within ready lasting
  · obtain ⟨first, rest, rfl, own⟩ := Patch.operations_cons compiled
    rw [patch_missed_patch_iff planned]
    constructor
    · -- The batch starts with the filter itself, so nothing was selected if nothing was matched.
      intro given
      obtain ⟨outcome, answered, none_matched⟩ := given
      obtain ⟨-, left, applied, -⟩ := Collection.bulkUpdate_eq_ok.mp (Prod.ext answered rfl)
      exact (Operation.matched_eq_zero_iff own within applied).mp none_matched
    · -- If nothing is selected, the batch cannot even fail.
      intro missed
      refine ⟨.zero, ?_, rfl⟩
      exact congrArg Prod.fst (Collection.bulkUpdate_eq_ok.mpr
        ⟨ready, _, Operation.applyBatch_of_missed within missed, rfl⟩)

/-- The document that the filter by id selects, and one that it does not. -/
def pairPatcher : Patcher := .start (.ofDocuments [renameDocument, renameResult]) .standard

/-- The patch that renames the one document leaves the other, and finds something to patch. -/
theorem patch_frame_pair : ∃ renamed,
    (pairPatcher.patch renameFilter renameInstruction none renameTime).2.collection.documents =
        [renamed, renameResult] ∧
      ¬ ∃ target, (pairPatcher.patch renameFilter renameInstruction none renameTime).1 =
        .error (.notFound .patch target) := by
  have planned : pairPatcher.plan renameFilter renameInstruction renameTime = .ok renameBatch := rfl
  have documents : pairPatcher.collection.documents = [renameDocument, renameResult] := rfl
  obtain ⟨frame, missed⟩ := @patch_frame pairPatcher _ _ none _ _ rfl rfl planned
  rw [documents] at frame missed
  -- The two documents are left in their places.
  obtain ⟨renamed, others, -, rest, whole⟩ := List.forall₂_cons_left_iff.mp frame
  obtain ⟨second, last, became, ended, rfl⟩ := List.forall₂_cons_left_iff.mp rest
  obtain rfl := List.forall₂_nil_left_iff.mp ended
  refine ⟨renamed, ?_, ?_⟩
  · -- The second one is not selected, so it is as it was.
    rw [whole, became.kept unselected_rename]
  · -- The first one is selected.
    have selected : Query.satisfies renameDocument renameFilter = true := by decide +kernel
    rw [missed]
    intro none_selected
    have unselected := none_selected renameDocument (List.mem_cons_self ..)
    exact absurd (unselected.symm.trans selected) (by decide)

end Patcher

end DocPatch
