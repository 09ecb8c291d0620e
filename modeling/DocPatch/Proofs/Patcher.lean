import DocPatch.Patcher
import DocPatch.Proofs.Plan.Filters
import DocPatch.Proofs.Store.Selection

/-! Which documents a committed patch reaches, and when it does not find them again: its operations
    and the read after them all ask for the base filter, which the patch itself may unsettle. -/

namespace DocPatch

open Operation (MeetsAll MeetsLast Within result)

namespace Patch

/-- The first operation of a patch, which sets fields, has just the base filter. -/
theorem operations_cons {base : Fields} {instruction : Instruction} {field : String}
    {time : Timestamp} {batch : List Operation}
    (compiled : Patch.operations base instruction field time = .ok batch) :
    ∃ first rest, batch = first :: rest ∧ first.filter = base := by
  -- The fields are set before anything is added or removed.
  obtain ⟨added, _, same⟩ := bind_eq_ok.mp compiled
  obtain rfl := Except.ok.inj same
  exact ⟨_, _, rfl, rfl⟩

/-- The operations of a patch select no more documents than the base filter. -/
theorem operations_within {base : Fields} {instruction : Instruction} {field : String}
    {time : Timestamp} {batch : List Operation}
    (compiled : Patch.operations base instruction field time = .ok batch) : Within base batch :=
  -- The filter of every operation says at least what the base filter says.
  fun op member _ selected => (Patch.operations_based compiled op member).implies selected

end Patch

namespace Collection

/-- Reading finds nothing just where the filter selects none of the documents. -/
theorem findOne_eq_none_iff {collection : Collection} (ready : collection.failure = none)
    (filter : Fields) (projection : Option Fields) :
    (collection.findOne filter projection).1 = .ok none ↔
      ∀ document ∈ collection.documents, Query.satisfies document filter = false := by
  rw [findOne, ready]
  cases found : collection.documents.find? fun document => Query.satisfies document filter with
  -- The search has gone through all documents.
  | none => simpa using found
  | some document =>
    -- What was found is shown, or the projection is refused.
    have selected := List.find?_some found
    have member := List.mem_of_find?_eq_some found
    constructor
    · intro shown
      simp only at shown
      cases taken : show? projection document with
      | error error => simp [taken] at shown
      | ok value => simp [taken] at shown
    · -- The document that was found is selected, so it cannot be missed.
      intro missed
      simp [missed document member] at selected

end Collection

namespace Patcher

variable {patcher : Patcher} {filter : Fields} {instruction : Instruction}
  {projection : Option Fields} {time : Timestamp} {batch : List Operation} {outcome : Outcome}
  {after : Collection}

/-- A plan that was made is the list of operations of the patch. -/
theorem plan_eq_ok (planned : patcher.plan filter instruction time = .ok batch) :
    Patch.operations filter instruction patcher.settings.timestampField time = .ok batch := by
  -- The plan only renames the error of the compiler.
  unfold plan at planned
  cases compiled : Patch.operations filter instruction patcher.settings.timestampField time with
  | error error => simp [compiled, Except.mapError] at planned
  | ok operations => simpa [compiled, Except.mapError] using planned

/-- A committed patch misses the read when it matched something and finds nothing afterwards. -/
theorem patch_missed_get_iff (planned : patcher.plan filter instruction time = .ok batch)
    (committed : patcher.collection.bulkUpdate batch = (.ok outcome, after)) :
    (∃ target, (patcher.patch filter instruction projection time).1 =
        .error (.notFound .get target)) ↔
      outcome.matched ≠ 0 ∧
        ∀ document ∈ after.documents, Query.satisfies document filter = false := by
  -- A batch that matched nothing fails in the other phase, and a refused projection is a
  -- failure of the store.
  have ready : after.failure = none := by
    obtain ⟨-, left, -, rfl⟩ := Collection.bulkUpdate_eq_ok.mp committed
    rfl
  rw [patch, planned]
  simp only [write, committed]
  by_cases none_matched : outcome.matched = 0
  · -- Nothing was matched: the document is reported as missing for the batch, and not for the read.
    simp [none_matched, missed]
  · -- Something was matched, so the read decides.
    simp only [none_matched, ↓reduceIte, ne_eq, not_false_eq_true, true_and, readBack]
    rw [← Collection.findOne_eq_none_iff ready filter projection]
    cases found : (after.findOne filter projection).1 with
    | error error => simp [storeFailure]
    | ok shown =>
      cases shown with
      | none => simp [missed]
      | some document => simp

/-- A filter by id. -/
def renameFilter : Fields := [("id", .string "x")]

/-- An instruction that gives another id, and takes a field away. -/
def renameInstruction : Instruction := ⟨some [("id", .string "y")], ["n"], none, none⟩

/-- The start of time. -/
def renameTime : Timestamp := ⟨0, 0⟩

/-- A document that the filter selects. -/
def renameDocument : Json := .object [("id", .string "x"), ("n", .bool true)]

/-- The document alone, to be patched. -/
def renamePatcher : Patcher := .start (.ofDocuments [renameDocument]) .standard

/-- The operation that sets the fields. -/
def renameSet : Operation :=
  ⟨renameFilter, Update.set [("id", .string "y"), ("updatedAt", .string renameTime.text)], []⟩

/-- The operation that takes the field away. -/
def renameUnset : Operation := ⟨renameFilter, Update.unset ["n"], []⟩

/-- The batch of the instruction. -/
def renameBatch : List Operation := [renameSet, renameUnset]

/-- The document after the batch, which did not take the field away. -/
def renameResult : Json :=
  .object [("id", .string "y"), ("n", .bool true), ("updatedAt", .string renameTime.text)]

theorem plan_rename :
    renamePatcher.plan renameFilter renameInstruction renameTime = .ok renameBatch :=
  rfl

theorem unselected_rename : Query.satisfies renameResult renameFilter = false := by decide +kernel

theorem applyTo_renameSet : (renameSet.applyTo renameDocument).map Prod.fst = .ok renameResult := by
  rfl

theorem result_rename : result renameBatch renameDocument = .ok renameResult := by
  -- The second operation no longer selects what the first one leaves.
  have settled : renameUnset.Settled renameResult :=
    Operation.settled_of_implies (fun selected => selected) unselected_rename
  rw [renameBatch, Operation.result_cons, applyTo_renameSet, Except.bind, settled.result_cons]
  rfl

/-- The batch of the instruction commits. -/
theorem bulkUpdate_rename : ∃ outcome after,
    renamePatcher.collection.bulkUpdate renameBatch = (.ok outcome, after) ∧
      after.documents = [renameResult] := by
  -- On a single document the batch is a run, and what the run leaves was computed above.
  obtain ⟨ran, done, same⟩ := map_eq_ok.mp result_rename
  have applied := Operation.applyBatch_singleton renameBatch renameDocument
  rw [done, Except.map, same] at applied
  exact ⟨ran.2, _, Collection.bulkUpdate_eq_ok.mpr ⟨rfl, [renameResult], applied, rfl⟩, rfl⟩

/-- What a committed patch reaches: a document that the filter selects is selected by all operations
    with just that filter if the last of them still finds it so, as it does when the filter selects
    what became of the document. The read fails just where the filter selected some document and
    selects none of those that are left. -/
theorem patch_reaches_iff (lasting : patcher.collection.vanishing = false)
    (planned : patcher.plan filter instruction time = .ok batch)
    (committed : patcher.collection.bulkUpdate batch = (.ok outcome, after)) :
    (∀ document ∈ patcher.collection.documents, Query.satisfies document filter = true →
      (MeetsAll filter batch document ↔ MeetsLast filter batch document) ∧
      ∃ left ∈ after.documents, result batch document = .ok left ∧
        (Query.satisfies left filter = true → MeetsAll filter batch document)) ∧
    ((∃ target, (patcher.patch filter instruction projection time).1 =
        .error (.notFound .get target)) ↔
      (∃ document ∈ patcher.collection.documents, Query.satisfies document filter = true) ∧
        ∀ document ∈ after.documents, Query.satisfies document filter = false) := by
  -- Both questions are about the base filter: before each operation, and after them all.
  have compiled := plan_eq_ok planned
  have within := Patch.operations_within compiled
  obtain ⟨-, left, applied, stands⟩ := Collection.bulkUpdate_eq_ok.mp committed
  have documents : after.documents = left := by simp [stands, lasting]
  constructor
  · -- Each document goes through the batch alone.
    intro document member _
    obtain ⟨became, among, done⟩ := Operation.exists_result_of_mem applied member
    exact ⟨Operation.meetsAll_iff within done, became, documents ▸ among, done,
      MeetsAll.of_selected within done⟩
  · -- The first operation counts all that the filter selects.
    obtain ⟨first, rest, rfl, own⟩ := Patch.operations_cons compiled
    rw [patch_missed_get_iff planned committed, ne_eq,
      Operation.matched_eq_zero_iff own within applied]
    simp

/-- What the renaming of a document reaches. -/
theorem patch_reaches_iff_rename : ∃ outcome after,
    renamePatcher.collection.bulkUpdate renameBatch = (.ok outcome, after) ∧
      (MeetsAll renameFilter renameBatch renameDocument ↔
        MeetsLast renameFilter renameBatch renameDocument) ∧
      ((∃ target, (renamePatcher.patch renameFilter renameInstruction none renameTime).1 =
          .error (.notFound .get target)) ↔
        (∃ document ∈ renamePatcher.collection.documents,
          Query.satisfies document renameFilter = true) ∧
          ∀ document ∈ after.documents, Query.satisfies document renameFilter = false) := by
  -- The batch was computed above, and the document is selected before it.
  obtain ⟨outcome, after, committed, -⟩ := bulkUpdate_rename
  have reaches := @patch_reaches_iff _ _ _ none _ _ _ _ rfl plan_rename committed
  have selected : Query.satisfies renameDocument renameFilter = true := by decide +kernel
  exact ⟨outcome, after, committed,
    (reaches.1 renameDocument (List.mem_singleton_self _) selected).1, reaches.2⟩

/-- A patch that gives its document another id stops in the middle and reports it as missing,
    although the document is there. -/
theorem patch_loses_renamed :
    renamePatcher.plan renameFilter renameInstruction renameTime = .ok renameBatch ∧
      Query.satisfies renameDocument renameFilter = true ∧
      ¬ MeetsAll renameFilter renameBatch renameDocument ∧
      ∃ outcome after, renamePatcher.collection.bulkUpdate renameBatch = (.ok outcome, after) ∧
        after.documents = [renameResult] ∧
        ∃ target, (renamePatcher.patch renameFilter renameInstruction none renameTime).1 =
          .error (.notFound .get target) := by
  have selected : Query.satisfies renameDocument renameFilter = true := by decide +kernel
  refine ⟨plan_rename, selected, fun all => ?_, ?_⟩
  · -- The first operation has given the document the other id when the second one comes.
    have first : result [renameSet] renameDocument = .ok renameResult := by
      rw [Operation.result_cons, applyTo_renameSet]
      rfl
    have still := all [renameSet] renameUnset [] renameResult rfl rfl first
    exact absurd (unselected_rename.symm.trans still) (by decide)
  · obtain ⟨outcome, after, committed, left⟩ := bulkUpdate_rename
    obtain ⟨-, documents, applied, -⟩ := Collection.bulkUpdate_eq_ok.mp committed
    have within := Patch.operations_within (plan_eq_ok plan_rename)
    refine ⟨outcome, after, committed, left,
      (patch_missed_get_iff plan_rename committed).mpr ⟨?_, ?_⟩⟩
    · -- The document was matched by the first operation.
      intro none
      have missed := (Operation.matched_eq_zero_iff rfl within applied).mp none renameDocument
        (List.mem_singleton_self _)
      exact absurd (missed.symm.trans selected) (by decide)
    · -- What is left is the renamed document, which the filter does not select.
      intro document member
      rw [left, List.mem_singleton] at member
      rw [member, unselected_rename]

end Patcher

end DocPatch
