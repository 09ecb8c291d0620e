import DocPatch.Proofs.Patcher

/-! How a patch ends for the collection: refused before anything is written, undone as a whole, or
    committed as a whole. -/

namespace DocPatch

open Operation (result)

namespace Patcher

/-- What becomes of the collection in a patch. -/
inductive Ending where
  /-- The patch was not even written. -/
  | refused
  /-- The batch was received, and nothing came of it. -/
  | undone
  /-- The batch was carried out. -/
  | committed
  deriving DecidableEq, Repr

/-- The ending that an answer tells. A failure to read the document back comes after the commit. -/
def ending? : Except Failure Json → Option Ending
  | .ok _ => some .committed
  | .error (.unsupportedShape _) => some .refused
  | .error (.notFound .patch _) => some .undone
  | .error (.notFound .get _) => some .committed
  -- A failure that was asked for is spent on the batch and never meets the read.
  | .error (.store _ _ (.raised (.injected _))) => some .undone
  | .error (.store _ _ (.raised (.update _))) => some .undone
  -- Only the read looks at the projection.
  | .error (.store _ _ (.raised .mixedProjection)) => some .committed
  | .error _ => none

/-- What an ending leaves of a collection, by the plan of the patch. A committed batch leaves every
    document in its place, as all operations in order made it. -/
def Ending.Leaves (planned : Except Failure (List Operation)) (before after : Collection) :
    Ending → Prop
  | .refused => (∃ failure, planned = .error failure) ∧ after = before
  -- The batch stays in the log, and a failure that was asked for is spent.
  | .undone => ∃ batch, planned = .ok batch ∧
      after = { before with batches := before.batches ++ [batch], failure := none }
  | .committed => ∃ batch documents, planned = .ok batch ∧
      List.Forall₂ (Operation.Yields batch) before.documents documents ∧
      after = { before with documents, batches := before.batches ++ [batch] }

variable {patcher : Patcher} {filter : Fields} {instruction : Instruction}
  {projection : Option Fields} {time : Timestamp} {batch : List Operation} {outcome : Outcome}

/-- A plan fails for a shape that is not supported. -/
theorem plan_eq_error {failure : Failure}
    (refused : patcher.plan filter instruction time = .error failure) :
    ∃ path, failure = .unsupportedShape path := by
  -- The plan fails where the compiler does, and has no other way to fail.
  unfold plan at refused
  cases compiled : Patch.operations filter instruction patcher.settings.timestampField time with
  | error error => exact ⟨error.path, by simpa [compiled, Except.mapError] using refused.symm⟩
  | ok operations => simp [compiled, Except.mapError] at refused

/-- A batch of a patch that matched nothing has left all documents as they were. -/
theorem unchanged_of_unmatched (planned : patcher.plan filter instruction time = .ok batch)
    {documents left : List Json}
    (applied : Operation.applyBatch batch documents = .ok (left, outcome))
    (none_matched : outcome.matched = 0) : left = documents := by
  -- The first operation would have matched every document that the filter selects.
  have within := Patch.operations_within (plan_eq_ok planned)
  obtain ⟨first, rest, rfl, own⟩ := Patch.operations_cons (plan_eq_ok planned)
  have missed := (Operation.matched_eq_zero_iff own within applied).mp none_matched
  rw [Operation.applyBatch_of_missed within missed] at applied
  exact (Prod.mk.inj (Except.ok.inj applied)).1.symm

/-- Without a failure that was asked for, a document that cannot be shown is the only error of a
    read, and the read leaves the collection. -/
theorem readBack_ends (ready : patcher.collection.failure = none) (operations : Nat) :
    ending? (patcher.readBack filter projection operations).1 = some .committed ∧
      (patcher.readBack filter projection operations).2.collection = patcher.collection := by
  simp only [readBack, Collection.findOne, ready]
  cases patcher.collection.documents.find? fun document => Query.satisfies document filter with
  | none => exact ⟨rfl, rfl⟩
  | some document =>
    -- The document is shown, unless the projection both keeps and drops.
    cases projection with
    | none => exact ⟨rfl, rfl⟩
    | some fields =>
      cases fields with
      | nil => exact ⟨rfl, rfl⟩
      | cons entry rest =>
        simp only [Collection.show?]
        cases Projection.apply (entry :: rest) document <;> exact ⟨rfl, rfl⟩

/-- A batch that was planned is undone or committed as a whole. -/
theorem write_ends (lasting : patcher.collection.vanishing = false)
    (planned : patcher.plan filter instruction time = .ok batch) :
    ∃ ending, ending? (patcher.write filter projection batch).1 = some ending ∧
      ending.Leaves (.ok batch) patcher.collection
        (patcher.write filter projection batch).2.collection := by
  unfold write Collection.bulkUpdate
  cases ready : patcher.collection.failure with
  -- A failure that was asked for is raised before the batch is carried out.
  | some message => exact ⟨.undone, rfl, batch, rfl, rfl⟩
  | none =>
    simp only
    cases applied : Operation.applyBatch batch patcher.collection.documents with
    -- An error of any operation on any document drops what was done to all of them.
    | error error => exact ⟨.undone, rfl, batch, rfl, rfl⟩
    | ok changed =>
      obtain ⟨documents, outcome⟩ := changed
      simp only [lasting, Bool.false_eq_true, ↓reduceIte]
      by_cases none_matched : outcome.matched = 0
      · -- What is kept of a batch that matched nothing are the documents themselves.
        obtain rfl := unchanged_of_unmatched planned applied none_matched
        simp only [none_matched, ↓reduceIte]
        exact ⟨.undone, rfl, batch, rfl, by simp [lasting]⟩
      · simp only [none_matched, ↓reduceIte]
        obtain ⟨told, left⟩ := @readBack_ends
          ⟨⟨documents, patcher.collection.batches ++ [batch], none, false⟩, patcher.counters,
            patcher.settings⟩ filter projection rfl batch.length
        exact ⟨.committed, told, batch, documents, rfl,
          Operation.forall₂_yields_of_applyBatch applied,
          by simp [left, ready, lasting]⟩

/-- Every patch is refused, undone or committed, as its answer tells: a refused one leaves the
    collection, an undone one leaves the documents and the batch in the log, and a committed one
    leaves what all operations made of all documents. -/
theorem patch_ends (lasting : patcher.collection.vanishing = false) :
    ∃ ending, ending? (patcher.patch filter instruction projection time).1 = some ending ∧
      ending.Leaves (patcher.plan filter instruction time) patcher.collection
        (patcher.patch filter instruction projection time).2.collection := by
  -- A patch that was planned is written, and one that was not ends at once.
  unfold patch
  cases planned : patcher.plan filter instruction time with
  | error failure =>
    obtain ⟨path, rfl⟩ := plan_eq_error planned
    exact ⟨.refused, rfl, ⟨_, rfl⟩, rfl⟩
  | ok batch => exact write_ends lasting planned

/-- A document with a text where an array is wanted. -/
def textDocument : Json := .object [("id", .string "x"), ("tags", .string "none")]

/-- A document that is not to be patched. -/
def otherDocument : Json := .object [("id", .string "y"), ("tags", .array [])]

/-- The two documents, to be patched. -/
def textPatcher : Patcher := .start (.ofDocuments [textDocument, otherDocument]) .standard

/-- An instruction that sets a field and adds to the text. -/
def textInstruction : Instruction :=
  ⟨some [("n", .null)], [], some (.object [("tags", .array [.string "b"])]), none⟩

/-- An instruction that puts an array in the place of the text before it adds to it. -/
def arrayInstruction : Instruction :=
  ⟨some [("tags", .array [.string "a"])], [], some (.object [("tags", .array [.string "b"])]), none⟩

/-- The operation that puts the array there. -/
def arraySet : Operation :=
  ⟨renameFilter,
    Update.set [("tags", .array [.string "a"]), ("updatedAt", .string renameTime.text)], []⟩

/-- The operation that adds to it. -/
def arrayAdd : Operation := ⟨renameFilter, Update.addEach "tags" [.string "b"], []⟩

/-- The batch of the instruction. -/
def arrayBatch : List Operation := [arraySet, arrayAdd]

/-- The document with the array. -/
def arrayBetween : Json :=
  .object [("id", .string "x"), ("tags", .array [.string "a"]),
    ("updatedAt", .string renameTime.text)]

/-- The document with the array and what was added to it. -/
def arrayResult : Json :=
  .object [("id", .string "x"), ("tags", .array [.string "a", .string "b"]),
    ("updatedAt", .string renameTime.text)]

theorem plan_array : textPatcher.plan renameFilter arrayInstruction renameTime = .ok arrayBatch :=
  rfl

theorem result_array : result arrayBatch textDocument = .ok arrayResult := by
  -- The first operation puts an array in the place of the text, and the second one adds to it.
  have first : (arraySet.applyTo textDocument).map Prod.fst = .ok arrayBetween := by rfl
  have second : (arrayAdd.applyTo arrayBetween).map Prod.fst = .ok arrayResult := by rfl
  rw [arrayBatch, Operation.result_cons, first, Except.bind, Operation.result_cons, second]
  rfl

theorem result_other : result arrayBatch otherDocument = .ok otherDocument := by
  -- Neither operation selects the document.
  have missed : Query.satisfies otherDocument renameFilter = false := by decide +kernel
  exact Operation.yields_iff.mp (.passed missed (.passed missed (.nil _)))

/-- When the second operation of a patch is refused, nothing is left of the first one. When the
    first one makes way for it, both have changed the one document that the filter selects. -/
theorem patch_ends_text :
    (∃ batch, textPatcher.plan renameFilter textInstruction renameTime = .ok batch ∧
      batch.length = 2 ∧
      (textPatcher.patch renameFilter textInstruction none renameTime).2.collection =
        { textPatcher.collection with batches := [batch] }) ∧
    (textPatcher.patch renameFilter arrayInstruction none renameTime).2.collection =
      ⟨[arrayResult, otherDocument], [arrayBatch], none, false⟩ := by
  constructor
  · -- The answer tells that the patch was undone.
    obtain ⟨ending, told, leaves⟩ :=
      @patch_ends textPatcher renameFilter textInstruction none renameTime rfl
    have undone : ending? (textPatcher.patch renameFilter textInstruction none renameTime).1 =
        some .undone := by decide +kernel
    obtain rfl := Option.some.inj (told.symm.trans undone)
    obtain ⟨batch, planned, after⟩ := leaves
    have two : (textPatcher.plan renameFilter textInstruction renameTime).toOption.map
        List.length = some 2 := by decide +kernel
    rw [planned] at two
    exact ⟨batch, planned, Option.some.inj two, after⟩
  · -- The answer tells that the patch was committed, so each document is what the batch yields.
    obtain ⟨ending, told, leaves⟩ :=
      @patch_ends textPatcher renameFilter arrayInstruction none renameTime rfl
    have committed : ending? (textPatcher.patch renameFilter arrayInstruction none renameTime).1 =
        some .committed := by decide +kernel
    obtain rfl := Option.some.inj (told.symm.trans committed)
    obtain ⟨batch, documents, planned, yielded, after⟩ := leaves
    obtain rfl := Except.ok.inj (plan_array.symm.trans planned)
    obtain - | ⟨first, - | ⟨second, ⟨⟩⟩⟩ := yielded
    obtain rfl := Except.ok.inj (result_array.symm.trans (Operation.yields_iff.mp first))
    obtain rfl := Except.ok.inj (result_other.symm.trans (Operation.yields_iff.mp second))
    exact after

end Patcher

end DocPatch
