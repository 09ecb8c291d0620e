import DocPatch.Proofs.Related
import DocPatch.Proofs.Store.Outcome

/-! Batches document by document: each document goes through the operations on its own. -/

namespace DocPatch

namespace Operation

/-- Carries a batch out on one document. -/
def run : List Operation → Json → Except UpdateError (Json × Outcome)
  | [], document => .ok (document, .zero)
  | operation :: rest, document => do
    -- The next operation meets the document as this one left it.
    let (document, first) ← operation.applyTo document
    let (document, later) ← run rest document
    return (document, first.add later)

/-- Two steps in turn succeed when the first one does, and the second one on what it left; what they
    count is added up. -/
theorem inTurn_eq_ok {α β : Type} {one : Except UpdateError (α × Outcome)}
    {other : α → Except UpdateError (β × Outcome)} {after : β} {outcome : Outcome} :
    (do
      let (between, first) ← one
      let (last, later) ← other between
      return (last, first.add later)) = Except.ok (after, outcome) ↔
      ∃ between first later, one = .ok (between, first) ∧ other between = .ok (after, later) ∧
        outcome = first.add later := by
  -- Both bindings are opened, and what they hand on is given its names.
  simp only [bind_eq_ok, pure_eq_ok, Except.ok.injEq, Prod.mk.injEq, Prod.exists]
  constructor
  · intro given
    obtain ⟨between, first, here, _, later, there, rfl, rfl⟩ := given
    exact ⟨between, first, later, here, there, rfl⟩
  · intro given
    obtain ⟨between, first, later, here, there, rfl⟩ := given
    exact ⟨between, first, here, after, later, there, rfl, rfl⟩

/-- A run starts with its first operation. -/
theorem run_cons_ok {operation : Operation} {rest : List Operation} {document after : Json}
    {outcome : Outcome} :
    run (operation :: rest) document = .ok (after, outcome) ↔
      ∃ between first later, operation.applyTo document = .ok (between, first) ∧
        run rest between = .ok (after, later) ∧ outcome = first.add later :=
  -- The second step is the rest of the batch.
  inTurn_eq_ok

/-- A run of two parts is a run of the second part on what the first one left. -/
theorem run_append_ok {first second : List Operation} {document after : Json} {outcome : Outcome} :
    run (first ++ second) document = .ok (after, outcome) ↔
      ∃ between here there, run first document = .ok (between, here) ∧
        run second between = .ok (after, there) ∧ outcome = here.add there := by
  -- The operations of the first part are carried out one after the other.
  induction first generalizing document outcome with
  | nil => simp [run]
  | cons operation rest ih =>
    simp only [List.cons_append, run_cons_ok, ih]
    constructor
    · intro given
      obtain ⟨reached, mine, _, one, ⟨between, here, there, head, tail, rfl⟩, rfl⟩ := given
      exact ⟨between, mine.add here, there, ⟨reached, mine, here, one, head, rfl⟩, tail,
        (Outcome.add_assoc ..).symm⟩
    · intro given
      obtain ⟨between, _, there, ⟨reached, mine, here, one, head, rfl⟩, tail, rfl⟩ := given
      exact ⟨reached, mine, here.add there, one, ⟨between, here, there, head, tail, rfl⟩,
        Outcome.add_assoc ..⟩

/-- A run fails with an error of an update of one of its operations. -/
theorem exists_of_run_error {batch : List Operation} {document : Json} {error : UpdateError}
    (failed : run batch document = .error error) :
    ∃ operation ∈ batch, ∃ between,
      Update.apply operation.arrayFilters operation.update between = .error error := by
  -- The first operation fails, or one of the others on what it left.
  induction batch generalizing document with
  | nil => simp [run] at failed
  | cons operation rest ih =>
    rw [run, bind_eq_error] at failed
    rcases failed with here | ⟨between, -, later⟩
    · -- An operation that does not select the document cannot fail.
      unfold applyTo at here
      split at here
      · rcases bind_eq_error.mp here with refused | ⟨changed, -, impossible⟩
        · exact ⟨operation, by simp, document, refused⟩
        · simp at impossible
      · simp at here
    · rcases bind_eq_error.mp later with there | ⟨left, -, impossible⟩
      · obtain ⟨other, member, found⟩ := ih there
        exact ⟨other, by simp [member], found⟩
      · simp at impossible

/-- The document that a batch leaves. -/
def result (batch : List Operation) (document : Json) : Except UpdateError Json :=
  (run batch document).map Prod.fst

@[simp] theorem result_nil (document : Json) : result [] document = .ok document := rfl

/-- The first operation leaves a document for the others. -/
theorem result_cons (operation : Operation) (rest : List Operation) (document : Json) :
    result (operation :: rest) document =
      ((operation.applyTo document).map Prod.fst).bind (result rest) := by
  -- The outcomes do not matter for the document.
  simp only [result, run]
  cases operation.applyTo document with
  -- An operation that fails leaves nothing for the others.
  | error error => rfl
  | ok between =>
    cases ran : run rest between.1 <;>
      simp [result, ran, Bind.bind, Except.bind, Except.map, Pure.pure, Except.pure]

/-- A batch in two parts leaves what the second part leaves of what the first part left. -/
theorem result_append (first second : List Operation) (document : Json) :
    result (first ++ second) document = (result first document).bind (result second) := by
  -- An error of the first part is an error of the whole.
  induction first generalizing document with
  | nil => rfl
  | cons operation rest ih =>
    rw [List.cons_append, result_cons, result_cons]
    cases operation.applyTo document with
    | error error => rfl
    -- What the first operation left goes through the rest of both parts.
    | ok between => exact ih between.1

/-- An operation is carried out on one document and then on the others. -/
theorem applyAll_cons_ok {operation : Operation} {document : Json} {rest left : List Json}
    {outcome : Outcome} :
    operation.applyAll (document :: rest) = .ok (left, outcome) ↔
      ∃ after here others there, operation.applyTo document = .ok (after, here) ∧
        operation.applyAll rest = .ok (others, there) ∧ left = after :: others ∧
        outcome = here.add there := by
  -- The outcomes on the first document and on the others are added up.
  simp only [applyAll, bind_eq_ok, pure_eq_ok, Except.ok.injEq, Prod.mk.injEq, Prod.exists]
  constructor
  · intro given
    obtain ⟨after, here, first, others, there, later, rfl, rfl⟩ := given
    exact ⟨after, here, others, there, first, later, rfl, rfl⟩
  · intro given
    obtain ⟨after, here, others, there, first, later, rfl, rfl⟩ := given
    exact ⟨after, here, first, others, there, later, rfl, rfl⟩

/-- A batch starts with its first operation. -/
theorem applyBatch_cons_ok {operation : Operation} {batch : List Operation}
    {documents left : List Json} {outcome : Outcome} :
    applyBatch (operation :: batch) documents = .ok (left, outcome) ↔
      ∃ between first later, operation.applyAll documents = .ok (between, first) ∧
        applyBatch batch between = .ok (left, later) ∧ outcome = first.add later :=
  -- The second step is the rest of the batch.
  inTurn_eq_ok

/-- A batch does nothing to no documents. -/
@[simp] theorem applyBatch_nil (batch : List Operation) :
    applyBatch batch [] = .ok ([], .zero) := by
  -- No operation finds a document.
  induction batch with
  | nil => rfl
  | cons operation batch ih =>
    simp [applyBatch, applyAll, ih, Bind.bind, Except.bind]

/-- The operations run outside and the documents inside, but every document only meets the
    operations in their order. -/
theorem applyBatch_document_ok {batch : List Operation} {document : Json} {rest left : List Json}
    {outcome : Outcome} :
    applyBatch batch (document :: rest) = .ok (left, outcome) ↔
      ∃ after here others there, run batch document = .ok (after, here) ∧
        applyBatch batch rest = .ok (others, there) ∧ left = after :: others ∧
        outcome = here.add there := by
  -- The induction moves one operation at a time past all documents but the first.
  induction batch generalizing document rest left outcome with
  -- Without operations every document stays, and nothing is counted.
  | nil =>
    simp only [applyBatch, run, Except.ok.injEq, Prod.mk.injEq]
    constructor
    · intro given
      obtain ⟨rfl, rfl⟩ := given
      exact ⟨document, .zero, rest, .zero, ⟨rfl, rfl⟩, ⟨rfl, rfl⟩, rfl, by simp⟩
    · intro given
      obtain ⟨_, _, _, _, ⟨rfl, rfl⟩, ⟨rfl, rfl⟩, rfl, rfl⟩ := given
      exact ⟨rfl, by simp⟩
  -- The first operation meets the first document and the others; so does the rest of the batch.
  | cons operation batch ih =>
    simp only [applyBatch_cons_ok, applyAll_cons_ok, run_cons_ok]
    constructor
    · -- From the batch to the document: its part of each operation is taken together.
      intro given
      obtain ⟨_, _, later, ⟨next, first, nexts, firsts, head, heads, rfl, rfl⟩, remaining, rfl⟩ :=
        given
      obtain ⟨after, here, others, there, mine, theirs, rfl, rfl⟩ := ih.mp remaining
      exact ⟨after, first.add here, others, firsts.add there, ⟨next, first, here, head, mine, rfl⟩,
        ⟨nexts, firsts, there, heads, theirs, rfl⟩, rfl, Outcome.add_add_add_comm ..⟩
    · -- From the document to the batch: each operation is put together again.
      intro given
      obtain ⟨after, _, others, _, ⟨next, first, here, head, mine, rfl⟩, ⟨nexts, firsts, there,
        heads, theirs, rfl⟩, rfl, rfl⟩ := given
      exact ⟨next :: nexts, first.add firsts, here.add there,
        ⟨next, first, nexts, firsts, head, heads, rfl, rfl⟩,
        ih.mpr ⟨after, here, others, there, mine, theirs, rfl, rfl⟩,
        Outcome.add_add_add_comm ..⟩

/-- On one document a batch is a run. -/
theorem applyBatch_singleton (batch : List Operation) (document : Json) :
    applyBatch batch [document] = (run batch document).map fun ran => ([ran.1], ran.2) := by
  -- Each operation goes through the one document and ends.
  induction batch generalizing document with
  | nil => rfl
  | cons operation batch ih =>
    simp only [applyBatch, applyAll, run]
    cases operation.applyTo document with
    | error error => rfl
    | ok between =>
      -- The other operations meet what the first one left, and only that.
      have later := ih between.1
      simp only [Bind.bind, Except.bind, Pure.pure, Except.pure, Outcome.add_zero, later]
      cases run batch between.1 <;> rfl

/-- An operation that finds nothing to change in a document. -/
def Settled (operation : Operation) (document : Json) : Prop :=
  ∃ matched, operation.applyTo document = .ok (document, ⟨matched, 0⟩)

/-- A run of settled operations leaves the document and reports no change. -/
theorem run_of_settled {batch : List Operation} {document : Json}
    (settled : ∀ operation ∈ batch, operation.Settled document) :
    ∃ matched, run batch document = .ok (document, ⟨matched, 0⟩) := by
  -- What the first operation leaves is the document itself.
  induction batch with
  | nil => exact ⟨0, rfl⟩
  | cons operation rest ih =>
    -- Only what the operations matched is added up.
    obtain ⟨first, here⟩ := settled operation (by simp)
    obtain ⟨later, there⟩ := ih fun other member => settled other (by simp [member])
    exact ⟨first + later, run_cons_ok.mpr ⟨document, _, _, here, there, rfl⟩⟩

/-- A batch that is settled on every document leaves them all and reports no change. -/
theorem applyBatch_of_settled {batch : List Operation} {documents : List Json}
    (settled : ∀ document ∈ documents, ∀ operation ∈ batch, operation.Settled document) :
    ∃ matched, applyBatch batch documents = .ok (documents, ⟨matched, 0⟩) := by
  -- Document by document, every operation leaves what it finds.
  induction documents with
  | nil => exact ⟨0, by simp [Outcome.zero]⟩
  | cons document rest ih =>
    obtain ⟨first, here⟩ := run_of_settled (settled document (by simp))
    obtain ⟨later, there⟩ := ih fun other member => settled other (by simp [member])
    exact ⟨first + later, applyBatch_document_ok.mpr ⟨_, _, _, _, here, there, rfl, rfl⟩⟩

/-- Every document of a batch that succeeded went through its operations alone. -/
theorem forall₂_run_of_applyBatch {batch : List Operation} {documents left : List Json}
    {outcome : Outcome} (done : applyBatch batch documents = .ok (left, outcome)) :
    List.Forall₂ (fun before after => ∃ here, run batch before = .ok (after, here))
      documents left := by
  -- The first document can always be split off.
  induction documents generalizing left outcome with
  | nil =>
    simp only [applyBatch_nil, Except.ok.injEq, Prod.mk.injEq] at done
    simp [← done.1]
  | cons document rest ih =>
    obtain ⟨after, here, others, there, mine, theirs, rfl, -⟩ := applyBatch_document_ok.mp done
    exact .cons ⟨here, mine⟩ (ih theirs)

/-- What operations make of a document in order: one whose filter selects the document updates it,
    and any other passes it by. -/
inductive Yields : List Operation → Json → Json → Prop where
  | nil (document : Json) : Yields [] document document
  | selected {operation : Operation} {rest : List Operation} {document between after : Json}
      {changed : Bool} (selects : Query.satisfies document operation.filter = true)
      (updated : Update.apply operation.arrayFilters operation.update document =
        .ok (between, changed))
      (later : Yields rest between after) : Yields (operation :: rest) document after
  | passed {operation : Operation} {rest : List Operation} {document after : Json}
      (misses : Query.satisfies document operation.filter = false)
      (later : Yields rest document after) : Yields (operation :: rest) document after

/-- An operation leaves what its update makes of a document that it selects, and any other document
    as it is. -/
theorem applyTo_left (operation : Operation) (document : Json) :
    (operation.applyTo document).map Prod.fst =
      if Query.satisfies document operation.filter then
        (Update.apply operation.arrayFilters operation.update document).map Prod.fst
      else .ok document := by
  -- The filter decides whether the update is looked at; what is counted does not matter.
  unfold applyTo
  split
  · cases Update.apply operation.arrayFilters operation.update document <;> rfl
  · rfl

/-- Operations yield just what they leave as a batch. -/
theorem yields_iff {batch : List Operation} {before after : Json} :
    Yields batch before after ↔ result batch before = .ok after := by
  constructor
  · -- The induction follows the operations; each step opens the first one of the batch.
    intro yielded
    induction yielded with
    | nil document => rfl
    | selected selects updated _ ih =>
      rw [result_cons, applyTo_left, if_pos selects, updated]
      exact ih
    | passed misses _ ih =>
      rw [result_cons, applyTo_left, misses]
      exact ih
  · -- The other way round, the filter of the first operation says which step is taken.
    intro left
    induction batch generalizing before with
    | nil =>
      obtain rfl := Except.ok.inj left
      exact .nil before
    | cons operation rest ih =>
      rw [result_cons, applyTo_left] at left
      split at left
      case isTrue selects =>
        obtain ⟨between, reached, later⟩ := bind_eq_ok.mp left
        obtain ⟨⟨_, changed⟩, updated, rfl⟩ := map_eq_ok.mp reached
        exact .selected selects updated (ih later)
      case isFalse misses => exact .passed (by simpa using misses) (ih left)

/-- A batch that succeeded leaves, document by document, what its operations yield. -/
theorem forall₂_yields_of_applyBatch {batch : List Operation} {documents left : List Json}
    {outcome : Outcome} (done : applyBatch batch documents = .ok (left, outcome)) :
    List.Forall₂ (Yields batch) documents left :=
  -- Each document ran through the batch on its own.
  (forall₂_run_of_applyBatch done).imp fun _ _ ⟨_, ran⟩ =>
    yields_iff.mpr (map_eq_ok.mpr ⟨_, ran, rfl⟩)

/-- Every document that a batch leaves is what one of the documents became on its own. -/
theorem exists_before_of_mem {batch : List Operation} {documents left : List Json}
    {outcome : Outcome} (done : applyBatch batch documents = .ok (left, outcome)) {after : Json}
    (member : after ∈ left) : ∃ before ∈ documents, result batch before = .ok after := by
  -- The document stands in a pair with the one that it came from.
  obtain ⟨before, among, here, ran⟩ := exists_related (forall₂_run_of_applyBatch done) member
  exact ⟨before, among, map_eq_ok.mpr ⟨_, ran, rfl⟩⟩

/-- Every document of a batch that succeeded has become something on its own. -/
theorem exists_result_of_mem {batch : List Operation} {documents left : List Json}
    {outcome : Outcome} (done : applyBatch batch documents = .ok (left, outcome)) {document : Json}
    (member : document ∈ documents) : ∃ after ∈ left, result batch document = .ok after := by
  -- The relation between the documents before and after is read the other way round.
  obtain ⟨after, among, here, ran⟩ :=
    exists_related (forall₂_run_of_applyBatch done).flip member
  exact ⟨after, among, map_eq_ok.mpr ⟨_, ran, rfl⟩⟩

end Operation

namespace Collection

/-- A call succeeds when no failure was asked for and the batch succeeds on the documents; they are
    left as they became, or have vanished. -/
theorem bulkUpdate_eq_ok {collection after : Collection} {batch : List Operation}
    {outcome : Outcome} :
    collection.bulkUpdate batch = (.ok outcome, after) ↔ collection.failure = none ∧
      ∃ left, Operation.applyBatch batch collection.documents = .ok (left, outcome) ∧
        after = ⟨if collection.vanishing then [] else left, collection.batches ++ [batch], none,
          false⟩ := by
  -- A failure that was asked for comes first, and then one of the batch.
  rw [bulkUpdate]
  cases ready : collection.failure with
  -- A call that was made to fail does not run the batch.
  | some message => simp
  | none =>
    cases applied : Operation.applyBatch batch collection.documents with
    -- An error of the batch is the error of the call.
    | error error => simp
    -- The call reports the outcome of the batch and keeps the batch.
    | ok changed =>
      rcases changed with ⟨left, counted⟩
      simp only [Prod.mk.injEq, Except.ok.injEq, true_and]
      constructor
      · intro given
        obtain ⟨rfl, rfl⟩ := given
        exact ⟨left, ⟨rfl, rfl⟩, rfl⟩
      · intro given
        obtain ⟨_, ⟨rfl, rfl⟩, rfl⟩ := given
        exact ⟨rfl, rfl⟩

/-- On one document a call does what a run does, and keeps the document if the run fails. -/
theorem bulkUpdate_singleton (batch : List Operation) (document : Json)
    (batches : List (List Operation)) :
    (mk [document] batches none false).bulkUpdate batch =
      match Operation.run batch document with
      | .ok left => (.ok left.2, ⟨[left.1], batches ++ [batch], none, false⟩)
      | .error error =>
        (.error (.update error), ⟨[document], batches ++ [batch], none, false⟩) := by
  -- With one document there is nothing to gather.
  simp only [bulkUpdate, Operation.applyBatch_singleton]
  cases Operation.run batch document <;> rfl

/-- A run that leaves a document makes a call on that document succeed. -/
theorem bulkUpdate_of_result {batch : List Operation} {document after : Json}
    (left : Operation.result batch document = .ok after) (batches : List (List Operation)) :
    ∃ outcome, (mk [document] batches none false).bulkUpdate batch =
      (.ok outcome, ⟨[after], batches ++ [batch], none, false⟩) := by
  -- A run that leaves a document has an outcome, too.
  obtain ⟨⟨reached, outcome⟩, ran, rfl⟩ := map_eq_ok.mp left
  exact ⟨outcome, by rw [bulkUpdate_singleton, ran]⟩

end Collection

end DocPatch
