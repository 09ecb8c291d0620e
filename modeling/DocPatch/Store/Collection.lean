import DocPatch.Operation
import DocPatch.Store.Projection
import DocPatch.Store.Update

/-! A collection of documents held in memory. -/

namespace DocPatch

/-- Why the collection refuses a call. -/
inductive StoreError where
  | injected (message : String)
  | update (error : UpdateError)
  | mixedProjection
  deriving DecidableEq, Repr

/-- Documents matched and documents changed, summed over the operations of a batch. Both are
    unbounded here where the counters of a driver have 64 bits: a document counts at most once for
    an operation, so no batch on documents that fit in memory comes near that bound. -/
structure Outcome where
  matched : Nat
  modified : Nat
  deriving DecidableEq, Repr

/-- The documents, every batch received, the message with which the next call is to fail, and
    whether the documents are to vanish after the next successful batch. -/
structure Collection where
  documents : List Json
  batches : List (List Operation)
  failure : Option String
  vanishing : Bool

namespace UpdateError

/-- The words of the error. -/
def message : UpdateError → String
  | .missingFilter aliasName => "no array filter found for identifier `" ++ aliasName ++ "`"
  | .unsupportedOperator operator => "unsupported operator `" ++ operator ++ "`"
  | .notAnArray operator field =>
    "cannot apply " ++ operator ++ " to non-array field `" ++ field ++ "`"

end UpdateError

namespace StoreError

/-- The words of the error. -/
def message : StoreError → String
  | .injected message => message
  | .update error => error.message
  | .mixedProjection => "projection cannot mix inclusion and exclusion"

end StoreError

namespace Outcome

/-- An outcome without documents. -/
def zero : Outcome := ⟨0, 0⟩

/-- The sums of two outcomes. -/
def add (left right : Outcome) : Outcome :=
  ⟨left.matched + right.matched, left.modified + right.modified⟩

end Outcome

namespace Operation

/-- Carries an operation out on a document, if its filter selects it. -/
def applyTo (operation : Operation) (document : Json) : Except UpdateError (Json × Outcome) :=
  if Query.satisfies document operation.filter then do
    -- A document that is selected is matched, whether it changes or not.
    let (document, changed) ← Update.apply operation.arrayFilters operation.update document
    return (document, ⟨1, if changed then 1 else 0⟩)
  else .ok (document, .zero)

/-- Carries an operation out on documents in order. -/
def applyAll (operation : Operation) : List Json → Except UpdateError (List Json × Outcome)
  | [] => .ok ([], .zero)
  | document :: rest => do
    let (document, here) ← operation.applyTo document
    let (rest, there) ← operation.applyAll rest
    return (document :: rest, here.add there)

/-- Carries a batch out in order, each operation on what the earlier ones left. -/
def applyBatch : List Operation → List Json → Except UpdateError (List Json × Outcome)
  | [], documents => .ok (documents, .zero)
  | operation :: rest, documents => do
    -- An error of any operation is the error of the batch.
    let (documents, first) ← operation.applyAll documents
    let (documents, later) ← applyBatch rest documents
    return (documents, first.add later)

end Operation

namespace Collection

/-- A collection of these documents. -/
def ofDocuments (documents : List Json) : Collection := ⟨documents, [], none, false⟩

/-- Also holds a document. -/
def insert (document : Json) (collection : Collection) : Collection :=
  { collection with documents := collection.documents ++ [document] }

/-- Makes the next call fail with a message. -/
def failNext (message : String) (collection : Collection) : Collection :=
  { collection with failure := some message }

/-- Makes the documents vanish after the next successful batch. -/
def vanishAfterNextWrite (collection : Collection) : Collection :=
  { collection with vanishing := true }

/-- Receives a batch and carries it out as a whole or not at all. -/
def bulkUpdate (batch : List Operation) (collection : Collection) :
    Except StoreError Outcome × Collection :=
  -- The batch is logged first, even if nothing comes of it.
  let collection := { collection with batches := collection.batches ++ [batch] }
  match collection.failure with
  | some message => (.error (.injected message), { collection with failure := none })
  | none =>
    match Operation.applyBatch batch collection.documents with
    -- Documents are changed in a copy, which is dropped with the error.
    | .error error => (.error (.update error), collection)
    | .ok (documents, outcome) =>
      let left := if collection.vanishing then [] else documents
      (.ok outcome, { collection with documents := left, vanishing := false })

/-- What a projection shows of a document; an empty one, like none, shows all of it. -/
def show? (projection : Option Fields) (document : Json) : Except StoreError Json :=
  match projection with
  | none | some [] => .ok document
  | some fields =>
    -- The projection can be refused, since it may not both keep and drop.
    match Projection.apply fields document with
    | some shown => .ok shown
    | none => .error .mixedProjection

/-- Finds the first document that a filter selects. -/
def findOne (filter : Fields) (projection : Option Fields) (collection : Collection) :
    Except StoreError (Option Json) × Collection :=
  match collection.failure with
  | some message => (.error (.injected message), { collection with failure := none })
  | none =>
    match collection.documents.find? fun document => Query.satisfies document filter with
    | none => (.ok none, collection)
    -- The projection is looked at only when a document is found.
    | some document => (some <$> show? projection document, collection)

end Collection

end DocPatch
