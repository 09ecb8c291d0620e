import DocPatch.Failure
import DocPatch.Json.Printer
import DocPatch.Plan.Patch

/-! Patches applied to a collection: planned, written as one batch, and read back. -/

namespace DocPatch

/-- How patches are made: the field that takes the time of modification, the length of time from
    which a patch counts as slow, and whether the clock is one of its own. -/
structure Settings where
  timestampField : String
  slowThreshold : Span
  hasClock : Bool

namespace Settings

/-- The settings where nothing else is asked for. -/
def standard : Settings := ⟨"updatedAt", .ofMilliseconds 500, false⟩

/-- The diagnostic form of the settings; a clock is only mentioned. -/
def diagnostic (settings : Settings) : String :=
  let clock := if settings.hasClock then Quoted.tagged "Some" (Quoted.quote "custom") else "None"
  Quoted.record "PatchConfig" [("timestamp_field", Quoted.quote settings.timestampField),
    ("slow_patch_threshold", settings.slowThreshold.text), ("clock", clock)]

end Settings

/-- A collection to be patched, the settings, and what was counted so far. -/
structure Patcher where
  collection : Collection
  counters : Counters
  settings : Settings

namespace Patcher

/-- A patcher that has counted nothing. -/
def start (collection : Collection) (settings : Settings) : Patcher := ⟨collection, .zero, settings⟩

/-- The failure to find the document of a filter. -/
def missed (phase : Phase) (filter : Fields) : Failure :=
  .notFound phase (Json.object filter).compact

/-- The failure of a store call; its time is not part of the answer. -/
def storeFailure (error : StoreError) : Failure := .store error.message 0 (.raised error)

/-- The operations of a patch at a time. -/
def plan (filter : Fields) (instruction : Instruction) (time : Timestamp) (patcher : Patcher) :
    Except Failure (List Operation) :=
  (Patch.operations filter instruction patcher.settings.timestampField time).mapError
    fun error => .unsupportedShape error.path

/-- Reads the document back after a batch of so many operations. -/
def readBack (filter : Fields) (projection : Option Fields) (operations : Nat) (patcher : Patcher) :
    Except Failure Json × Patcher :=
  let (found, collection) := patcher.collection.findOne filter projection
  let patcher := { patcher with collection }
  match found with
  | .error error =>
    (.error (storeFailure error), { patcher with counters := patcher.counters.countFailure })
  -- The patch has been written, but the filter finds nothing any more.
  | .ok none =>
    (.error (missed .get filter), { patcher with counters := patcher.counters.countMiss .get })
  | .ok (some document) =>
    (.ok document, { patcher with counters := patcher.counters.countPatch operations })

/-- Writes a batch and, if it matched a document, reads it back. -/
def write (filter : Fields) (projection : Option Fields) (batch : List Operation)
    (patcher : Patcher) : Except Failure Json × Patcher :=
  let (outcome, collection) := patcher.collection.bulkUpdate batch
  let patcher := { patcher with collection }
  match outcome with
  | .error error =>
    (.error (storeFailure error), { patcher with counters := patcher.counters.countFailure })
  | .ok outcome =>
    -- A patch that matched nothing is a miss, and there is nothing to read back.
    if outcome.matched = 0 then
      let counters := patcher.counters.countMiss .patch
      (.error (missed .patch filter), { patcher with counters })
    else patcher.readBack filter projection batch.length

/-- Patches the documents of a filter and shows the first of them; every attempt is counted once. -/
def patch (filter : Fields) (instruction : Instruction) (projection : Option Fields)
    (time : Timestamp) (patcher : Patcher) : Except Failure Json × Patcher :=
  match patcher.plan filter instruction time with
  | .error failure => (.error failure, { patcher with counters := patcher.counters.countFailure })
  | .ok batch => patcher.write filter projection batch

end Patcher

end DocPatch
