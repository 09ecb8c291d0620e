import DocPatch.Counters
import DocPatch.File.Error
import DocPatch.Json.Fault
import DocPatch.Store.Collection

/-! What a patch can fail with, in plain words and in diagnostic form. -/

namespace DocPatch

/-- What a store reported: an error of the collection, or a message of another store. -/
inductive StoreReport where
  | raised (error : StoreError)
  | other (message : String)

/-- A failure, possibly with words on what was being done. -/
inductive Failure where
  | unreadable (error : ReadError)
  | file (error : FileError)
  | notFound (phase : Phase) (target : String)
  | store (message : String) (milliseconds : Nat) (report : StoreReport)
  | unsupportedShape (path : String)
  | during (activity : String) (failure : Failure)

namespace StoreReport

/-- The words of the report. -/
def message : StoreReport → String
  | .raised error => error.message
  | .other message => message

/-- The diagnostic form of the report. -/
def diagnostic : StoreReport → String
  | .raised (.injected message) => Quoted.tagged "Injected" (Quoted.quote message)
  | .raised (.update (.missingFilter aliasName)) =>
    Quoted.tagged "MissingArrayFilter" (Quoted.quote aliasName)
  | .raised (.update (.unsupportedOperator operator)) =>
    Quoted.tagged "UnsupportedOperator" (Quoted.quote operator)
  | .raised (.update (.notAnArray operator field)) =>
    Quoted.record "NotAnArray" [("operator", Quoted.quote operator), ("field", Quoted.quote field)]
  | .raised .mixedProjection => "MixedProjection"
  | .other message => Quoted.quote message

end StoreReport

namespace Failure

/-- The words of a failure. -/
def message : Failure → String
  | .unreadable error => "serialization error: " ++ error.message
  | .file error => "io error: " ++ error.message
  | .notFound phase target => "not found: " ++ phase.word ++ " (" ++ target ++ ")"
  | .store message milliseconds _ =>
    "store error after " ++ toString milliseconds ++ "ms: " ++ message
  | .unsupportedShape path =>
    "unsupported shape at `" ++ path ++ "`: object has nested arrays but no identifying fields"
  | .during activity failure => activity ++ ": " ++ failure.message

/-- The diagnostic form of a failure. -/
def diagnostic : Failure → String
  | .unreadable error => Quoted.tagged "Serde" error.diagnostic
  | .file error => Quoted.tagged "Io" error.diagnostic
  | .notFound phase target =>
    let scope := match phase with
      | .patch => "Patch"
      | .get => "Get"
    Quoted.record "NotFound" [("scope", scope), ("target", Quoted.quote target)]
  | .store message milliseconds report =>
    Quoted.record "Store" [("message", Quoted.quote message),
      ("elapsed_ms", toString milliseconds), ("source", report.diagnostic)]
  | .unsupportedShape path => Quoted.record "UnsupportedShape" [("path", Quoted.quote path)]
  -- The context of a failure is shown around it, at any depth.
  | .during activity failure =>
    Quoted.record "Context" [("context", Quoted.quote activity), ("source", failure.diagnostic)]

/-- The words of everything below a failure, the nearest cause first. -/
def causes : Failure → List String
  | .unreadable error => [error.message]
  | .file error => [error.message]
  | .store _ _ report => [report.message]
  -- Every activity stands in front of what went wrong in it.
  | .during _ failure => failure.message :: failure.causes
  | .notFound _ _ | .unsupportedShape _ => []

/-- In which phase the document was missed, if that is the failure itself. -/
def missedPhase? : Failure → Option Phase
  | .notFound phase _ => some phase
  | _ => none

/-- Whether the failure itself is a missed document. -/
def isNotFound (failure : Failure) : Bool := failure.missedPhase?.isSome

end Failure

end DocPatch
