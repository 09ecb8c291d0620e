import DocPatch.Text.Quoted

/-! Why a file cannot be read. -/

namespace DocPatch

/-- Why the system refuses a file. -/
inductive SystemError where
  /-- There is no such file. -/
  | missing
  /-- The file may not be read. -/
  | denied
  /-- A file stands where the path wants a directory. -/
  | notDirectory
  /-- What stands there is a directory. -/
  | directory
  /-- The path, or a name on it, is longer than the system takes. -/
  | nameTooLong
  deriving DecidableEq, Repr

/-- Why a file cannot be read: the system refuses it, its bytes are no text, or a fault of another
    kind. -/
inductive FileError where
  | system (cause : SystemError)
  | notText
  | custom (kind message : String)
  deriving DecidableEq, Repr

namespace SystemError

/-- The number of the error. -/
def code : SystemError → Nat
  | .missing => 2
  | .denied => 13
  | .notDirectory => 20
  | .directory => 21
  | .nameTooLong => 36

/-- The name of the kind of error. -/
def kind : SystemError → String
  | .missing => "NotFound"
  | .denied => "PermissionDenied"
  | .notDirectory => "NotADirectory"
  | .directory => "IsADirectory"
  | .nameTooLong => "InvalidFilename"

/-- The words of the error. -/
def message : SystemError → String
  | .missing => "No such file or directory"
  | .denied => "Permission denied"
  | .notDirectory => "Not a directory"
  | .directory => "Is a directory"
  | .nameTooLong => "File name too long"

end SystemError

namespace FileError

/-- The words for bytes that are no text. -/
def notTextMessage : String := "stream did not contain valid UTF-8"

/-- A fault without a kind of its own. -/
def other (message : String) : FileError := .custom "Other" message

/-- The words of the error. -/
def message : FileError → String
  | .system cause => cause.message ++ " (os error " ++ toString cause.code ++ ")"
  | .notText => notTextMessage
  | .custom _ message => message

/-- The diagnostic form of the error. -/
def diagnostic : FileError → String
  | .system cause =>
    Quoted.record "Os" [("code", toString cause.code), ("kind", cause.kind),
      ("message", Quoted.quote cause.message)]
  | .notText =>
    Quoted.record "Error" [("kind", "InvalidData"), ("message", Quoted.quote notTextMessage)]
  | .custom kind message =>
    Quoted.record "Custom" [("kind", kind), ("error", Quoted.quote message)]

end FileError

end DocPatch
