import DocPatch.File.Error
import DocPatch.Path

/-! A working directory that is held in memory, and the way from a path to a file in it. -/

namespace DocPatch

/-- The files of a working directory, by name. -/
structure Directory where
  files : List (String × String)

namespace Directory

/-- Where a walk along a path has come to. Nothing outside the directory has a known name. -/
inductive Place where
  | inside
  | outside
  | file (text : String)

/-- The most bytes that a name may have. -/
def nameLimit : Nat := 255

/-- The most bytes that a path may have. -/
def pathLimit : Nat := 4095

/-- Whether a name stays where it is. -/
def isHere (name : String) : Bool := name.isEmpty || name = "."

/-- Goes on from a directory to what has a name there. -/
def enter (name : String) (found? : Option String) : Except SystemError Place :=
  -- The length of a name is looked at before the name itself.
  if name.utf8ByteSize > nameLimit then .error .nameTooLong
  else
    match found? with
    | some text => .ok (.file text)
    | none => .error .missing

/-- One name further along a path. From a file no name leads on, not even its own place. -/
def step (directory : Directory) (place : Place) (name : String) : Except SystemError Place :=
  match place with
  -- A path may not go on behind a file.
  | .file _ => .error .notDirectory
  | .inside =>
    if isHere name then .ok .inside
    else if name = ".." then .ok .outside
    else enter name (directory.files.lookup name)
  -- Nothing is known of the outside but that it is a directory.
  | .outside => if isHere name || name = ".." then .ok .outside else enter name none

/-- Where a path starts: a leading slash leaves the directory. -/
def start (path : String) : Place := if path.toList.head? = some '/' then .outside else .inside

/-- The text of the file that a path leads to. -/
def fileText (directory : Directory) (path : String) : Except SystemError String := do
  if path.isEmpty then throw .missing
  if path.utf8ByteSize > pathLimit then throw .nameTooLong
  -- A separator at the end asks for a directory, since an empty name follows it.
  let names := (Path.split '/' path.toList).map String.ofList
  match ← names.foldlM directory.step (start path) with
  | .file text => return text
  | _ => throw .directory

end Directory

end DocPatch
