import DocPatch.Guard

/-! The arrays that the walk through an instruction tree reaches. -/

namespace DocPatch

/-- An array reached by the walk: which documents it belongs to, where it stands, which elements
    were entered on the way, and the aliases they have. -/
structure Site where
  base : Fields
  field : String
  /-- The path without placeholders. -/
  logicalPath : String
  /-- The path of the element that holds the array, with placeholders. -/
  elementPath : String
  ancestry : Ancestry
  inherited : List AliasFilter

namespace Site

/-- The array at a field of the document. -/
def root (base : Fields) (field : String) : Site := ⟨base, field, field, "", [], []⟩

/-- The path of the array. -/
def path (site : Site) : String := Path.join site.elementPath site.field

/-- A field name cut down to an alias: ASCII letters and digits, a lower-case letter first. -/
def aliasStem (field : String) : String :=
  match field.toList.filter Char.isAlphanum with
  | [] => "a"
  | first :: rest =>
    -- An alias may not start with a digit, so a letter is put in front of it.
    if first.isDigit then String.ofList ('a' :: first :: rest)
    else String.ofList (first.toLower :: rest)

/-- The names an alias may take, in order of preference. Behind the first there is one more than
    there are aliases to avoid, so one of them is free. -/
def aliasCandidates (site : Site) : List String :=
  let stem := aliasStem site.field
  let numbered := stem ++ toString site.ancestry.length
  stem :: numbered :: (List.range site.inherited.length).map fun k => numbered ++ toString (k + 1)

/-- The alias of the elements of the array: the first candidate that no entered element has. -/
def aliasName (site : Site) : String :=
  let taken := site.inherited.map AliasFilter.aliasName
  (site.aliasCandidates.find? fun name => !taken.contains name).getD ""

/-- The path of the elements under an alias, or of all elements. -/
def memberPath (site : Site) (aliasName : Option String) : String :=
  Path.join site.path (match aliasName with
    | some aliasName => Path.selected aliasName
    | none => Path.everyElement)

end Site

end DocPatch
