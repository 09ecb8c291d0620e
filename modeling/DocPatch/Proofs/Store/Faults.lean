import DocPatch.Proofs.Path.Aliases
import DocPatch.Proofs.Store.Outcome
import DocPatch.Proofs.Store.Walk

/-! Why an update is refused: for an alias or an operator that is not known, or for something that
    ought to be an array. -/

namespace DocPatch.Update

/-- The operators that updates are carried out by. -/
def Known (operator : String) : Prop :=
  operator ∈ ["$set", "$unset", "$push", "$addToSet", "$pull"]

/-- The paths of an update, operator by operator. -/
def paths (update : Fields) : List String :=
  update.flatMap fun entry => (entry.2.fields?.getD []).map Prod.fst

/-- An update by one operator at one path has that path. -/
@[simp] theorem paths_single (operator path : String) (argument : Json) :
    paths (Update.single operator path argument) = [path] := rfl

/-- An update that sets fields has their paths. -/
@[simp] theorem paths_set (fields : Fields) : paths (Update.set fields) = fields.map Prod.fst := by
  simp [paths, Update.set, Json.fields?]

/-- Operators that need an array are refused for want of one. -/
theorem arrayAt_error {operator field : String} {fields : Fields} {error : UpdateError}
    (failed : arrayAt operator field fields = .error error) :
    error = .notAnArray operator field := by
  -- A missing field is taken for an empty array.
  cases found : fields.lookup field with
  | none => simp [arrayAt, found] at failed
  | some value => cases value <;> simp_all [arrayAt]

/-- A known operator is refused for want of an array, if at all. -/
theorem applyAt_error {operator : String} (known : Known operator) {argument : Json}
    {field : String} {fields : Fields} {error : UpdateError}
    (failed : applyAt operator argument field fields = .error error) :
    error = .notAnArray operator field := by
  simp only [Known, List.mem_cons, List.not_mem_nil, or_false] at known
  rcases known with rfl | rfl | rfl | rfl | rfl
  -- Fields can always be set and taken away.
  · simp [applyAt] at failed
  · simp [applyAt] at failed
  -- The other operators are only refused while they look for their array.
  all_goals
    rcases bind_eq_error.mp failed with refused | ⟨items, -, impossible⟩
    · exact arrayAt_error refused
    · first
      | cases impossible
      | split at impossible <;> cases impossible

/-- A list is refused for one of its items. -/
theorem eachItem_error {selects : Json → Bool} {change : Json → Except UpdateError (Change Json)}
    {items : List Json} {error : UpdateError}
    (failed : eachItem selects change items = .error error) :
    ∃ item, change item = .error error := by
  -- The first item that is refused gives the error.
  induction items with
  | nil => simp [eachItem] at failed
  | cons item rest ih =>
    rw [eachItem_cons] at failed
    rcases bind_eq_error.mp failed with here | ⟨changed, -, later⟩
    · split at here
      · exact ⟨item, here⟩
      · simp at here
    · rcases bind_eq_error.mp later with there | ⟨others, -, impossible⟩
      · exact ih there
      · simp at impossible

/-- An array is refused for one of its elements. -/
theorem inElements_error {selects : Json → Bool} {change : Json → Except UpdateError (Change Json)}
    {node : Json} {error : UpdateError} (failed : inElements selects change node = .error error) :
    ∃ item, change item = .error error := by
  -- Only arrays have elements, and their walk fails at one of them.
  cases node with
  | array items =>
    rcases bind_eq_error.mp failed with inside | ⟨changed, -, impossible⟩
    · exact eachItem_error inside
    · simp at impossible
  | _ => simp [inElements] at failed

/-- A value is refused for what a segment names in it. -/
theorem inNamed_error {create : Bool} {name : String}
    {change : Json → Except UpdateError (Change Json)} {node : Json} {error : UpdateError}
    (failed : inNamed create name change node = .error error) :
    ∃ child, change child = .error error := by
  cases node with
  | object fields =>
    -- The value of the field is refused, since nothing else can be.
    rcases bind_eq_error.mp failed with inside | ⟨changed, -, impossible⟩
    · unfold inField at inside
      split at inside
      · simp at inside
      · rename_i child _
        rcases bind_eq_error.mp inside with refused | ⟨changed, -, impossible⟩
        · exact ⟨child, refused⟩
        · simp at impossible
    · simp at impossible
  | array items =>
    -- The item at the index is refused.
    rcases bind_eq_error.mp failed with inside | ⟨changed, -, impossible⟩
    · unfold atIndex at inside
      split at inside
      · simp at inside
      · rename_i index item _
        rcases bind_eq_error.mp inside with refused | ⟨changed, -, impossible⟩
        · exact ⟨item, refused⟩
        · simp at impossible
    · simp at impossible
  | _ => simp [inNamed] at failed

/-- Where all aliases on the way have conditions, only the operator at its end is ever refused. -/
theorem descend_error {filters : List Fields} {create : Bool}
    {leaf : String → Fields → Except UpdateError (Change Fields)} {error : UpdateError}
    {segments : List String}
    (known : ∀ name ∈ segments.filterMap Path.alias?, conditions? filters name ≠ none) {node : Json}
    (failed : descend filters create leaf segments node = .error error) :
    ∃ last fields, leaf last fields = .error error := by
  -- The induction goes down the path, to whatever value is refused there.
  induction segments generalizing node with
  | nil => simp [descend] at failed
  | cons head tail ih =>
    cases tail with
    | nil =>
      -- The last segment is where the operator acts, in an object.
      cases node with
      | object fields =>
        rw [descend, bind_eq_error] at failed
        rcases failed with refused | ⟨changed, -, impossible⟩
        · exact ⟨head, fields, refused⟩
        · simp at impossible
      | _ => simp [descend] at failed
    | cons next rest =>
      have below : ∀ child, descend filters create leaf (next :: rest) child = .error error →
          ∃ last fields, leaf last fields = .error error := fun child =>
        @ih (fun name member => known name (by
          rw [List.filterMap_cons]
          split
          · exact member
          · exact List.mem_cons_of_mem _ member)) child
      rw [descend] at failed
      split at failed
      · obtain ⟨item, refused⟩ := inElements_error failed
        exact below item refused
      · -- The conditions of the alias are known, so the error comes from an element.
        rename_i aliasName kind
        have conditioned := known aliasName (by simp [Path.alias?, kind])
        split at failed
        · contradiction
        · obtain ⟨item, refused⟩ := inElements_error failed
          exact below item refused
      · obtain ⟨child, refused⟩ := inNamed_error failed
        exact below child refused

/-- A known operator at paths whose aliases have conditions is refused for want of an array, if at
    all. -/
theorem applyPaths_error {filters : List Fields} {operator : String} (operates : Known operator)
    {entries : Fields} (known : ∀ entry ∈ entries, ∀ name ∈ Path.aliases entry.1,
      conditions? filters name ≠ none) {document : Json} {error : UpdateError}
    (failed : applyPaths filters operator entries document = .error error) :
    ∃ operator field, error = .notAnArray operator field := by
  -- The operator is refused at the first path or at one of the others.
  induction entries generalizing document with
  | nil => simp [applyPaths] at failed
  | cons entry rest ih =>
    rw [applyPaths, bind_eq_error] at failed
    rcases failed with here | ⟨changed, -, later⟩
    · obtain ⟨last, fields, refused⟩ := descend_error (known entry (by simp)) here
      exact ⟨operator, last, applyAt_error operates refused⟩
    · rcases bind_eq_error.mp later with there | ⟨others, -, impossible⟩
      · exact ih (fun entry member => known entry (by simp [member])) there
      · simp at impossible

/-- An update by known operators, at paths whose aliases have conditions, is refused for want of an
    array, if at all. -/
theorem apply_error {filters : List Fields} {update : Fields}
    (operates : ∀ entry ∈ update, Known entry.1) (known : ∀ path ∈ paths update,
      ∀ name ∈ Path.aliases path, conditions? filters name ≠ none) {document : Json}
    {error : UpdateError} (failed : apply filters update document = .error error) :
    ∃ operator field, error = .notAnArray operator field := by
  -- One operator is refused after the other ones before it were carried out.
  induction update generalizing document with
  | nil => simp [apply] at failed
  | cons entry rest ih =>
    rcases entry with ⟨operator, argument⟩
    have others := fun document => @ih (fun entry member => operates entry (by simp [member]))
      (fun path member => known path (by
        rw [paths, List.flatMap_cons]
        exact List.mem_append_right _ member)) document
    cases argument with
    | object entries =>
      rw [apply, bind_eq_error] at failed
      rcases failed with here | ⟨changed, -, later⟩
      · refine applyPaths_error (operates (operator, .object entries) (by simp))
          (fun entry member => known entry.1 ?_) here
        rw [paths, List.flatMap_cons]
        exact List.mem_append_left _ (List.mem_map_of_mem member)
      · rcases bind_eq_error.mp later with there | ⟨left, -, impossible⟩
        · exact others _ there
        · simp at impossible
    -- An operator without an object of paths does nothing.
    | _ => exact others document failed

end DocPatch.Update
