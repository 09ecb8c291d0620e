import DocPatch.Proofs.Path.Names
import DocPatch.Proofs.Store.Place
import DocPatch.Store.Update

/-! How an update walks: along field names, into the elements of an array, and to its operator. -/

namespace DocPatch.Update

open Projection (lookup place obstructed)

/-- Takes the changed value of a result on to what holds it. -/
def carry {α β : Type} (back : α → β) (result : Except UpdateError (Change α)) :
    Except UpdateError (Change β) :=
  result.map fun change => (back change.1, change.2)

@[simp] theorem carry_ok {α β : Type} (back : α → β) (value : α) (changed : Bool) :
    carry back (.ok (value, changed)) = .ok (back value, changed) := rfl

@[simp] theorem carry_error {α β : Type} (back : α → β) (error : UpdateError) :
    carry back (.error error) = .error error := rfl

/-- Carrying on twice is carrying on once. -/
theorem carry_carry {α β γ : Type} (outer : β → γ) (inner : α → β)
    (result : Except UpdateError (Change α)) :
    carry outer (carry inner result) = carry (outer ∘ inner) result := by
  -- An error is carried on as it is.
  cases result <;> rfl

section Names

variable {filters : List Fields} {create : Bool}
  {leaf : String → Fields → Except UpdateError (Change Fields)}

/-- A segment that is no placeholder leads into the value of its field. -/
theorem descend_plain {name : String} (plain : Path.kind name = .plain) {tail : List String}
    (more : tail ≠ []) {fields : Fields} {child : Json} (found : fields.lookup name = some child) :
    descend filters create leaf (name :: tail) (.object fields) =
      carry (fun child => .object (Fields.put name child fields))
        (descend filters create leaf tail child) := by
  -- The field is there, so no object needs to be made for it.
  obtain ⟨next, rest, rfl⟩ := List.exists_cons_of_ne_nil more
  rw [descend, plain]
  simp only [inNamed, inField, found, Option.some_or]
  cases descend filters create leaf (next :: rest) child <;> rfl

/-- A name leads into the value of its field. -/
theorem descend_field {name : String} (plain : Path.Plain name) {tail : List String}
    (more : tail ≠ []) {fields : Fields} {child : Json} (found : fields.lookup name = some child) :
    descend filters create leaf (name :: tail) (.object fields) =
      carry (fun child => .object (Fields.put name child fields))
        (descend filters create leaf tail child) :=
  -- A plain name is none of the placeholders.
  descend_plain (Path.kind_of_noOperator plain.noOperator) more found

/-- A name of a missing field leads into a new object, where one may be made. -/
theorem descend_missing {name next : String} (plain : Path.Plain name) (rest : List String)
    {fields : Fields} (missing : fields.lookup name = none) :
    descend filters create leaf (name :: next :: rest) (.object fields) =
      if create && !Path.isPlaceholder next then
        carry (fun child => .object (Fields.put name child fields))
          (descend filters create leaf (next :: rest) (.object []))
      else .ok (.object fields, false) := by
  -- An object is made for the field unless a placeholder follows.
  rw [descend, Path.kind_of_noOperator plain.noOperator]
  simp only [inNamed, inField, missing, Option.none_or]
  split
  · -- Nothing is made, since the next segment is a placeholder or objects are not wanted.
    rename_i none
    split at none
    · simp at none
    · rename_i closed
      simp only [closed, Bool.false_eq_true, ↓reduceIte]
      rfl
  · -- An empty object is made, and the rest of the path leads into it.
    rename_i child made
    split at made
    · rename_i opened
      simp only [opened, ↓reduceIte]
      cases made
      cases descend filters create leaf (next :: rest) (.object []) <;> rfl
    · simp at made

/-- A name leads nowhere in a value that is no object. -/
theorem descend_of_not_object {name : String} (plain : Path.Plain name) (tail : List String)
    {node : Json} (other : node.isObject = false) :
    descend filters create leaf (name :: tail) node = .ok (node, false) := by
  -- A plain name is no index, so it leads nowhere in an array either.
  cases tail with
  -- The operator itself wants an object.
  | nil => cases node <;> first | rfl | simp [Json.isObject] at other
  | cons next rest =>
    rw [descend, Path.kind_of_noOperator plain.noOperator]
    cases node with
    | object fields => simp [Json.isObject] at other
    -- An array is entered by an index only.
    | array items =>
      simp only [inNamed, atIndex, plain.noIndex]
      rfl
    | _ => rfl

/-- Names lead to the value at their path. -/
theorem descend_names {names : List String} (some_name : names ≠ [])
    (plain : ∀ name ∈ names, Path.Plain name) {tail : List String} (more : tail ≠ [])
    {node child : Json} (found : lookup names node = some child) :
    descend filters create leaf (names ++ tail) node =
      carry (fun child => place child names node) (descend filters create leaf tail child) := by
  -- Each name takes one step into an object; the last one leaves the rest of the path.
  induction names generalizing node with
  | nil => exact absurd rfl some_name
  | cons name rest ih =>
    cases node with
    | object fields =>
      rw [Projection.lookup_cons, Option.bind_eq_some_iff] at found
      -- The first name holds a value, in which the others lead to the one that is asked for.
      obtain ⟨inner, here, inside⟩ := found
      rw [List.cons_append, descend_field (plain name (by simp)) (by simp [more]) here]
      by_cases last : rest = []
      · -- Behind the last name, the rest of the path goes on from the value.
        subst last
        simp only [lookup, Option.some.injEq] at inside
        subst inside
        simp [place]
      · -- The other names lead on inside, and what comes back is placed through both.
        rw [ih last (fun other member => plain other (by simp [member])) inside, carry_carry]
        simp only [Projection.place_cons last, here, Option.getD_some]
        rfl
    | _ => simp [lookup] at found

/-- Behind an obstacle nothing happens. -/
theorem descend_of_obstructed {names : List String} (plain : ∀ name ∈ names, Path.Plain name)
    {node : Json} (blocked : obstructed names node = true) (tail : List String) :
    descend filters create leaf (names ++ tail) node = .ok (node, false) := by
  -- The objects up to the obstacle get back what they hold.
  induction names generalizing node with
  | nil => simp [obstructed] at blocked
  | cons name rest ih =>
    have first := plain name (by simp)
    cases node with
    | object fields =>
      simp only [obstructed, Option.any_eq_true] at blocked
      obtain ⟨child, found, inside⟩ := blocked
      -- The path does not end at the object, as the obstacle is still to come.
      have more : rest ++ tail ≠ [] := by
        cases rest with
        | nil => simp [obstructed] at inside
        | cons => simp
      rw [List.cons_append, descend_field first more found,
        ih (fun other member => plain other (by simp [member])) inside, carry_ok,
        Fields.put_lookup found]
    -- What is no object is the obstacle.
    | _ => exact descend_of_not_object first _ rfl

end Names

/-- A leaf gives the last field of its path a value, made from the one that stands there. -/
def ActsBy (leaf : String → Fields → Except UpdateError (Change Fields)) (last : String)
    (change : Option Json → Except UpdateError (Change Json)) : Prop :=
  ∀ fields : Fields,
    -- The other fields are neither read nor changed.
    leaf last fields = carry (fun value => Fields.put last value fields)
    (change (fields.lookup last))

/-- An operator at the end of field names changes the value that stands there, and makes the
    objects on the way; behind an obstacle it does nothing. -/
theorem descend_leaf {filters : List Fields}
    {leaf : String → Fields → Except UpdateError (Change Fields)}
    {change : Option Json → Except UpdateError (Change Json)} {names : List String}
    (some_name : names ≠ []) (plain : ∀ name ∈ names, Path.Plain name)
    (acts : ActsBy leaf (names.getLast some_name) change) (node : Json) :
    descend filters true leaf names node =
      if obstructed names node then .ok (node, false)
      else carry (fun value => place value names node) (change (lookup names node)) := by
  -- The induction follows the names, and objects are entered or made one after the other.
  induction names generalizing node with
  | nil => exact absurd rfl some_name
  | cons name rest ih =>
    have first := plain name (by simp)
    cases node with
    | object fields =>
      cases rest with
      | nil =>
        -- The last name is where the operator acts on the field itself.
        have step := acts fields
        simp only [List.getLast_singleton] at step
        simp only [descend, step, Projection.obstructed_singleton, Projection.lookup_singleton,
          Bool.false_eq_true, ↓reduceIte, place]
        cases change (fields.lookup name) <;> rfl
      | cons next others =>
        have later : ∀ other ∈ next :: others, Path.Plain other :=
          fun other member => plain other (List.mem_cons_of_mem _ member)
        -- Before that, what is known about the later names decides.
        have inner := ih (by simp) later (by simpa using acts)
        rw [Projection.lookup_cons]
        simp only [Projection.place_cons (List.cons_ne_nil next others)]
        cases found : fields.lookup name with
        | none =>
          -- The object that is made on the way holds nothing, so nothing is in the way there.
          have closed := Path.isPlaceholder_of_noOperator (later next (by simp)).noOperator
          have empty : obstructed (next :: others) (.object []) = false := by simp [obstructed]
          have nothing : lookup (next :: others) (.object []) = none := by simp [lookup]
          rw [descend_missing first others found, inner, empty, nothing]
          simp only [closed, obstructed, found, Option.any_none, Bool.false_eq_true, ↓reduceIte,
            Bool.not_false, Bool.and_true, Option.bind_none, Option.getD_none]
          cases change none <;> rfl
        -- The value that stands there is entered, and it may be in the way, or hold what is.
        | some child =>
          rw [descend_field first (by simp) found, inner]
          cases blocked : obstructed (next :: others) child with
          | true => simp [obstructed, found, blocked, Fields.put_lookup found]
          | false =>
            simp only [obstructed, found, Option.any_some, blocked, Option.bind_some]
            cases change (lookup (next :: others) child) <;> rfl
    -- A value that is no object is in the way.
    | _ => exact descend_of_not_object first rest rfl

/-- The items of an array that an operator needs at a field; a missing one is taken for empty. -/
def itemsOf (operator field : String) : Option Json → Except UpdateError (List Json)
  | none => .ok []
  | some (.array items) => .ok items
  | some _ => .error (.notAnArray operator field)

theorem arrayAt_eq (operator field : String) (fields : Fields) :
    arrayAt operator field fields = itemsOf operator field (fields.lookup field) := by
  -- The field is missing, or holds a value that is an array or not.
  cases found : fields.lookup field with
  | none => simp [arrayAt, itemsOf, found]
  | some value => cases value <;> simp [arrayAt, itemsOf, found]

/-- A field that has the items that an operator needs holds just the array of these. -/
theorem eq_array_of_arrayAt {operator field : String} {fields : Fields} {items : List Json}
    {held : Json} (reached : arrayAt operator field fields = .ok items)
    (found : fields.lookup field = some held) : held = .array items := by
  -- Any other value than an array is refused.
  rw [arrayAt_eq, found] at reached
  cases held <;> simp_all [itemsOf]

/-- Setting puts the argument. -/
theorem actsBy_set (argument : Json) (field : String) :
    ActsBy (applyAt "$set" argument) field
      fun found => .ok (argument, !found.any fun previous => previous.equal argument) := by
  -- The value in the field matters to the report only.
  intro fields
  cases found : fields.lookup field <;> simp [applyAt, found]

/-- Pushing puts the array with the argument at its end. -/
theorem actsBy_push (argument : Json) (field : String) :
    ActsBy (applyAt "$push" argument) field fun found => do
      let items ← itemsOf "$push" field found
      return (.array (items ++ eachValue argument), true) := by
  -- The operator refuses the field exactly if its value has no items.
  intro fields
  simp only [applyAt, arrayAt_eq]
  cases itemsOf "$push" field (fields.lookup field) <;> rfl

/-- Adding to a set puts the union. -/
theorem actsBy_addToSet (argument : Json) (field : String) :
    ActsBy (applyAt "$addToSet" argument) field fun found => do
      let items ← itemsOf "$addToSet" field found
      let grown := union items (eachValue argument)
      return (.array grown, grown.length != items.length) := by
  -- Again it is refused exactly if its value has no items.
  intro fields
  simp only [applyAt, arrayAt_eq]
  cases itemsOf "$addToSet" field (fields.lookup field) <;> rfl

/-- A placeholder leads into the elements that meet the conditions of its alias. -/
theorem descend_selected {filters : List Fields} {create : Bool}
    {leaf : String → Fields → Except UpdateError (Change Fields)} {aliasName : String}
    (nonempty : aliasName ≠ "") {conditions : Fields}
    (known : conditions? filters aliasName = some conditions) {tail : List String}
    (more : tail ≠ []) (node : Json) :
    descend filters create leaf (Path.selected aliasName :: tail) node =
      inElements (accepts conditions) (descend filters create leaf tail) node := by
  -- The placeholder has an alias, and its conditions are known.
  obtain ⟨next, rest, rfl⟩ := List.exists_cons_of_ne_nil more
  rw [descend, Path.kind_selected nonempty]
  simp [known]

/-- An item is changed if it is selected, and the others after it. -/
theorem eachItem_cons (selects : Json → Bool) (change : Json → Except UpdateError (Change Json))
    (item : Json) (rest : List Json) :
    eachItem selects change (item :: rest) =
      (if selects item then change item else .ok (item, false)).bind fun here =>
        (eachItem selects change rest).bind fun there =>
          .ok (here.1 :: there.1, here.2 || there.2) := by
  -- The item is selected or not.
  by_cases chosen : selects item = true
  · simp only [eachItem, chosen, ↓reduceIte]
    rfl
  · simp only [eachItem, chosen, Bool.false_eq_true, ↓reduceIte]
    rfl

/-- An item that is not selected, or does not change, is passed by. -/
theorem eachItem_pass {selects : Json → Bool} {change : Json → Except UpdateError (Change Json)}
    {item : Json} (idle : selects item = true → change item = .ok (item, false))
    (rest : List Json) :
    eachItem selects change (item :: rest) = carry (item :: ·) (eachItem selects change rest) := by
  -- The item comes back as it was, by the hypothesis if it is selected at all.
  have here : (if selects item then change item else .ok (item, false)) = .ok (item, false) := by
    split
    · exact idle (by assumption)
    · rfl
  rw [eachItem_cons, here]
  cases eachItem selects change rest <;> rfl

/-- Items that are not selected, or do not change, are passed by. -/
theorem eachItem_unchanged {selects : Json → Bool}
    {change : Json → Except UpdateError (Change Json)} {items : List Json}
    (idle : ∀ item ∈ items, selects item = true → change item = .ok (item, false)) :
    eachItem selects change items = .ok (items, false) := by
  -- Each item is passed, and so are the ones after it.
  induction items with
  | nil => rfl
  | cons item rest ih =>
    have others := ih fun other member => idle other (by simp [member])
    rw [eachItem_pass (idle item (by simp)), others, carry_ok]

/-- Where every item can be changed, the selected ones are. -/
theorem eachItem_map {selects : Json → Bool} {change : Json → Except UpdateError (Change Json)}
    {becomes : Json → Json} (each : ∀ item, ∃ changed, change item = .ok (becomes item, changed))
    (items : List Json) : ∃ changed, eachItem selects change items =
      .ok (items.map fun item => if selects item then becomes item else item, changed) := by
  induction items with
  | nil => exact ⟨false, rfl⟩
  | cons item rest ih =>
    obtain ⟨others, later⟩ := ih
    obtain ⟨here, changed⟩ := each item
    rw [eachItem_cons, later]
    -- An item that is not selected stays as it is.
    by_cases chosen : selects item = true
    · exact ⟨here || others, by simp [chosen, changed, Except.bind]⟩
    · exact ⟨others, by simp [chosen, Except.bind]⟩

/-- Setting at the end of names places the argument there; behind an obstacle nothing is placed. -/
theorem descend_set {filters : List Fields} {names : List String} (leads : Path.Leads names)
    (argument node : Json) : ∃ changed,
      descend filters true (applyAt "$set" argument) names node =
        .ok (place argument names node, changed) := by
  -- The walk of an operator by the plain names is a placement, unless it is obstructed.
  rw [descend_leaf leads.some_name leads.plain (actsBy_set argument _)]
  cases blocked : obstructed names node with
  | true => exact ⟨false, by simp [Projection.place_of_obstructed blocked]⟩
  | false => exact ⟨_, rfl⟩

/-- Where all but one selected element stay unchanged, the one decides. -/
theorem eachItem_one {selects : Json → Bool} {change : Json → Except UpdateError (Change Json)}
    {before after : List Json} {element : Json} (chosen : selects element = true)
    (idle : ∀ item ∈ before ++ after, selects item = true → change item = .ok (item, false)) :
    eachItem selects change (before ++ element :: after) =
      carry (fun element => before ++ element :: after) (change element) := by
  -- The items before the one are passed by, and those after it as well.
  induction before with
  | nil =>
    -- The one stands first, and its own result is all that is reported.
    have rest : eachItem selects change after = .ok (after, false) :=
      eachItem_unchanged fun item member => idle item (by simpa using member)
    rw [List.nil_append, eachItem_cons, rest, chosen]
    cases changed : change element with
    | error error => rfl
    | ok result =>
      rcases result with ⟨element, flag⟩
      simp [Except.bind]
  | cons item rest ih =>
    -- An item before the one adds nothing to the report.
    have others := ih fun other member => idle other (List.mem_cons_of_mem _ member)
    rw [List.cons_append, eachItem_pass (idle item (by simp)), others, carry_carry]
    rfl

/-- A union only ever appends, and that of the values to be added. -/
theorem exists_union_eq_append (items others : List Json) :
    ∃ more, union items others = items ++ more ∧ more ⊆ others := by
  induction others generalizing items with
  | nil => exact ⟨[], by simp [union]⟩
  | cons first rest ih =>
    unfold union
    split
    · obtain ⟨more, same, within⟩ := ih items
      exact ⟨more, same, List.subset_cons_of_subset first within⟩
    · -- The first value is appended before the others are.
      obtain ⟨more, same, within⟩ := ih (items ++ [first])
      refine ⟨first :: more, by simp [same], ?_⟩
      exact List.cons_subset_cons first within

/-- A union that is no longer than the list adds nothing. -/
theorem union_eq_of_length {items others : List Json}
    (count : (union items others).length = items.length) : union items others = items := by
  -- The union puts items at the end of the list, here none.
  obtain ⟨more, same, -⟩ := exists_union_eq_append items others
  rw [same, List.length_append] at count
  rw [same, List.length_eq_zero_iff.mp (by omega : more.length = 0), List.append_nil]

/-- A union of values with an empty list has some values, if there are any. -/
theorem eq_nil_of_union {others : List Json} (none : union [] others = []) : others = [] := by
  -- The first of the values starts the union, so it would not be empty.
  cases others with
  | nil => rfl
  | cons value rest =>
    obtain ⟨more, same, -⟩ := exists_union_eq_append [value] rest
    simp [union, Json.within, same] at none

end DocPatch.Update
