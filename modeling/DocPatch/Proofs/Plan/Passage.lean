import DocPatch.Proofs.Plan.Deletion
import DocPatch.Proofs.Plan.Entry

/-! Ways through stages that may be open: through every object of an array, or through those that an
    alias selects. -/

namespace DocPatch

open Deletion (delete enter)
open Projection (Altered Apart lookup place)
open Update (applyAt carry descend)

namespace Update

/-- The value that a change leaves, if the change succeeds. -/
def left? {α : Type} (result : Except UpdateError (Change α)) : Option α :=
  result.toOption.map Prod.fst

/-- What holds a value is left with what is left of the value. -/
theorem left?_carry {α β : Type} (back : α → β) (result : Except UpdateError (Change α)) :
    left? (carry back result) = (left? result).map back := by
  cases result <;> rfl

/-- What is left of a list, item by item. -/
theorem left?_eachItem (selects : Json → Bool) (change : Json → Except UpdateError (Change Json))
    (items : List Json) :
    left? (eachItem selects change items) =
      items.mapM fun item => if selects item then left? (change item) else some item := by
  induction items with
  | nil => rfl
  | cons item rest ih =>
    rw [eachItem_cons, List.mapM_cons, ← ih]
    -- The item is changed or left alone, and then the others are.
    cases selects item with
    | false => cases eachItem selects change rest <;> rfl
    | true =>
      cases change item with
      | error => rfl
      | ok changed => cases eachItem selects change rest <;> rfl

/-- What is left of an array, item by item. -/
theorem left?_inElements (selects : Json → Bool)
    (change : Json → Except UpdateError (Change Json)) (items : List Json) :
    left? (inElements selects change (.array items)) =
      (items.mapM fun item => if selects item then left? (change item) else some item).map
        .array := by
  -- Only the items that are selected are changed.
  rw [← left?_eachItem, inElements]
  cases eachItem selects change items <;> rfl

section Names

variable {filters : List Fields} {leaf : String → Fields → Except UpdateError (Change Fields)}

/-- Where names lead to nothing and no objects are made, nothing happens behind them. -/
theorem descend_nothing {names : List String} (plain : ∀ name ∈ names, Path.Plain name)
    {tail : List String} (more : tail ≠ []) {node : Json} (missing : lookup names node = none) :
    descend filters false leaf (names ++ tail) node = .ok (node, false) := by
  -- The objects up to the missing field get back what they hold.
  induction names generalizing node with
  | nil => simp [lookup] at missing
  | cons name rest ih =>
    have first := plain name (by simp)
    cases node with
    | object fields =>
      rw [Projection.lookup_cons] at missing
      cases found : fields.lookup name with
      | none =>
        obtain ⟨next, others, same⟩ := List.exists_cons_of_ne_nil
          (show rest ++ tail ≠ [] by simp [more])
        rw [List.cons_append, same, descend_missing first others found]
        simp
      | some child =>
        rw [found, Option.bind_some] at missing
        rw [List.cons_append, descend_field first (by simp [more]) found,
          ih (fun other member => plain other (by simp [member])) missing, carry_ok,
          Fields.put_lookup found]
    | _ => exact descend_of_not_object first _ rfl

/-- Pulling from the array at a field keeps the elements that do not match. -/
theorem left?_pullAt {argument : Json} {test : Json → Bool}
    (tests : ∀ item, Query.elementSatisfies item argument = test item) (field : String)
    (fields : Fields) :
    left? (applyAt "$pull" argument field fields) =
      match fields.lookup field with
      | none => some fields
      | some (.array items) =>
        some (Fields.put field (.array (items.filter fun item => !test item)) fields)
      | some _ => none := by
  -- A missing array is left alone, and any other value is an error.
  simp only [applyAt, arrayAt]
  cases found : fields.lookup field with
  | none => rfl
  | some value =>
    cases value with
    | array items => simp only [tests, Option.isNone_some]; rfl
    | _ => rfl

/-- Pulling from the array at names takes out the elements that match. -/
theorem left?_pull {argument : Json} {test : Json → Bool}
    (tests : ∀ item, Query.elementSatisfies item argument = test item) {names : List String}
    (leads : Path.Leads names) (node : Json) :
    left? (descend filters false (applyAt "$pull" argument) names node) =
      delete names test node := by
  obtain ⟨some_name, plain⟩ := leads
  -- The names lead through objects that are there, and the last one is the field of the array.
  induction names generalizing node with
  | nil => exact absurd rfl some_name
  | cons name rest ih =>
    have first := plain name (by simp)
    cases node with
    | object fields =>
      cases rest with
      | nil =>
        have end_eq : left?
            (descend filters false (applyAt "$pull" argument) [name] (.object fields)) =
              (left? (applyAt "$pull" argument name fields)).map .object := by
          rw [descend]
          cases applyAt "$pull" argument name fields <;> rfl
        rw [end_eq, left?_pullAt tests, delete, Projection.lookup_singleton]
        cases fields.lookup name with
        | none => rfl
        | some value => cases value <;> rfl
      | cons next others =>
        have inner := fun child => ih child (by simp)
          fun other member => plain other (List.mem_cons_of_mem _ member)
        rw [delete, Projection.lookup_cons]
        cases found : fields.lookup name with
        | none =>
          -- Behind a missing field nothing is made, and nothing is taken out.
          rw [descend_missing first others found]
          rfl
        | some child =>
          rw [descend_field first (by simp) found, left?_carry, inner, Option.bind_some, delete]
          cases lookup (next :: others) child with
          | none => simp [Fields.put_lookup found]
          | some value => cases value <;> simp [Projection.place_cons, found]
    | _ =>
      rw [descend_of_not_object first _ rfl]
      rfl

end Names

end Update

namespace Deletion

/-- Two changes of the items of a list can be made item by item. -/
theorem mapM_bind (f g : Json → Option Json) (items : List Json) :
    (items.mapM f).bind (fun changed => changed.mapM g) =
      items.mapM fun item => (f item).bind g := by
  -- What fails in one order fails in the other.
  induction items with
  | nil => rfl
  | cons item rest ih =>
    rw [List.mapM_cons, List.mapM_cons, ← ih]
    cases f item with
    | none => rfl
    | some here =>
      cases rest.mapM f with
      | none => cases made : g here <;> simp [made]
      | some others => simp [List.mapM_cons]

/-- Two changes inside the same elements are one, if the first one keeps the elements recognised. -/
theorem enter_bind {names : List String} (some_name : names ≠ []) {test : Json → Bool}
    {f g : Json → Option Json}
    (stays : ∀ before after, test before = true → f before = some after → test after = true)
    (target : Json) :
    (enter names test f target).bind (enter names test g) =
      enter names test (fun element => (f element).bind g) target := by
  unfold enter
  split
  · rename_i items found
    -- An item that is not recognised is passed by both times.
    have both : ∀ item, ((if test item then f item else some item).bind fun changed =>
        if test changed then g changed else some changed) =
        if test item then (f item).bind g else some item := by
      intro item
      by_cases chosen : test item = true
      · simp only [chosen, ↓reduceIte]
        cases changed : f item with
        | none => rfl
        | some after => simp [stays item after chosen changed]
      · simp [chosen]
    have fused := mapM_bind (fun item => if test item then f item else some item)
      (fun item => if test item then g item else some item) items
    simp only [both] at fused
    rw [← fused]
    cases items.mapM fun item => if test item then f item else some item with
    | none => rfl
    | some changed =>
      -- The second change finds the array that the first one placed.
      have free := Projection.obstructed_of_lookup found
      simp only [Option.map_some, Option.bind_some, Projection.lookup_place some_name free,
        Projection.place_place some_name]
  · simp

/-- Entering elements to leave them as they are changes nothing. -/
theorem enter_some (names : List String) (test : Json → Bool) (target : Json) :
    enter names test some target = some target := by
  -- Where there is an array, it is put back with the same items.
  unfold enter
  split
  · rename_i items found
    have same : items.mapM some = some items := by
      simpa using @List.mapM_pure Option _ _ _ _ items id
    simp only [ite_self, same, Option.map_some, Projection.place_lookup found]
  · rfl

end Deletion

namespace Stage

/-- Whether an element is entered at a stage: an object that satisfies what identifies it. -/
def admits (stage : Stage) (element : Json) : Bool :=
  element.isObject && Query.satisfies element stage.identity

/-- Changes every element that stages lead to. -/
def within (change : Json → Option Json) : List Stage → Json → Option Json
  | [], target => change target
  | stage :: rest, target => enter stage.names stage.admits (within change rest) target

/-- The elements behind a longer way are entered from those before its last stage. -/
theorem within_append_singleton (change : Json → Option Json) (stages : List Stage)
    (stage : Stage) :
    within change (stages ++ [stage]) = within (enter stage.names stage.admits change) stages := by
  -- The stages are gone through from the first one.
  induction stages with
  | nil => rfl
  | cons first rest ih =>
    funext target
    rw [List.cons_append, within, within, ih]

/-- Leaving every element as it is changes nothing. -/
theorem within_some (stages : List Stage) : within some stages = some := by
  -- The last stage leaves its elements, and so do all before it.
  induction stages with
  | nil => rfl
  | cons stage rest ih =>
    funext target
    rw [within, ih, Deletion.enter_some]

/-- Replacing the value at some names inside of elements replaces the first array on
    the way to it. -/
theorem within_altered {change : Json → Option Json} {names : List String}
    (alters : ∀ before after, change before = some after → Altered names before after)
    {stages : List Stage} {before after : Json}
    (changed : within change stages before = some after) :
    Altered (next stages names) before after := by
  -- The first stage replaces its own array; without stages the change itself does.
  cases stages with
  | nil => exact alters before after changed
  | cons stage rest => exact Deletion.enter_altered changed

/-- A stage by which elements can be recognised, or that is open to every object. -/
structure Passable (stage : Stage) : Prop where
  leads : Path.Leads stage.names
  spread : Element.Spread stage.marks

/-- What is replaced apart from the marks of a stage does not decide who is admitted. -/
theorem Passable.admits_altered {stage : Stage} (passable : stage.Passable) {names : List String}
    (apart : ∀ mark ∈ stage.marks, Apart mark.1 names) {before after : Json}
    (altered : Altered names before after) : stage.admits after = stage.admits before := by
  -- The identity asks for values at the marks, which stay as they are.
  rcases altered with rfl | ⟨value, rfl⟩
  · rfl
  · rw [admits, admits, Projection.isObject_place, identity,
      passable.spread.satisfies_place apart]

/-- Two changes inside the elements that stages lead to can be made element by element, if the first
    one replaces what is apart from the marks. -/
theorem within_bind {f g : Json → Option Json} {names : List String}
    (alters : ∀ before after, f before = some after → Altered names before after)
    {stages : List Stage} (passable : ∀ stage ∈ stages, stage.Passable)
    (clear : Clear stages names) (target : Json) :
    (within f stages target).bind (within g stages) =
      within (fun element => (f element).bind g) stages target := by
  -- Stage by stage, the first change leaves the elements recognised.
  induction stages generalizing target with
  | nil => rfl
  | cons stage rest ih =>
    have first := passable stage (by simp)
    have inner := ih (fun other member => passable other (by simp [member])) clear.2
    have stays : ∀ before after, stage.admits before = true → within f rest before = some after →
        stage.admits after = true := by
      intro before after admitted changed
      rw [first.admits_altered clear.1 (within_altered alters changed)]
      exact admitted
    have fused := @Deletion.enter_bind _ first.leads.some_name _ _ (within g rest) stays target
    simp only [inner] at fused
    exact fused

/-- Updates under some alias filters enter by the segment of a stage what the stage admits. -/
def Enters (filters : List Fields) (stage : Stage) : Prop :=
  stage.aliasName = "" ∧ stage.marks = [] ∨
    stage.aliasName ≠ "" ∧ Update.conditions? filters stage.aliasName = some stage.identity

/-- The segment of a stage leads into the objects that the stage admits. Of other elements it may
    select any. -/
theorem Enters.descend_eq {filters : List Fields} {stage : Stage} (enters : stage.Enters filters)
    (passable : stage.Passable) {create : Bool}
    {leaf : String → Fields → Except UpdateError (Change Fields)} {tail : List String}
    (more : tail ≠ []) :
    ∃ selects : Json → Bool, (∀ item, item.isObject = true → selects item = stage.admits item) ∧
      ∀ node, descend filters create leaf (Path.selected stage.aliasName :: tail) node =
        Update.inElements selects (descend filters create leaf tail) node := by
  rcases enters with ⟨noAlias, unmarked⟩ | ⟨nonempty, known⟩
  · -- Without an alias the segment is the placeholder of every element.
    refine ⟨fun _ => true,
      fun item object => by simp [admits, object, identity, unmarked], fun node => ?_⟩
    obtain ⟨next, rest, rfl⟩ := List.exists_cons_of_ne_nil more
    have every : Path.kind (Path.selected "") = .every := by decide
    rw [noAlias, descend, every]
  · -- With an alias the conditions are those that identify the element.
    refine ⟨Update.accepts stage.identity, fun item object => ?_, fun node => ?_⟩
    · have named : Query.Named stage.identity := passable.spread.named
      rw [Query.accepts_eq_satisfies named, admits, object, Bool.true_and]
    · exact Update.descend_selected nonempty known more node

/-- The segments of a stage lead into the elements that it admits, on a way that goes on with a
    plain name. -/
theorem Enters.left?_descend {filters : List Fields} {stage : Stage}
    (enters : stage.Enters filters) (passable : stage.Passable)
    {leaf : String → Fields → Except UpdateError (Change Fields)} {name : String}
    (plain : Path.Plain name) (more : List String) (target : Json) :
    Update.left? (descend filters false leaf (stage.segments ++ name :: more) target) =
      enter stage.names stage.admits
        (fun element => Update.left? (descend filters false leaf (name :: more) element))
          target := by
  obtain ⟨selects, agrees, segment⟩ :=
    @Enters.descend_eq filters stage enters passable false leaf (name :: more) (by simp)
  rw [segments, List.append_assoc, List.singleton_append, enter]
  cases found : lookup stage.names target with
  -- Where there is nothing, nothing is entered.
  | none =>
    rw [Update.descend_nothing passable.leads.plain (by simp) found]
    rfl
  | some child =>
    rw [Update.descend_names passable.leads.some_name passable.leads.plain (by simp) found,
      Update.left?_carry, segment]
    cases child with
    | array items =>
      -- An element that is no object stays as it is, whether it is selected or not.
      have same : ∀ item, (if selects item then
            Update.left? (descend filters false leaf (name :: more) item)
          else some item) =
          if stage.admits item then Update.left? (descend filters false leaf (name :: more) item)
          else some item := by
        intro item
        by_cases object : item.isObject = true
        · rw [agrees item object]
        · have other : item.isObject = false := by simpa using object
          rw [Update.descend_of_not_object plain more other]
          simp [admits, other, Update.left?, Except.toOption]
      rw [Update.left?_inElements]
      simp only [same, Option.map_map]
      rfl
    -- What is no array has no elements.
    | _ => simp [Update.inElements, Update.left?, Except.toOption, Projection.place_lookup found]

/-- Along stages an update changes every element that they lead to. -/
theorem left?_descend {filters : List Fields}
    {leaf : String → Fields → Except UpdateError (Change Fields)} {stages : List Stage}
    (passable : ∀ stage ∈ stages, stage.Passable) (enters : ∀ stage ∈ stages, stage.Enters filters)
    {names : List String} (leads : Path.Leads names) (target : Json) :
    Update.left? (descend filters false leaf (stages.flatMap segments ++ names) target) =
      within (fun element => Update.left? (descend filters false leaf names element)) stages
        target := by
  -- Every stage leads into the elements of its array, and behind it the same holds of each.
  induction stages generalizing target with
  | nil => rfl
  | cons stage rest ih =>
    have inner := ih (fun other member => passable other (by simp [member]))
      fun other member => enters other (by simp [member])
    have start : ∃ name more, names = name :: more ∧ Path.Plain name := by
      obtain ⟨name, more, start⟩ := List.exists_cons_of_ne_nil leads.some_name
      exact ⟨name, more, start, leads.plain name (by simp [start])⟩
    -- Behind the segment of the stage the path goes on with a plain name.
    obtain ⟨name, more, onward, plain⟩ := segments_start
      (fun other member => (passable other (List.mem_cons_of_mem _ member)).leads) start
    rw [List.flatMap_cons, List.append_assoc, onward,
      (enters stage (by simp)).left?_descend (passable stage (by simp)) plain
      more, ← onward, within]
    exact congrArg (enter stage.names stage.admits · target) (funext inner)

/-- Through a stage, a change that every element allows is made in the elements that it admits. -/
theorem Sound.descend_map {filters : List Fields} {stage : Stage} (sound : stage.Sound)
    (known : Update.conditions? filters stage.aliasName = some stage.identity) {create : Bool}
    {leaf : String → Fields → Except UpdateError (Change Fields)} {tail : List String}
    (more : tail ≠ []) {becomes : Json → Json}
    (each : ∀ item, ∃ changed, descend filters create leaf tail item = .ok (becomes item, changed))
    (others : ∀ item : Json, item.isObject = false → becomes item = item) {target : Json}
    {items : List Json} (found : lookup stage.names target = some (.array items)) :
    ∃ changed, descend filters create leaf (stage.segments ++ tail) target =
      .ok (place (.array (items.map fun item => if stage.admits item then becomes item else item))
        stage.names target, changed) := by
  -- An element that is no object does not change, whether it is selected or not.
  have same : ∀ item, (if Update.accepts stage.identity item then becomes item else item) =
      if stage.admits item then becomes item else item := by
    intro item
    rw [Query.accepts_eq_satisfies sound.named, admits]
    by_cases object : item.isObject = true
    · rw [object, Bool.true_and]
    · simp [others item (by simpa using object)]
  obtain ⟨changed, mapped⟩ := @Update.eachItem_map (Update.accepts stage.identity) _ _ each items
  simp only [same] at mapped
  rw [segments, List.append_assoc, List.singleton_append,
    Update.descend_names sound.leads.some_name sound.leads.plain (by simp) found,
    Update.descend_selected sound.aliasNonempty known more, Update.inElements, mapped]
  exact ⟨changed, rfl⟩

end Stage

/-- The stage of an identified object admits the elements that the object recognises. -/
theorem Element.IdentifiedBy.admits {object : Fields} {marks : List (List String × Json)}
    (identified : Element.IdentifiedBy object marks) (site : Site) (names : List String) :
    (site.stage names marks).admits = Deletion.recognises object := by
  -- The identity filter of the object asks for its marks.
  have same : Element.identityFilter object = marks.map Element.dottedLeaf :=
    identified.identity site
  funext element
  rw [Stage.admits, Deletion.recognises, same]
  rfl

end DocPatch
