import DocPatch.Proofs.Plan.Ids
import DocPatch.Proofs.Plan.Predicate
import DocPatch.Proofs.Store.Walk

/-! Ways that lead to one element alone: predicates and updates along them speak of that element. -/

namespace DocPatch

open Projection (Apart lookup place obstructed)
open Update (carry descend inElements)

namespace Stage

/-- The stages lead from a document to one element alone, and `back` gives the document in which
    another value takes its place. -/
inductive Reaches : List Stage → Json → Json → (Json → Json) → Prop where
  | here (document : Json) : Reaches [] document document id
  | enter {stage : Stage} {rest : List Stage} {document entered element : Json}
      {before after : List Json} {back : Json → Json}
      (found : lookup stage.names document = some (.array (before ++ entered :: after)))
      (object : entered.isObject = true)
      (chosen : Query.satisfies entered stage.identity = true)
      (others : ∀ item ∈ before ++ after, item.isObject = true →
        Query.satisfies item stage.identity = false)
      (further : Reaches rest entered element back) :
      Reaches (stage :: rest) document element
        fun value => place (.array (before ++ back value :: after)) stage.names document

variable {stages : List Stage} {document element : Json} {back : Json → Json}

/-- The element itself in its place is the document. -/
theorem Reaches.back_self (reaches : Reaches stages document element back) :
    back element = document := by
  induction reaches with
  | here => rfl
  -- The inner element is put back, and then the array, which stood there before.
  | enter found _ _ _ _ ih => simp only [ih, Projection.place_lookup found]

/-- The way goes on from the element to one of its own elements. -/
theorem Reaches.append_singleton (reaches : Reaches stages document element back) {stage : Stage}
    {before after : List Json} {entered : Json}
    (found : lookup stage.names element = some (.array (before ++ entered :: after)))
    (object : entered.isObject = true)
    (chosen : Query.satisfies entered stage.identity = true)
    (others : ∀ item ∈ before ++ after, item.isObject = true →
      Query.satisfies item stage.identity = false) :
    Reaches (stages ++ [stage]) document entered
      (back ∘ fun value => place (.array (before ++ value :: after)) stage.names element) := by
  -- The way is prolonged at its far end, where the element is.
  induction reaches with
  | here => exact .enter found object chosen others (.here entered)
  | enter first isObject isChosen unlike _ ih =>
    exact .enter first isObject isChosen unlike (ih found)

/-- Where all but one item fail a test, the one decides. -/
theorem any_one {test : Json → Bool} {before after : List Json} {item : Json}
    (others : ∀ other ∈ before ++ after, test other = false) :
    (before ++ item :: after).any test = test item := by
  -- On both sides of the one item the test fails throughout.
  have earlier : before.any test = false :=
    List.any_eq_false.mpr fun other member => by simp [others other (by simp [member])]
  have later : after.any test = false :=
    List.any_eq_false.mpr fun other member => by simp [others other (by simp [member])]
  rw [List.any_append, List.any_cons, earlier, later, Bool.false_or, Bool.or_false]

/-- Of the elements that stages lead to, a query only ever finds the one. -/
theorem Reaches.meets_eq (reaches : Reaches stages document element back) (test : Json → Bool) :
    meets test stages document = test element := by
  -- At each stage the search finds one array, and in it one element that is recognised.
  induction reaches with
  | here => rfl
  | @enter stage rest document entered element before after back found object chosen others _ ih =>
    have free := Projection.obstructed_of_lookup found
    -- The other elements are no objects or are not recognised.
    have passed : ∀ item ∈ before ++ after, (item.isObject &&
        (Query.satisfies item stage.identity && meets test rest item)) = false := by
      intro item member
      by_cases isObject : item.isObject = true
      · simp [others item member isObject]
      · simp [isObject]
    simp only [meets, Query.resolve_names free, found, Option.toList_some, List.any_cons,
      List.any_nil, Bool.or_false, Json.items?, Option.getD_some, any_one passed,
      object, chosen, ih, Bool.true_and]

/-- The segments of a way go on with a plain name. -/
theorem segments_start (leads : ∀ stage ∈ stages, Path.Leads stage.names) {tail : List String}
    (start : ∃ name more, tail = name :: more ∧ Path.Plain name) :
    ∃ name more, stages.flatMap segments ++ tail = name :: more ∧ Path.Plain name := by
  -- A way starts with the names of its first stage, or it is empty.
  cases stages with
  -- An empty way leaves the names that follow it.
  | nil => exact start
  | cons stage rest =>
    have first := leads stage (by simp)
    obtain ⟨name, more, names⟩ := List.exists_cons_of_ne_nil first.some_name
    exact ⟨name, _, by rw [List.flatMap_cons, segments, names]; rfl,
      first.plain name (by simp [names])⟩

/-- Along the way an update only ever changes the one element. -/
theorem Reaches.descend_eq {filters : List Fields} {create : Bool}
    {leaf : String → Fields → Except UpdateError (Change Fields)}
    (reaches : Reaches stages document element back) (sound : ∀ stage ∈ stages, stage.Sound)
    (known : ∀ stage ∈ stages,
      Update.conditions? filters stage.aliasName = some stage.identity)
    {tail : List String} (start : ∃ name more, tail = name :: more ∧ Path.Plain name) :
    descend filters create leaf (stages.flatMap segments ++ tail) document =
      carry back (descend filters create leaf tail element) := by
  induction reaches with
  -- At the element itself nothing is placed around the result.
  | here =>
    rw [List.flatMap_nil, List.nil_append]
    cases descend filters create leaf tail _ <;> rfl
  | @enter stage rest document entered element before after back found object chosen others _ ih =>
    have first := sound stage (by simp)
    have later : ∀ other ∈ rest, other.Sound := fun other member => sound other (by simp [member])
    have inner := ih later fun other member => known other (by simp [member])
    -- Behind the alias the path goes on with a plain name, for the next stage or for the end.
    obtain ⟨name, more, onward, plain⟩ :=
      segments_start (fun other member => (later other member).leads) start
    have nonempty : rest.flatMap segments ++ tail ≠ [] := by simp [onward]
    -- Of the other elements, the objects are not selected, and in the rest no name leads anywhere.
    have idle : ∀ item ∈ before ++ after, Update.accepts stage.identity item = true →
        descend filters create leaf (rest.flatMap segments ++ tail) item = .ok (item, false) := by
      intro item member accepted
      rw [Query.accepts_eq_satisfies first.named] at accepted
      by_cases isObject : item.isObject = true
      · rw [others item member isObject] at accepted
        contradiction
      · rw [onward]
        exact Update.descend_of_not_object plain more (by simpa using isObject)
    -- The entered element is selected, as the query of its stage accepts it.
    have selected : Update.accepts stage.identity entered = true := by
      rw [Query.accepts_eq_satisfies first.named]
      exact chosen
    rw [List.flatMap_cons, segments, List.append_assoc, List.append_assoc, List.singleton_append,
      Update.descend_names first.leads.some_name first.leads.plain (by simp) found,
      Update.descend_selected first.aliasNonempty (known stage (by simp)) nonempty]
    simp only [inElements, Update.eachItem_one selected idle, inner]
    cases descend filters create leaf tail element <;> rfl

/-- Names apart from the field for the id leave the id of an element as it is. -/
theorem id?_place {names : List String} (apart : Apart [Element.idField] names)
    (value element : Json) : (place value names element).id? = element.id? := by
  -- A field of another name is put beside the id, or an object around a longer path.
  cases apart with
  | @here _ other differ _ rest =>
    cases element with
    | object fields =>
      by_cases more : rest = []
      · -- The field that is put has another name than the id.
        subst more
        simp [place, Fields.lookup_put_of_ne differ]
      · simp [Projection.place_cons more, Fields.lookup_put_of_ne differ]
    | _ => cases rest <;> rfl
  -- The path of the id ends at its one name, so nothing can part from it further down.
  | later _ rest => cases rest

/-- Stages at which elements are recognised by a scalar id. -/
def ById (stages : List Stage) : Prop :=
  ∀ stage ∈ stages, ∃ id : Json, id.Scalar ∧ stage.marks = [([Element.idField], id)]

/-- A way back gives an object where an object is put, and keeps the id of the element around it. -/
theorem Reaches.back_keeps (reaches : Reaches stages document element back)
    (root : document.isObject = true) {names : List String}
    (outer : Apart [Element.idField] (next stages names)) {changed : Json}
    (object : changed.isObject = true) (same : stages = [] → changed.id? = element.id?) :
    (back changed).isObject = true ∧ (back changed).id? = document.id? := by
  -- Around the element only the array of the first stage was placed again.
  cases reaches with
  | here => exact ⟨object, same rfl⟩
  | @enter stage rest _ entered _ before after back found _ _ _ _ =>
    exact ⟨by simpa using root, id?_place outer _ _⟩

/-- Another object with the same id in its place is reached in the same way. -/
theorem Reaches.replace (reaches : Reaches stages document element back)
    (sound : ∀ stage ∈ stages, stage.Sound) (byId : ById stages) {names : List String}
    (clear : Clear stages names) {changed : Json}
    (object : changed.isObject = true) (same : stages ≠ [] → changed.id? = element.id?) :
    Reaches stages (back changed) changed back := by
  induction reaches with
  -- Without stages the new object is the whole document.
  | here document => exact .here changed
  | @enter stage rest document entered element before after back found isObject chosen
      others further ih =>
    have later : ∀ other ∈ rest, other.Sound := fun other member => sound other (by simp [member])
    -- The element entered here is recognised by its id, and what changes is apart from that.
    obtain ⟨id, scalar, marks⟩ := byId stage (by simp)
    have outer : Apart [Element.idField] (next rest names) := by
      exact clear.1 ([Element.idField], id) (by simp [marks])
    have inner := ih later (fun other member => byId other (by simp [member])) clear.2
      fun _ => same (by simp)
    obtain ⟨stays, keeps⟩ := further.back_keeps isObject outer object fun _ => same (by simp)
    -- The array is found where it was placed.
    have still : lookup stage.names (place (.array (before ++ back changed :: after)) stage.names
        document) = some (.array (before ++ back changed :: after)) :=
      Projection.lookup_place (sound stage (by simp)).leads.some_name
        (Projection.obstructed_of_lookup found) _
    have identity : stage.identity = [(Element.idField, id)] := by
      simp [identity, marks, Element.dottedLeaf]
    -- Its element has the id that it had, so it is still recognised.
    have chosenStill : Query.satisfies (back changed) stage.identity = true := by
      rw [identity] at chosen ⊢
      rw [Json.satisfies_id_congr stays isObject keeps]
      exact chosen
    have again := Reaches.enter still stays chosenStill others inner
    -- The later of two arrays placed at the names of the stage stays, so the way back is the same.
    simpa only [Projection.place_place (sound stage (by simp)).leads.some_name] using again

end Stage

end DocPatch
