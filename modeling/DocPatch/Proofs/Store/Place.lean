import DocPatch.Proofs.Json.Entries
import DocPatch.Store.Projection

/-! Values at paths of field names: what stands there, what is in the way, and which paths do not
    disturb one another. -/

namespace DocPatch.Projection

/-- Whether something other than an object stands on the way along a path. -/
def obstructed : List String → Json → Bool
  | [], _ => false
  -- A missing field is no obstacle, since objects can be made for it.
  | name :: rest, .object fields => (fields.lookup name).any (obstructed rest)
  | _ :: _, _ => true

/-- One field after another, from the outside. -/
theorem lookup_cons (name : String) (rest : List String) (fields : Fields) :
    lookup (name :: rest) (.object fields) = (fields.lookup name).bind (lookup rest) := by
  simp [lookup]

/-- A path of one name leads to a field. -/
@[simp] theorem lookup_singleton (name : String) (fields : Fields) :
    lookup [name] (.object fields) = fields.lookup name := by
  cases found : fields.lookup name <;> simp [lookup, found]

/-- Nothing is in the way of a field. -/
@[simp] theorem obstructed_singleton (name : String) (fields : Fields) :
    obstructed [name] (.object fields) = false := by
  cases found : fields.lookup name <;> simp [obstructed, found]

/-- Placing at a longer path changes the value of the first field. -/
theorem place_cons {rest : List String} (more : rest ≠ []) (value : Json) (name : String)
    (fields : Fields) :
    place value (name :: rest) (.object fields) =
      .object (Fields.put name
        (place value rest ((fields.lookup name).getD (.object []))) fields) := by
  -- With more names behind it, the first one is only passed.
  cases rest with
  | nil => exact absurd rfl more
  | cons next others => rfl

/-- A property that goes from an object to the values of its entries goes to all that
    stands in it. -/
theorem holds_of_lookup {holds : Json → Prop}
    (inside : ∀ fields key value, holds (.object fields) → (key, value) ∈ fields → holds value)
    {names : List String} {target value : Json} (whole : holds target)
    (found : lookup names target = some value) : holds value := by
  -- Each name leads from an object to the value of one of its entries.
  induction names generalizing target with
  -- An empty path ends at the value itself.
  | nil =>
    simp only [lookup, Option.some.injEq] at found
    exact found ▸ whole
  | cons name rest ih =>
    cases target with
    | object fields =>
      rw [lookup_cons, Option.bind_eq_some_iff] at found
      obtain ⟨child, here, further⟩ := found
      exact ih (inside fields name child whole (Fields.mem_of_lookup here)) further
    | _ => simp [lookup] at found

/-- Nothing stands behind an obstacle. -/
theorem lookup_of_obstructed {path : List String} {target : Json}
    (blocked : obstructed path target = true) : lookup path target = none := by
  -- The obstacle is met before the path ends.
  induction path generalizing target with
  | nil => simp [obstructed] at blocked
  | cons name rest ih =>
    cases target with
    -- An object is no obstacle, so the obstacle is inside one of its values.
    | object fields =>
      simp only [obstructed, Option.any_eq_true] at blocked
      obtain ⟨child, found, inside⟩ := blocked
      simp [lookup_cons, found, ih inside]
    -- Anything else is the obstacle.
    | _ => rfl

/-- Where a value stands, nothing is in the way. -/
theorem obstructed_of_lookup {path : List String} {target value : Json}
    (found : lookup path target = some value) : obstructed path target = false := by
  -- An obstacle would end the search.
  rw [← Bool.not_eq_true]
  intro blocked
  simp [lookup_of_obstructed blocked] at found

/-- Behind an obstacle nothing is placed. -/
theorem place_of_obstructed {path : List String} {target : Json}
    (blocked : obstructed path target = true) (value : Json) :
    place value path target = target := by
  -- The objects up to the obstacle get back what they hold.
  induction path generalizing target with
  | nil => simp [obstructed] at blocked
  | cons name rest ih =>
    cases target with
    | object fields =>
      simp only [obstructed, Option.any_eq_true] at blocked
      obtain ⟨child, found, inside⟩ := blocked
      -- The obstacle is not the value at the path, which would be replaced.
      have more : rest ≠ [] := by
        intro same
        subst same
        simp [obstructed] at inside
      rw [place_cons more, found, Option.getD_some, ih inside, Fields.put_lookup found]
    | _ => cases rest <;> rfl

/-- In what is no object nothing is placed. -/
theorem place_of_not_object {target : Json} (other : target.isObject = false) (value : Json)
    (path : List String) : place value path target = target := by
  -- Every form of a path starts by looking into an object.
  rcases path with _ | ⟨name, _ | ⟨next, rest⟩⟩ <;> cases target <;>
    first | rfl | simp [Json.isObject] at other

/-- A placed value stands at its path. -/
theorem lookup_place {path : List String} {target : Json} (some_name : path ≠ [])
    (free : obstructed path target = false) (value : Json) :
    lookup path (place value path target) = some value := by
  -- Objects are made where they are missing, and nothing else is on the way.
  induction path generalizing target with
  | nil => exact absurd rfl some_name
  | cons name rest ih =>
    cases target with
    | object fields =>
      by_cases more : rest = []
      · -- The last name holds the value right after it was put.
        subst more
        simp [place]
      · -- A missing object is made empty, so nothing is in the way inside of it.
        have inside : obstructed rest ((fields.lookup name).getD (.object [])) = false := by
          cases found : fields.lookup name with
          | none => cases rest <;> simp [obstructed]
          | some child => simpa [obstructed, found] using free
        rw [place_cons more, lookup_cons, Fields.lookup_put_self]
        exact ih more inside
    | _ => simp [obstructed] at free

/-- Placing what stands there already changes nothing. -/
theorem place_lookup {path : List String} {target value : Json}
    (found : lookup path target = some value) : place value path target = target := by
  -- Every object on the way gets back what it holds.
  induction path generalizing target with
  | nil => rfl
  | cons name rest ih =>
    cases target with
    | object fields =>
      rw [lookup_cons, Option.bind_eq_some_iff] at found
      obtain ⟨child, here, inside⟩ := found
      by_cases more : rest = []
      · -- The last name holds the value that is put.
        subst more
        simp only [lookup, Option.some.injEq] at inside
        subst inside
        simp [place, Fields.put_lookup here]
      · -- The child is not changed, so putting it back changes nothing.
        rw [place_cons more, here, Option.getD_some, ih inside, Fields.put_lookup here]
    | _ => simp [lookup] at found

/-- The later of two values placed at one path stays. -/
theorem place_place {path : List String} (some_name : path ≠ []) (first second target : Json) :
    place second path (place first path target) = place second path target := by
  -- Both values go through the same objects.
  induction path generalizing target with
  | nil => exact absurd rfl some_name
  | cons name rest ih =>
    cases target with
    | object fields =>
      by_cases more : rest = []
      · -- At the last name the second value replaces the first.
        subst more
        simp [place]
      · simp [place_cons more, ih more]
    | _ => cases rest <;> rfl

/-- An object stays one, whatever is placed inside. -/
@[simp] theorem isObject_place (value : Json) (path : List String) (target : Json) :
    (place value path target).isObject = target.isObject := by
  rcases path with _ | ⟨name, _ | ⟨next, rest⟩⟩ <;> cases target <;> rfl

/-- Paths that part before either of them ends. -/
inductive Apart : List String → List String → Prop where
  | here {left right : String} (differ : left ≠ right) (lefts rights : List String) :
    Apart (left :: lefts) (right :: rights)
  | later (name : String) {lefts rights : List String} (rest : Apart lefts rights) :
    Apart (name :: lefts) (name :: rights)

namespace Apart

/-- It does not matter which path is named first. -/
theorem symm {left right : List String} (apart : Apart left right) : Apart right left := by
  -- The paths part at the same name from either side.
  induction apart with
  | here differ lefts rights => exact .here (Ne.symm differ) rights lefts
  | later name _ ih => exact .later name ih

/-- Paths stay apart behind a common beginning. -/
theorem prepend {left right : List String} (start : List String) (apart : Apart left right) :
    Apart (start ++ left) (start ++ right) := by
  -- The paths still part at the name where they parted.
  induction start with
  | nil => exact apart
  | cons name rest ih => exact .later name ih

/-- Paths that part are different. -/
theorem ne {left right : List String} (apart : Apart left right) : left ≠ right := by
  -- Paths are the same only if they go on alike at every name.
  induction apart with
  | here differ lefts rights => simp [differ]
  | later name _ ih => simpa using ih

end Apart

/-- What stands at a path, and what is in its way, is not touched by a change of a value. -/
def Keeps (path : List String) (before after : Json) : Prop :=
  (obstructed path before = true → obstructed path after = true) ∧
  ∀ value, lookup path before = some value → lookup path after = some value

/-- Nothing changes without a change. -/
theorem Keeps.refl (path : List String) (target : Json) : Keeps path target target :=
  ⟨id, fun _ => id⟩

/-- One change after another. -/
theorem Keeps.trans {path : List String} {first second third : Json}
    (before : Keeps path first second) (after : Keeps path second third) : Keeps path first third :=
  ⟨after.1 ∘ before.1, fun value => after.2 value ∘ before.2 value⟩

/-- Placing a value leaves every path apart from its own untouched. -/
theorem keeps_place {path other : List String} (apart : Apart other path) (value target : Json) :
    Keeps other target (place value path target) := by
  -- The paths go through the same objects until they part at two fields of one object.
  induction apart generalizing target with
  | @here left right differ lefts rights =>
    cases target with
    | object fields =>
      -- A value put to the one field leaves the other as it is.
      have same : ∀ child, (Fields.put right child fields).lookup left = fields.lookup left :=
        fun child => Fields.lookup_put_of_ne differ child fields
      cases rights with
      | nil => simp [Keeps, place, obstructed, lookup_cons, same]
      | cons next rest => simp [Keeps, place, obstructed, lookup_cons, same]
    | _ => cases rights <;> exact Keeps.refl _ _
  | @later name lefts rights rest ih =>
    have more : rights ≠ [] := by
      intro same
      subst same
      cases rest
    cases target with
    | object fields =>
      rw [place_cons more]
      cases found : fields.lookup name with
      -- A missing field holds nothing that could be lost.
      | none => simp [Keeps, obstructed, lookup_cons, found]
      -- Inside the common field the rest of the paths part.
      | some child => simpa [Keeps, obstructed, lookup_cons, found] using ih child
    | _ => cases rights <;> exact Keeps.refl _ _

/-- Nothing changed, or the value at a path was replaced. -/
def Altered (path : List String) (before after : Json) : Prop :=
  after = before ∨ ∃ value, after = place value path before

namespace Altered

variable {path : List String} {before between after : Json}

/-- Nothing has changed. -/
theorem refl (path : List String) (target : Json) : Altered path target target := Or.inl rfl

/-- Replacing the value twice is replacing it once. -/
theorem trans (some_name : path ≠ []) (first : Altered path before between)
    (second : Altered path between after) : Altered path before after := by
  -- The value that is placed last is the one that stays.
  rcases second with rfl | ⟨value, rfl⟩
  · exact first
  · rcases first with rfl | ⟨earlier, rfl⟩
    · exact Or.inr ⟨value, rfl⟩
    · exact Or.inr ⟨value, place_place some_name earlier value before⟩

end Altered

end DocPatch.Projection
