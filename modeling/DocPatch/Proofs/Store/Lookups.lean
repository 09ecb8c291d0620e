import DocPatch.Proofs.Json.Sameness
import DocPatch.Proofs.Store.Place

/-! What stands at each path after a value was placed or dropped: at the path itself and behind it,
    on the way to it, and at paths that part from it. -/

namespace DocPatch.Projection

/-- Of two paths one starts the other, or they part. -/
theorem prefix_or_apart (left right : List String) :
    left <+: right ∨ right <+: left ∨ Apart left right := by
  -- The paths are compared name by name, until one of them ends or the names differ.
  induction left generalizing right with
  | nil => exact Or.inl (List.nil_prefix)
  | cons name rest ih =>
    cases right with
    | nil => exact Or.inr (Or.inl List.nil_prefix)
    | cons other others =>
      by_cases same : name = other
      · subst same
        rcases ih others with starts | starts | apart
        · exact Or.inl (List.cons_prefix_cons.mpr ⟨rfl, starts⟩)
        · exact Or.inr (Or.inl (List.cons_prefix_cons.mpr ⟨rfl, starts⟩))
        · exact Or.inr (Or.inr (.later name apart))
      · exact Or.inr (Or.inr (.here same rest others))

/-- Of paths that part neither starts the other. -/
theorem Apart.not_starts {left right : List String} (apart : Apart left right) :
    ¬ left <+: right := by
  -- Where the names differ, neither path goes on as the other does.
  induction apart with
  | here differ lefts rights => simp [List.cons_prefix_cons, differ]
  | later name _ ih => simpa [List.cons_prefix_cons] using ih

/-- A path in two parts leads on from where its first part leads. -/
theorem lookup_append (first second : List String) (target : Json) :
    lookup (first ++ second) target = (lookup first target).bind (lookup second) := by
  -- The names of the first part are taken off, one object after the other.
  induction first generalizing target with
  | nil => rfl
  | cons name rest ih =>
    cases target with
    | object fields =>
      rw [List.cons_append, lookup_cons, lookup_cons, Option.bind_assoc]
      exact congrArg _ (funext ih)
    | _ => rfl

/-- Behind a path that leads nowhere nothing stands. -/
theorem lookup_behind {front path : List String} {target : Json} (start : front <+: path)
    (missing : lookup front target = none) : lookup path target = none := by
  -- The search passes through the front first.
  obtain ⟨rest, rfl⟩ := start
  rw [lookup_append, missing, Option.bind_none]

/-- In the empty object nothing stands. -/
theorem lookup_empty {path : List String} (some_name : path ≠ []) :
    lookup path (.object []) = none := by
  -- The first name is already missing.
  obtain ⟨name, rest, rfl⟩ := List.exists_cons_of_ne_nil some_name
  rfl

/-- An object stands at a path. -/
def ObjectAt (path : List String) (target : Json) : Prop :=
  ∃ fields, lookup path target = some (.object fields)

/-- On the way to a value there are objects. -/
theorem objectAt_of_lookup {front : List String} {name : String} {rest : List String}
    {target value : Json} (found : lookup (front ++ name :: rest) target = some value) :
    ObjectAt front target := by
  rw [lookup_append] at found
  obtain ⟨child, here, below⟩ := Option.bind_eq_some_iff.mp found
  -- A further name leads on from an object only.
  cases child with
  | object fields => exact ⟨fields, here⟩
  | _ => simp [lookup] at below

/-- Nothing is in the way, if there are objects or nothing at all on the way. -/
theorem free_of_objects {path : List String} {target : Json}
    (each : ∀ front name rest, path = front ++ name :: rest →
      lookup front target = none ∨ ObjectAt front target) : obstructed path target = false := by
  -- Each value that the path goes into is an object, and so are those on the way inside it.
  induction path generalizing target with
  | nil => rfl
  | cons name rest ih =>
    obtain ⟨fields, same⟩ : ObjectAt [] target := (each [] name rest rfl).resolve_left
      (by simp [lookup])
    obtain rfl := Option.some.inj same
    rw [obstructed]
    cases found : fields.lookup name with
    | none => rfl
    | some child =>
      refine ih fun front next others split => ?_
      simpa [ObjectAt, lookup_cons, found] using each (name :: front) next others (by simp [split])

section Place

variable {path other : List String} {target : Json}

/-- A placed value leaves everything at paths that part from its own, or nothing, as it was. -/
theorem lookup_place_apart (apart : Apart other path) (value target : Json) :
    lookup other (place value path target) = lookup other target := by
  -- The paths go through the same objects until they part at two fields of one object.
  induction apart generalizing target with
  | @here left right differ lefts rights =>
    cases target with
    | object fields =>
      have spared (child : Json) : (Fields.put right child fields).lookup left =
          fields.lookup left :=
        Fields.lookup_put_of_ne differ child fields
      cases rights <;> simp [place, lookup_cons, spared]
    | _ => rw [place_of_not_object rfl]
  | @later name lefts rights rest ih =>
    have more : rights ≠ [] ∧ lefts ≠ [] := by cases rest <;> simp
    cases target with
    | object fields =>
      rw [place_cons more.1, lookup_cons, lookup_cons, Fields.lookup_put_self, Option.bind_some, ih]
      cases fields.lookup name with
      | none => exact lookup_empty more.2
      | some child => rfl
    | _ => rw [place_of_not_object rfl]

/-- Behind its path a placed value is found. -/
theorem lookup_place_append (some_name : path ≠ []) (free : obstructed path target = false)
    (value : Json) (rest : List String) :
    lookup (path ++ rest) (place value path target) = lookup rest value := by
  -- The search finds the placed value first, and goes on inside it.
  rw [lookup_append, lookup_place some_name free, Option.bind_some]

/-- On the way to a placed value there are objects. -/
theorem objectAt_place {front : List String} {name : String} {rest : List String}
    (free : obstructed (front ++ name :: rest) target = false) (value : Json) :
    ObjectAt front (place value (front ++ name :: rest) target) :=
  -- The placed value is found behind the front, so an object stands there.
  objectAt_of_lookup (lookup_place (by simp) free value)

end Place

/-- What stands at a path is as it was, or it was an object and is still one. -/
def Alike (path : List String) (before after : Json) : Prop :=
  lookup path after = lookup path before ∨ ObjectAt path before ∧ ObjectAt path after

/-- Changes that leave the rest alike do so one after the other. -/
theorem Alike.trans {path : List String} {first second third : Json}
    (before : Alike path first second) (after : Alike path second third) :
    Alike path first third := by
  -- If there is an object at one stage, there is one at each of them.
  rcases before with same | ⟨object, objects⟩
  · rcases after with also | ⟨was, is⟩
    · exact Or.inl (also.trans same)
    · exact Or.inr ⟨by rwa [ObjectAt, ← same], is⟩
  · rcases after with also | ⟨-, is⟩
    · exact Or.inr ⟨object, by rwa [ObjectAt, also]⟩
    · exact Or.inr ⟨object, is⟩

/-- Alikeness does not depend on the side. -/
theorem Alike.symm {path : List String} {left right : Json} (alike : Alike path left right) :
    Alike path right left :=
  alike.imp Eq.symm And.symm

/-- Where nothing stood, nothing stands in something alike. -/
theorem Alike.lookup_eq_none {path : List String} {left right : Json}
    (alike : Alike path left right) (missing : lookup path left = none) :
    lookup path right = none := by
  -- The two lead to the same value, or to objects on both sides.
  rcases alike with same | ⟨⟨fields, found⟩, -⟩
  · rw [same, missing]
  · simp [missing] at found

/-- Well keyed values that are alike at every path are the same. -/
theorem same_of_alike {left right : Json} (keyed : left.WellKeyed) (also : right.WellKeyed)
    (alike : ∀ path, Alike path left right) : Json.Same left right := by
  -- The empty path tells whether both are objects, and the other paths compare their values.
  induction left using Json.parts_induction generalizing right with
  | object fields ih =>
    rcases alike [] with same | ⟨-, others, same⟩ <;> obtain rfl := Option.some.inj same
    · exact .refl keyed
    · simp only [Json.WellKeyed] at keyed also
      refine Json.same_object_iff.mpr ⟨keyed.nodup, also.nodup, fun key => ?_⟩
      -- What a key leads to is alike at every path inside.
      have below := alike [key]
      cases found : fields.lookup key with
      | none =>
        rw [← lookup_singleton, below.lookup_eq_none (by rw [lookup_singleton, found])]
        exact .none
      | some value =>
        cases there : others.lookup key with
        | none => simpa [found] using below.symm.lookup_eq_none (by rw [lookup_singleton, there])
        | some other =>
          refine .some (ih _ (Fields.mem_of_lookup found)
            (keyed.of_mem (Fields.mem_of_lookup found))
            (also.of_mem (Fields.mem_of_lookup there)) fun path => ?_)
          simpa [Alike, ObjectAt, lookup_cons, found, there] using alike (key :: path)
  -- What is no object is the same or not alike.
  | array items =>
    rcases alike [] with same | ⟨⟨others, same⟩, -⟩
    · obtain rfl := Option.some.inj same
      exact .refl keyed
    · cases Option.some.inj same
  | other value _ no_fields =>
    rcases alike [] with same | ⟨⟨others, same⟩, -⟩
    · obtain rfl := Option.some.inj same
      exact .refl keyed
    · obtain rfl := Option.some.inj same
      simp [Json.fields?] at no_fields

section Drop

variable {path other : List String} {target : Json}

/-- Dropping at a longer path changes the value of the first field, if there is one. -/
theorem drop_cons {rest : List String} (more : rest ≠ []) (name : String) (fields : Fields) :
    drop (name :: rest) (.object fields) = match fields.lookup name with
      | some child => .object (Fields.put name (drop rest child) fields)
      | none => .object fields := by
  -- With more names behind it, the first one is only passed.
  cases rest with
  | nil => exact absurd rfl more
  | cons next others => rfl

/-- In what is no object nothing is dropped. -/
theorem drop_of_not_object (no_object : target.isObject = false) (path : List String) :
    drop path target = target := by
  -- Every form of a path starts by looking into an object.
  rcases path with _ | ⟨name, _ | ⟨next, rest⟩⟩ <;> cases target <;>
    first | rfl | simp [Json.isObject] at no_object

/-- Where nothing stands, nothing is dropped. -/
theorem drop_of_lookup_none (missing : lookup path target = none) : drop path target = target := by
  -- Every object on the way gets back what it holds, and the last one lacks the key.
  induction path generalizing target with
  | nil => simp [lookup] at missing
  | cons name rest ih =>
    cases target with
    | object fields =>
      by_cases more : rest = []
      · subst more
        rw [lookup_singleton] at missing
        rw [drop, Fields.remove_of_lookup_none missing]
      · rw [drop_cons more]
        cases found : fields.lookup name with
        | none => rfl
        | some child =>
          rw [lookup_cons, found, Option.bind_some] at missing
          simp only [ih missing, Fields.put_lookup found]
    | _ => rw [drop_of_not_object rfl]

/-- A dropped value is gone. -/
theorem lookup_drop (some_name : path ≠ []) (keyed : target.WellKeyed) :
    lookup path (drop path target) = none := by
  -- At the last name the one entry with its key is taken away.
  induction path generalizing target with
  | nil => exact absurd rfl some_name
  | cons name rest ih =>
    cases target with
    | object fields =>
      simp only [Json.WellKeyed] at keyed
      by_cases more : rest = []
      · subst more
        rw [drop, lookup_singleton, Fields.lookup_remove keyed.nodup, if_pos rfl]
      · rw [drop_cons more]
        cases found : fields.lookup name with
        | none => simp [lookup_cons, found]
        | some child =>
          rw [lookup_cons, Fields.lookup_put_self, Option.bind_some]
          exact ih more (keyed.of_mem (Fields.mem_of_lookup found))
    | _ =>
      rw [drop_of_not_object rfl]
      rfl

/-- A dropped value leaves everything at paths that part from its own, or nothing, as it was. -/
theorem lookup_drop_apart (apart : Apart other path) (keyed : target.WellKeyed) :
    lookup other (drop path target) = lookup other target := by
  -- The paths go through the same objects until they part at two fields of one object.
  induction apart generalizing target with
  | @here left right differ lefts rights =>
    cases target with
    | object fields =>
      simp only [Json.WellKeyed] at keyed
      by_cases more : rights = []
      · subst more
        rw [drop, lookup_cons, lookup_cons, Fields.lookup_remove keyed.nodup, if_neg differ]
      · rw [drop_cons more]
        cases fields.lookup right with
        | none => rfl
        | some child => rw [lookup_cons, lookup_cons, Fields.lookup_put_of_ne differ]
    | _ => rw [drop_of_not_object rfl]
  | @later name lefts rights rest ih =>
    have more : rights ≠ [] := by cases rest <;> simp
    cases target with
    | object fields =>
      simp only [Json.WellKeyed] at keyed
      rw [drop_cons more]
      cases found : fields.lookup name with
      | none => rfl
      | some child =>
        rw [lookup_cons, lookup_cons, Fields.lookup_put_self, found]
        exact ih (keyed.of_mem (Fields.mem_of_lookup found))
    | _ => rw [drop_of_not_object rfl]

/-- On the way to a dropped value objects remain objects, and everything else remains as it was. -/
theorem alike_drop (front : List String) (name : String) (rest : List String) (target : Json) :
    Alike front target (drop (front ++ name :: rest) target) := by
  induction front generalizing target with
  | nil =>
    -- Whatever is dropped inside an object, it remains one.
    cases target with
    | object fields =>
      refine Or.inr ⟨⟨fields, rfl⟩, ?_⟩
      by_cases more : rest = []
      · subst more
        exact ⟨_, rfl⟩
      · rw [List.nil_append, drop_cons more]
        cases fields.lookup name <;> exact ⟨_, rfl⟩
    | _ =>
      rw [drop_of_not_object rfl]
      exact Or.inl rfl
  | cons first others ih =>
    cases target with
    | object fields =>
      rw [List.cons_append, drop_cons (by simp)]
      cases found : fields.lookup first with
      | none => exact Or.inl rfl
      | some child => simpa [Alike, ObjectAt, lookup_cons, found] using ih child
    | _ =>
      rw [drop_of_not_object rfl]
      exact Or.inl rfl

end Drop

end DocPatch.Projection
