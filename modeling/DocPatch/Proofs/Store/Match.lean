import DocPatch.Guard
import DocPatch.Operation
import DocPatch.Proofs.Json.Equality
import DocPatch.Proofs.Path.Names
import DocPatch.Proofs.Store.Place
import DocPatch.Store.Update

/-! What queries say: clause by clause, about the fields of an element, and about the elements of an
    array. -/

namespace DocPatch

/-- Whether what was found, an element or none, is as wanted. -/
def Presence.agrees : Presence → Bool → Bool
  | .present, found => found
  | .absent, found => !found

namespace Query

/-- A query on fields: its keys are no operators and not empty. -/
def Named (query : Fields) : Prop :=
  ∀ entry ∈ query, entry.1 ≠ "" ∧ Path.isOperator entry.1 = false

/-- A query on fields, maybe on one with an empty name: its keys are no operators. -/
def OnFields (query : Fields) : Prop :=
  ∀ entry ∈ query, Path.isOperator entry.1 = false

/-- A query on fields with names is one on fields. -/
theorem Named.onFields {query : Fields} (named : Named query) : OnFields query :=
  fun entry member => (named entry member).2

/-- What one clause of a query says of a document. -/
def clause (document : Json) (key : String) (condition : Json) : Bool :=
  if key = "$and" then condition.items?.any (satisfiesAll document)
  else if key = "$or" then condition.items?.any (satisfiesAny document)
  -- Any other key is a path.
  else holds (resolve (Path.segments key) document) condition

/-- A document satisfies a query clause by clause. -/
theorem satisfies_entry (document : Json) (key : String) (condition : Json) (rest : Fields) :
    satisfies document ((key, condition) :: rest) =
      (clause document key condition && satisfies document rest) := by
  -- The definition takes lists of queries apart, and any other condition together.
  cases condition with
  | array queries =>
    rw [satisfies, clause]
    rfl
  | _ =>
    rw [satisfies, clause]
    · rfl
    · intro queries same
      cases same

/-- The clause of a key that is no operator speaks of the values at its path. -/
theorem clause_of_noOperator {key : String} (plain : Path.isOperator key = false)
    (document condition : Json) :
    clause document key condition = holds (resolve (Path.segments key) document) condition := by
  -- Both keys that list queries are operators.
  have notAnd : key ≠ "$and" := by
    intro same
    subst same
    exact absurd plain (by decide)
  have notOr : key ≠ "$or" := by
    intro same
    subst same
    exact absurd plain (by decide)
  rw [clause, if_neg notAnd, if_neg notOr]

/-- Every document satisfies the empty query. -/
@[simp] theorem satisfies_nil (document : Json) : satisfies document [] = true := by
  simp [satisfies]

/-- A query on fields is satisfied when each of its conditions is met by the values at its path. -/
theorem satisfies_of_holds {document : Json} {query : Fields} (onFields : OnFields query)
    (each : ∀ entry ∈ query, holds (resolve (Path.segments entry.1) document) entry.2 = true) :
    satisfies document query = true := by
  -- The conditions are asked one after the other, and none of them is an operator.
  induction query with
  | nil => exact satisfies_nil document
  | cons entry rest ih =>
    rw [satisfies_entry, clause_of_noOperator (onFields entry (by simp)), each entry (by simp),
      ih (fun other member => onFields other (by simp [member]))
        fun other member => each other (by simp [member])]
    rfl

/-- Clauses put together are all to be satisfied. -/
theorem satisfies_append (document : Json) (first second : Fields) :
    satisfies document (first ++ second) =
      (satisfies document first && satisfies document second) := by
  -- The clauses of the first query come first.
  induction first with
  | nil => simp
  | cons entry rest ih =>
    rcases entry with ⟨key, condition⟩
    rw [List.cons_append, satisfies_entry, satisfies_entry, ih, Bool.and_assoc]

/-- Both of two filters accept what their conjunction accepts. -/
theorem satisfies_both (document : Json) (left right : Fields) :
    satisfies document (Guard.both left right) =
      (satisfies document left && satisfies document right) := by
  -- The conjunction lists the two filters.
  simp [Guard.both, satisfies, satisfiesAll]

/-- A scalar is compared with what is found. -/
theorem holds_scalar {expected : Json} (scalar : expected.Scalar) (candidates : List Json) :
    holds candidates expected = someEquals candidates expected := by
  -- An object without entries holds no operators, so it is compared as well.
  cases expected with
  | object fields =>
    simp only [Json.Scalar] at scalar
    simp [scalar, holds, isOperators]
  | array items => simp [Json.Scalar] at scalar
  | _ => simp [holds]

/-- A scalar is what is expected of itself. -/
theorem holds_self {value : Json} (scalar : value.Scalar) : holds [value] value = true := by
  rw [holds_scalar scalar]
  simp [someEquals, equalsOrContains, Json.equal_self value scalar.wellKeyed]

/-- Along field names through objects a path leads to one value at most. -/
theorem resolve_names {names : List String} {target : Json}
    (free : Projection.obstructed names target = false) :
    resolve names target = (Projection.lookup names target).toList := by
  -- Through objects every name has one value at most, and nothing else is on the way.
  induction names generalizing target with
  | nil => simp [resolve, Projection.lookup]
  | cons name rest ih =>
    cases target with
    | object fields =>
      rw [Projection.lookup_cons]
      cases found : fields.lookup name with
      -- A missing field leads nowhere, on both sides.
      | none => simp [resolve, step, found]
      -- The child is the only candidate, and nothing is in the way inside of it.
      | some child =>
        have inside : Projection.obstructed rest child = false := by
          simpa [Projection.obstructed, found] using free
        simp [resolve, step, found, ih inside]
    -- Anything else would be in the way.
    | _ => simp [Projection.obstructed] at free

/-- A path leads to the same values when another one is placed apart from it. -/
theorem resolve_place {names other : List String} (apart : Projection.Apart names other)
    (value target : Json) :
    resolve names (Projection.place value other target) = resolve names target := by
  -- The paths go through the same objects until they part at two fields of one object.
  induction apart generalizing target with
  | @here left right differ lefts rights =>
    cases target with
    | object fields =>
      -- A value put to the one field leaves the other as it is.
      have same : ∀ child, (Fields.put right child fields).lookup left = fields.lookup left :=
        fun child => Fields.lookup_put_of_ne differ child fields
      cases rights with
      | nil => simp only [Projection.place, resolve, step, same]
      | cons next rest => simp only [Projection.place, resolve, step, same]
    | _ => cases rights <;> rfl
  | @later name lefts rights rest ih =>
    have more : rights ≠ [] := by
      intro same
      subst same
      cases rest
    cases target with
    | object fields =>
      have inner := ih ((fields.lookup name).getD (.object []))
      rw [Projection.place_cons more]
      cases found : fields.lookup name with
      | some child => simpa [resolve, step, found] using inner
      -- The object that is made for a missing field holds nothing else.
      | none =>
        have nothing : resolve lefts (.object []) = [] := by
          cases rest <;> simp [resolve, step]
        simpa [resolve, step, found, nothing] using inner
    | _ => cases rights <;> rfl

/-- A query with a clause on a field is not taken for operators. -/
theorem isOperators_of_onFields {query : Fields} (onFields : OnFields query) :
    isOperators query = false := by
  cases query with
  -- Operators are recognised by their first key.
  | nil => rfl
  | cons entry rest => simp [isOperators, onFields entry (by simp)]

/-- Only objects match a query on fields, and they match it by satisfying it. -/
theorem elementSatisfies_object {query : Fields} (onFields : OnFields query) (element : Json) :
    elementSatisfies element (.object query) = (element.isObject && satisfies element query) := by
  -- A query on fields is no operator, and no other value equals an object.
  simp only [elementSatisfies, isOperators_of_onFields onFields, Bool.false_eq_true, ↓reduceIte]
  cases element with
  | object fields => simp [Json.isObject]
  | _ => simp [Json.isObject, Json.equal]

/-- An element is among some options when it equals one of them, or contains one. -/
theorem elementSatisfies_in (options : List Json) (element : Json) :
    elementSatisfies element (.single "$in" (.array options)) =
      options.any (equalsOrContains element) := by
  have operator : isOperators [("$in", Json.array options)] = true := by
    simp [isOperators, Path.isOperator]
  -- The element is the one candidate for each option.
  have single : someEquals [element] = equalsOrContains element := by
    funext option
    simp [someEquals]
  simp only [Json.single, elementSatisfies, operator, ↓reduceIte, operatorsHold, someAmong, single,
    Bool.and_true]

/-- The conditions of an alias accept what satisfies them as a query. -/
theorem accepts_eq_satisfies {query : Fields} (named : Named query) (element : Json) :
    Update.accepts query element = satisfies element query := by
  -- The keys are not empty and no operators, so both read the values at their paths.
  induction query with
  | nil => simp [Update.accepts]
  | cons entry rest ih =>
    rcases entry with ⟨key, condition⟩
    obtain ⟨nonempty, plain⟩ := named (key, condition) (by simp)
    -- The other conditions are met as the rest of the query is.
    have others : Update.accepts rest element = satisfies element rest :=
      ih fun other member => named other (by simp [member])
    rw [satisfies_entry, clause_of_noOperator plain, ← others]
    simp [Update.accepts, show key ≠ "" from nonempty]

/-- Whether one of the values found is an array with an object that satisfies a query. -/
def someElement (candidates : List Json) (query : Fields) : Bool :=
  candidates.any fun candidate =>
    (candidate.items?.getD []).any fun item => item.isObject && satisfies item query

/-- An element is asked for as an object that satisfies the fields. -/
theorem holds_element {query : Fields} (onFields : OnFields query)
    (candidates : List Json) (presence : Presence) :
    holds candidates (Guard.element query presence) =
      presence.agrees (someElement candidates query) := by
  -- Only an object satisfies a query on fields, whether it is asked for or ruled out.
  have asked := elementSatisfies_object onFields
  -- Both forms of the condition are read as operators.
  have operator : isOperators [("$elemMatch", Json.object query)] = true := by
    simp [isOperators, Path.isOperator]
  have negation : isOperators [("$not", Json.object [("$elemMatch", .object query)])] = true := by
    simp [isOperators, Path.isOperator]
  cases presence with
  -- What is asked for is an element in one of the arrays found.
  | present =>
    simp only [Guard.element, Json.single, holds, operator, ↓reduceIte, operatorsHold, asked,
      Bool.and_true]
    rfl
  -- What is ruled out is any such element.
  | absent =>
    simp only [Guard.element, Json.single, holds, negation, operator, ↓reduceIte, operatorsHold,
      asked, Bool.and_true]
    rfl

end Query

end DocPatch
