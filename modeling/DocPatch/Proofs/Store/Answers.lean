import DocPatch.Proofs.Json.Sameness
import DocPatch.Proofs.Store.Match

/-! Queries do not see the order of entries, neither in a document nor in the query. -/

namespace DocPatch.Query

open Json (Same)

variable {left right argument other : Json} {candidates others : List Json}

/-- A segment leads to the same values on both sides. -/
theorem step_same (segment : String) (same : Same left right) :
    List.Forall₂ Same (step segment left) (step segment right) := by
  -- A field is looked up by its key, and an item by its place, which is the same on both sides.
  cases same.matched with
  | object entries => exact forall₂_toList (entries.lookup segment)
  | array pairs =>
    refine List.rel_append (forall₂_toList ?_) (List.rel_flatMap pairs fun item other same => ?_)
    · cases Path.index? segment with
      | none => exact .none
      | some index => exact rel_getElem? pairs index
    · exact forall₂_toList (rel_bind same.fields? fun _ _ entries => entries.lookup segment)
  | _ => exact .nil

/-- A path leads to the same values on both sides. -/
theorem resolve_same (path : List String) (same : Same left right) :
    List.Forall₂ Same (resolve path left) (resolve path right) := by
  -- Every step leads to the same values, from which the rest of the path goes on.
  induction path generalizing left right with
  | nil => exact .cons same .nil
  | cons segment rest ih => exact List.rel_flatMap (step_same segment same) fun _ _ same => ih same

/-- A comparison has the same answer on both sides. -/
theorem equalsOrContains_eq (same : Same left right) (expected : Same argument other) :
    equalsOrContains left argument = equalsOrContains right other := by
  -- The value is compared itself, and then the items of an array.
  rw [equalsOrContains, equalsOrContains, same.equal_eq expected]
  congr 1
  cases same.matched with
  | array pairs => exact any_of_forall₂ pairs fun _ _ same => same.equal_eq expected
  | _ => rfl

/-- A search for a value has the same answer on both sides. -/
theorem someEquals_eq (same : List.Forall₂ Same candidates others)
    (expected : Same argument other) : someEquals candidates argument = someEquals others other :=
  any_of_forall₂ same fun _ _ same => equalsOrContains_eq same expected

/-- A search for one of several values has the same answer on both sides. -/
theorem someAmong_eq {options also : List Json} (same : List.Forall₂ Same candidates others)
    (expected : List.Forall₂ Same options also) :
    someAmong candidates options = someAmong others also :=
  -- The options are tried in pairs.
  any_of_forall₂ expected fun _ _ expected => someEquals_eq same expected

/-- Operators are met one by one. -/
theorem operatorsHold_eq_all (candidates : List Json) (fields : Fields) :
    operatorsHold candidates fields = fields.all fun entry => operatorsHold candidates [entry] := by
  -- The first operator is met by itself, and the others are met without it.
  induction fields with
  | nil => simp [operatorsHold]
  | cons entry rest ih =>
    rw [List.all_cons, ← ih, operatorsHold.eq_def]
    conv => rhs; lhs; rw [operatorsHold.eq_def]
    simp only [show operatorsHold candidates [] = true by rw [operatorsHold], Bool.and_true]

/-- Clauses are satisfied one by one. -/
theorem satisfies_eq_all (document : Json) (query : Fields) :
    satisfies document query = query.all fun entry => clause document entry.1 entry.2 := by
  -- The clauses are looked at one after the other.
  induction query with
  | nil => simp
  | cons entry rest ih => rw [satisfies_entry, List.all_cons, ih]

/-- All queries of a list are to be satisfied by themselves. -/
theorem satisfiesAll_eq_all (document : Json) (queries : List Json) :
    satisfiesAll document queries =
      queries.all fun query => query.fields?.any (satisfies document) := by
  -- What is no object is no query, and is not satisfied.
  induction queries with
  | nil => simp [satisfiesAll]
  | cons query rest ih => cases query <;> simp [satisfiesAll, Json.fields?, ih]

/-- One query of a list is to be satisfied by itself. -/
theorem satisfiesAny_eq_any (document : Json) (queries : List Json) :
    satisfiesAny document queries =
      queries.any fun query => query.fields?.any (satisfies document) := by
  -- What is no object is no query, and is passed over.
  induction queries with
  | nil => simp [satisfiesAny]
  | cons query rest ih => cases query <;> simp [satisfiesAny, Json.fields?, ih]

/-- Two conditions that say the same of values that are the same, each in any of its roles: as a
    condition, as one for elements, as a query, and as a list of queries. -/
structure Congruent (condition other : Json) : Prop where
  holds : ∀ {candidates others}, List.Forall₂ Same candidates others →
    holds candidates condition = holds others other
  element : ∀ {left right}, Same left right →
    elementSatisfies left condition = elementSatisfies right other
  query : ∀ {left right}, Same left right →
    condition.fields?.any (satisfies left) = other.fields?.any (satisfies right)
  all : ∀ {left right}, Same left right →
    condition.items?.any (satisfiesAll left) = other.items?.any (satisfiesAll right)
  any : ∀ {left right}, Same left right →
    condition.items?.any (satisfiesAny left) = other.items?.any (satisfiesAny right)

/-- A clause says the same on both sides, if its conditions do. -/
theorem Congruent.clause (congruent : Congruent argument other) (key : String)
    (same : Same left right) : clause left key argument = clause right key other := by
  -- The key is one of the combinators, or the path of the values.
  rw [Query.clause, Query.clause, congruent.all same, congruent.any same,
    congruent.holds (resolve_same (Path.segments key) same)]

/-- An operator says the same on both sides, if its arguments do. -/
theorem Congruent.operator (congruent : Congruent argument other) (arguments : Same argument other)
    (operator : String) (same : List.Forall₂ Same candidates others) :
    operatorsHold candidates [(operator, argument)] = operatorsHold others [(operator, other)] := by
  -- Only whether there are candidates, what they equal, and what their elements meet is asked for.
  have count : candidates.isEmpty = others.isEmpty := by
    cases same <;> rfl
  rw [operatorsHold.eq_def, operatorsHold.eq_def others]
  simp only [show operatorsHold candidates [] = true by rw [operatorsHold],
    show operatorsHold others [] = true by rw [operatorsHold], Bool.and_true]
  split
  · exact someEquals_eq same arguments
  · rw [someEquals_eq same arguments]
  · cases arguments.matched with
    | array options => exact someAmong_eq same options
    | _ => rfl
  · cases arguments.matched with
    | array options => simp only [someAmong_eq same options]
    | _ => rfl
  · cases arguments.matched <;> simp only [count]
  · rw [congruent.holds same]
  · refine any_of_forall₂ same fun candidate also same => ?_
    cases same.matched with
    | array items => exact any_of_forall₂ items fun _ _ same => congruent.element same
    | _ => rfl
  · rfl

/-- Entries state operators on both sides, or on none. -/
theorem isOperators_eq {fields also : Fields} (same : Fields.Same fields also) :
    isOperators fields = isOperators also := by
  rw [isOperators, isOperators, same.isEmpty_eq, same.all_keys_eq Path.isOperator]

/-- Conditions that are the same say the same. -/
theorem congruent (same : Same argument other) : Congruent argument other := by
  -- A condition is made of conditions, and each of its parts is met in the role that it has there.
  induction argument using Json.parts_induction generalizing other with
  | array items ih =>
    cases same.matched with
    | @array _ others pairs =>
      -- A list of queries says what its queries say; in any other role it is a value.
      have query : ∀ {left right}, Same left right → ∀ item also,
          (item ∈ items ∧ also ∈ others) ∧ Same item also →
          item.fields?.any (satisfies left) = also.fields?.any (satisfies right) :=
        fun same item also pair => (ih item pair.1.1 pair.2).query same
      exact {
        holds := fun candidates => by
          simpa only [Query.holds] using someEquals_eq candidates same
        element := fun elements => by
          simpa only [elementSatisfies] using elements.equal_eq same
        query := fun _ => rfl
        all := fun documents => by
          simpa only [Json.items?, Option.any_some, satisfiesAll_eq_all] using
            all_of_forall₂ (forall₂_mem pairs) (query documents)
        any := fun documents => by
          simpa only [Json.items?, Option.any_some, satisfiesAny_eq_any] using
            any_of_forall₂ (forall₂_mem pairs) (query documents) }
  | object fields ih =>
    cases same.matched with
    | @object _ others entries =>
      -- The entries are clauses or operators, and their values are conditions again.
      have clauses : ∀ {left right}, Same left right →
          satisfies left fields = satisfies right others := fun documents => by
        rw [satisfies_eq_all, satisfies_eq_all]
        exact entries.all_eq fun key value other member same =>
          (ih _ member same).clause key documents
      have operators : ∀ {candidates also}, List.Forall₂ Same candidates also →
          operatorsHold candidates fields = operatorsHold also others := fun candidates => by
        rw [operatorsHold_eq_all, operatorsHold_eq_all]
        exact entries.all_eq fun key value other member same =>
          (ih _ member same).operator same key candidates
      exact {
        holds := fun candidates => by
          simp only [Query.holds, isOperators_eq entries, operators candidates,
            someEquals_eq candidates same]
        element := fun elements => by
          simp only [elementSatisfies, isOperators_eq entries, operators (.cons elements .nil),
            elements.isObject, clauses elements, elements.equal_eq same]
        query := fun documents => clauses documents
        all := fun _ => rfl
        any := fun _ => rfl }
  | other value no_items no_fields =>
    cases same.matched with
    | array => simp [Json.items?] at no_items
    | object => simp [Json.fields?] at no_fields
    -- A value without parts is only compared with.
    | _ =>
      exact {
        holds := fun candidates => by
          simpa only [Query.holds] using someEquals_eq candidates same
        element := fun elements => by
          simpa only [elementSatisfies] using elements.equal_eq same
        query := fun _ => rfl
        all := fun _ => rfl
        any := fun _ => rfl }

/-- A query says the same of values that are the same, and so does a query that is the same. -/
theorem satisfies_eq {query also : Fields} (documents : Same left right)
    (queries : Fields.Same query also) : satisfies left query = satisfies right also := by
  simpa [Json.fields?] using (congruent (Json.same_object_iff.mpr queries)).query documents

end DocPatch.Query
