import DocPatch.Proofs.Store.Match

/-! What the predicates about elements mean: elements, entered one after the other, lead to an array
    that has, or lacks, an element. -/

namespace DocPatch.Guard

/-- The first field after some levels: that of the next level, or the one that follows them all. -/
def next : Ancestry → String → String
  | [], field => field
  | level :: _, _ => level.field

/-- Levels that a predicate can ask about: no field name and no key of an identity starts an
    operator, and no identity has the next field as a key. -/
def Askable : Ancestry → String → Prop
  | [], field => Path.isOperator field = false
  | level :: rest, field =>
    Path.isOperator level.field = false ∧
      -- Operators mean something else in a query, and a condition on the next field would be lost.
      (∀ entry ∈ level.identity, Path.isOperator entry.1 = false ∧ entry.1 ≠ next rest field) ∧
      Askable rest field

/-- An element of an array that is found at a field of a value. -/
def Offers (holder : Json) (field : String) (element : Json) : Prop :=
  ∃ items, .array items ∈ Query.resolve (Path.segments field) holder ∧ element ∈ items

/-- Some array found at a field of a value has an object that satisfies a query. -/
def Has (holder : Json) (field : String) (identity : Fields) : Prop :=
  ∃ object, Offers holder field (.object object) ∧ Query.satisfies (.object object) identity = true

/-- Objects are entered one after the other: the first one is an element of an array found at the
    field of the first level in a value, each later one is found in the one before, and each
    satisfies the identity of its level. They end at the last of them, and for no levels at the
    value itself. -/
inductive Enters : Ancestry → Json → Json → Prop where
  | here (holder : Json) : Enters [] holder holder
  | inside {level : Level} {rest : Ancestry} {holder last : Json} {object : Fields}
      (offered : Offers holder level.field (.object object))
      (chosen : Query.satisfies (.object object) level.identity = true)
      (further : Enters rest (.object object) last) : Enters (level :: rest) holder last

/-- Whether one of the objects that levels lead to passes a test. -/
def reaches (test : Json → Bool) : Ancestry → Json → Bool
  | [], holder => test holder
  | level :: rest, holder =>
    -- The field may lead to several arrays, in each of which an object may do.
    (Query.resolve (Path.segments level.field) holder).any fun found =>
      (found.items?.getD []).any fun item =>
        item.isObject && (Query.satisfies item level.identity && reaches test rest item)

/-- Whether the array at names in a holder has an object with these fields, or has none. -/
def tells (names : List String) (identity : Fields) (presence : Presence) (holder : Json) : Bool :=
  presence.agrees (Query.someElement (Query.resolve names holder) identity)

/-- A search through the elements of the arrays found at a field succeeds at some object there. -/
theorem any_offered {holder : Json} {field : String} {test : Json → Bool} :
    ((Query.resolve (Path.segments field) holder).any fun found =>
        (found.items?.getD []).any fun item => item.isObject && test item) = true ↔
      ∃ object, Offers holder field (.object object) ∧ test (.object object) = true := by
  simp only [List.any_eq_true, Bool.and_eq_true]
  constructor
  · intro given
    obtain ⟨found, among, item, listed, object, passed⟩ := given
    -- What has items is an array, and of those the objects are looked at.
    cases found with
    | array items =>
      cases item with
      | object fields => exact ⟨fields, ⟨items, among, listed⟩, passed⟩
      | _ => simp [Json.isObject] at object
    | _ => simp [Json.items?] at listed
  · intro given
    obtain ⟨object, ⟨items, among, listed⟩, passed⟩ := given
    exact ⟨_, among, _, listed, rfl, passed⟩

/-- A search for an element finds one where an array has one. -/
theorem someElement_iff {holder : Json} {field : String} {identity : Fields} :
    Query.someElement (Query.resolve (Path.segments field) holder) identity = true ↔
      Has holder field identity :=
  -- The search looks into the arrays that the path offers.
  any_offered

/-- Levels lead to an object that passes a test when objects can be entered that end there. -/
theorem reaches_iff {test : Json → Bool} {ancestry : Ancestry} {holder : Json} :
    reaches test ancestry holder = true ↔
      ∃ last, Enters ancestry holder last ∧ test last = true := by
  -- The first level chooses an object, from which the other levels lead on.
  induction ancestry generalizing holder with
  | nil =>
    constructor
    · intro passed
      exact ⟨holder, .here holder, passed⟩
    · intro given
      obtain ⟨last, entered, passed⟩ := given
      cases entered
      exact passed
  | cons level rest ih =>
    rw [reaches, any_offered]
    simp only [Bool.and_eq_true, ih]
    constructor
    · intro given
      obtain ⟨object, offered, chosen, last, further, passed⟩ := given
      exact ⟨last, .inside offered chosen further, passed⟩
    · intro given
      obtain ⟨last, entered, passed⟩ := given
      cases entered with
      | inside offered chosen further => exact ⟨_, offered, chosen, last, further, passed⟩

/-- The one key of a predicate is the first field on its way. -/
theorem keys_predicate (ancestry : Ancestry) (field : String) (identity : Fields)
    (presence : Presence) :
    (predicate ancestry field identity presence).map Prod.fst = [next ancestry field] := by
  -- A predicate asks for a level to enter, or at its end for the field.
  cases ancestry <;> rfl

/-- The next field starts no operator. -/
theorem Askable.next {ancestry : Ancestry} {field : String} (askable : Askable ancestry field) :
    Path.isOperator (next ancestry field) = false := by
  -- The next field is that of the first level, or the last field.
  cases ancestry with
  | nil => exact askable
  | cons level rest => exact askable.1

/-- A document satisfies a predicate when the levels lead to a value of which it tells the truth. -/
theorem satisfies_predicate {ancestry : Ancestry} {field : String}
    (askable : Askable ancestry field) {identity : Fields} (onFields : Query.OnFields identity)
    (presence : Presence) (holder : Json) :
    Query.satisfies holder (predicate ancestry field identity presence) =
      reaches (tells (Path.segments field) identity presence) ancestry holder := by
  -- The predicate of one level more asks for an element that satisfies the predicate without it.
  induction ancestry generalizing holder with
  -- The predicate has one clause: the array at the field has such an object, or has none.
  | nil =>
    simp only [predicate, List.foldr_nil, Query.satisfies_entry, Query.satisfies_nil, Bool.and_true,
      Query.clause_of_noOperator askable, Query.holds_element onFields, reaches, tells]
  | cons level rest ih =>
    obtain ⟨entered, identified, further⟩ := askable
    have keys := keys_predicate rest field identity presence
    -- The key of the inner predicate is none of the identity, so merging only puts it behind.
    have merged : Fields.merge level.identity (predicate rest field identity presence) =
        level.identity ++ predicate rest field identity presence := by
      refine Fields.merge_of_fresh (by simp [keys]) ?_
      simp only [keys, List.mem_singleton, forall_eq, List.mem_map, not_exists, not_and]
      exact fun entry member => (identified entry member).2
    -- Both parts of the merged query speak of fields.
    have both : Query.OnFields (level.identity ++ predicate rest field identity presence) := by
      intro entry member
      rcases List.mem_append.mp member with mine | theirs
      · exact (identified entry mine).1
      · have key := List.mem_map_of_mem (f := Prod.fst) theirs
        rw [keys, List.mem_singleton] at key
        exact key ▸ further.next
    -- An element satisfies it when it is recognised and satisfies the inner predicate.
    have asked := Query.holds_element both
      (Query.resolve (Path.segments level.field) holder) .present
    simp only [element, Presence.agrees, Query.someElement, Query.satisfies_append,
      ih further] at asked
    have unfolded : predicate (level :: rest) field identity presence =
        [(level.field, .single "$elemMatch" (.object
          (level.identity ++ predicate rest field identity presence)))] := by
      rw [← merged]
      rfl
    rw [unfolded, Query.satisfies_entry, Query.satisfies_nil, Bool.and_true,
      Query.clause_of_noOperator entered, asked, reaches]

/-- The last field starts no operator. -/
theorem Askable.last {ancestry : Ancestry} {field : String} (askable : Askable ancestry field) :
    Path.isOperator field = false := by
  -- Each level hands on what lies behind it.
  induction ancestry with
  | nil => exact askable
  | cons level rest ih => exact ih askable.2.2

/-- What predicates mean. That an element is present holds of a document from which objects, one for
    each level, can be entered up to one where an array at the field has an object with the
    identity; that it is absent holds when they can be entered up to one where no array has such an
    object. Without levels, the two say the opposite of every document. -/
theorem predicate_iff {ancestry : Ancestry} {field : String} (askable : Askable ancestry field)
    {identity : Fields} (onFields : Query.OnFields identity) (document : Json) :
    (Query.satisfies document (predicate ancestry field identity .present) = true ↔
        ∃ last, Enters ancestry document last ∧ Has last field identity) ∧
      (Query.satisfies document (predicate ancestry field identity .absent) = true ↔
        ∃ last, Enters ancestry document last ∧ ¬ Has last field identity) ∧
      Query.satisfies document (predicate [] field identity .absent) =
        !Query.satisfies document (predicate [] field identity .present) := by
  have asked := fun presence => satisfies_predicate askable onFields presence document
  refine ⟨?_, ?_, ?_⟩
  · rw [asked, reaches_iff]
    simp only [tells, Presence.agrees, someElement_iff]
  · rw [asked, reaches_iff]
    simp only [tells, Presence.agrees, Bool.not_eq_true', ← Bool.not_eq_true, someElement_iff]
  · -- Without levels both predicates are asked about the document itself.
    have alone := fun presence =>
      @satisfies_predicate [] field askable.last _ onFields presence document
    rw [alone, alone]
    rfl

/-- A group, and the subgroups of a kind inside of it. -/
def kindAncestry : Ancestry :=
  [⟨"groups", [("id", .string "g")]⟩, ⟨"meta.subgroups", [("kind", .string "x")]⟩]

/-- A document with a group that has two subgroups of the kind: one with an element, one without. -/
def kindHolder : Json :=
  .object [("groups", .array [.object [("id", .string "g"), ("meta", .object [("subgroups", .array [
    .object [("kind", .string "x"), ("leaves", .array [.object [("id", .string "l")]])],
    .object [("kind", .string "x"), ("leaves", .array [])]])])]])]

/-- Of two subgroups of one kind, the one makes the element present and the other
    makes it absent. -/
theorem predicate_iff_kindHolder :
    Askable kindAncestry "leaves" ∧ Query.OnFields [("id", .string "l")] ∧
      (∃ last, Enters kindAncestry kindHolder last ∧ Has last "leaves" [("id", .string "l")]) ∧
      ∃ last, Enters kindAncestry kindHolder last ∧ ¬ Has last "leaves" [("id", .string "l")] := by
  -- Both predicates are evaluated on the holder of the subgroups.
  have askable : Askable kindAncestry "leaves" := by
    simp only [Askable, kindAncestry, next, List.forall_mem_singleton]
    decide
  have onFields : Query.OnFields [("id", .string "l")] := by
    simp only [Query.OnFields, List.forall_mem_singleton]
    decide
  obtain ⟨present, absent, -⟩ := predicate_iff askable onFields kindHolder
  exact ⟨askable, onFields, present.mp (by decide +kernel), absent.mp (by decide +kernel)⟩

end DocPatch.Guard
