import Mathlib.Data.List.Forall2

/-! Options, lists and results that are related part by part. -/

namespace DocPatch

section Options

variable {α β γ δ : Type} {related : α → β → Prop} {left : Option α} {right : Option β}

/-- What is related to something is something. -/
theorem exists_of_rel_some {value : α} (rel : Option.Rel related (some value) right) :
    ∃ other, right = some other ∧ related value other := by
  -- Only two values, or nothing and nothing, are related.
  cases rel with
  | some rel => exact ⟨_, rfl, rel⟩

/-- Of related options both are something, or none is. -/
theorem isSome_of_rel (rel : Option.Rel related left right) : left.isSome = right.isSome := by
  cases rel <;> rfl

/-- Options are related in the other direction as well. -/
theorem flip_rel (rel : Option.Rel related left right) : Option.Rel (flip related) right left := by
  -- Each form of the relation is turned round by itself.
  cases rel with
  | some rel => exact .some rel
  | none => exact .none

/-- What follows for the values of related options relates the options. -/
theorem rel_imp {also : α → β → Prop} (rel : Option.Rel related left right)
    (each : ∀ value other, left = some value → right = some other → related value other →
      also value other) : Option.Rel also left right := by
  -- Where there is nothing, there is nothing to follow.
  cases rel with
  | some rel => exact .some (each _ _ rfl rfl rel)
  | none => exact .none

/-- Options are related when each value has a related one, and none is left over on the
    other side. -/
theorem rel_of_exists
    (forward : ∀ value, left = some value → ∃ other, right = some other ∧ related value other)
    (backward : ∀ other, right = some other → left.isSome) : Option.Rel related left right := by
  -- A value finds its partner, and without one the other side has to be empty as well.
  cases left with
  | some value =>
    obtain ⟨other, rfl, rel⟩ := forward value rfl
    exact .some rel
  | none =>
    cases right with
    | some other => simp at backward
    | none => exact .none

/-- What is related in two steps is related in one. -/
theorem rel_comp {more : β → γ → Prop} {also : α → γ → Prop} {last : Option γ}
    (rel : Option.Rel related left right) (next : Option.Rel more right last)
    (each : ∀ value other third, left = some value → related value other → more other third →
      also value third) : Option.Rel also left last := by
  -- The option in the middle has the form of both others.
  cases rel with
  | some rel =>
    cases next with
    | some next => exact .some (each _ _ _ rfl rel next)
  | none =>
    cases next
    exact .none

/-- What is done to related options keeps them related, if it does so for what they hold. -/
theorem rel_bind {also : γ → δ → Prop} {f : α → Option γ} {g : β → Option δ}
    (rel : Option.Rel related left right)
    (each : ∀ value other, related value other → Option.Rel also (f value) (g other)) :
    Option.Rel also (left.bind f) (right.bind g) := by
  -- Both sides go on with what they hold, or both stop.
  cases rel with
  | some rel => exact each _ _ rel
  | none => exact .none

/-- Related options stay related when others stand in for those that are missing. -/
theorem rel_or {first : Option α} {second : Option β} (rel : Option.Rel related left right)
    (also : Option.Rel related first second) :
    Option.Rel related (left.or first) (right.or second) := by
  -- The others count on both sides or on none.
  cases rel with
  | some rel => exact .some rel
  | none => exact also

/-- Related options hold related values, if related values stand in for those that are missing. -/
theorem getD_of_rel {value : α} {other : β} (rel : Option.Rel related left right)
    (also : related value other) : related (left.getD value) (right.getD other) := by
  -- The others count on both sides or on none.
  cases rel with
  | some rel => exact rel
  | none => exact also

/-- Related options make related lists. -/
theorem forall₂_toList (rel : Option.Rel related left right) :
    List.Forall₂ related left.toList right.toList := by
  -- The lists have one item each, or none.
  cases rel with
  | some rel => exact .cons rel .nil
  | none => exact .nil

/-- A test gives the same answer for related options, if it does so for what they hold. -/
theorem any_of_rel {test : α → Bool} {also : β → Bool} (rel : Option.Rel related left right)
    (each : ∀ value other, related value other → test value = also other) :
    left.any test = right.any also := by
  -- Nothing passes no test.
  cases rel with
  | some rel => exact each _ _ rel
  | none => rfl

end Options

section Lists

variable {α β : Type} {related : α → β → Prop} {left : List α} {right : List β}

/-- In related lists, every item of the second one is related to an item of the first one. -/
theorem exists_related (paired : List.Forall₂ related left right) {item : β}
    (member : item ∈ right) : ∃ other ∈ left, related other item := by
  -- The item is the first one, or it is found behind.
  induction paired with
  | nil => simp at member
  | @cons other _ _ _ here _ ih =>
    rcases List.mem_cons.mp member with rfl | later
    · exact ⟨other, by simp, here⟩
    · obtain ⟨found, among, holds⟩ := ih later
      exact ⟨found, by simp [among], holds⟩

/-- The items that are related stand in the lists. -/
theorem forall₂_mem (paired : List.Forall₂ related left right) :
    List.Forall₂ (fun item other => (item ∈ left ∧ other ∈ right) ∧ related item other)
      left right := by
  -- Related items are those at the same place of both lists.
  obtain ⟨count, each⟩ := List.forall₂_iff_zip.mp paired
  exact List.forall₂_iff_zip.mpr ⟨count, fun member => ⟨List.of_mem_zip member, each member⟩⟩

/-- If for related items another relation says just that the first of them has a property, it holds
    item by item when all the first items have the property. -/
theorem forall₂_iff_of_forall₂ {also : α → β → Prop} {holds : α → Prop}
    (paired : List.Forall₂ related left right)
    (each : ∀ item other, related item other → (also item other ↔ holds item)) :
    List.Forall₂ also left right ↔ ∀ item ∈ left, holds item := by
  -- Pair by pair, the one is said by the other.
  induction paired with
  | nil => simp
  | cons here _ ih => rw [List.forall₂_cons, ih, List.forall_mem_cons, each _ _ here]

/-- What is related in two steps, item by item, is related in one. -/
theorem forall₂_comp {γ : Type} {more : β → γ → Prop} {also : α → γ → Prop} {last : List γ}
    (paired : List.Forall₂ related left right) (next : List.Forall₂ more right last)
    (each : ∀ item other third, related item other → more other third → also item third) :
    List.Forall₂ also left last := by
  -- The pairs of both steps share the items in the middle.
  induction paired generalizing last with
  | nil =>
    cases next
    exact .nil
  | cons here _ ih =>
    cases next with
    | cons there next => exact .cons (each _ _ _ here there) (ih next)

/-- Related lists have related items, or none, at each place. -/
theorem rel_getElem? (paired : List.Forall₂ related left right) (index : Nat) :
    Option.Rel related left[index]? right[index]? := by
  -- The index counts down along both lists.
  induction paired generalizing index with
  | nil => exact .none
  | cons here _ ih =>
    cases index with
    | zero => exact .some here
    | succ index => simpa using ih index

/-- Related items may be put at a place of related lists. -/
theorem forall₂_set (paired : List.Forall₂ related left right) (index : Nat) {item : α} {other : β}
    (rel : related item other) :
    List.Forall₂ related (left.set index item) (right.set index other) := by
  -- The induction follows the pairs, and goes on to the index.
  induction paired generalizing index with
  | nil => exact .nil
  | cons here rest ih =>
    cases index with
    | zero => exact .cons rel rest
    | succ index => exact .cons here (ih index)

/-- A test that does not tell related items apart holds for some item of both lists, or of none. -/
theorem any_of_forall₂ {test : α → Bool} {also : β → Bool}
    (paired : List.Forall₂ related left right)
    (each : ∀ item other, related item other → test item = also other) :
    left.any test = right.any also := by
  -- Pair by pair, the test has one answer.
  induction paired with
  | nil => rfl
  | cons here _ ih => simp [each _ _ here, ih]

/-- A test that does not tell related items apart holds for all items of both lists, or of none. -/
theorem all_of_forall₂ {test : α → Bool} {also : β → Bool}
    (paired : List.Forall₂ related left right)
    (each : ∀ item other, related item other → test item = also other) :
    left.all test = right.all also := by
  -- All items pass when none of them fails.
  rw [List.all_eq_not_any_not, List.all_eq_not_any_not,
    any_of_forall₂ paired fun item other here => congrArg (!·) (each item other here)]

/-- A test that does not tell related items apart finds related items first. -/
theorem rel_find? {test : α → Bool} {also : β → Bool} (paired : List.Forall₂ related left right)
    (each : ∀ item other, related item other → test item = also other) :
    Option.Rel related (left.find? test) (right.find? also) := by
  -- The search passes items in both lists until it stops in both.
  induction paired with
  | nil => exact .none
  | @cons item other _ _ here _ ih =>
    simp only [List.find?_cons, each _ _ here]
    cases also other with
    | true => exact .some here
    | false => exact ih

end Lists

/-- Results that agree: both fail in the same way, or both succeed with related values. -/
inductive Agree {ε α β : Type} (related : α → β → Prop) : Except ε α → Except ε β → Prop where
  | error (error : ε) : Agree related (.error error) (.error error)
  | ok {value : α} {other : β} (rel : related value other) : Agree related (.ok value) (.ok other)

namespace Agree

variable {ε α β γ δ : Type} {related : α → β → Prop} {also : γ → δ → Prop}
  {left : Except ε α} {right : Except ε β}

/-- Steps that agree, followed by steps that agree on related values, agree. -/
theorem bind {f : α → Except ε γ} {g : β → Except ε δ} (agree : Agree related left right)
    (each : ∀ value other, related value other → Agree also (f value) (g other)) :
    Agree also (left >>= f) (right >>= g) := by
  -- An error is the error of both sides; otherwise the next steps agree.
  cases agree with
  | error error => exact .error error
  | ok rel => exact each _ _ rel

/-- Results that agree still do so when their values are mapped to related ones. -/
theorem map {f : α → γ} {g : β → δ} (agree : Agree related left right)
    (each : ∀ value other, related value other → also (f value) (g other)) :
    Agree also (left.map f) (right.map g) := by
  -- Mapping leaves errors alone.
  cases agree with
  | error error => exact .error error
  | ok rel => exact .ok (each _ _ rel)

end Agree

end DocPatch
