import DocPatch.Store.Collection

/-! Laws of the outcomes of store operations, and of steps that may fail. -/

namespace DocPatch

/-- A step followed by another one succeeds when both do. -/
theorem bind_eq_ok {ε α β : Type} {first : Except ε α} {next : α → Except ε β} {result : β} :
    first >>= next = .ok result ↔ ∃ value, first = .ok value ∧ next value = .ok result := by
  cases first <;> simp [Bind.bind, Except.bind]

/-- What a step changes and reports is handed on when the step succeeds. -/
theorem carried_eq_ok {ε α β γ : Type} {step : Except ε (α × γ)} {back : α → β} {value : β}
    {report : γ} :
    (do
      let (inner, report) ← step
      return (back inner, report)) = .ok (value, report) ↔
      ∃ inner, step = .ok (inner, report) ∧ back inner = value := by
  -- The pair that the step gives is taken apart and put together again.
  rw [bind_eq_ok]
  constructor
  · intro given
    obtain ⟨⟨inner, report⟩, done, same⟩ := given
    obtain ⟨rfl, rfl⟩ := Prod.mk.inj (Except.ok.inj same)
    exact ⟨inner, done, rfl⟩
  · intro given
    obtain ⟨inner, done, rfl⟩ := given
    exact ⟨(inner, report), done, rfl⟩

/-- A step followed by another one fails when one of them does. -/
theorem bind_eq_error {ε α β : Type} {first : Except ε α} {next : α → Except ε β} {error : ε} :
    first >>= next = .error error ↔
      first = .error error ∨ ∃ value, first = .ok value ∧ next value = .error error := by
  -- The first step fails, or it hands its value on.
  cases first <;> simp [Bind.bind, Except.bind]

/-- A mapped step succeeds when the step does. -/
theorem map_eq_ok {ε α β : Type} {first : Except ε α} {f : α → β} {result : β} :
    first.map f = .ok result ↔ ∃ value, first = .ok value ∧ f value = result := by
  cases first <;> simp [Except.map]

/-- What a step returns without doing anything. -/
@[simp] theorem pure_eq_ok {ε α : Type} (value : α) : (pure value : Except ε α) = .ok value := rfl

/-- Two lists are put together when both are made. -/
theorem append_eq_ok {ε α : Type} {first second : Except ε (List α)} {result : List α} :
    (do
      let here ← first
      let others ← second
      return here ++ others) = .ok result ↔
      ∃ here others, first = .ok here ∧ second = .ok others ∧ result = here ++ others := by
  -- The second list is only made after the first one.
  rw [bind_eq_ok]
  constructor
  · intro given
    obtain ⟨here, made, rest⟩ := given
    obtain ⟨others, also, same⟩ := bind_eq_ok.mp rest
    exact ⟨here, others, made, also, (Except.ok.inj same).symm⟩
  · intro given
    obtain ⟨here, others, made, also, rfl⟩ := given
    exact ⟨here, made, bind_eq_ok.mpr ⟨others, also, rfl⟩⟩

namespace Outcome

@[simp] theorem add_zero (outcome : Outcome) : outcome.add zero = outcome := by
  simp [zero, add]

@[simp] theorem zero_add (outcome : Outcome) : zero.add outcome = outcome := by
  simp [zero, add]

/-- Sums may be taken from either side. -/
theorem add_assoc (first second third : Outcome) :
    (first.add second).add third = first.add (second.add third) := by
  -- Both counts are natural numbers.
  simp only [add, Outcome.mk.injEq]
  omega

/-- Two sums may be taken crosswise. -/
theorem add_add_add_comm (first second third fourth : Outcome) :
    (first.add second).add (third.add fourth) = (first.add third).add (second.add fourth) := by
  -- Both counts are natural numbers.
  simp only [add, Outcome.mk.injEq]
  omega

end Outcome

end DocPatch
