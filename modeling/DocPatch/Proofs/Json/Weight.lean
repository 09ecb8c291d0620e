import DocPatch.Proofs.Json.Sameness
import Mathlib.Algebra.GroupWithZero.Nat

/-! How many values a value is made of: the same number for values that are the same, and one more
    for each value that is added. -/

namespace DocPatch

namespace Json

mutual

/-- The number of values that a value is made of, itself among them. -/
def weight : Json → Nat
  | .array items => itemsWeight items + 1
  | .object fields => fieldsWeight fields + 1
  | _ => 1
termination_by structural x => x

/-- The number of values that items are made of. -/
def itemsWeight : List Json → Nat
  | [] => 0
  | item :: rest => item.weight + itemsWeight rest
termination_by structural x => x

/-- The number of values that the values of entries are made of. -/
def fieldsWeight : List (String × Json) → Nat
  | [] => 0
  | (_, value) :: rest => value.weight + fieldsWeight rest
termination_by structural x => x

end

/-- Every value is made of one value at least. -/
theorem weight_pos (value : Json) : 0 < value.weight := by
  cases value <;> simp [weight]

/-- The values of entries are counted one after the other. -/
theorem fieldsWeight_eq_sum (fields : Fields) :
    fieldsWeight fields = (fields.map fun entry => entry.2.weight).sum := by
  -- Each entry adds the weight of its value.
  induction fields with
  | nil => rfl
  | cons entry rest ih => simp [fieldsWeight, ih]

/-- Entries weigh what their keys lead to, if each key stands once. -/
theorem fieldsWeight_eq_keys {fields : Fields} (once : (fields.map Prod.fst).Nodup) :
    fieldsWeight fields =
      ((fields.map Prod.fst).map fun key => ((fields.lookup key).map weight).getD 0).sum := by
  -- A key that stands once leads to the value of its own entry.
  rw [fieldsWeight_eq_sum, List.map_map]
  congr 1
  refine List.map_congr_left fun entry member => ?_
  rw [Function.comp_apply, Fields.lookup_of_mem once member, Option.map_some, Option.getD_some]

/-- Values that are the same weigh the same. -/
theorem Same.weight_eq {left right : Json} (same : Same left right) :
    left.weight = right.weight := by
  induction left using parts_induction generalizing right with
  | array items ih =>
    cases same.matched with
    | @array _ others pairs =>
      rw [weight, weight, Nat.add_right_cancel_iff]
      clear same
      induction pairs with
      | nil => rfl
      | cons here _ rest =>
        rw [itemsWeight, itemsWeight, ih _ (by simp) here,
          rest fun item member => ih item (by simp [member])]
  | object fields ih =>
    cases same.matched with
    | @object _ others entries =>
      -- Both sides have the same keys, in another order, and values of the same weight
      -- at each of them.
      have each : ∀ key ∈ fields.map Prod.fst, ((fields.lookup key).map weight).getD 0 =
          ((others.lookup key).map weight).getD 0 := by
        intro key member
        obtain ⟨value, held⟩ := Option.isSome_iff_exists.mp (Fields.lookup_isSome.mpr member)
        obtain ⟨other, found, values⟩ := exists_of_rel_some (held ▸ entries.lookup key)
        rw [held, found, Option.map_some, Option.map_some, ih _ (Fields.mem_of_lookup held) values]
      rw [weight, weight, fieldsWeight_eq_keys entries.left, fieldsWeight_eq_keys entries.right,
        List.map_congr_left each, (entries.keys.map _).sum_nat]
  | other value no_items no_fields =>
    cases same.matched with
    | array => simp [items?] at no_items
    | object => simp [Json.fields?] at no_fields
    | _ => rfl

/-- A value that is put at a key weighs in for the one that it replaces, if there is one. -/
theorem fieldsWeight_put (key : String) (value : Json) (fields : Fields) :
    fieldsWeight (Fields.put key value fields) + ((fields.lookup key).map weight).getD 0 =
      fieldsWeight fields + value.weight := by
  -- The induction follows the search for the key, which ends at its entry or behind all of them.
  induction fields with
  | nil => simp [Fields.put, fieldsWeight]
  | cons entry rest ih =>
    rcases entry with ⟨name, held⟩
    rw [Fields.lookup_entry]
    by_cases same : key = name
    · simp only [Fields.put, same, ↓reduceIte, fieldsWeight, Option.map_some, Option.getD_some]
      omega
    · simp only [Fields.put, same, Ne.symm same, ↓reduceIte, fieldsWeight]
      omega

/-- An item that is put at a place weighs in for the one that it replaces. -/
theorem itemsWeight_set {items : List Json} {index : Nat} {item : Json}
    (found : items[index]? = some item) (other : Json) :
    itemsWeight (items.set index other) + item.weight = itemsWeight items + other.weight := by
  -- The induction follows the index.
  induction items generalizing index with
  | nil => simp at found
  | cons first rest ih =>
    cases index with
    | zero =>
      obtain rfl : first = item := by simpa using found
      simp only [List.set_cons_zero, itemsWeight]
      omega
    | succ index =>
      have later := ih (by simpa using found)
      simp only [List.set_cons_succ, itemsWeight]
      omega

end Json

end DocPatch
