import DocPatch.Json.Reader
import DocPatch.Proofs.Json.Equality
import DocPatch.Proofs.Store.Outcome

/-! Outlines that write a value: what is read from them is that value. -/

namespace DocPatch

namespace Tree

mutual

/-- The outline writes a value: no bracket in it is broken off or too deep, and its parts write
    those of the value, in order. -/
inductive Writes : Tree → Json → Prop where
  | scalar {scalar : Scalar} {value : Json} (start stop : Nat)
      (read : readScalar scalar = .ok value) : Writes (.leaf start stop scalar) value
  | array {opening : Opening} {trees : List Tree} {items : List Json} (stop : Nat)
      (shallow : opening.level < levelLimit) (written : WritesItems trees items) :
      Writes (.list opening trees (.closed stop)) (.array items)
  | object {opening : Opening} {entries : List (Key × Tree)} {fields : List (String × Json)}
      (stop : Nat) (shallow : opening.level < levelLimit) (written : WritesFields entries fields) :
      Writes (.map opening entries (.closed stop)) (.object fields)

/-- Outlines write values one by one. -/
inductive WritesItems : List Tree → List Json → Prop where
  | nil : WritesItems [] []
  | cons {tree : Tree} {item : Json} {trees : List Tree} {items : List Json}
      (first : Writes tree item) (others : WritesItems trees items) :
      WritesItems (tree :: trees) (item :: items)

/-- Keys and outlines write the keys and the values of entries one by one. -/
inductive WritesFields : List (Key × Tree) → List (String × Json) → Prop where
  | nil : WritesFields [] []
  | cons {key : Key} {tree : Tree} {name : String} {value : Json} {entries : List (Key × Tree)}
      {fields : List (String × Json)} (named : key.name = .ok name) (first : Writes tree value)
      (others : WritesFields entries fields) :
      WritesFields ((key, tree) :: entries) ((name, value) :: fields)

end

mutual

/-- The outline of a value at hand. There is no text, so nothing in it has a place, and nothing
    is too deep. -/
def ofJson : Json → Tree
  | .null => .leaf 0 0 .null
  | .bool value => .leaf 0 0 (.bool value)
  | .number value => .leaf 0 0 (.number (.ok value))
  | .string value => .leaf 0 0 (.string (.ok value))
  | .array items => .list ⟨0, 0⟩ (ofItems items) (.closed 0)
  | .object fields => .map ⟨0, 0⟩ (ofFields fields) (.closed 0)
termination_by structural x => x

/-- The outlines of items. -/
def ofItems : List Json → List Tree
  | [] => []
  | item :: rest => ofJson item :: ofItems rest
termination_by structural x => x

/-- The keys and outlines of entries. -/
def ofFields : List (String × Json) → List (Key × Tree)
  | [] => []
  | (key, value) :: rest => (⟨.ok key, 0⟩, ofJson value) :: ofFields rest
termination_by structural x => x

end

mutual

/-- The outline of a value writes it. -/
theorem writes_ofJson : ∀ value : Json, (ofJson value).Writes value
  -- The outline takes the value apart as the value is made up, and has the lowest level everywhere.
  | .null | .bool _ | .number _ | .string _ => .scalar _ _ rfl
  | .array items => .array _ (by decide) (writesItems_ofItems items)
  | .object fields => .object _ (by decide) (writesFields_ofFields fields)

/-- The outlines of items write them. -/
theorem writesItems_ofItems : ∀ items : List Json, WritesItems (ofItems items) items
  | [] => .nil
  | item :: rest => .cons (writes_ofJson item) (writesItems_ofItems rest)

/-- The keys and outlines of entries write them. -/
theorem writesFields_ofFields :
    ∀ fields : List (String × Json), WritesFields (ofFields fields) fields
  -- The name of a key at hand is the key itself.
  | [] => .nil
  | (_, value) :: rest => .cons rfl (writes_ofJson value) (writesFields_ofFields rest)

end

mutual

/-- From an outline that writes a well keyed value the value is read. -/
theorem Writes.read {tree : Tree} {value : Json} :
    tree.Writes value → value.WellKeyed → tree.read = .ok value
  -- The reader goes down the outline as the outline was written.
  | .scalar _ _ read, _ => read
  | .array _ shallow written, keyed => by
    simp only [Json.WellKeyed] at keyed
    simp only [Tree.read, checkLevel, shallow, ↓reduceIte, written.read keyed, Closing.read]
    rfl
  | @Writes.object _ _ fields _ shallow written, keyed => by
    simp only [Json.WellKeyed] at keyed
    simp only [Tree.read, checkLevel, shallow, ↓reduceIte, written.read keyed, Closing.read]
    -- Keys that stand once are all kept, in order.
    show Except.ok (Json.object (Fields.ofEntries fields)) = .ok (.object fields)
    rw [Fields.ofEntries_of_nodup keyed.nodup]

/-- From outlines that write well keyed items the items are read. -/
theorem WritesItems.read {trees : List Tree} {items : List Json} :
    WritesItems trees items → Json.ItemsWellKeyed items → readItems trees = .ok items
  -- The outlines are read one after the other.
  | .nil, _ => rfl
  | .cons first others, keyed => by
    simp only [Json.ItemsWellKeyed] at keyed
    simp only [readItems, first.read keyed.1, others.read keyed.2]
    rfl

/-- From outlines that write well keyed entries the entries are read. -/
theorem WritesFields.read {entries : List (Key × Tree)} {fields : List (String × Json)} :
    WritesFields entries fields → Json.FieldsWellKeyed fields → readEntries entries = .ok fields
  -- Of each entry the name is read first, and then the value.
  | .nil, _ => rfl
  | .cons named first others, keyed => by
    simp only [Json.FieldsWellKeyed] at keyed
    simp only [readEntries, named, first.read keyed.2.1, others.read keyed.2.2]
    rfl

end

/-- A scalar is neither an array nor an object. -/
theorem readScalar_no_parts {scalar : Scalar} {value : Json}
    (read : readScalar scalar = .ok value) : value.items? = none ∧ value.fields? = none := by
  -- Each kind of scalar is read as a value of its own kind.
  cases scalar with
  | null => cases read; exact ⟨rfl, rfl⟩
  | bool value => cases read; exact ⟨rfl, rfl⟩
  | number held =>
    obtain ⟨_, -, rfl⟩ := map_eq_ok.mp read
    exact ⟨rfl, rfl⟩
  | string held =>
    obtain ⟨_, -, rfl⟩ := map_eq_ok.mp read
    exact ⟨rfl, rfl⟩

/-- From an outline that writes an object with well keyed entries the entries are read. -/
theorem Writes.readFields {tree : Tree} {fields : Fields} (writes : tree.Writes (.object fields))
    (keyed : Json.FieldsWellKeyed fields) : tree.readFields = .ok fields := by
  -- Only a map is read as fields, and its entries are put together by their keys.
  cases writes with
  | scalar _ _ read => exact absurd (readScalar_no_parts read).2 (by simp [Json.fields?])
  | object _ shallow written =>
    simp only [Tree.readFields, checkLevel, shallow, ↓reduceIte, written.read keyed, Closing.read]
    show Except.ok (Fields.ofEntries fields) = .ok fields
    rw [Fields.ofEntries_of_nodup keyed.nodup]

/-- From an outline that writes a string the string is read. -/
theorem Writes.readString {tree : Tree} {text : String} (writes : tree.Writes (.string text)) :
    tree.readString = .ok text := by
  -- Of the scalars only a string is read as a string value.
  cases writes with
  | @scalar scalar _ _ _ read =>
    cases scalar with
    | string held =>
      obtain ⟨_, rfl, same⟩ := map_eq_ok.mp read
      cases same
      rfl
    | number held =>
      obtain ⟨_, -, same⟩ := map_eq_ok.mp read
      cases same
    | _ => cases read

/-- From an outline that writes a list of things, each of which can be read, the things are read. -/
theorem Writes.readList {α : Type} {write : α → Json} {item : Tree → Except Fault α} {tree : Tree}
    {things : List α}
    (each : ∀ thing ∈ things, ∀ tree : Tree, tree.Writes (write thing) → item tree = .ok thing)
    (writes : tree.Writes (.array (things.map write))) : tree.readList item = .ok things := by
  -- Only a list writes an array, and each outline in it is read by the reader of items.
  cases writes with
  | scalar _ _ read => exact absurd (readScalar_no_parts read).1 (by simp [Json.items?])
  | @array _ trees _ _ shallow written =>
    -- The outlines and the things stand in pairs.
    have all : trees.mapM item = .ok things := by
      clear shallow
      induction things generalizing trees with
      | nil => cases written; rfl
      | cons thing rest ih =>
        cases written with
        | cons first others =>
          rw [List.mapM_cons, each thing (by simp) _ first,
            ih (fun thing member => each thing (by simp [member])) others]
          rfl
    simp only [Tree.readList, checkLevel, shallow, ↓reduceIte, all, Closing.read]
    rfl

/-- From an outline that writes anything but `null` an optional value is read as it is. -/
theorem Writes.readOptional {α : Type} {value : Tree → Except Fault α} {tree : Tree}
    {written : Json} {result : α} (writes : tree.Writes written) (there : written ≠ .null)
    (read : value tree = .ok result) : tree.readOptional value = .ok (some result) := by
  -- The reader passes everything on but the scalar `null`.
  cases writes with
  | @scalar scalar _ _ _ same =>
    cases scalar with
    | null => cases same; exact absurd rfl there
    | _ => simp only [Tree.readOptional, read]; rfl
  | _ => simp only [Tree.readOptional, read]; rfl

/-- From an outline that writes `null` no optional value is read. -/
theorem Writes.readOptional_null {α : Type} {value : Tree → Except Fault α} {tree : Tree}
    (writes : tree.Writes .null) : tree.readOptional value = .ok none := by
  -- No other scalar is read as `null`.
  cases writes with
  | @scalar scalar _ _ _ same =>
    cases scalar with
    | null => rfl
    | bool => cases same
    | _ =>
      obtain ⟨_, -, same⟩ := map_eq_ok.mp same
      cases same

mutual

/-- What is read is well keyed, whatever the outline is of. -/
theorem wellKeyed_of_read : ∀ {tree : Tree} {value : Json}, tree.read = .ok value → value.WellKeyed
  -- The induction follows the outline; the entries of a map are put together, so that each
  -- key stands once.
  | .leaf _ _ _, value, read => by
    obtain ⟨no_items, no_fields⟩ := readScalar_no_parts read
    cases value with
    | array items => simp [Json.items?] at no_items
    | object fields => simp [Json.fields?] at no_fields
    | _ => simp [Json.WellKeyed]
  | .broken _ _, _, read => nomatch read
  | .list _ trees _, value, read => by
    simp only [Tree.read] at read
    obtain ⟨_, -, more⟩ := bind_eq_ok.mp read
    obtain ⟨items, inner, more⟩ := bind_eq_ok.mp more
    obtain ⟨_, -, same⟩ := bind_eq_ok.mp more
    cases same
    simpa only [Json.WellKeyed] using wellKeyed_of_readItems inner
  | .map _ entries _, value, read => by
    simp only [Tree.read] at read
    obtain ⟨_, -, more⟩ := bind_eq_ok.mp read
    obtain ⟨fields, inner, more⟩ := bind_eq_ok.mp more
    obtain ⟨_, -, same⟩ := bind_eq_ok.mp more
    cases same
    simpa only [Json.WellKeyed] using Json.fieldsWellKeyed_ofEntries
      (wellKeyed_of_readEntries inner)

/-- Items that are read are well keyed. -/
theorem wellKeyed_of_readItems :
    ∀ {trees : List Tree} {items : List Json}, readItems trees = .ok items →
    Json.ItemsWellKeyed items
  -- Each item was read from an outline of its own.
  | [], _, read => by
    cases read
    simp [Json.ItemsWellKeyed]
  | tree :: rest, items, read => by
    simp only [readItems] at read
    obtain ⟨item, first, more⟩ := bind_eq_ok.mp read
    obtain ⟨others, later, same⟩ := bind_eq_ok.mp more
    cases same
    simp only [Json.ItemsWellKeyed]
    exact ⟨wellKeyed_of_read first, wellKeyed_of_readItems later⟩

/-- The values of entries that are read are well keyed. -/
theorem wellKeyed_of_readEntries : ∀ {entries : List (Key × Tree)} {fields : Fields},
    readEntries entries = .ok fields → ∀ entry ∈ fields, entry.2.WellKeyed
  -- Keys may still repeat here, but every value was read from an outline of its own.
  | [], _, read => by
    cases read
    simp
  | (key, tree) :: rest, fields, read => by
    simp only [readEntries] at read
    obtain ⟨name, -, more⟩ := bind_eq_ok.mp read
    obtain ⟨value, first, more⟩ := bind_eq_ok.mp more
    obtain ⟨others, later, same⟩ := bind_eq_ok.mp more
    cases same
    exact List.forall_mem_cons.mpr ⟨wellKeyed_of_read first, wellKeyed_of_readEntries later⟩

end

/-- The entries of an object that is read are well keyed. -/
theorem wellKeyed_of_readFields {tree : Tree} {fields : Fields}
    (read : tree.readFields = .ok fields) : Json.FieldsWellKeyed fields := by
  -- Only a map is read as fields.
  cases tree with
  | map opening entries closing =>
    simp only [readFields] at read
    obtain ⟨_, -, more⟩ := bind_eq_ok.mp read
    obtain ⟨fields, inner, more⟩ := bind_eq_ok.mp more
    obtain ⟨_, -, same⟩ := bind_eq_ok.mp more
    cases same
    exact Json.fieldsWellKeyed_ofEntries (wellKeyed_of_readEntries inner)
  | _ => cases read

/-- An optional value that is there was read from an outline that does not write `null`. -/
theorem of_readOptional {α : Type} {value : Tree → Except Fault α} {tree : Tree} {result : α}
    (read : tree.readOptional value = .ok (some result)) :
    value tree = .ok result ∧ ¬ tree.Writes .null := by
  -- What is there was not read from `null`, from which nothing is read.
  refine ⟨?_, fun writes => ?_⟩
  · unfold readOptional at read
    split at read
    · cases read
    · obtain ⟨_, done, same⟩ := map_eq_ok.mp read
      cases same
      exact done
  · rw [writes.readOptional_null] at read
    cases read

/-- Only an outline that writes `null` is read as `null`. -/
theorem writes_null_of_read {tree : Tree} (read : tree.read = .ok .null) : tree.Writes .null := by
  -- A list is read as an array and a map as an object, so that only a scalar is left.
  cases tree with
  | leaf start stop scalar => exact .scalar _ _ read
  | broken start fault => cases read
  | list opening trees closing =>
    simp only [Tree.read] at read
    obtain ⟨_, -, more⟩ := bind_eq_ok.mp read
    obtain ⟨_, -, more⟩ := bind_eq_ok.mp more
    obtain ⟨_, -, same⟩ := bind_eq_ok.mp more
    cases same
  | map opening entries closing =>
    simp only [Tree.read] at read
    obtain ⟨_, -, more⟩ := bind_eq_ok.mp read
    obtain ⟨_, -, more⟩ := bind_eq_ok.mp more
    obtain ⟨_, -, same⟩ := bind_eq_ok.mp more
    cases same

/-- A value that is read where it may be absent is well keyed and not `null`. -/
theorem of_readOptional_read {tree : Tree} {value : Option Json}
    (read : tree.readOptional Tree.read = .ok value) :
    (∀ held ∈ value, held.WellKeyed) ∧ value ≠ some .null := by
  constructor
  · rintro held rfl
    exact wellKeyed_of_read (of_readOptional read).1
  · -- If the value were `null`, its outline would write `null`, and nothing would have been there.
    rintro rfl
    obtain ⟨done, there⟩ := of_readOptional read
    exact there (writes_null_of_read done)

end Tree

end DocPatch
