import DocPatch.Proofs.Store.Locality
import DocPatch.Proofs.Store.Match
import DocPatch.Proofs.Store.Selection

/-! The fields of a document that a query reads and an update writes. -/

namespace DocPatch

namespace Query

mutual

/-- No path of the query starts at one of the fields. -/
def Avoids (fields : List String) : List (String × Json) → Prop
  | [] => True
  | (key, condition) :: rest =>
    -- The combinators hold queries, which have to avoid the fields as well.
    (if key = "$and" ∨ key = "$or" then PartsAvoid fields condition
    else ∀ first ∈ (Path.segments key).head?, first ∉ fields) ∧ Avoids fields rest
termination_by structural x => x

/-- No path of the queries that a conjunction or disjunction lists starts at one of the fields. -/
def PartsAvoid (fields : List String) : Json → Prop
  | .array queries => AllAvoid fields queries
  | _ => True
termination_by structural x => x

/-- No path of the queries starts at one of the fields. -/
def AllAvoid (fields : List String) : List Json → Prop
  | [] => True
  | .object query :: rest => Avoids fields query ∧ AllAvoid fields rest
  | _ :: rest => AllAvoid fields rest
termination_by structural x => x

end

/-- A path that starts at no field of a set leads alike in objects that agree on all others. -/
theorem resolve_congr {written : List String} {left right : Fields}
    (same : ∀ name, name ∉ written → left.lookup name = right.lookup name) {path : List String}
    (some_name : path ≠ []) (avoids : ∀ first ∈ path.head?, first ∉ written) :
    resolve path (.object left) = resolve path (.object right) := by
  -- The first step reads a field that both objects agree on, and then both are the same.
  cases path with
  | nil => exact absurd rfl some_name
  | cons first rest => simp only [resolve, step, same first (avoids first (by simp))]

mutual

/-- Objects that agree on all fields that a query reads satisfy it alike. -/
theorem satisfies_congr {written : List String} {left right : Fields}
    (same : ∀ name, name ∉ written → left.lookup name = right.lookup name) :
    ∀ query : List (String × Json), Avoids written query →
      satisfies (.object left) query = satisfies (.object right) query
  -- A clause reads its own path only, unless it lists queries.
  | [], _ => by simp
  | (key, condition) :: rest, avoids => by
    simp only [Avoids] at avoids
    rw [satisfies_entry, satisfies_entry, satisfies_congr same rest avoids.2]
    congr 1
    have inner := avoids.1
    -- The listed queries avoid the fields as well.
    by_cases both : key = "$and"
    · -- A conjunction asks for all that it lists.
      subst both
      cases condition with
      | array queries => simpa [clause, Json.items?] using satisfiesAll_congr same queries (by
          simpa [PartsAvoid] using inner)
      | _ => rfl
    · by_cases either : key = "$or"
      · -- A disjunction asks for one of what it lists.
        subst either
        cases condition with
        | array queries => simpa [clause, Json.items?] using satisfiesAny_congr same queries (by
            simpa [PartsAvoid] using inner)
        | _ => rfl
      · -- Any other key is a path, which starts at a field that is not written.
        have apart : ∀ first ∈ (Path.segments key).head?, first ∉ written := by
          simpa [both, either] using inner
        rw [clause, clause, if_neg both, if_neg either, if_neg both, if_neg either,
          resolve_congr same (Path.segments_ne_nil key) apart]

/-- Objects that agree on all fields that queries read satisfy them all alike. -/
theorem satisfiesAll_congr {written : List String} {left right : Fields}
    (same : ∀ name, name ∉ written → left.lookup name = right.lookup name) :
    ∀ queries : List Json, AllAvoid written queries →
      satisfiesAll (.object left) queries = satisfiesAll (.object right) queries
  -- What is no query fails on both sides.
  | [], _ => rfl
  | .object query :: rest, avoid => by
    simp only [AllAvoid] at avoid
    simp only [satisfiesAll, satisfies_congr same query avoid.1,
      satisfiesAll_congr same rest avoid.2]
  | .null :: _, _ | .bool _ :: _, _ | .number _ :: _, _ | .string _ :: _,
      _ | .array _ :: _, _ => rfl

/-- Objects that agree on all fields that queries read satisfy one of them alike. -/
theorem satisfiesAny_congr {written : List String} {left right : Fields}
    (same : ∀ name, name ∉ written → left.lookup name = right.lookup name) :
    ∀ queries : List Json, AllAvoid written queries →
      satisfiesAny (.object left) queries = satisfiesAny (.object right) queries
  -- What is no query is passed by.
  | [], _ => rfl
  | .object query :: rest, avoid => by
    simp only [AllAvoid] at avoid
    simp only [satisfiesAny, satisfies_congr same query avoid.1,
      satisfiesAny_congr same rest avoid.2]
  | .null :: rest, avoid | .bool _ :: rest, avoid | .number _ :: rest, avoid
  | .string _ :: rest, avoid | .array _ :: rest, avoid => by
    simp only [AllAvoid] at avoid
    simpa [satisfiesAny] using satisfiesAny_congr same rest avoid

end

/-- A query on one field reads that field only. -/
theorem satisfies_field {field : String} (plain : Path.Plain field) (condition : Json)
    {left right : Fields} (same : left.lookup field = right.lookup field) :
    satisfies (.object left) [(field, condition)] =
      satisfies (.object right) [(field, condition)] := by
  -- The path is the field alone, and is resolved by looking it up.
  simp only [satisfies_entry, satisfies_nil, Bool.and_true, clause_of_noOperator plain.noOperator,
    Path.segments_of_dotless plain.dotless, resolve, step, same]

/-- Writing a field that a query does not read decides nothing. -/
theorem satisfies_write {fields : List String} {query : Fields} (avoids : Avoids fields query)
    {field : String} (among : field ∈ fields) (value : Option Json) (document : Fields) :
    satisfies (.object (Fields.write field value document)) query =
      satisfies (.object document) query := by
  -- Every field that the query reads differs from the one that is written.
  refine satisfies_congr (fun name outside => ?_) query avoids
  have differ : name ≠ field := fun same => outside (same ▸ among)
  rw [Fields.lookup_write, if_neg differ]

end Query

namespace Update

/-- A path that starts at a field of an object changes no other field of it. -/
theorem applyPath_keeps {filters : List Fields} {operator : String}
    (makes : creates operator = true) {path field : String} {tail : List String}
    (plain : Path.Plain field) (start : Path.segments path = field :: tail) {argument : Json}
    {before : Fields} {after : Change Json}
    (done : applyPath filters operator path argument (.object before) = .ok after) :
    ∃ fields, after.1 = .object fields ∧
      ∀ other, other ≠ field → fields.lookup other = before.lookup other := by
  -- Operators that make their way take no field away, so only the field may be written.
  have keeps : operator ≠ "$unset" := by
    rintro rfl
    simp [creates] at makes
  obtain ⟨value, shape, -⟩ := confined_applyPath [] plain keeps
    (List.head?_eq_some_iff.mpr ⟨tail, start⟩) filters argument before after.1 after.2 done
  exact ⟨_, shape, fun other differ => by rw [Fields.lookup_write, if_neg differ]⟩

/-- Paths that start at fields of a set change no other field of an object. -/
theorem applyPaths_keeps {filters : List Fields} {operator : String}
    (makes : creates operator = true) {written : List String} {entries : Fields}
    (starts : ∀ entry ∈ entries, ∃ field ∈ written, Path.Plain field ∧
      ∃ tail, Path.segments entry.1 = field :: tail)
    {before : Fields} {after : Change Json}
    (done : applyPaths filters operator entries (.object before) = .ok after) :
    ∃ fields, after.1 = .object fields ∧
      ∀ other, other ∉ written → fields.lookup other = before.lookup other := by
  -- Each path leaves an object for the next one.
  induction entries generalizing before after with
  | nil =>
    obtain rfl := Except.ok.inj done
    exact ⟨before, rfl, fun _ _ => rfl⟩
  | cons entry rest ih =>
    obtain ⟨field, among, plain, tail, start⟩ := starts entry (by simp)
    obtain ⟨last, changed⟩ := after
    obtain ⟨between, first, second, here, there, -⟩ := applyPaths_cons_ok.mp done
    -- The first path changes its own field only, and the others come after it.
    obtain ⟨fields, rfl, kept⟩ := applyPath_keeps makes plain start here
    obtain ⟨others, shape, still⟩ := ih (fun other member => starts other (by simp [member])) there
    refine ⟨others, shape, fun other outside => (still other outside).trans (kept other ?_)⟩
    -- A field that no path may write is not the field of the first path.
    intro equal
    subst equal
    exact outside among

section Confined

variable {base : Fields} {field : String} {keys : List String}

/-- What is confined to a field that the filter does not read may be done one after the other. -/
theorem Confined.andThen {α β γ : Type} (avoids : Query.Avoids keys base) (among : field ∈ keys)
    {first : Json → Except UpdateError (Json × α)} {second : Json → Except UpdateError (Json × β)}
    (before : Confined base field first) (after : Confined base field second) (join : α → β → γ) :
    Confined base field fun document =>
      (first document).bind fun here =>
        (second here.1).bind fun there => .ok (there.1, join here.2 there.2) := by
  intro fields last report done
  obtain ⟨⟨between, mine⟩, here, rest⟩ := bind_eq_ok.mp done
  obtain ⟨⟨left, theirs⟩, there, same⟩ := bind_eq_ok.mp rest
  obtain ⟨rfl, rfl⟩ := Prod.mk.inj (Except.ok.inj same)
  obtain ⟨early, rfl, firstAlike⟩ := before _ _ _ here
  obtain ⟨late, rfl, secondAlike⟩ := after _ _ _ there
  refine ⟨late.or early, by rw [Fields.write_write], fun others agree selected => ?_⟩
  -- The first act leaves objects that agree on the field, and of which the filter thinks alike.
  have field_same : (Fields.write field early others).lookup field =
      (Fields.write field early fields).lookup field := by
    simp only [Fields.lookup_write, agree]
  have alike : Query.satisfies (.object (Fields.write field early others)) base =
      Query.satisfies (.object (Fields.write field early fields)) base := by
    rw [Query.satisfies_write avoids among, Query.satisfies_write avoids among, selected]
  simp only [firstAlike others agree selected, Except.bind,
    secondAlike _ field_same alike, Fields.write_write]

/-- Paths that all start at one field lead into that field only. -/
theorem confined_applyPaths (plain : Path.Plain field) (avoids : Query.Avoids keys base)
    (among : field ∈ keys) {operator : String} (keeps : operator ≠ "$unset") {entries : Fields}
    (starts : ∀ entry ∈ entries, (Path.segments entry.1).head? = some field)
    (filters : List Fields) : Confined base field (applyPaths filters operator entries) := by
  -- The paths are gone through one after the other.
  induction entries with
  | nil => exact confined_idle false
  | cons entry rest ih =>
    have first := confined_applyPath base plain keeps (starts entry (by simp)) filters entry.2
    exact first.andThen avoids among
      (ih fun other member => starts other (by simp [member])) (· || ·)

end Confined

end Update

namespace Operation

/-- An operation with one operator that makes its way, at paths that start at fields of a set. -/
structure Writes (written : List String) (operation : Operation) : Prop where
  paths : ∃ operator entries, operation.update = [(operator, .object entries)] ∧
    Update.creates operator = true ∧
    ∀ entry ∈ entries, ∃ field ∈ written, Path.Plain field ∧
      ∃ tail, Path.segments entry.1 = field :: tail

/-- An operation leaves the fields that it does not write. -/
theorem Writes.keeps {written : List String} {operation : Operation}
    (writes : operation.Writes written) {before : Fields} {after : Json}
    (done : (operation.applyTo (.object before)).map Prod.fst = .ok after) :
    ∃ fields, after = .object fields ∧
      ∀ other, other ∉ written → fields.lookup other = before.lookup other := by
  -- A document that the filter does not select is left as it is.
  obtain ⟨operator, entries, update, makes, starts⟩ := writes.paths
  by_cases selected : Query.satisfies (.object before) operation.filter = true
  · -- The one operator is carried out at its paths.
    rw [applyTo_of_satisfies selected, update, Update.apply_operator] at done
    cases applied : Update.applyPaths operation.arrayFilters operator entries (.object before) with
    | error => simp [applied, Except.map] at done
    | ok changed =>
      rw [applied] at done
      obtain rfl := Except.ok.inj done
      exact Update.applyPaths_keeps makes starts applied
  · -- The document is not selected and comes back.
    rw [applyTo, if_neg selected] at done
    obtain rfl := Except.ok.inj done
    exact ⟨before, rfl, fun _ _ => rfl⟩

/-- A filter that reads no field that a batch writes goes on selecting a document. -/
theorem stays_of_avoids {written : List String} {base : Fields} (avoids : Query.Avoids written base)
    {batch : List Operation} (writes : ∀ operation ∈ batch, operation.Writes written)
    {document : Json} (object : document.isObject = true)
    (selected : Query.satisfies document base = true) : Stays base batch document := by
  -- What each operation leaves is an object that agrees on the fields the filter reads.
  induction batch generalizing document with
  | nil => trivial
  | cons operation rest ih =>
    refine ⟨selected, fun after done => ?_⟩
    cases document with
    | object before =>
      -- The operation leaves an object, on whose other fields the filter is decided as before.
      obtain ⟨fields, rfl, kept⟩ := (writes operation (by simp)).keeps done
      have same := Query.satisfies_congr kept base avoids
      exact ih (fun other member => writes other (by simp [member])) rfl (same.trans selected)
    | _ => simp [Json.isObject] at object

/-- An operation with one operator at paths that start at one field, and with the base filter alone
    or together with a guard on that field. -/
structure Touches (base : Fields) (field : String) (operation : Operation) : Prop where
  filter : operation.filter = base ∨
    ∃ condition, operation.filter = Guard.both base [(field, condition)]
  update : ∃ operator entries, operation.update = [(operator, .object entries)] ∧
    operator ≠ "$unset" ∧ ∀ entry ∈ entries, (Path.segments entry.1).head? = some field

variable {base : Fields} {field : String} {keys : List String}

/-- Documents that agree on the field, and that the base filter selects alike, are
    selected alike. -/
theorem Touches.selects {operation : Operation} (touches : operation.Touches base field)
    (plain : Path.Plain field) {left right : Fields}
    (agree : left.lookup field = right.lookup field)
    (selected : Query.satisfies (.object left) base = Query.satisfies (.object right) base) :
    Query.satisfies (.object left) operation.filter =
      Query.satisfies (.object right) operation.filter := by
  -- The filter is the base filter, perhaps with a condition on the field.
  rcases touches.filter with same | ⟨condition, same⟩
  · rw [same, selected]
  · rw [same, Query.satisfies_both, Query.satisfies_both, selected,
      Query.satisfies_field plain condition agree]

/-- Such an operation is confined to its field. -/
theorem Touches.confined {operation : Operation} (touches : operation.Touches base field)
    (plain : Path.Plain field) (avoids : Query.Avoids keys base) (among : field ∈ keys) :
    Update.Confined base field operation.applyTo := by
  obtain ⟨operator, entries, update, keeps, starts⟩ := touches.update
  intro fields after report done
  by_cases chosen : Query.satisfies (.object fields) operation.filter = true
  · -- The document is selected, and so is every one that agrees with it.
    rw [applyTo_of_satisfies chosen, update, Update.apply_operator] at done
    obtain ⟨⟨left, changed⟩, applied, same⟩ := map_eq_ok.mp done
    obtain ⟨rfl, rfl⟩ := Prod.mk.inj same
    obtain ⟨value, rfl, alike⟩ :=
      Update.confined_applyPaths plain avoids among keeps starts _ _ _ _ applied
    refine ⟨value, rfl, fun others agree selected => ?_⟩
    rw [applyTo_of_satisfies ((touches.selects plain agree selected).trans chosen), update,
      Update.apply_operator, alike others agree selected]
    rfl
  · -- The document is passed by, and so is every one that agrees with it.
    rw [applyTo, if_neg chosen] at done
    obtain ⟨rfl, rfl⟩ := Prod.mk.inj (Except.ok.inj done)
    refine ⟨none, rfl, fun others agree selected => ?_⟩
    rw [applyTo, touches.selects plain agree selected, if_neg chosen]
    rfl

/-- A run of operations on one field is confined to it. -/
theorem confined_run {batch : List Operation}
    (touches : ∀ operation ∈ batch, operation.Touches base field) (plain : Path.Plain field)
    (avoids : Query.Avoids keys base) (among : field ∈ keys) :
    Update.Confined base field (run batch) := by
  -- The operations are carried out one after the other.
  induction batch with
  | nil => exact Update.confined_idle Outcome.zero
  | cons operation rest ih =>
    have first := (touches operation (by simp)).confined plain avoids among
    exact first.andThen avoids among (ih fun other member => touches other (by simp [member]))
      Outcome.add

end Operation

end DocPatch
