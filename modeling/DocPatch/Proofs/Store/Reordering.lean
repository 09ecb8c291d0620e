import DocPatch.Proofs.Store.Footprint

/-! Batches made of blocks for different fields: the blocks may be carried out in any order, which
    only shows in the order of the entries of the documents. -/

namespace DocPatch

namespace Fields

/-- The same entries in another order; of a key that stands twice, the same value comes first. -/
structure Reordered (left right : Fields) : Prop where
  entries : left.Perm right
  lookup : ∀ key, left.lookup key = right.lookup key

/-- Entries in their own order. -/
theorem Reordered.refl (fields : Fields) : Reordered fields fields :=
  ⟨.refl fields, fun _ => rfl⟩

/-- One change of the order after another. -/
theorem Reordered.trans {first second third : Fields} (before : Reordered first second)
    (after : Reordered second third) : Reordered first third :=
  ⟨before.entries.trans after.entries, fun key => (before.lookup key).trans (after.lookup key)⟩

/-- Giving a key another value exchanges one entry. -/
theorem exists_put_perm {key : String} {held : Json} {fields : Fields}
    (found : fields.lookup key = some held) :
    ∃ others : Fields, fields.Perm ((key, held) :: others) ∧
      ∀ value, (put key value fields).Perm ((key, value) :: others) := by
  -- The entry is where the search finds it.
  induction fields with
  | nil => simp at found
  | cons entry rest ih =>
    rcases entry with ⟨name, other⟩
    rw [lookup_entry] at found
    by_cases same : key = name
    · -- It stands at the head.
      subst same
      simp only [↓reduceIte, Option.some.injEq] at found
      subst found
      exact ⟨rest, .refl _, fun value => by simp [put]⟩
    · -- It stands behind the head, which stays.
      simp only [same, ↓reduceIte] at found
      obtain ⟨others, stands, exchanged⟩ := ih found
      refine ⟨(name, other) :: others, (stands.cons _).trans (.swap ..), fun value => ?_⟩
      simp only [put, Ne.symm same, ↓reduceIte]
      exact ((exchanged value).cons _).trans (.swap ..)

/-- A value put to reordered entries leaves them reordered. -/
theorem Reordered.put {left right : Fields} (same : Reordered left right) (key : String)
    (value : Json) : Reordered (put key value left) (put key value right) := by
  refine ⟨?_, fun other => by simp only [lookup_put, same.lookup]⟩
  cases found : left.lookup key with
  | none =>
    -- A new key comes last on both sides.
    rw [put_of_lookup_none found, put_of_lookup_none (same.lookup key ▸ found)]
    exact same.entries.append_right _
  | some held =>
    -- The same entry is exchanged on both sides, so the others are the same.
    obtain ⟨lefts, stands, exchanged⟩ := exists_put_perm found
    obtain ⟨rights, also, likewise⟩ := exists_put_perm (same.lookup key ▸ found)
    have others := (stands.symm.trans (same.entries.trans also)).cons_inv
    exact (exchanged value).trans ((others.cons _).trans (likewise value).symm)

/-- Writing to reordered entries leaves them reordered. -/
theorem Reordered.write {left right : Fields} (same : Reordered left right) (key : String)
    (value : Option Json) : Reordered (write key value left) (write key value right) := by
  -- Without a value nothing is written.
  cases value with
  | none => exact same
  | some value => exact same.put key value

/-- Values for different keys may be put in either order. -/
theorem put_put_perm {first second : String} (differ : first ≠ second) (left right : Json)
    (fields : Fields) :
    (put second right (put first left fields)).Perm (put first left (put second right fields)) := by
  -- Each of the two takes the place of an entry, or comes at the end.
  induction fields with
  | nil =>
    simp only [put, differ, differ.symm, ↓reduceIte]
    exact .swap ..
  | cons entry rest ih =>
    by_cases here : entry.1 = first
    · have other : entry.1 ≠ second := here ▸ differ
      simp [put, here, differ]
    · by_cases there : entry.1 = second
      · simp [put, there, differ.symm]
      · simpa [put, here, there] using ih

/-- Different keys may be written in either order. -/
theorem reordered_write_write {first second : String} (differ : first ≠ second)
    (left right : Option Json) (fields : Fields) :
    Reordered (write second right (write first left fields))
      (write first left (write second right fields)) := by
  -- The order of the entries may change, and what each key holds does not.
  constructor
  · cases left with
    | none => exact .refl _
    | some left =>
      cases right with
      | none => exact .refl _
      | some right => exact put_put_perm differ left right fields
  · intro key
    simp only [lookup_write]
    by_cases one : key = first
    · simp [one, differ]
    · simp [one, differ.symm]

end Fields

/-- Objects that differ in the order of their entries only. -/
inductive Json.Reordered : Json → Json → Prop where
  | object {left right : Fields} :
    Fields.Reordered left right → Json.Reordered (.object left) (.object right)

/-- One change of the order after another. -/
theorem Json.Reordered.trans {first second third : Json} (before : first.Reordered second)
    (after : second.Reordered third) : first.Reordered third := by
  -- Only objects change their order.
  cases before with
  | object mine =>
    cases after with
    | object theirs => exact .object (mine.trans theirs)

namespace Update

variable {base : Fields} {field : String} {keys : List String}

/-- What is confined to a field does the same to reordered objects. -/
theorem Confined.reordered {α : Type} {act : Json → Except UpdateError (Json × α)}
    (confined : Confined base field act) (avoids : Query.Avoids keys base) {left right : Fields}
    (same : Fields.Reordered left right) {after : Json} {report : α}
    (done : act (.object left) = .ok (after, report)) :
    ∃ fields others, after = .object fields ∧ act (.object right) = .ok (.object others, report) ∧
      Fields.Reordered fields others := by
  obtain ⟨value, rfl, alike⟩ := confined _ _ _ done
  -- The order of the entries decides nothing.
  have selected : Query.satisfies (.object right) base = Query.satisfies (.object left) base :=
    Query.satisfies_congr (fun name _ => (same.lookup name).symm) base avoids
  exact ⟨_, _, rfl, alike right (same.lookup field).symm selected, same.write field value⟩

/-- What is confined to different fields may be done in either order. -/
theorem Confined.commute {α β : Type} {other : String} (differ : field ≠ other)
    {first : Json → Except UpdateError (Json × α)} {second : Json → Except UpdateError (Json × β)}
    (here : Confined base field first) (there : Confined base other second)
    (avoids : Query.Avoids keys base) (mine : field ∈ keys) (theirs : other ∈ keys)
    {fields : Fields} {between after : Json} {one : α} {two : β}
    (done : first (.object fields) = .ok (between, one))
    (next : second between = .ok (after, two)) :
    ∃ middle last left, second (.object fields) = .ok (middle, two) ∧
      first middle = .ok (.object last, one) ∧ after = .object left ∧
        Fields.Reordered left last := by
  obtain ⟨early, rfl, firstAlike⟩ := here _ _ _ done
  obtain ⟨late, rfl, secondAlike⟩ := there _ _ _ next
  -- Neither finds its field, or the selection, changed by the other one.
  have before := secondAlike fields
    (by rw [Fields.lookup_write, if_neg differ.symm]) (Query.satisfies_write avoids mine ..).symm
  have behind := firstAlike (Fields.write other late fields)
    (by rw [Fields.lookup_write, if_neg differ]) (Query.satisfies_write avoids theirs ..)
  exact ⟨_, _, _, before, behind, rfl, Fields.reordered_write_write differ early late fields⟩

end Update

namespace Operation

/-- Blocks of operations, one for each entry of an object. Each is confined to the field of its
    entry, and the base filter reads none of these fields. -/
structure Independent (base : Fields) (keys : List String)
    (block : String × Json → List Operation) (entries : Fields) : Prop where
  avoids : Query.Avoids keys base
  among : ∀ entry ∈ entries, entry.1 ∈ keys
  distinct : (entries.map Prod.fst).Nodup
  confined : ∀ entry ∈ entries, Update.Confined base entry.1 (run (block entry))

variable {base : Fields} {keys : List String} {block : String × Json → List Operation}
  {entries others : Fields} {entry : String × Json}

/-- Without its first entry, the blocks are still independent. -/
theorem Independent.tail (independent : Independent base keys block (entry :: entries)) :
    Independent base keys block entries where
  -- Everything is said of all entries, so also of the others.
  avoids := independent.avoids
  among := fun other member => independent.among other (by simp [member])
  distinct := (List.nodup_cons.mp independent.distinct).2
  confined := fun other member => independent.confined other (by simp [member])

/-- The blocks are independent in any order. -/
theorem Independent.perm (independent : Independent base keys block entries)
    (perm : entries.Perm others) : Independent base keys block others where
  -- Everything is said of all entries, whatever their order.
  avoids := independent.avoids
  among := fun entry member => independent.among entry (perm.mem_iff.mpr member)
  distinct := (perm.map Prod.fst).nodup_iff.mp independent.distinct
  confined := fun entry member => independent.confined entry (perm.mem_iff.mpr member)

/-- The blocks do the same to reordered objects. -/
theorem Independent.run_reordered (independent : Independent base keys block entries)
    {left right : Fields} (same : Fields.Reordered left right) {after : Json} {outcome : Outcome}
    (done : run (entries.flatMap block) (.object left) = .ok (after, outcome)) :
    ∃ last, run (entries.flatMap block) (.object right) = .ok (last, outcome) ∧
      after.Reordered last := by
  -- Each block leaves reordered objects for the next one.
  induction entries generalizing left right after outcome with
  | nil =>
    obtain ⟨rfl, rfl⟩ := Prod.mk.inj (Except.ok.inj done)
    exact ⟨_, rfl, .object same⟩
  | cons entry rest ih =>
    simp only [List.flatMap_cons] at done ⊢
    obtain ⟨between, here, there, first, later, rfl⟩ := run_append_ok.mp done
    obtain ⟨fields, others, rfl, also, still⟩ :=
      (independent.confined entry (by simp)).reordered independent.avoids same first
    obtain ⟨last, ran, ended⟩ := ih independent.tail still later
    exact ⟨last, run_append_ok.mpr ⟨_, here, there, also, ran, rfl⟩, ended⟩

/-- The blocks may be carried out in any order. -/
theorem Independent.run_perm (independent : Independent base keys block entries)
    (perm : entries.Perm others) {fields : Fields} {after : Json} {outcome : Outcome}
    (done : run (entries.flatMap block) (.object fields) = .ok (after, outcome)) :
    ∃ last, run (others.flatMap block) (.object fields) = .ok (last, outcome) ∧
      after.Reordered last := by
  -- Any order is reached by exchanging neighbours.
  induction perm generalizing fields after outcome with
  | nil => exact independent.run_reordered (.refl fields) done
  | cons entry _ ih =>
    -- The first block comes first on both sides.
    simp only [List.flatMap_cons] at done ⊢
    obtain ⟨between, here, there, first, later, rfl⟩ := run_append_ok.mp done
    obtain ⟨value, rfl, -⟩ := independent.confined entry (by simp) _ _ _ first
    obtain ⟨last, ran, ended⟩ := ih independent.tail later
    exact ⟨last, run_append_ok.mpr ⟨_, here, there, first, ran, rfl⟩, ended⟩
  | swap second first rest =>
    -- The first two blocks are exchanged, and the others find reordered objects.
    simp only [List.flatMap_cons] at done ⊢
    obtain ⟨between, one, _, here, remaining, rfl⟩ := run_append_ok.mp done
    obtain ⟨left, two, three, there, later, rfl⟩ := run_append_ok.mp remaining
    have differ : first.1 ≠ second.1 := by
      have distinct := independent.distinct
      simp only [List.map_cons, List.nodup_cons, List.mem_cons, not_or] at distinct
      exact distinct.1.1
    obtain ⟨middle, last, reached, ahead, behind, rfl, same⟩ :=
      (independent.confined first (by simp)).commute differ (independent.confined second (by simp))
        independent.avoids (independent.among first (by simp)) (independent.among second (by simp))
        here there
    obtain ⟨final, ran, ended⟩ := independent.tail.tail.run_reordered same later
    refine ⟨final, run_append_ok.mpr ⟨_, two, one.add three, ahead,
      run_append_ok.mpr ⟨_, one, three, behind, ran, rfl⟩, ?_⟩, ended⟩
    simp only [Outcome.add, Outcome.mk.injEq]
    omega
  | trans first _ ihFirst ihSecond =>
    obtain ⟨middle, between, same⟩ := ihFirst independent done
    obtain ⟨last, ran, also⟩ := ihSecond (independent.perm first) between
    exact ⟨last, ran, same.trans also⟩

/-- Batches that do the same to every object, but for the order of its entries, do so to documents
    that are objects. -/
theorem exists_applyBatch_reordered {batch other : List Operation}
    (each : ∀ fields after outcome, run batch (.object fields) = .ok (after, outcome) →
      ∃ last, run other (.object fields) = .ok (last, outcome) ∧ after.Reordered last)
    {documents left : List Json} (objects : ∀ document ∈ documents, document.isObject = true)
    {outcome : Outcome} (done : applyBatch batch documents = .ok (left, outcome)) :
    ∃ right, applyBatch other documents = .ok (right, outcome) ∧
      List.Forall₂ Json.Reordered left right := by
  -- Each document goes through the batches on its own.
  induction documents generalizing left outcome with
  | nil =>
    simp only [applyBatch_nil, Except.ok.injEq, Prod.mk.injEq] at done
    obtain ⟨rfl, rfl⟩ := done
    exact ⟨[], applyBatch_nil other, .nil⟩
  | cons document rest ih =>
    obtain ⟨after, here, others, there, ran, later, rfl, rfl⟩ := applyBatch_document_ok.mp done
    obtain ⟨right, also, paired⟩ := ih (fun other member => objects other (by simp [member])) later
    cases document with
    | object fields =>
      obtain ⟨last, likewise, same⟩ := each fields after here ran
      exact ⟨last :: right,
        applyBatch_document_ok.mpr ⟨last, here, right, there, likewise, also, rfl, rfl⟩,
        .cons same paired⟩
    | _ => simpa [Json.isObject] using objects _ List.mem_cons_self

end Operation

namespace Collection

/-- Calls that fail both, or succeed with the same counts and leave documents that differ in the
    order of their entries only. A call that fails changes no document. -/
inductive Alike : Except StoreError Outcome × Collection → Except StoreError Outcome × Collection →
    Prop where
  | failure {left right : StoreError} {first second : Collection} :
    first.documents = second.documents → Alike (.error left, first) (.error right, second)
  | success {outcome : Outcome} {first second : Collection} :
    List.Forall₂ Json.Reordered first.documents second.documents →
      Alike (.ok outcome, first) (.ok outcome, second)

/-- Blocks of operations may be carried out in any order. -/
theorem bulkUpdate_perm {base : Fields} {keys : List String}
    {block : String × Json → List Operation} {entries others : Fields}
    (independent : Operation.Independent base keys block entries) (perm : entries.Perm others)
    {collection : Collection}
    (objects : ∀ document ∈ collection.documents, document.isObject = true) :
    Alike (collection.bulkUpdate (entries.flatMap block))
      (collection.bulkUpdate (others.flatMap block)) := by
  -- What succeeds in the one order succeeds in the other one.
  have forth := @Operation.exists_applyBatch_reordered (entries.flatMap block)
    (others.flatMap block) (fun _ _ _ done => independent.run_perm perm done) collection.documents
  have back := @Operation.exists_applyBatch_reordered (others.flatMap block) (entries.flatMap block)
    (fun _ _ _ done => (independent.perm perm).run_perm perm.symm done) collection.documents
  simp only [bulkUpdate]
  cases collection.failure with
  -- A call that was made to fail does so with any batch.
  | some message => exact .failure rfl
  | none =>
    cases first : Operation.applyBatch (entries.flatMap block) collection.documents with
    | ok changed =>
      obtain ⟨right, also, paired⟩ := forth objects first
      simp only [also]
      refine .success ?_
      dsimp only
      split
      · exact .nil
      · exact paired
    | error error =>
      cases second : Operation.applyBatch (others.flatMap block) collection.documents with
      | error other => exact .failure rfl
      | ok changed =>
        obtain ⟨left, also, -⟩ := back objects second
        simp [first] at also

end Collection

end DocPatch
