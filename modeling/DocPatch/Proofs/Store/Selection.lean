import DocPatch.Proofs.Store.Single

/-! Filters that go on selecting a document while a batch changes it, and filters that stop. -/

namespace DocPatch.Operation

/-- A filter selects the document before each operation of a batch. -/
def Stays (base : Fields) : List Operation → Json → Prop
  | [], _ => True
  | operation :: rest, document => Query.satisfies document base = true ∧
      -- Behind an operation that fails nothing more is asked.
      ∀ after, (operation.applyTo document).map Prod.fst = .ok after → Stays base rest after

/-- A filter that selects throughout a batch selects throughout its first part and its second. -/
theorem stays_append {base : Fields} {first second : List Operation} {document : Json} :
    Stays base (first ++ second) document ↔
      Stays base first document ∧
        ∀ after, result first document = .ok after → Stays base second after := by
  -- What the first operation leaves is what the others of the first part start from.
  induction first generalizing document with
  | nil => simp [Stays]
  | cons operation rest ih =>
    simp only [List.cons_append, Stays, ih, result_cons]
    cases (operation.applyTo document).map Prod.fst with
    -- After an error nothing is left to be selected.
    | error => simp [Except.bind]
    | ok between => simp [Except.bind, and_assoc]

/-- A settled operation leaves the document that a filter selects. -/
theorem Stays.of_settled {base : Fields} {operation : Operation} {rest : List Operation}
    {document : Json} (stays : Stays base (operation :: rest) document)
    (settled : operation.Settled document) : Stays base rest document := by
  -- The operation has run and left the document as it is.
  obtain ⟨matched, done⟩ := settled
  exact stays.2 document (by rw [done]; rfl)

/-- An operation that selects no more than a filter settles where the filter does not select. -/
theorem settled_of_implies {base : Fields} {operation : Operation} {document : Json}
    (implies : Query.satisfies document operation.filter = true →
      Query.satisfies document base = true)
    (missed : Query.satisfies document base = false) : operation.Settled document := by
  -- If it selected the document, so would the filter.
  refine .of_update fun selected => ?_
  rw [implies selected] at missed
  contradiction

/-- The operations select no more documents than a filter. -/
def Within (base : Fields) (batch : List Operation) : Prop :=
  ∀ operation ∈ batch, ∀ document,
    Query.satisfies document operation.filter = true → Query.satisfies document base = true

/-- Without its first operation a batch selects no more. -/
theorem Within.tail {base : Fields} {operation : Operation} {rest : List Operation}
    (within : Within base (operation :: rest)) : Within base rest :=
  fun other member => within other (by simp [member])

/-- Once a filter stops selecting a document, operations that select no more leave the document, so
    the filter does not select it in the end. -/
theorem missed_of_not_stays {base : Fields} {batch : List Operation}
    (within : Within base batch)
    {document after : Json} (stops : ¬ Stays base batch document)
    (done : result batch document = .ok after) : Query.satisfies after base = false := by
  -- The filter misses the document now, or it is some later operation that makes it do so.
  induction batch generalizing document with
  | nil => exact absurd trivial stops
  | cons operation rest ih =>
    by_cases selected : Query.satisfies document base = true
    · -- The filter selects the document now, so it stops later.
      rw [result_cons] at done
      cases step : (operation.applyTo document).map Prod.fst with
      | error error => simp [step, Except.bind] at done
      | ok between =>
        rw [step] at done
        refine ih within.tail (fun stays => stops ?_) done
        refine ⟨selected, fun other reached => ?_⟩
        rw [step] at reached
        exact Except.ok.inj reached ▸ stays
    · -- The filter has stopped: no operation selects the document, and it is left as it is.
      have missed : Query.satisfies document base = false := by simpa using selected
      have left := result_of_settled fun operation member =>
        settled_of_implies (within operation member document) missed
      rw [left] at done
      exact Except.ok.inj done ▸ missed

/-- Where a filter selects a document in the end, operations that select no more than it never made
    the document one that it does not select. -/
theorem selected_before {base : Fields} {batch : List Operation}
    (within : Within base batch)
    {document after : Json} (done : result batch document = .ok after)
    (selected : Query.satisfies after base = true) : Query.satisfies document base = true := by
  -- Otherwise nothing would have been done to the document.
  rw [← Bool.not_eq_false]
  intro missed
  -- A document that the filter misses is not changed, so it would be missed in the end.
  have left := result_of_settled fun operation member =>
    settled_of_implies (within operation member document) missed
  rw [left] at done
  obtain rfl := Except.ok.inj done
  simp [selected] at missed

/-- Of the items of a list with a property, there is a last one. -/
theorem exists_last {α : Type} {has : α → Prop} {items : List α} {item : α}
    (member : item ∈ items) (holds : has item) :
    ∃ before last after, items = before ++ last :: after ∧ has last ∧ ∀ other ∈ after,
      ¬ has other := by
  -- The property holds of a later item, or the first one is the last with it.
  induction items generalizing item with
  | nil => simp at member
  | cons first rest ih =>
    by_cases later : ∃ other ∈ rest, has other
    · -- The last one with the property is among the later ones.
      obtain ⟨other, among, also⟩ := later
      obtain ⟨before, last, after, rfl, property, none⟩ := ih among also
      exact ⟨first :: before, last, after, rfl, property, none⟩
    · -- No later one has the property, so the item that has it is the first.
      have here : has first := by
        rcases List.mem_cons.mp member with rfl | inside
        · exact holds
        · exact absurd ⟨item, inside, holds⟩ later
      exact ⟨[], first, rest, rfl, here, fun other among also => later ⟨other, among, also⟩⟩

/-- Every operation of a batch with just the base filter selects the document at its turn. -/
def MeetsAll (base : Fields) (batch : List Operation) (document : Json) : Prop :=
  ∀ before operation after between, batch = before ++ operation :: after →
    operation.filter = base → result before document = .ok between →
    Query.satisfies between operation.filter = true

/-- The last operation of a batch with just the base filter finds the document selected by it. -/
def MeetsLast (base : Fields) (batch : List Operation) (document : Json) : Prop :=
  ∀ before operation after between, batch = before ++ operation :: after →
    operation.filter = base → (∀ other ∈ after, other.filter ≠ base) →
    result before document = .ok between → Query.satisfies between base = true

/-- A document is selected by all operations with just the base filter, when it is by the last. -/
theorem meetsAll_iff {base : Fields} {batch : List Operation} (within : Within base batch)
    {document left : Json} (done : result batch document = .ok left) :
    MeetsAll base batch document ↔ MeetsLast base batch document := by
  constructor
  · -- The last of the operations is one of them.
    intro all before operation after between parts own _ reached
    exact own ▸ all before operation after between parts own reached
  · intro last before operation after between parts own reached
    -- The document is selected at the last such operation, so it was before.
    obtain ⟨first, final, rest, rest_eq, final_own, none⟩ :=
      @exists_last _ (fun other => other.filter = base) (operation :: after) operation (by simp) own
    have whole : batch = (before ++ first) ++ final :: rest := by simp [parts, rest_eq]
    rw [whole, result_append] at done
    cases middle : result (before ++ first) document with
    | error error => simp [middle, Except.bind] at done
    | ok state =>
      -- At the last one the document is selected, by hypothesis.
      have selected := last _ final rest state whole final_own none middle
      rw [result_append, reached] at middle
      -- What lies between the two selects no more than the filter, so nothing made it select again.
      have inner : Within base first := fun other member => within other (by simp [whole, member])
      exact own ▸ selected_before inner middle selected

/-- A document that is selected in the end was selected by all operations with just the base
    filter. -/
theorem MeetsAll.of_selected {base : Fields} {batch : List Operation} (within : Within base batch)
    {document left : Json} (done : result batch document = .ok left)
    (selected : Query.satisfies left base = true) : MeetsAll base batch document := by
  -- From each operation on, what follows never made the filter select the document.
  intro before operation after between parts own reached
  have inner : Within base (operation :: after) :=
    fun other member => within other (by simp [parts, List.mem_cons.mp member])
  rw [parts, result_append, reached] at done
  exact own ▸ selected_before inner done selected

section Counts

variable {base : Fields} {batch : List Operation} {documents left : List Json} {outcome : Outcome}

/-- An operation counts the documents that its filter selects. -/
theorem applyAll_matched {operation : Operation}
    (done : operation.applyAll documents = .ok (left, outcome)) :
    outcome.matched = documents.countP fun document =>
      Query.satisfies document operation.filter := by
  -- An operation counts one for each document that it selects, changed or not.
  induction documents generalizing left outcome with
  | nil =>
    obtain rfl : Outcome.zero = outcome := (Prod.mk.inj (Except.ok.inj done)).2
    rfl
  | cons document rest ih =>
    obtain ⟨after, here, others, there, first, later, -, rfl⟩ := applyAll_cons_ok.mp done
    rw [List.countP_cons, ← ih later, Outcome.add]
    by_cases selected : Query.satisfies document operation.filter = true
    · -- The document is selected and counted once.
      rw [applyTo_of_satisfies selected, map_eq_ok] at first
      obtain ⟨changed, -, same⟩ := first
      obtain ⟨-, rfl⟩ := Prod.mk.inj same
      simp only [selected, ↓reduceIte]
      omega
    · -- The document is passed by and not counted.
      rw [applyTo, if_neg selected] at first
      obtain ⟨-, rfl⟩ := Prod.mk.inj (Except.ok.inj first)
      simp [selected, Outcome.zero]

/-- Operations that select no more than a filter pass by a document that it misses. -/
theorem run_of_missed (within : Within base batch) {document : Json}
    (missed : Query.satisfies document base = false) :
    run batch document = .ok (document, .zero) := by
  -- On one document, every operation is passed by.
  induction batch with
  | nil => rfl
  | cons operation others ih =>
    -- An operation that selected it would be outside of the filter.
    have unselected : ¬ Query.satisfies document operation.filter = true := fun selected => by
      simpa [missed] using within operation (by simp) document selected
    have first : operation.applyTo document = .ok (document, .zero) := by
      rw [applyTo, if_neg unselected]
    exact run_cons_ok.mpr ⟨document, _, _, first, ih within.tail, rfl⟩

/-- Operations that select no more than a filter match none of the documents that it misses. -/
theorem applyBatch_of_missed
    (within : Within base batch)
    (missed : ∀ document ∈ documents, Query.satisfies document base = false) :
    applyBatch batch documents = .ok (documents, .zero) := by
  -- Document by document, none of the operations selects it.
  induction documents with
  | nil => simp
  | cons document rest ih =>
    exact applyBatch_document_ok.mpr ⟨_, _, _, _, run_of_missed within (missed document (by simp)),
      ih fun other member => missed other (by simp [member]), rfl, rfl⟩

/-- A batch that starts with the filter itself matches nothing just where the filter selects none of
    the documents. -/
theorem matched_eq_zero_iff {first : Operation} {rest : List Operation} (own : first.filter = base)
    (within : Within base (first :: rest))
    (done : applyBatch (first :: rest) documents = .ok (left, outcome)) :
    outcome.matched = 0 ↔ ∀ document ∈ documents, Query.satisfies document base = false := by
  -- The first operation alone counts every document that the filter selects.
  constructor
  · -- If nothing was matched, the first operation in particular matched nothing.
    intro none document member
    obtain ⟨between, here, later, head, -, rfl⟩ := applyBatch_cons_ok.mp done
    have counted := applyAll_matched head
    simp only [Outcome.add] at none
    have zero : documents.countP (fun document => Query.satisfies document first.filter) = 0 := by
      omega
    simpa [own] using List.countP_eq_zero.mp zero document member
  · -- If the filter selects no document, none of the operations does.
    intro missed
    rw [applyBatch_of_missed within missed] at done
    obtain ⟨-, rfl⟩ := Prod.mk.inj (Except.ok.inj done)
    rfl

end Counts

end DocPatch.Operation
