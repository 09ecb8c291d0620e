import DocPatch.Plan.Patch
import DocPatch.Proofs.Plan.Invariant
import DocPatch.Proofs.Store.Match

/-! The filters of the operations of a patch: the base filter, alone or with a guard beside it. -/

namespace DocPatch

/-- The operation selects by the base filter, alone or together with a guard. -/
def Operation.Based (base : Fields) (op : Operation) : Prop :=
  op.filter = base ∨ ∃ guard, op.filter = Guard.both base guard

/-- Such an operation selects no more documents than the base filter. -/
theorem Operation.Based.implies {base : Fields} {op : Operation} (based : op.Based base)
    {document : Json} (selected : Query.satisfies document op.filter = true) :
    Query.satisfies document base = true := by
  -- A guard only takes documents away.
  rcases based with same | ⟨guard, same⟩
  · -- The filter is the base filter.
    rwa [← same]
  · -- The filter is a conjunction with the base filter for its first part.
    rw [same, Query.satisfies_both, Bool.and_eq_true] at selected
    exact selected.1

/-- The operations that add a tree select by the base filter. -/
theorem Insertion.operations_based {base tree : Fields} {ops : List Operation}
    (compiled : operations base tree = .ok ops) : ∀ op ∈ ops, op.Based base := by
  -- All sites of the walk have the base filter of the root, and only an insertion has a guard.
  have invariant : Invariant (fun _ => True) (fun site => site.base = base)
      (Operation.Based base) :=
    { child := fun same _ _ _ _ => same
      values := fun same _ => Or.inl same
      insert := fun {site} same object => Or.inr ⟨(Element.describe site object).absent, by
        rw [← same]
        rfl⟩
      assign := fun {_} same {_} _ _ => Or.inl same }
  exact invariant.operations (Json.fieldsKeysHold_of_forall (fun _ => trivial) tree)
    (fun _ _ => rfl) compiled

/-- The operations that remove a tree have just the base filter. -/
theorem Removal.operations_filter {base tree : Fields} :
    ∀ op ∈ operations base tree, op.filter = base := by
  -- Every site on the walk has the base filter of the root.
  have invariant : Invariant (fun _ => True) (fun site => site.base = base)
      (fun op => op.filter = base) :=
    { child := fun same _ _ _ _ => same
      values := fun same _ _ => same
      pull := fun {_} same {_} _ => same }
  exact invariant.operations (Json.fieldsKeysHold_of_forall (fun _ => trivial) tree) fun _ _ => rfl

/-- The operations of a patch select by the base filter. -/
theorem Patch.operations_based {base : Fields} {instruction : Instruction} {field : String}
    {time : Timestamp} {batch : List Operation}
    (compiled : Patch.operations base instruction field time = .ok batch) :
    ∀ op ∈ batch, op.Based base := by
  -- What is set and taken away has just the base filter.
  obtain ⟨added, compiledAdd, same⟩ := bind_eq_ok.mp compiled
  obtain rfl := Except.ok.inj same
  intro op member
  simp only [List.cons_append, List.mem_cons, List.mem_append] at member
  rcases member with rfl | (mine | removed) | unset
  · -- The fields are set.
    exact Or.inl rfl
  · -- The tree is added.
    exact Insertion.operations_based compiledAdd op mine
  · -- The tree is removed.
    exact Or.inl (Removal.operations_filter op removed)
  · -- The fields are taken away, if there are any to take.
    split at unset
    · simp at unset
    · exact Or.inl (by rw [List.mem_singleton.mp unset])

end DocPatch
