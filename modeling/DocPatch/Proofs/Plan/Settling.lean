import DocPatch.Proofs.Plan.Effect

/-! The operations for an array find nothing to do in a document that holds what the array lists. -/

namespace DocPatch.Insertion

open Element (namedLeaves)
open Projection (lookup place obstructed)
open Upsert (Addable Carries Has Holds Listing Separate)

/-- The operations for an object settle on every document that has the object. -/
def ItemSettles (object : Fields) : Prop :=
  ∀ {site : Site} {stages : List Stage} {names : List String} {ops : List Operation}
    {document element : Json} {back : Json → Json}, site.At stages names →
    Stage.Reaches stages document element back → element.IdsDistinct →
    -- The element has the object, so there is nothing left to do.
    Has names object element → item site (.object object) = .ok ops →
    ∀ op ∈ ops, op.Settled document

section Arrays

variable {stages : List Stage} {document element : Json} {back : Json → Json}

/-- The operations for an array settle on a document that holds what the array lists. -/
theorem array_settles {site : Site} {names : List String} (at_site : site.At stages names)
    (reaches : Stage.Reaches stages document element back) (distinct : element.IdsDistinct)
    {items : List Json} (each : ∀ inner, .object inner ∈ items → ItemSettles inner)
    (holds : Holds names items element) {ops : List Operation}
    (compiled : array site items = .ok ops) : ∀ op ∈ ops, op.Settled document := by
  -- Every value is held, and every object is settled on its own.
  refine array_forall (fun some_value => ?_) (fun inner ops listed compiled => ?_) compiled
  · -- The values are in the array, so their union with it is the array.
    refine .of_update fun _ => at_site.addEach_idle reaches some_value fun value among => ?_
    obtain ⟨listed, plain⟩ := List.mem_filter.mp among
    exact holds.values value listed (by simpa using plain)
  · -- Each object is there, with all that is in it.
    exact each inner listed at_site reaches distinct (holds.objects inner listed) compiled

/-- The operations inside an element settle on a document whose element carries the object. -/
theorem inside_settles {site : Site} {names : List String} (at_site : site.At stages names)
    {object : Fields} {id : Json} (addable : Addable object id)
    (each : ∀ names items, (names, .array items) ∈ namedLeaves [] object →
      ∀ inner, .object inner ∈ items → ItemSettles inner)
    (reaches : Stage.Reaches (stages ++ [site.stageOf names id]) document element back)
    (distinct : element.IdsDistinct) (carries : Carries object element) {inner : List Operation}
    (compiled : listed (site.child (Element.describe site object)) (namedLeaves [] object) =
      .ok inner) : ∀ op ∈ inner, op.Settled document := by
  -- What the element carries are the arrays of the object.
  have identified := Element.identifiedBy_id addable.regular addable.scalar addable.found
  refine listed_forall (fun names items ops leaf compiled => ?_) compiled
  exact array_settles (at_site.child addable.regular identified leaf) reaches distinct
    (each names items leaf) ((Upsert.carries_iff.mp carries).2 names items leaf) compiled

/-- The assignment of an object settles on a document whose element carries the object. -/
theorem assign_settles {site : Site} {names : List String} (at_site : site.At stages names)
    {object : Fields} {id : Json} (addable : Addable object id)
    (reaches : Stage.Reaches (stages ++ [site.stageOf names id]) document element back)
    (carries : Carries object element) :
    ∀ op ∈ assign site (Element.describe site object), op.Settled document :=
  -- An element that carries the object has its scalar leaves.
  assign_forall (.of_update fun _ => at_site.assign_idle addable reaches carries)

/-- The insertion of an object settles on a document whose array has the object already. -/
theorem insert_settles {site : Site} {names : List String} (at_site : site.At stages names)
    {object : Fields} {id : Json} (addable : Addable object id)
    (reaches : Stage.Reaches stages document element back) (distinct : element.IdsDistinct)
    {items : List Json} (array : lookup names element = some (.array items)) {entered : Json}
    (member : entered ∈ items) (has : entered.hasId id = true) :
    (insert site (Element.describe site object) object).Settled document := by
  -- The filter asks for a document without the object, and this one has it.
  refine .of_update fun selected => ?_
  have both : Query.satisfies document (Guard.both site.base
      (Element.describe site object).absent) = true := selected
  rw [Query.satisfies_both, at_site.absent_eq reaches addable distinct
    (Projection.obstructed_of_lookup array), array] at both
  have found : (items.any fun item => item.hasId id) = true :=
    List.any_eq_true.mpr ⟨entered, member, has⟩
  simp [Json.items?, found] at both

end Arrays

/-- The operations for an object that can be added settle on every document that has it. -/
theorem item_settles {object : Fields} {id : Json} (addable : Addable object id) :
    ItemSettles object := by
  -- The objects inside are settled already, by induction over the objects that are visited.
  refine addable.induction (motive := ItemSettles) fun object id addable ih => ?_
  intro site stages names ops document element back at_site reaches distinct has compiled
  have identified := Element.identifiedBy_id addable.regular addable.scalar addable.found
  cases has with
  -- All operations pass through the names that are blocked.
  | blocked obstacle =>
    intro op member
    have emits := item_emits object addable.regular at_site compiled op member
    exact emits.through.settled reaches at_site.sound at_site.leads obstacle
  -- The element with the id is entered, and what it carries is left alone.
  | @there _ _ _ entered items array listed has carries =>
    obtain ⟨before, after, rfl⟩ := List.append_of_mem listed
    rw [Upsert.idOf_eq addable.found] at has
    have inner := (distinct.of_lookup array).element (by simp) (Json.isObject_of_hasId has)
    have inside := Site.At.enter reaches site distinct addable.scalar array has
    exact item_forall (identified.identity_ne site)
      (insert_settles at_site addable reaches distinct array (by simp) has)
      (assign_settles at_site addable inside carries)
      (fun _ compiled => inside_settles at_site addable ih inside inner carries compiled) compiled

end DocPatch.Insertion
