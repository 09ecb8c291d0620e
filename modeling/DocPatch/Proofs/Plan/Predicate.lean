import DocPatch.Proofs.Plan.Stage
import DocPatch.Proofs.Store.Existence

/-! What the predicates about an element say: a chain of elements leads to an array that has, or
    lacks, the element. -/

namespace DocPatch.Stage

/-- Whether one of the elements that stages lead to passes a test. The search is that of queries,
    which looks into every object of an array on its way. -/
def meets (test : Json → Bool) : List Stage → Json → Bool
  | [], holder => test holder
  | stage :: rest, holder =>
    (Query.resolve stage.names holder).any fun found =>
      (found.items?.getD []).any fun item =>
        item.isObject && (Query.satisfies item stage.identity && meets test rest item)

/-- Nothing behind the first stage of a clear way has the path of one of its marks. -/
theorem Clear.fresh {stage : Stage} {rest : List Stage} {names : List String}
    (clear : Clear (stage :: rest) names) (sound : stage.Sound)
    (leads : Path.Leads (next rest names)) :
    Path.dotted (next rest names) ∉ stage.identity.map Prod.fst := by
  -- Two paths with the same text have the same names, but these names part.
  rw [identity, List.map_map]
  intro member
  obtain ⟨mark, among, same⟩ := List.mem_map.mp member
  exact (clear.1 mark among).ne ((sound.spread.leads mark among).injective leads same)

/-- The next names lead somewhere. -/
theorem leads_next {stages : List Stage} (sound : ∀ stage ∈ stages, stage.Sound)
    {names : List String} (leads : Path.Leads names) : Path.Leads (next stages names) := by
  -- These are the names of the first stage, or those behind no stage at all.
  cases stages with
  | nil => exact leads
  | cons stage rest => exact (sound stage (by simp)).leads

/-- The next field of levels is the path of the next names of their stages. -/
theorem next_level (stages : List Stage) (names : List String) :
    Guard.next (stages.map level) (Path.dotted names) = Path.dotted (next stages names) := by
  cases stages <;> rfl

/-- The search of queries goes to the fields of the levels. -/
theorem meets_eq {stages : List Stage} (sound : ∀ stage ∈ stages, stage.Sound)
    (test : Json → Bool) (holder : Json) :
    meets test stages holder = Guard.reaches test (stages.map level) holder := by
  -- The names of a stage are the segments of its level.
  induction stages generalizing holder with
  | nil => rfl
  | cons stage rest ih =>
    have first := sound stage (by simp)
    have others := ih fun other member => sound other (by simp [member])
    simp only [meets, List.map_cons, Guard.reaches, level, first.leads.segments, others]

/-- Predicates can ask about sound stages that nothing behind them touches. -/
theorem askable {stages : List Stage} (sound : ∀ stage ∈ stages, stage.Sound) {names : List String}
    (leads : Path.Leads names) (clear : Clear stages names) :
    Guard.Askable (stages.map level) (Path.dotted names) := by
  -- Each level asks for marks, and nothing behind it stands at the path of one of them.
  induction stages with
  | nil => exact leads.noOperator
  | cons stage rest ih =>
    have first := sound stage (by simp)
    have others : ∀ other ∈ rest, other.Sound := fun other member => sound other (by simp [member])
    refine ⟨first.leads.noOperator, fun entry member => ⟨first.named.onFields entry member, ?_⟩,
      ih others clear.2⟩
    rw [next_level]
    intro same
    exact clear.fresh first (leads_next others leads) (same ▸ List.mem_map_of_mem member)

/-- A document satisfies a predicate when a chain of elements, each recognised by its stage, leads
    to an array of which the predicate tells the truth. -/
theorem satisfies_predicate {stages : List Stage} (sound : ∀ stage ∈ stages, stage.Sound)
    {names : List String} (leads : Path.Leads names) (clear : Clear stages names)
    {identity : Fields} (named : Query.Named identity) (presence : Presence) (holder : Json) :
    Query.satisfies holder
        (Guard.predicate (stages.map level) (Path.dotted names) identity presence) =
      meets (Guard.tells names identity presence) stages holder := by
  -- The predicate is read along its levels, which are the stages.
  rw [Guard.satisfies_predicate (askable sound leads clear) named.onFields, leads.segments,
    meets_eq sound]

end DocPatch.Stage
