import DocPatch.Proofs.Path.Names

/-! The placeholders of a path: the aliases that it names, and whether it goes into
    every element. -/

namespace DocPatch.Path

/-- The alias that a segment names, if it is the placeholder of one. -/
def alias? (segment : String) : Option String :=
  match kind segment with
  | .selected aliasName => some aliasName
  | _ => none

/-- The aliases that a path names, from the root on. -/
def aliases (path : String) : List String := (segments path).filterMap alias?

/-- Whether a path goes into every element of some array. -/
def Everywhere (path : String) : Prop := everyElement ∈ segments path

/-- A field name of which no part between dots starts like a placeholder. -/
def Unplaced (name : String) : Prop := ∀ segment ∈ segments name, isPlaceholder segment = false

/-- The empty path names no alias. -/
@[simp] theorem aliases_empty : aliases "" = [] := by decide

/-- The empty path goes into no elements. -/
@[simp] theorem not_everywhere_empty : ¬ Everywhere "" := by
  unfold Everywhere
  decide

/-- A joined path names the aliases of both sides. -/
theorem aliases_join (path field : String) :
    aliases (join path field) = aliases path ++ aliases field := by
  by_cases empty : path = ""
  · -- The field stands alone, and the empty path names no alias.
    subst empty
    simp
  · rw [aliases, segments_join empty, List.filterMap_append]
    rfl

/-- A joined path goes into every element of an array where one of its sides does. -/
theorem everywhere_join (path field : String) :
    Everywhere (join path field) ↔ Everywhere path ∨ Everywhere field := by
  -- Joining puts the segments of both sides one behind the other.
  by_cases empty : path = ""
  · subst empty
    simp
  · rw [Everywhere, segments_join empty, List.mem_append]
    rfl

/-- The placeholder of an alias names the alias, and does not stand for every element. -/
theorem aliases_selected {aliasName : String} (nonempty : aliasName ≠ "")
    (dotless : '.' ∉ aliasName.toList) :
    aliases (selected aliasName) = [aliasName] ∧ ¬ Everywhere (selected aliasName) := by
  -- The placeholder is one segment.
  have alone := segments_selected dotless
  have named := kind_selected nonempty
  refine ⟨by simp [aliases, alone, alias?, named], ?_⟩
  -- If it stood for every element, it would be of that kind.
  rw [Everywhere, alone, List.mem_singleton]
  intro same
  have every : kind (selected aliasName) = .every := by simp [kind, ← same]
  simp [named] at every

/-- The placeholder of every element names no alias. -/
theorem aliases_everyElement : aliases everyElement = [] := by decide

/-- A field name without placeholders names no alias. -/
theorem Unplaced.aliases {name : String} (unplaced : Unplaced name) : Path.aliases name = [] := by
  -- All of its segments lead to fields.
  rw [Path.aliases, List.filterMap_eq_nil_iff]
  intro segment member
  rw [alias?, kind_of_not_placeholder (unplaced segment member)]

/-- A field name without placeholders goes into no elements. -/
theorem Unplaced.not_everywhere {name : String} (unplaced : Unplaced name) : ¬ Everywhere name := by
  intro member
  exact absurd (unplaced everyElement member) (by decide)

/-- A path of field names without placeholders has none. -/
theorem unplaced_dotted {names : List String} (unplaced : ∀ name ∈ names, Unplaced name) :
    Unplaced (dotted names) := by
  -- The path grows at its end, by one name at a time.
  induction names using List.reverseRecOn with
  | nil =>
    show ∀ segment ∈ segments "", isPlaceholder segment = false
    decide
  | append_singleton names name ih =>
    have before := ih fun other member => unplaced other (by simp [member])
    have last := unplaced name (by simp)
    rw [dotted_append_singleton]
    by_cases empty : dotted names = ""
    · simpa [empty] using last
    · intro segment member
      rw [segments_join empty, List.mem_append] at member
      exact member.elim (before segment) (last segment)

/-- A plain name has no placeholders. -/
theorem Plain.unplaced {name : String} (plain : Plain name) : Unplaced name := by
  -- It is its own only segment, and starts no operator.
  intro segment member
  rw [segments_of_dotless plain.dotless, List.mem_singleton] at member
  exact member ▸ isPlaceholder_of_noOperator plain.noOperator

/-- The alias that a segment names stands between the brackets of the segment. -/
theorem mem_of_alias? {segment aliasName : String} (named : alias? segment = some aliasName)
    {c : Char} (member : c ∈ aliasName.toList) : c ∈ segment.toList := by
  have selects : kind segment = .selected aliasName := by
    unfold alias? at named
    split at named
    · rename_i name selects
      rw [selects, Option.some.inj named]
    · simp at named
  -- Only a segment with both brackets selects by an alias.
  unfold kind at selects
  split at selects
  · simp at selects
  · split at selects
    · rename_i rest text
      split at selects
      · rw [← Kind.selected.inj selects, String.toList_ofList] at member
        rw [text]
        exact List.mem_cons_of_mem _ (List.mem_cons_of_mem _ (List.dropLast_subset rest member))
      · simp at selects
    · simp at selects

/-- No alias that a path names holds a dot. -/
theorem dot_not_mem_of_mem_aliases {path aliasName : String} (member : aliasName ∈ aliases path) :
    '.' ∉ aliasName.toList := by
  -- The alias stands inside a segment, and no segment holds a dot.
  obtain ⟨segment, among, named⟩ := List.mem_filterMap.mp member
  exact fun inside => dot_not_mem_of_mem_segments among (mem_of_alias? named inside)

/-- A path that ends at a field name, and on which plain names lead to fields. Behind every
    placeholder there is such a name. -/
inductive Way : List String → Prop where
  | last {name : String} : Plain name → Way [name]
  | name {name : String} {rest : List String} : Plain name → Way rest → Way (name :: rest)
  | element {place name : String} {rest : List String} : kind place ≠ .plain → Plain name →
      Way (name :: rest) → Way (place :: name :: rest)

/-- A way does not end before it leads somewhere. -/
theorem Way.ne_nil {segments : List String} (way : Way segments) : segments ≠ [] := by
  cases way <;> simp

/-- Names that lead somewhere are a way. -/
theorem Leads.way {names : List String} (leads : Leads names) : Way names := by
  -- The last name ends the way, and every other name leads on.
  obtain ⟨some_name, plain⟩ := leads
  induction names with
  | nil => exact absurd rfl some_name
  | cons name rest ih =>
    have first := plain name (by simp)
    by_cases last : rest = []
    · exact last ▸ .last first
    · exact .name first (ih last fun other member => plain other (by simp [member]))

/-- A way may go on into elements and, by names, further down. -/
theorem Way.append {segments : List String} (way : Way segments) {place : String}
    (enters : kind place ≠ .plain) {names : List String} (leads : Leads names) :
    Way (segments ++ place :: names) := by
  -- What comes last is a placeholder with the first of the names behind it.
  induction way with
  | last plain =>
    obtain ⟨first, rest, rfl⟩ := List.exists_cons_of_ne_nil leads.some_name
    exact .name plain (.element enters (leads.plain first (by simp)) leads.way)
  | name plain _ ih => exact .name plain ih
  | element other plain _ ih => exact .element other plain ih

end DocPatch.Path
