import DocPatch.Proofs.Path.Aliases

/-! Paths cut before one of their placeholders. -/

namespace DocPatch.Path

/-- Parts with the separator put back between them make up the text again. -/
theorem intercalate_split (separator : Char) (text : List Char) :
    [separator].intercalate (split separator text) = text := by
  -- The text is put together from its end, as it was split.
  induction text with
  | nil => rfl
  | cons c rest ih =>
    rw [split]
    split
    · -- The separator ends an empty part.
      rename_i same
      obtain ⟨part, parts, rest_eq⟩ := List.exists_cons_of_ne_nil (split_ne_nil separator rest)
      rw [rest_eq] at ih ⊢
      rw [List.intercalate_cons_cons, ih, same]
      rfl
    · -- Any other character belongs to the first part.
      obtain ⟨part, parts, rest_eq⟩ := List.exists_cons_of_ne_nil (split_ne_nil separator rest)
      rw [rest_eq] at ih ⊢
      cases parts with
      | nil =>
        rw [List.intercalate_singleton] at ih ⊢
        rw [ih]
      | cons next others =>
        rw [List.intercalate_cons_cons] at ih ⊢
        rw [← ih]
        rfl

/-- Segments with dots put back between them make up the path again. -/
theorem intercalate_segments (path : String) : ".".intercalate (segments path) = path := by
  -- Segments are parts of the text between dots, as strings.
  apply String.toList_inj.mp
  rw [String.toList_intercalate, segments, List.map_map]
  have same : String.toList ∘ String.ofList = id := funext fun _ => String.toList_ofList
  rw [same, List.map_id]
  exact intercalate_split '.' path.toList

/-- How many placeholders a path has. -/
def placeholders (path : String) : Nat := (segments path).countP isPlaceholder

/-- A joined path has the placeholders of both sides. -/
theorem placeholders_join (path field : String) :
    placeholders (join path field) = placeholders path + placeholders field := by
  by_cases empty : path = ""
  · -- The field stands alone, and the empty path has no placeholder.
    subst empty
    simp [show placeholders "" = 0 by decide]
  · rw [placeholders, segments_join empty, List.countP_append]
    rfl

/-- A field name without placeholders has none. -/
theorem Unplaced.placeholders {name : String} (unplaced : Unplaced name) :
    placeholders name = 0 := by
  -- No segment of the name is a placeholder.
  rw [Path.placeholders, List.countP_eq_zero]
  intro segment member
  simp [unplaced segment member]

/-- The placeholder of an alias is one. -/
theorem placeholders_selected {aliasName : String} (dotless : '.' ∉ aliasName.toList) :
    placeholders (selected aliasName) = 1 := by
  simp [placeholders, segments_selected dotless, isPlaceholder_selected]

/-- The segments before a placeholder, of which there are so many others in front. -/
def beforePlaceholder : Nat → List String → List String
  | _, [] => []
  | 0, segment :: rest => if isPlaceholder segment then [] else segment :: beforePlaceholder 0 rest
  | count + 1, segment :: rest =>
    -- A placeholder in front is kept, and counted down.
    segment :: beforePlaceholder (if isPlaceholder segment then count else count + 1) rest

/-- A path cut before a placeholder, of which there are so many others in front. -/
def cut (count : Nat) (path : String) : String :=
  ".".intercalate (beforePlaceholder count (segments path))

/-- Before a placeholder stand the segments in front of it. -/
theorem beforePlaceholder_append (front : List String) {segment : String}
    (placed : isPlaceholder segment = true) (rest : List String) :
    beforePlaceholder (front.countP isPlaceholder) (front ++ segment :: rest) = front := by
  -- Each placeholder in front uses up one of the count, which is gone at the segment.
  induction front with
  | nil => simp [beforePlaceholder, placed]
  | cons first others ih =>
    by_cases counted : isPlaceholder first = true
    · rw [List.countP_cons_of_pos counted, List.cons_append, beforePlaceholder, if_pos counted, ih]
    · rw [List.countP_cons_of_neg counted, List.cons_append]
      cases count : others.countP isPlaceholder with
      | zero =>
        rw [count] at ih
        rw [beforePlaceholder, if_neg counted, ih]
      | succ more =>
        rw [count] at ih
        rw [beforePlaceholder, if_neg counted, ih]

/-- A path that starts with the placeholder of an alias behind another path is cut to the latter
    before this placeholder. -/
theorem cut_of_start {place aliasName path : String} (dotless : '.' ∉ aliasName.toList)
    (start : segments (join place (selected aliasName)) <+: segments path) :
    cut (placeholders place) path = place := by
  obtain ⟨rest, same⟩ := start
  have placed := isPlaceholder_selected aliasName
  by_cases empty : place = ""
  · -- The placeholder comes first.
    subst empty
    rw [join_empty, segments_selected dotless] at same
    rw [cut, ← same]
    exact congrArg (".".intercalate ·) (beforePlaceholder_append [] placed rest)
  · -- The placeholder comes behind the segments of the other path.
    rw [segments_join empty, segments_selected dotless, List.append_assoc] at same
    rw [cut, ← same, placeholders, List.singleton_append, beforePlaceholder_append _ placed rest,
      intercalate_segments]

end DocPatch.Path
