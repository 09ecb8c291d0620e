import DocPatch.Path
import Mathlib.Data.List.Induction

/-! Field names, and the dotted paths that they make up. -/

namespace DocPatch.Path

/-- A field name that the store reads as a name: it is not empty, holds no dot, starts no operator
    and counts no item of an array. -/
structure Plain (name : String) : Prop where
  nonempty : name ≠ ""
  dotless : '.' ∉ name.toList
  noOperator : isOperator name = false
  noIndex : index? name = none

/-- A field name that can be read back from a dotted path: it is not empty and holds no dot. -/
structure Legible (name : String) : Prop where
  nonempty : name ≠ ""
  dotless : '.' ∉ name.toList

/-- A name is legible when it is not empty and holds no dot. -/
theorem legible_iff {name : String} : Legible name ↔ name ≠ "" ∧ '.' ∉ name.toList :=
  ⟨fun legible => ⟨legible.nonempty, legible.dotless⟩, fun given => ⟨given.1, given.2⟩⟩

/-- A plain name is legible. -/
theorem Plain.legible {name : String} (plain : Plain name) : Legible name :=
  ⟨plain.nonempty, plain.dotless⟩

/-- The path of field names, outermost first. -/
def dotted (names : List String) : String := names.foldl join ""

/-- Joining with a path that is not empty puts a dot between. -/
theorem join_of_ne {path : String} (nonempty : path ≠ "") (field : String) :
    join path field = path ++ "." ++ field := by
  simp [join, nonempty]

/-- A field behind the empty path stands alone. -/
@[simp] theorem join_empty (field : String) : join "" field = field := by
  simp [join]

/-- A joined path is empty only when both of its sides are. -/
theorem join_ne_empty {path field : String} (nonempty : path ≠ "" ∨ field ≠ "") :
    join path field ≠ "" := by
  -- A joined path holds the separator, or it is the field alone.
  by_cases empty : path = ""
  · -- Behind the empty path the field stands alone.
    subst empty
    simpa using nonempty
  · -- The separator makes the text longer than none.
    rw [join_of_ne empty]
    intro same
    simpa using congrArg String.length same

/-- Joining to one path keeps different fields different. -/
theorem join_injective {path : String} (nonempty : path ≠ "") {left right : String}
    (same : join path left = join path right) : left = right := by
  -- Behind the same path and the separator, the rest of the text is the field.
  rw [join_of_ne nonempty, join_of_ne nonempty] at same
  have texts := congrArg String.toList same
  simp only [String.toList_append] at texts
  exact String.toList_inj.mp (List.append_cancel_left texts)

/-- A dotted path grows at its end. -/
theorem dotted_append_singleton (names : List String) (name : String) :
    dotted (names ++ [name]) = join (dotted names) name := by
  simp [dotted]

/-- The path of one name is that name. -/
@[simp] theorem dotted_singleton (name : String) : dotted [name] = name := by
  simp [dotted]

/-- A path of names is not empty, provided the last name is not. -/
theorem dotted_ne_empty {names : List String} (some_name : names ≠ [])
    (nonempty : ∀ name ∈ names, name ≠ "") : dotted names ≠ "" := by
  -- The path ends with its last name, which holds some character.
  have last := nonempty _ (List.getLast_mem some_name)
  rw [← List.dropLast_concat_getLast some_name, dotted_append_singleton]
  exact join_ne_empty (Or.inr last)

/-- Splitting at a separator gives at least one part. -/
theorem split_ne_nil (separator : Char) (text : List Char) : split separator text ≠ [] := by
  -- Whatever the text is, the last part is begun at its end.
  cases text with
  -- The empty text is a part of its own.
  | nil => simp [split]
  | cons c rest =>
    simp only [split]
    split
    · -- A separator ends an empty part.
      simp
    · split <;> simp

/-- Splitting divides a text at any of its separators. -/
theorem split_append (separator : Char) (before after : List Char) :
    split separator (before ++ separator :: after)
      = split separator before ++ split separator after := by
  -- The first part of what follows a character is never missing, so it can take the character in.
  induction before with
  | nil => simp [split]
  | cons c rest ih =>
    by_cases same : c = separator
    · -- A separator in front begins one more part on both sides.
      simp [split, same, ih]
    · -- Another character belongs to the first of the parts behind it.
      cases parts : split separator rest with
      | nil => exact absurd parts (split_ne_nil separator rest)
      | cons part others => simp [split, same, ih, parts]

/-- A text without separators is one part. -/
theorem split_of_not_mem {separator : Char} {text : List Char} (absent : separator ∉ text) :
    split separator text = [text] := by
  -- Without a separator no part ends before the text does.
  induction text with
  | nil => rfl
  | cons c rest ih =>
    simp only [List.mem_cons, not_or] at absent
    simp [split, Ne.symm absent.1, ih absent.2]

/-- No part of a split text holds the separator. -/
theorem not_mem_of_mem_split {separator : Char} {text part : List Char}
    (member : part ∈ split separator text) : separator ∉ part := by
  -- A separator ends a part, and every other character is taken into the part that follows.
  induction text generalizing part with
  | nil => simp [List.mem_singleton.mp (show part ∈ [[]] from member)]
  | cons c rest ih =>
    rw [split] at member
    split at member
    · rcases List.mem_cons.mp member with rfl | later
      · simp
      · exact ih later
    · rename_i other
      split at member
      · rw [List.mem_singleton.mp member, List.mem_singleton]
        exact Ne.symm other
      · rename_i first others parts
        rcases List.mem_cons.mp member with rfl | later
        · rw [List.mem_cons, not_or]
          exact ⟨Ne.symm other, ih (by simp [parts])⟩
        · exact ih (by simp [parts, later])

/-- No segment of a path holds a dot. -/
theorem dot_not_mem_of_mem_segments {path segment : String} (member : segment ∈ segments path) :
    '.' ∉ segment.toList := by
  -- The segments are what lies between the dots.
  obtain ⟨part, among, rfl⟩ := List.mem_map.mp member
  rw [String.toList_ofList]
  exact not_mem_of_mem_split among

/-- A path without dots is one segment. -/
theorem segments_of_dotless {name : String} (dotless : '.' ∉ name.toList) :
    segments name = [name] := by
  simp [segments, split_of_not_mem dotless]

/-- A path of one segment is that segment. -/
theorem eq_of_segments_singleton {path name : String} (one : segments path = [name]) :
    path = name := by
  by_cases dotted : '.' ∈ path.toList
  · -- On each side of a dot there is a segment.
    obtain ⟨before, after, text⟩ := List.append_of_mem dotted
    have count := congrArg List.length one
    rw [segments, text, split_append, List.length_map, List.length_append] at count
    have first := List.length_pos_iff.mpr (split_ne_nil '.' before)
    have last := List.length_pos_iff.mpr (split_ne_nil '.' after)
    simp only [List.length_singleton] at count
    omega
  · simpa [segments_of_dotless dotted] using one

/-- The segments of a joined path are those of its two sides. -/
theorem segments_join {path : String} (nonempty : path ≠ "") (field : String) :
    segments (join path field) = segments path ++ segments field := by
  -- The separator between the path and the field is where the text is taken apart.
  have text : (path ++ "." ++ field).toList = path.toList ++ '.' :: field.toList := by
    simp [String.toList_append]
  rw [join_of_ne nonempty, segments, text, split_append]
  simp [segments]

/-- There is always a first segment. -/
theorem segments_ne_nil (path : String) : segments path ≠ [] := by
  simp [segments, split_ne_nil]

/-- What is joined to a path does not change where it starts. -/
theorem head_segments_join {path : String} (nonempty : path ≠ "") (field : String) :
    (segments (join path field)).head? = (segments path).head? := by
  -- A path has a first segment, and it stays the first.
  obtain ⟨first, rest, start⟩ := List.exists_cons_of_ne_nil (segments_ne_nil path)
  rw [segments_join nonempty, start]
  rfl

/-- The segments of a dotted path are the names it was made of. -/
theorem segments_dotted {names : List String} (some_name : names ≠ [])
    (legible : ∀ name ∈ names, Legible name) : segments (dotted names) = names := by
  -- The names are taken off at the end, where the path grows.
  induction names using List.reverseRecOn with
  | nil => exact absurd rfl some_name
  | append_singleton names name ih =>
    -- The last name is a segment, as it holds no dot.
    have last : segments name = [name] := segments_of_dotless (legible name (by simp)).dotless
    rw [dotted_append_singleton]
    by_cases first : names = []
    · -- There is no other name, so no separator is put.
      subst first
      simpa [dotted] using last
    · -- The names before it make up the other segments.
      have before : ∀ other ∈ names, Legible other := fun other member =>
        legible other (by simp [member])
      have start := dotted_ne_empty first fun other member => (before other member).nonempty
      rw [segments_join start, ih first before, last]

/-- Different lists of names make different paths. -/
theorem dotted_injective {left right : List String} (leftNames : left ≠ [])
    (rightNames : right ≠ []) (leftLegible : ∀ name ∈ left, Legible name)
    (rightLegible : ∀ name ∈ right, Legible name) (same : dotted left = dotted right) :
    left = right := by
  -- The segments of a dotted path are its names again.
  have read := congrArg segments same
  rwa [segments_dotted leftNames leftLegible, segments_dotted rightNames rightLegible] at read

/-- A path starts an operator only where its first name does. -/
theorem isOperator_dotted {names : List String} (some_name : names ≠ [])
    (nonempty : ∀ name ∈ names, name ≠ "") (noOperator : ∀ name ∈ names, isOperator name = false) :
    isOperator (dotted names) = false := by
  -- The first character of a dotted path is that of its first name.
  induction names using List.reverseRecOn with
  | nil => exact absurd rfl some_name
  | append_singleton names name ih =>
    rw [dotted_append_singleton]
    by_cases first : names = []
    · -- The path is the name.
      subst first
      simpa [dotted] using noOperator name (by simp)
    · -- The path starts with the names before, and those start no operator.
      have before : ∀ other ∈ names, other ≠ "" := fun other member =>
        nonempty other (by simp [member])
      have start := dotted_ne_empty first before
      have head : (dotted names).toList ≠ [] := by simpa using start
      -- So there is a first character, which stays the first of the longer path.
      obtain ⟨c, rest, text⟩ := List.exists_cons_of_ne_nil head
      have known := ih first before fun other member => noOperator other (by simp [member])
      rw [join_of_ne start]
      simpa [isOperator, String.toList_append, text] using known

/-- Names that lead somewhere: there are some, and all are plain. -/
structure Leads (names : List String) : Prop where
  some_name : names ≠ []
  plain : ∀ name ∈ names, Plain name

/-- The path of names that lead somewhere is not empty. -/
theorem Leads.dotted_ne {names : List String} (leads : Leads names) : dotted names ≠ "" :=
  dotted_ne_empty leads.some_name fun name member => (leads.plain name member).nonempty

/-- Its segments are the names. -/
theorem Leads.segments {names : List String} (leads : Leads names) :
    segments (dotted names) = names :=
  -- No name holds a separator of its own.
  segments_dotted leads.some_name fun name member => (leads.plain name member).legible

/-- It starts no operator. -/
theorem Leads.noOperator {names : List String} (leads : Leads names) :
    isOperator (dotted names) = false :=
  -- The first character of the path is that of its first name.
  isOperator_dotted leads.some_name (fun name member => (leads.plain name member).nonempty)
    fun name member => (leads.plain name member).noOperator

/-- Different names have different paths. -/
theorem Leads.injective {left right : List String} (leftLeads : Leads left)
    (rightLeads : Leads right) (same : dotted left = dotted right) : left = right :=
  -- Each side is read back from the path.
  dotted_injective leftLeads.some_name rightLeads.some_name
    (fun name member => (leftLeads.plain name member).legible)
    (fun name member => (rightLeads.plain name member).legible) same

/-- A name that starts no operator is no placeholder. -/
theorem isPlaceholder_of_noOperator {name : String} (plain : isOperator name = false) :
    isPlaceholder name = false := by
  -- A placeholder starts with the character of an operator.
  simp only [isOperator, decide_eq_false_iff_not] at plain
  unfold isPlaceholder
  split
  · rename_i rest text
    simp [text] at plain
  · rfl

/-- A segment that does not start like a placeholder leads to a field. -/
theorem kind_of_not_placeholder {segment : String} (unplaced : isPlaceholder segment = false) :
    kind segment = .plain := by
  -- Both kinds of placeholders start alike, the one for every element among them.
  have differ : segment ≠ everyElement := by
    intro same
    subst same
    exact absurd unplaced (by decide)
  simp only [kind, differ, ↓reduceIte]
  unfold isPlaceholder at unplaced
  split at unplaced
  · contradiction
  · rfl

/-- A name that starts no operator leads to a field. -/
theorem kind_of_noOperator {name : String} (plain : isOperator name = false) :
    kind name = .plain :=
  kind_of_not_placeholder (isPlaceholder_of_noOperator plain)

/-- The text of a placeholder. -/
theorem toList_selected (aliasName : String) :
    (selected aliasName).toList = '$' :: '[' :: aliasName.toList ++ [']'] := by
  simp [selected, String.toList_append]

/-- The placeholder of an alias leads to the elements that the alias selects. -/
theorem kind_selected {aliasName : String} (nonempty : aliasName ≠ "") :
    kind (selected aliasName) = .selected aliasName := by
  -- Between the brackets stands the alias, and not nothing, as in the placeholder for
  -- every element.
  have differ : selected aliasName ≠ everyElement := by
    intro same
    have texts := congrArg String.toList same
    rw [toList_selected] at texts
    have shorter := congrArg List.length texts
    simp [everyElement] at shorter
    exact nonempty shorter
  simp [kind, differ, toList_selected]

/-- The placeholder of an alias is one. -/
theorem isPlaceholder_selected (aliasName : String) :
    isPlaceholder (selected aliasName) = true := by
  simp [isPlaceholder, toList_selected]

/-- The placeholder of an alias without dots is one segment. -/
theorem segments_selected {aliasName : String} (dotless : '.' ∉ aliasName.toList) :
    segments (selected aliasName) = [selected aliasName] := by
  -- The marks around the alias are no dots either.
  apply segments_of_dotless
  simpa [toList_selected] using dotless

/-- A key of an alias filter is split at its first dot. -/
theorem aliasAndField_of_toList {key aliasName : String} {field : List Char}
    (dotless : '.' ∉ aliasName.toList) (text : key.toList = aliasName.toList ++ '.' :: field) :
    aliasAndField key = (aliasName, String.ofList field) := by
  -- The search for the separator passes all characters of the alias.
  have every : ∀ c ∈ aliasName.toList, (c != '.') = true := by
    intro c member
    simp only [bne_iff_ne, ne_eq]
    intro same
    subst same
    exact dotless member
  rw [aliasAndField, text, List.takeWhile_append_of_pos every, List.dropWhile_append_of_pos every]
  simp

/-- A key of an alias filter is split where the alias was joined. -/
theorem aliasAndField_join {aliasName : String} (nonempty : aliasName ≠ "")
    (dotless : '.' ∉ aliasName.toList) (field : String) :
    aliasAndField (join aliasName field) = (aliasName, field) := by
  -- The alias holds no separator, so the first one is where the field starts.
  have text : (join aliasName field).toList = aliasName.toList ++ '.' :: field.toList := by
    simp [join_of_ne nonempty, String.toList_append]
  simpa using aliasAndField_of_toList dotless text

end DocPatch.Path
