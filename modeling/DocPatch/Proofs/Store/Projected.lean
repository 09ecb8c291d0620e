import DocPatch.Proofs.Path.Names
import DocPatch.Proofs.Store.Lookups
import DocPatch.Proofs.Store.Unordered

/-! What a projection shows of a document: the listed paths only, or everything else, whatever the
    order in which they are listed and however they overlap. -/

namespace DocPatch.Projection

/-- A listed path leads to a path or starts it. -/
def Covers (paths : List (List String)) (path : List String) : Prop :=
  ∃ listed ∈ paths, listed <+: path

/-- A path is the beginning of the document, or on the way to something of it at a listed path. -/
def Opens (document : Json) (paths : List (List String)) (path : List String) : Prop :=
  path = [] ∨ ∃ listed ∈ paths, path <+: listed ∧ lookup listed document ≠ none

/-- A path starts no listed path, and none of these starts it. -/
def Beside (paths : List (List String)) (path : List String) : Prop :=
  ∀ listed ∈ paths, ¬ listed <+: path ∧ ¬ path <+: listed

variable {document kept left : Json} {paths others : List (List String)} {path last : List String}

/-- With one more path, what this one starts is covered as well. -/
theorem covers_append_singleton :
    Covers (paths ++ [last]) path ↔ Covers paths path ∨ last <+: path := by
  simp [Covers, or_and_right, exists_or]

/-- With one more path, the way to what stands there is opened as well. -/
theorem opens_append_singleton : Opens document (paths ++ [last]) path ↔
    Opens document paths path ∨ path <+: last ∧ lookup last document ≠ none := by
  simp [Opens, or_and_right, exists_or, or_assoc]

/-- What a path covers that is covered itself, is covered. -/
theorem Covers.trans (covered : Covers paths last) (start : last <+: path) : Covers paths path := by
  -- What leads to the first path leads to everything behind it.
  obtain ⟨listed, among, starts⟩ := covered
  exact ⟨listed, among, starts.trans start⟩

/-- Only a path beside others is neither covered by one of them nor on the way to one. -/
theorem Beside.closed (beside : Beside paths path) (some_path : paths ≠ []) :
    ¬ Covers paths path ∧ ¬ Opens document paths path := by
  refine ⟨fun covered => ?_, fun opened => ?_⟩
  · obtain ⟨listed, among, starts⟩ := covered
    exact (beside listed among).1 starts
  · rcases opened with rfl | ⟨listed, among, starts, -⟩
    · -- The empty path starts every listed one, and there is one.
      obtain ⟨listed, rest, rfl⟩ := List.exists_cons_of_ne_nil some_path
      exact (beside listed (by simp)).2 List.nil_prefix
    · exact (beside listed among).2 starts

/-- All of a document at the listed paths and behind them, objects on the way there, and
    nothing else. -/
structure Kept (document : Json) (paths : List (List String)) (kept : Json) : Prop where
  covered : ∀ {path}, Covers paths path → lookup path kept = lookup path document
  opened : ∀ {path}, ¬ Covers paths path → Opens document paths path → ObjectAt path kept
  closed : ∀ {path}, ¬ Covers paths path → ¬ Opens document paths path → lookup path kept = none

namespace Kept

/-- The empty object is what is kept by no paths. -/
theorem nil (document : Json) : Kept document [] (.object []) where
  -- Only the empty path is opened by no paths, and there the empty object stands.
  covered := by simp [Covers]
  opened := by
    intro path _ opened
    obtain rfl : path = [] := by simpa [Opens] using opened
    exact ⟨[], rfl⟩
  closed := fun _ closed => lookup_empty fun same => closed (Or.inl same)

/-- Where nothing stood that is neither covered nor opened, nothing stands when there is
    one more path. -/
theorem still_closed (holds : Kept document paths kept)
    (uncovered : ¬ Covers (paths ++ [last]) path)
    (closed : ¬ Opens document (paths ++ [last]) path) : lookup path kept = none := by
  -- The path is neither covered nor opened by the paths before.
  rw [covers_append_singleton, not_or] at uncovered
  rw [opens_append_singleton, not_or] at closed
  exact holds.closed uncovered.1 closed.1

/-- Nothing is to be done for a path where nothing stands. -/
theorem skip (holds : Kept document paths kept) (some_name : last ≠ [])
    (missing : lookup last document = none) : Kept document (paths ++ [last]) kept where
  covered := by
    intro path covered
    by_cases before : Covers paths path
    · exact holds.covered before
    · -- Nothing stands behind the path either, and nothing was made on a way to it.
      have start := (covers_append_singleton.mp covered).resolve_left before
      rw [lookup_behind start missing]
      refine holds.closed before ?_
      rintro (rfl | ⟨listed, -, starts, found⟩)
      · exact some_name (List.prefix_nil.mp start)
      · exact found (lookup_behind (start.trans starts) missing)
  opened := by
    intro path uncovered opened
    rw [covers_append_singleton, not_or] at uncovered
    -- The path opens no way, since there is nothing at its end.
    exact holds.opened uncovered.1
      ((opens_append_singleton.mp opened).resolve_right fun given => given.2 missing)
  closed := holds.still_closed

/-- Nothing is to be done for a path that is covered already. -/
theorem again (holds : Kept document paths kept) (already : Covers paths last) :
    Kept document (paths ++ [last]) kept where
  covered := fun covered =>
    holds.covered ((covers_append_singleton.mp covered).elim id already.trans)
  opened := by
    intro path uncovered opened
    rw [covers_append_singleton, not_or] at uncovered
    refine holds.opened uncovered.1 ?_
    rcases opens_append_singleton.mp opened with before | ⟨starts, found⟩
    · exact before
    · -- The path that covers is further on the same way.
      obtain ⟨listed, among, also⟩ := already
      rcases List.prefix_or_prefix_of_prefix also starts with covers | further
      · exact absurd ⟨listed, among, covers⟩ uncovered.1
      · exact Or.inr ⟨listed, among, further, fun missing => found (lookup_behind also missing)⟩
  closed := holds.still_closed

/-- There are objects or nothing on the way to a path that is not covered. -/
theorem free (holds : Kept document paths kept) (uncovered : ¬ Covers paths last) :
    obstructed last kept = false := by
  refine free_of_objects fun front name rest split => ?_
  -- What covers a path on the way would cover this one.
  have before : ¬ Covers paths front := fun covered =>
    uncovered (covered.trans ⟨name :: rest, split.symm⟩)
  by_cases opened : Opens document paths front
  · exact Or.inr (holds.opened before opened)
  · exact Or.inl (holds.closed before opened)

/-- What stands at another path is placed there. -/
theorem place (holds : Kept document paths kept) (some_name : last ≠ []) (new : ¬ Covers paths last)
    {value : Json} (found : lookup last document = some value) :
    Kept document (paths ++ [last]) (Projection.place value last kept) where
  covered := by
    intro path covered
    rcases prefix_or_apart last path with ⟨rest, rfl⟩ | starts | apart
    · -- At the path and behind it stands what was placed.
      rw [lookup_place_append some_name (holds.free new), lookup_append, found, Option.bind_some]
    · -- A path on the way would be covered only if this one were.
      rcases covers_append_singleton.mp covered with before | after
      · exact absurd (before.trans starts) new
      · obtain rfl := starts.eq_of_length_le after.length_le
        rw [lookup_place some_name (holds.free new), found]
    · -- Paths beside it are covered as before.
      rw [lookup_place_apart apart.symm]
      exact holds.covered ((covers_append_singleton.mp covered).resolve_right apart.not_starts)
  opened := by
    intro path uncovered opened
    rw [covers_append_singleton, not_or] at uncovered
    rcases prefix_or_apart path last with ⟨rest, rfl⟩ | starts | apart
    · -- On the way to the value objects were made, if there were none.
      cases rest with
      | nil => simp at uncovered
      | cons name others => exact objectAt_place (holds.free new) value
    · exact absurd starts uncovered.2
    · rw [ObjectAt, lookup_place_apart apart]
      exact holds.opened uncovered.1
        ((opens_append_singleton.mp opened).resolve_right fun given => apart.not_starts given.1)
  closed := by
    intro path uncovered closed
    rw [covers_append_singleton, not_or] at uncovered
    rw [opens_append_singleton, not_or] at closed
    rcases prefix_or_apart path last with starts | starts | apart
    · exact absurd ⟨starts, by simp [found]⟩ closed.2
    · exact absurd starts uncovered.2
    · rw [lookup_place_apart apart]
      exact holds.closed uncovered.1 closed.1

/-- The order of the paths makes no difference at any path. -/
theorem alike {also : Json} (holds : Kept document paths kept) (held : Kept document others also)
    (same : ∀ path, path ∈ paths ↔ path ∈ others) (path : List String) : Alike path kept also := by
  -- At each path both documents are covered, opened or closed alike.
  have covers : Covers paths path ↔ Covers others path := by simp [Covers, same]
  have opens : Opens document paths path ↔ Opens document others path := by simp [Opens, same]
  by_cases covered : Covers paths path
  · exact Or.inl ((held.covered (covers.mp covered)).trans (holds.covered covered).symm)
  · by_cases opened : Opens document paths path
    · exact Or.inr ⟨holds.opened covered opened, held.opened (mt covers.mpr covered)
        (opens.mp opened)⟩
    · exact Or.inl ((held.closed (mt covers.mpr covered) (mt opens.mpr opened)).trans
        (holds.closed covered opened).symm)

end Kept

/-- Keeping some paths keeps what stands there, and nothing else. -/
theorem kept_keep (document : Json) (paths : List (List String))
    (names : ∀ path ∈ paths, path ≠ []) : Kept document paths (keep document paths) := by
  -- The paths are gone through in order, and the last one adds to what the others keep.
  induction paths using List.reverseRecOn with
  | nil => exact .nil document
  | append_singleton paths last ih =>
    have holds := ih fun path among => names path (by simp [among])
    have some_name := names last (by simp)
    rw [keep, List.foldl_append]
    simp only [List.foldl_cons, List.foldl_nil]
    cases found : lookup last document with
    | none => exact holds.skip some_name found
    | some value =>
      change Kept document _ (place value last (keep document paths))
      by_cases already : Covers paths last
      · -- The value stands there, so it is placed where it is.
        rw [place_lookup ((holds.covered already).trans found)]
        exact holds.again already
      · exact holds.place some_name already found

/-- In which order paths are kept only decides about the order of the keys. -/
theorem same_keep (keyed : document.WellKeyed) (names : ∀ path ∈ paths, path ≠ [])
    (same : ∀ path, path ∈ paths ↔ path ∈ others) :
    Json.Same (keep document paths) (keep document others) := by
  -- Both are well keyed, and alike at every path.
  have also : ∀ path ∈ others, path ≠ [] := fun path among => names path ((same path).mpr among)
  exact same_of_alike (keep_same _ (.refl keyed)).left (keep_same _ (.refl keyed)).left
    ((kept_keep document paths names).alike (kept_keep document others also) same)

/-- Keeping the same paths again changes nothing. -/
theorem keep_keep (names : ∀ path ∈ paths, path ≠ []) :
    keep (keep document paths) paths = keep document paths := by
  -- Only what stands at the listed paths decides, and it is the same in what is kept.
  refine List.foldl_ext _ _ _ fun kept path among => ?_
  rw [(kept_keep document paths names).covered ⟨path, among, List.prefix_refl _⟩]

/-- Nothing of a document at the listed paths and behind them, and the rest as it was. -/
structure Dropped (document : Json) (paths : List (List String)) (left : Json) : Prop where
  covered : ∀ {path}, Covers paths path → lookup path left = none
  passed : ∀ {path}, ¬ Covers paths path → Alike path document left
  beside : ∀ {path}, Beside paths path → lookup path left = lookup path document

/-- Dropping changes nothing before or beside its path, except in objects on the way. -/
theorem alike_drop_of_not_starts {target : Json} (keyed : target.WellKeyed)
    (before : ¬ last <+: path) : Alike path target (drop last target) := by
  -- The path is on the way to the dropped one, or it parts from it.
  rcases prefix_or_apart last path with starts | ⟨rest, rfl⟩ | apart
  · exact absurd starts before
  · cases rest with
    | nil => simp at before
    | cons name rest => exact alike_drop path name rest target
  · exact Or.inl (lookup_drop_apart apart.symm keyed)

/-- After one more path is dropped, nothing is left there either. -/
theorem Dropped.drop (holds : Dropped document paths left) (keyed : left.WellKeyed)
    (some_name : last ≠ []) : Dropped document (paths ++ [last]) (drop last left) where
  covered := by
    intro path covered
    by_cases starts : last <+: path
    · exact lookup_behind starts (lookup_drop some_name keyed)
    · -- What was gone before does not come back.
      exact (alike_drop_of_not_starts keyed starts).lookup_eq_none
        (holds.covered ((covers_append_singleton.mp covered).resolve_right starts))
  passed := by
    intro path uncovered
    rw [covers_append_singleton, not_or] at uncovered
    exact (holds.passed uncovered.1).trans (alike_drop_of_not_starts keyed uncovered.2)
  beside := by
    intro path beside
    have parted := beside last (by simp)
    have apart := ((prefix_or_apart last path).resolve_left parted.1).resolve_left parted.2
    rw [lookup_drop_apart apart.symm keyed]
    exact holds.beside fun listed among => beside listed (by simp [among])

/-- Dropping some paths drops what stands there, and nothing else. -/
theorem dropped_dropAll (keyed : document.WellKeyed) (paths : List (List String))
    (names : ∀ path ∈ paths, path ≠ []) : Dropped document paths (dropAll document paths) := by
  -- The paths are gone through in order, and the last one is dropped from what the others leave.
  induction paths using List.reverseRecOn with
  | nil => exact ⟨by simp [Covers], fun _ => Or.inl rfl, fun _ => rfl⟩
  | append_singleton paths last ih =>
    have holds := ih fun path among => names path (by simp [among])
    have left_keyed := (dropAll_same paths (Json.Same.refl keyed)).left
    rw [dropAll, List.foldl_append]
    exact holds.drop left_keyed (names last (by simp))

/-- The order of the paths makes no difference at any path. -/
theorem Dropped.alike {also : Json} (holds : Dropped document paths left)
    (held : Dropped document others also) (same : ∀ path, path ∈ paths ↔ path ∈ others)
    (path : List String) : Alike path left also := by
  -- A path is covered on both sides, or passed on both.
  have covers : Covers paths path ↔ Covers others path := by simp [Covers, same]
  by_cases covered : Covers paths path
  · exact Or.inl ((held.covered (covers.mp covered)).trans (holds.covered covered).symm)
  · exact (holds.passed covered).symm.trans (held.passed (mt covers.mpr covered))

/-- In which order paths are dropped only decides about the order of the keys. -/
theorem same_dropAll (keyed : document.WellKeyed) (names : ∀ path ∈ paths, path ≠ [])
    (same : ∀ path, path ∈ paths ↔ path ∈ others) :
    Json.Same (dropAll document paths) (dropAll document others) := by
  -- Both are well keyed, and alike at every path.
  have also : ∀ path ∈ others, path ≠ [] := fun path among => names path ((same path).mpr among)
  exact same_of_alike (dropAll_same _ (.refl keyed)).left (dropAll_same _ (.refl keyed)).left
    ((dropped_dropAll keyed paths names).alike (dropped_dropAll keyed others also) same)

/-- Where nothing stands at any of the paths, nothing is dropped. -/
theorem dropAll_of_lookup_none (missing : ∀ path ∈ paths, lookup path left = none) :
    dropAll left paths = left := by
  -- The paths are dropped one after the other, each without an effect.
  induction paths with
  | nil => rfl
  | cons path rest ih =>
    rw [dropAll, List.foldl_cons, drop_of_lookup_none (missing path (by simp))]
    exact ih fun other among => missing other (by simp [among])

/-- Dropping the same paths again changes nothing. -/
theorem dropAll_dropAll (keyed : document.WellKeyed) (names : ∀ path ∈ paths, path ≠ []) :
    dropAll (dropAll document paths) paths = dropAll document paths :=
  -- After the first time nothing stands at any of the paths.
  dropAll_of_lookup_none fun path among =>
    (dropped_dropAll keyed paths names).covered ⟨path, among, List.prefix_refl _⟩

section Apply

variable {projection : Fields}

/-- The listed paths of a projection, as segments. -/
def listedPaths (projection : Fields) : List (List String) :=
  projection.map fun entry => Path.segments entry.1

/-- No listed path is without segments. -/
theorem listedPaths_ne_nil : ∀ path ∈ listedPaths projection, path ≠ [] := by
  -- Every key has a segment, if only an empty one.
  intro path among
  obtain ⟨entry, -, rfl⟩ := List.mem_map.mp among
  exact Path.segments_ne_nil entry.1

/-- Truthy values keep the listed paths. -/
theorem apply_truthy (some_path : projection ≠ [])
    (truthy : ∀ entry ∈ projection, isTruthy entry.2 = true) (document : Json) :
    apply projection document = some (keep document (listedPaths projection)) := by
  -- Some value keeps, and none drops.
  have keeps : (projection.any fun entry => isTruthy entry.2) = true := by
    obtain ⟨entry, rest, rfl⟩ := List.exists_cons_of_ne_nil some_path
    simp [truthy entry (by simp)]
  have drops : (projection.any fun entry => !isTruthy entry.2) = false := by simpa using truthy
  simp only [apply, keeps, drops, Bool.and_false, Bool.false_eq_true, ↓reduceIte, listedPaths]

/-- Values that are not truthy drop the listed paths. -/
theorem apply_falsy (falsy : ∀ entry ∈ projection, isTruthy entry.2 = false) (document : Json) :
    apply projection document = some (dropAll document (listedPaths projection)) := by
  -- No value keeps.
  have keeps : (projection.any fun entry => isTruthy entry.2) = false := by simpa using falsy
  simp only [apply, keeps, Bool.false_and, Bool.false_eq_true, ↓reduceIte, listedPaths]

/-- A projection fails just when some of its values keep and some drop. -/
theorem apply_eq_none_iff (document : Json) :
    apply projection document = none ↔
    (∃ entry ∈ projection, isTruthy entry.2 = true) ∧ ∃ entry ∈ projection,
      isTruthy entry.2 = false := by
  -- The two kinds are looked for before anything is done.
  simp only [apply]
  split
  · rename_i mixed
    simpa using mixed
  · rename_i pure
    simpa using pure

/-- Showing is exact. A projection of a well keyed document fails if and only if some of its values
    are truthy and some are not. If all are, everything at the listed paths and behind them is
    shown, and nothing beside them. If none is, nothing is left at the listed paths and behind them,
    and all that is beside them is shown. In both cases the order in which paths are listed only
    decides about the order of the keys, and what is shown is not changed by showing it again. -/
theorem apply_exact {document : Json} (keyed : document.WellKeyed) (some_path : projection ≠ []) :
    (apply projection document = none ↔ (∃ entry ∈ projection, isTruthy entry.2 = true) ∧
      ∃ entry ∈ projection, isTruthy entry.2 = false) ∧
    ((∀ entry ∈ projection, isTruthy entry.2 = true) → ∃ shown,
      apply projection document = some shown ∧
      (∀ path, Covers (listedPaths projection) path → lookup path shown = lookup path document) ∧
      (∀ path, Beside (listedPaths projection) path → lookup path shown = none) ∧
      (∀ other, other.Perm projection → ∃ also, apply other document = some also ∧
        Json.Same shown also) ∧
      apply projection shown = some shown) ∧
    ((∀ entry ∈ projection, isTruthy entry.2 = false) → ∃ shown,
      apply projection document = some shown ∧
      (∀ path, Covers (listedPaths projection) path → lookup path shown = none) ∧
      (∀ path, Beside (listedPaths projection) path → lookup path shown = lookup path document) ∧
      (∀ other, other.Perm projection → ∃ also, apply other document = some also ∧
        Json.Same shown also) ∧
      apply projection shown = some shown) := by
  have nonempty : listedPaths projection ≠ [] := by simpa [listedPaths] using some_path
  have listed {other : Fields} (perm : other.Perm projection) (path : List String) :
      path ∈ listedPaths projection ↔ path ∈ listedPaths other := by
    simp [listedPaths, perm.mem_iff]
  refine ⟨apply_eq_none_iff document, fun truthy => ?_, fun falsy => ?_⟩
  · -- The listed paths are kept.
    have holds := kept_keep document (listedPaths projection) listedPaths_ne_nil
    refine ⟨_, apply_truthy some_path truthy document, fun path => holds.covered,
      fun path beside => ?_, fun other perm => ?_, ?_⟩
    · obtain ⟨uncovered, closed⟩ := beside.closed nonempty
      exact holds.closed uncovered closed
    · have some_other : other ≠ [] := by
        rintro rfl
        exact some_path perm.nil_eq.symm
      exact ⟨_, apply_truthy some_other
        (fun entry among => truthy entry (perm.mem_iff.mp among)) document,
        same_keep keyed listedPaths_ne_nil (listed perm)⟩
    · rw [apply_truthy some_path truthy, keep_keep listedPaths_ne_nil]
  · -- The listed paths are dropped.
    have holds := dropped_dropAll keyed (listedPaths projection) listedPaths_ne_nil
    refine ⟨_, apply_falsy falsy document, fun path => holds.covered, fun path => holds.beside,
      fun other perm => ?_, ?_⟩
    · exact ⟨_, apply_falsy (fun entry among => falsy entry (perm.mem_iff.mp among)) document,
        same_dropAll keyed listedPaths_ne_nil (listed perm)⟩
    · rw [apply_falsy falsy, dropAll_dropAll keyed listedPaths_ne_nil]

end Apply

/-- A document with an object in it. -/
def nestedDocument : Json :=
  .object [("a", .object [("b", .null), ("c", .bool true)]), ("d", .null)]

/-- One field of the object inside is kept with the other field of the document, or dropped. -/
theorem apply_exact_nestedDocument :
    apply [("a.b", .bool true), ("d", .bool false)] nestedDocument = none ∧
    (∃ shown, apply [("a.b", .bool true), ("d", .bool true)] nestedDocument = some shown ∧
      lookup ["a", "b"] shown = some .null ∧ lookup ["a", "c"] shown = none ∧
      apply [("a.b", .bool true), ("d", .bool true)] shown = some shown) ∧
    ∃ shown, apply [("a.b", .bool false)] nestedDocument = some shown ∧
      lookup ["a", "b"] shown = none ∧
      lookup ["a", "c"] shown = some (.bool true) := by
  -- The general statement is read at the three projections.
  have keyed : nestedDocument.WellKeyed := by
    simp [nestedDocument, Json.WellKeyed, Json.FieldsWellKeyed]
  have paths : Path.segments "a.b" = ["a", "b"] ∧ Path.segments "d" = ["d"] := by decide
  refine ⟨?_, ?_, ?_⟩
  · exact (apply_exact keyed (by simp)).1.mpr (by simp [isTruthy])
  · obtain ⟨shown, applied, covered, beside, -, again⟩ :=
      (@apply_exact [("a.b", .bool true), ("d", .bool true)] _ keyed (by simp)).2.1
        (by simp [isTruthy])
    refine ⟨shown, applied, covered _ ?_, beside _ ?_, again⟩
    · simp [Covers, listedPaths, paths]
    · simp [Beside, listedPaths, paths]
  · obtain ⟨shown, applied, covered, beside, -⟩ :=
      (@apply_exact [("a.b", .bool false)] _ keyed (by simp)).2.2 (by simp [isTruthy])
    refine ⟨shown, applied, covered _ ?_, beside _ ?_⟩
    · simp [Covers, listedPaths, paths]
    · simp [Beside, listedPaths, paths]

end DocPatch.Projection
