import DocPatch.Proofs.Path.Cut
import DocPatch.Proofs.Plan.Invariant
import DocPatch.Proofs.Plan.Scope

/-! The order in which the operations for a tree are emitted: the insertion of every element that an
    operation enters stands before the operation. -/

namespace DocPatch

/-- An element that is entered: the field of its array, behind the element entered before, the alias
    that it is entered under, and the object that it stands for. -/
structure Entered where
  field : String
  aliasName : String
  object : Fields

namespace Entered

/-- What identifies the object. -/
def identity (element : Entered) : Fields := Element.identityFilter element.object

/-- The level of the element. -/
def level (element : Entered) : Level := ⟨element.field, element.identity⟩

/-- The filter of its alias. -/
def filter (element : Entered) : AliasFilter := ⟨element.aliasName, element.identity⟩

/-- The path of the last of some elements, each of which is entered inside the one before. -/
def path (elements : List Entered) : String :=
  elements.foldl (fun path element =>
    Path.join (Path.join path element.field) (Path.selected element.aliasName)) ""

/-- The path of the array that an element stands in, inside others. -/
def place (outer : List Entered) (element : Entered) : String :=
  Path.join (path outer) element.field

/-- The insertion of the object into its array, guarded by its absence. -/
def insertion (base : Fields) (outer : List Entered) (element : Entered) : Operation :=
  .under (outer.map filter) (Guard.both base
      -- The guard asks for an array on the way that lacks the object.
      (Guard.predicate (outer.map level) element.field element.identity .absent))
    (Update.push (place outer element) (.object element.object))

/-- An element under a proper alias, with an identity, in an array at a field without
    placeholders. -/
structure Sound (element : Entered) : Prop where
  unplaced : Path.Unplaced element.field
  filter : element.filter.Sound

variable {elements : List Entered} {element : Entered}

/-- The placeholder of a proper alias is one, and names it. -/
theorem Sound.selected (sound : element.Sound) :
    Path.placeholders (Path.selected element.aliasName) = 1 ∧
      Path.aliases (Path.selected element.aliasName) = [element.aliasName] :=
  -- The placeholder stands alone in its path.
  ⟨Path.placeholders_selected sound.filter.dotless,
    (Path.aliases_selected sound.filter.nonempty sound.filter.dotless).1⟩

/-- The path of an element goes on behind its array with its placeholder. -/
theorem path_append_singleton (outer : List Entered) (element : Entered) :
    path (outer ++ [element]) =
      Path.join (place outer element) (Path.selected element.aliasName) := by
  -- The path is built up from the elements one after the other.
  simp [path, place]

/-- The path of elements has one placeholder for each of them. -/
theorem placeholders_path (sound : ∀ element ∈ elements, element.Sound) :
    Path.placeholders (path elements) = elements.length := by
  -- The path grows at its end, by a field without placeholders and by one placeholder.
  induction elements using List.reverseRecOn with
  | nil => decide
  | append_singleton outer element ih =>
    have own := sound element (by simp)
    rw [path_append_singleton, place, Path.placeholders_join, Path.placeholders_join,
      ih fun other member => sound other (by simp [member]), own.unplaced.placeholders,
      own.selected.1, List.length_append, List.length_singleton]

/-- The path of elements names their aliases. -/
theorem aliases_path (sound : ∀ element ∈ elements, element.Sound) :
    Path.aliases (path elements) = elements.map aliasName := by
  -- The path grows at its end, where the last alias is named.
  induction elements using List.reverseRecOn with
  | nil => decide
  | append_singleton outer element ih =>
    have own := sound element (by simp)
    rw [path_append_singleton, place, Path.aliases_join, Path.aliases_join,
      ih fun other member => sound other (by simp [member]), own.unplaced.aliases, List.append_nil,
      own.selected.2, List.map_append, List.map_singleton]

/-- The path of some element is not empty. -/
theorem path_ne (outer inner : List Entered) (element : Entered) :
    path (outer ++ element :: inner) ≠ "" := by
  -- It ends in the placeholder of the last element.
  obtain ⟨front, last, same⟩ : ∃ front last, outer ++ element :: inner = front ++ [last] :=
    by simpa using List.eq_nil_or_concat (outer ++ element :: inner)
  rw [same, path_append_singleton]
  exact Path.join_ne_empty (Or.inr (by simp [Path.selected]))

/-- The path of an element that was entered starts every path of elements entered inside it. -/
theorem segments_path_start (outer inner : List Entered) (element : Entered) :
    Path.segments (path (outer ++ [element])) <+: Path.segments
      (path (outer ++ element :: inner)) := by
  -- Every further element adds segments at the end.
  induction inner using List.reverseRecOn with
  | nil => exact List.prefix_refl _
  | append_singleton inner last ih =>
    have longer : outer ++ element :: (inner ++ [last]) =
        (outer ++ element :: inner) ++ [last] := by simp
    have some_path := path_ne outer inner element
    have some_place : place (outer ++ element :: inner) last ≠ "" :=
      Path.join_ne_empty (Or.inl some_path)
    rw [longer, path_append_singleton _ last, Path.segments_join some_place, place,
      Path.segments_join some_path, List.append_assoc]
    exact ih.trans (List.prefix_append _ _)

end Entered

/-- An operation whose paths lead into the last of some elements, under the filters of all
    their aliases. -/
structure Operation.Inside (entered : List Entered) (op : Operation) : Prop where
  filters : op.arrayFilters = (entered.map Entered.filter).map AliasFilter.toFields
  some_path : Update.paths op.update ≠ []
  paths : ∀ path ∈ Update.paths op.update,
    ∃ field, Path.Unplaced field ∧ path = Path.join (Entered.path entered) field

namespace Operation.Inside

variable {entered : List Entered} {op : Operation} {path : String}

/-- The paths of such an operation name the aliases of the elements. -/
theorem aliases (inside : op.Inside entered) (sound : ∀ element ∈ entered, element.Sound)
    (among : path ∈ Update.paths op.update) :
    Path.aliases path = entered.map Entered.aliasName := by
  -- Behind the elements the path goes on without placeholders.
  obtain ⟨field, unplaced, rfl⟩ := inside.paths path among
  rw [Path.aliases_join, unplaced.aliases, List.append_nil, Entered.aliases_path sound]

/-- Cut before the placeholder of an element, they are the path of its array. -/
theorem cut {outer inner : List Entered} {element : Entered}
    (inside : op.Inside (outer ++ element :: inner))
    (sound : ∀ other ∈ outer ++ element :: inner, other.Sound)
    (among : path ∈ Update.paths op.update) :
    Path.cut outer.length path = Entered.place outer element := by
  obtain ⟨field, -, rfl⟩ := inside.paths path among
  have own := sound element (by simp)
  -- In front of the placeholder stand those of the elements entered before.
  have count : Path.placeholders (Entered.place outer element) = outer.length := by
    rw [Entered.place, Path.placeholders_join, own.unplaced.placeholders,
      Entered.placeholders_path fun other member => sound other (by simp [member]), Nat.add_zero]
  have start := Entered.segments_path_start outer inner element
  rw [Entered.path_append_singleton] at start
  rw [← count]
  refine Path.cut_of_start own.filter.dotless (start.trans ?_)
  rw [Path.segments_join (Entered.path_ne outer inner element)]
  exact List.prefix_append _ _

end Operation.Inside

/-- The insertions of some elements, each entered inside the one before, are among the
    operations. -/
def Inserted (base : Fields) (entered : List Entered) (earlier : List Operation) : Prop :=
  ∀ outer element, outer ++ [element] <+: entered → Entered.insertion base outer element ∈ earlier

/-- An operation leads into elements whose insertions are among the earlier operations. -/
def Founded (base : Fields) (earlier : List Operation) (op : Operation) : Prop :=
  ∃ entered, (∀ element ∈ entered, element.Sound) ∧ op.Inside entered ∧
    Inserted base entered earlier

/-- Each of some operations leads into elements that are inserted by operations before it, be it one
    of them or an earlier one. -/
def Ordered (base : Fields) (earlier ops : List Operation) : Prop :=
  ∀ before op after, ops = before ++ op :: after → Founded base (earlier ++ before) op

section Ordered

variable {base : Fields} {entered : List Entered} {earlier ops more : List Operation}

/-- Insertions that are among some operations are among more of them. -/
theorem Inserted.mono (inserted : Inserted base entered earlier) (subset : earlier ⊆ more) :
    Inserted base entered more :=
  fun outer element start => subset (inserted outer element start)

/-- One more element is inserted by its own insertion. -/
theorem Inserted.append_singleton (inserted : Inserted base entered earlier) {element : Entered}
    (last : Entered.insertion base entered element ∈ earlier) :
    Inserted base (entered ++ [element]) earlier := by
  -- A beginning of the elements is all of them, or it was one before.
  intro outer other start
  rcases List.prefix_concat_iff.mp start with same | start
  · obtain ⟨rfl, ends⟩ := List.append_inj' same rfl
    obtain rfl := List.singleton_inj.mp ends
    exact last
  · exact inserted outer other start

/-- No operations are in order. -/
theorem ordered_nil : Ordered base earlier [] := by
  intro before op after same
  simp at same

/-- Operations inside elements are in order behind the insertions of these. -/
theorem Inserted.ordered (inserted : Inserted base entered earlier)
    (sound : ∀ element ∈ entered, element.Sound) (inside : ∀ op ∈ ops, op.Inside entered) :
    Ordered base earlier ops := by
  -- What is inserted before the first of the operations is inserted before all of them.
  intro before op after same
  exact ⟨entered, sound, inside op (by simp [same]), inserted.mono (List.subset_append_left _ _)⟩

/-- Operations are in order when those of the first part are, and those of the second part
    behind them. -/
theorem Ordered.append (first : Ordered base earlier ops)
    (second : Ordered base (earlier ++ ops) more) : Ordered base earlier (ops ++ more) := by
  -- An operation is one of the second part, with others of it before, or one of the first part.
  intro before op after same
  rcases List.append_eq_append_iff.mp same with ⟨others, rfl, rest⟩ | ⟨others, rfl, rest⟩
  · rw [← List.append_assoc]
    exact second others op after rest
  · cases others with
    | nil => simpa using second [] op after rest.symm
    | cons other others =>
      obtain ⟨rfl, rfl⟩ := List.cons.inj rest
      exact first before op others rfl

end Ordered

namespace Site

/-- An element of the array, entered at an object. -/
def enter (site : Site) (object : Fields) : Entered := ⟨site.field, site.aliasName, object⟩

/-- The array stands in the last of some elements, and the site has recorded them all. -/
structure Along (base : Fields) (entered : List Entered) (site : Site) : Prop where
  base : site.base = base
  elementPath : site.elementPath = Entered.path entered
  ancestry : site.ancestry = entered.map Entered.level
  inherited : site.inherited = entered.map Entered.filter
  sound : ∀ element ∈ entered, element.Sound
  unplaced : Path.Unplaced site.field

namespace Along

variable {base : Fields} {entered : List Entered} {site : Site} {object : Fields}

/-- At a field of the document no element has been entered. -/
theorem root (base : Fields) {field : String} (unplaced : Path.Unplaced field) :
    (Site.root base field).Along base [] where
  -- Path, ancestry and inherited filters are all empty at the root.
  base := rfl
  elementPath := rfl
  ancestry := rfl
  inherited := rfl
  sound := by simp
  unplaced := unplaced

/-- An object with an identity is entered properly. -/
theorem enter_sound (at_site : site.Along base entered)
    (nonempty : (Element.describe site object).identity ≠ []) : (site.enter object).Sound where
  -- The alias of the site is proper, and the identity lists each path once.
  unplaced := at_site.unplaced
  filter := ⟨nonempty, Element.nodup_identity site object, site.aliasName_sound.1,
    site.aliasName_sound.2⟩

/-- All elements are proper, the one that is entered last among them. -/
theorem sound_inside (at_site : site.Along base entered)
    (nonempty : (Element.describe site object).identity ≠ []) :
    ∀ element ∈ entered ++ [site.enter object], element.Sound :=
  -- The elements before were proper already.
  List.forall_mem_append.mpr
    ⟨at_site.sound, List.forall_mem_singleton.mpr (at_site.enter_sound nonempty)⟩

/-- The path of the element of an object with an identity. -/
theorem memberPath (at_site : site.Along base entered)
    (nonempty : (Element.describe site object).identity ≠ []) :
    site.memberPath (Element.describe site object).aliasName =
      Entered.path (entered ++ [site.enter object]) := by
  -- With an identity, the element is entered by its alias.
  rw [Element.aliasName_of_identity_ne nonempty, Entered.path_append_singleton, Entered.place,
    ← at_site.elementPath]
  rfl

/-- Inside the element its own filter comes last. -/
theorem filters (at_site : site.Along base entered)
    (nonempty : (Element.describe site object).identity ≠ []) :
    (Element.describe site object).filters =
      (entered ++ [site.enter object]).map Entered.filter := by
  -- With an identity, the element has a filter of its own.
  rw [Element.filters_eq, Element.aliasName_of_identity_ne nonempty,
    at_site.inherited, List.map_append]
  rfl

/-- An array nested in an object stands in the element of the object. -/
theorem child (at_site : site.Along base entered)
    (nonempty : (Element.describe site object).identity ≠ []) {field : String}
    (unplaced : Path.Unplaced field) :
    (site.child (Element.describe site object) field).Along base
      (entered ++ [site.enter object]) where
  -- The element of the object comes behind those entered before.
  base := at_site.base
  elementPath := at_site.memberPath nonempty
  ancestry := by
    rw [List.map_append, ← at_site.ancestry]
    rfl
  inherited := at_site.filters nonempty
  sound := at_site.sound_inside nonempty
  unplaced := unplaced

/-- An update by one operator at the path of the array is inside the elements entered before. -/
theorem single (at_site : site.Along base entered) (filter : Fields) (operator : String)
    (argument : Json) :
    (Operation.under site.inherited filter (Update.single operator site.path argument)).Inside
      entered where
  -- The one path leads through the elements and then along the field.
  filters := by
    rw [← at_site.inherited]
    rfl
  some_path := by simp [Operation.under]
  paths := by
    simp only [Operation.under, Update.paths_single, List.mem_singleton]
    rintro path rfl
    exact ⟨site.field, at_site.unplaced, by rw [← at_site.elementPath]; rfl⟩

/-- The insertion of an object is that of the element which is entered there. -/
theorem insert_eq (at_site : site.Along base entered) :
    Insertion.insert site (Element.describe site object) object =
      Entered.insertion base entered (site.enter object) := by
  -- Both guard the push by the same predicate, at the same path.
  rw [Entered.insertion, Entered.place, ← at_site.inherited, ← at_site.base, ← at_site.ancestry,
    ← at_site.elementPath]
  rfl

/-- The assignment of an object is inside its element. -/
theorem assign (at_site : site.Along base entered)
    (nonempty : (Element.describe site object).identity ≠ [])
    (keys : Json.FieldsKeysHold Path.Unplaced object) :
    ∀ op ∈ Insertion.assign site (Element.describe site object),
      op.Inside (entered ++ [site.enter object]) := by
  -- There is one assignment at most, and it has some field to set.
  intro op member
  unfold Insertion.assign at member
  split at member
  · simp at member
  · rename_i some_field
    obtain rfl := List.mem_singleton.mp member
    refine ⟨by rw [← at_site.filters nonempty]; rfl, ?_, fun path among => ?_⟩
    · simpa [Operation.under] using some_field
    · rw [← at_site.memberPath nonempty]
      exact Element.assignments_path keys among

end Along

end Site

namespace Insertion

variable {base : Fields} {entered : List Entered} {earlier ops : List Operation} {site : Site}

/-- The operations for the objects of an array are in order, if those for each object are. -/
theorem objects_ordered {items : List Json} (inserted : Inserted base entered earlier)
    (each : ∀ inner earlier ops, .object inner ∈ items → Inserted base entered earlier →
      item site (.object inner) = .ok ops → Ordered base earlier ops)
    (compiled : objects site items = .ok ops) : Ordered base earlier ops := by
  -- The induction is on the items, with ever more operations before them.
  induction items generalizing earlier ops with
  | nil =>
    obtain rfl : [] = ops := by simpa [objects] using compiled
    exact ordered_nil
  | cons first rest ih =>
    obtain ⟨here, others, compiledHere, compiledOthers, rfl⟩ := objects_cons_eq_ok.mp compiled
    -- The insertions stay among the operations before the other objects.
    refine Ordered.append ?_ (ih (inserted.mono (List.subset_append_left _ _))
      (fun inner earlier ops member => each inner earlier ops (by simp [member])) compiledOthers)
    cases first with
    | object inner => exact each inner earlier here (by simp) inserted compiledHere
    -- Items that are no objects have no operations here.
    | _ =>
      obtain rfl : [] = here := by simpa [item] using compiledHere
      exact ordered_nil

/-- The operations for an array are in order, if those for each of its objects are. -/
theorem array_ordered {items : List Json} (at_site : site.Along base entered)
    (inserted : Inserted base entered earlier)
    (each : ∀ inner earlier ops, .object inner ∈ items → Inserted base entered earlier →
      item site (.object inner) = .ok ops → Ordered base earlier ops)
    (compiled : array site items = .ok ops) : Ordered base earlier ops := by
  -- The values come first, and the objects after them have the same elements before them.
  obtain ⟨below, compiledBelow, rfl⟩ := array_eq_ok.mp compiled
  refine Ordered.append (inserted.ordered at_site.sound fun op member => ?_)
    (objects_ordered (inserted.mono (List.subset_append_left _ _)) each compiledBelow)
  rw [scalars] at member
  split at member
  · simp at member
  · rw [List.mem_singleton.mp member]
    exact at_site.single _ _ _

/-- The operations for leaves are in order, if those for each array among them are. -/
theorem listed_ordered {sites : String → Site} {leaves : List (List String × Json)}
    (inserted : Inserted base entered earlier)
    (each : ∀ names items earlier ops, (names, .array items) ∈ leaves →
      Inserted base entered earlier → array (sites (Path.dotted names)) items = .ok ops →
      Ordered base earlier ops)
    (compiled : listed sites leaves = .ok ops) : Ordered base earlier ops := by
  induction leaves generalizing earlier ops with
  | nil =>
    obtain rfl : [] = ops := by simpa [listed] using compiled
    exact ordered_nil
  | cons leaf rest ih =>
    obtain ⟨names, value⟩ := leaf
    have others := fun names items earlier ops member =>
      each names items earlier ops (List.mem_cons_of_mem _ member)
    cases value with
    | array items =>
      obtain ⟨here, later, compiledHere, compiledLater, rfl⟩ := listed_cons_eq_ok.mp compiled
      exact Ordered.append (each names items earlier here (by simp) inserted compiledHere)
        (ih (inserted.mono (List.subset_append_left _ _)) others compiledLater)
    -- A leaf that is no array is passed by.
    | _ => exact ih inserted others compiled

/-- The operations for an object are in order, behind the insertions of the elements that
    it stands in. -/
theorem item_ordered (object : Fields) : Json.FieldsKeysHold Path.Unplaced object →
    ∀ {site entered earlier ops}, site.Along base entered → Inserted base entered earlier →
      item site (.object object) = .ok ops → Ordered base earlier ops := by
  induction object using Element.visit_induction with
  | visit object ih =>
    intro keys site entered earlier ops at_site inserted compiled
    by_cases nonempty : (Element.describe site object).identity = []
    · -- An object that nothing identifies has no operations.
      rw [item_unidentified nonempty compiled]
      exact ordered_nil
    · obtain ⟨inner, compiledInner, rfl⟩ := (item_eq_ok nonempty).mp compiled
      -- What comes behind the insertion may go into the element.
      have inside : ∀ more, Inserted base (entered ++ [site.enter object])
          (earlier ++ [insert site (Element.describe site object) object] ++ more) := fun more => by
        refine (inserted.mono ?_).append_singleton (by simp [at_site.insert_eq])
        rw [List.append_assoc]
        exact List.subset_append_left _ _
      rw [← List.singleton_append]
      refine Ordered.append (inserted.ordered at_site.sound ?_) (Ordered.append ?_ ?_)
      · exact List.forall_mem_singleton.mpr (at_site.single _ _ _)
      · simpa using (inside []).ordered (at_site.sound_inside nonempty)
          (at_site.assign nonempty keys)
      · -- The arrays nested in the object are one step further down.
        refine listed_ordered (inside _) (fun names items earlier ops leaf inserted compiled => ?_)
          compiledInner
        obtain ⟨named, below⟩ := Element.keysHold_visited keys leaf
        have at_child := at_site.child nonempty (Path.unplaced_dotted named)
        exact array_ordered at_child inserted (fun inner earlier ops listed inserted compiled =>
          ih names items inner leaf listed (below inner listed) at_child inserted compiled) compiled

/-- The operations for a tree without placeholders in its keys are in order. -/
theorem operations_ordered {tree : Fields} (unplaced : Json.FieldsKeysHold Path.Unplaced tree)
    (compiled : operations base tree = .ok ops) : Ordered base [] ops := by
  -- At the root no element is entered, so nothing has to be inserted before.
  have none_entered : ∀ earlier, Inserted base [] earlier := by
    intro earlier outer element start
    simp at start
  rw [operations_eq] at compiled
  refine listed_ordered (none_entered _)
    (fun names items earlier ops leaf inserted compiled => ?_) compiled
  obtain ⟨field, rfl, named, inside⟩ := keysHold_of_mem_rootLeaves unplaced leaf
  rw [Path.dotted_singleton] at compiled
  have at_root := Site.Along.root base named
  exact array_ordered at_root inserted (fun inner earlier ops listed inserted compiled =>
    item_ordered inner (inside inner listed) at_root inserted compiled) compiled

/-- Insertion comes first. Every operation for a tree without placeholders in its keys goes into
    certain elements, of which it has one array filter each: what identifies an object, with the
    alias of the element in front of every key. For each of the elements there is an earlier
    operation, under the array filters of the elements around it, that pushes the object into an
    array. The path of the array is that of the operation, cut before the placeholder of the
    element. The filter is the one of the document together with the guard that the array, in the
    elements around it, has no such element. -/
theorem operations_insert_first {tree : Fields} (unplaced : Json.FieldsKeysHold Path.Unplaced tree)
    (compiled : operations base tree = .ok ops) {before after : List Operation} {op : Operation}
    (position : ops = before ++ op :: after) :
    ∃ entered : List Entered, op.arrayFilters = entered.map (fun element =>
        element.identity.map fun entry => (element.aliasName ++ "." ++ entry.1, entry.2)) ∧
      Update.paths op.update ≠ [] ∧
      (∀ path ∈ Update.paths op.update, Path.aliases path = entered.map Entered.aliasName) ∧
      ∀ outer element inner, entered = outer ++ element :: inner → ∃ earlier ∈ before, ∃ place,
        (∀ path ∈ Update.paths op.update, Path.cut outer.length path = place) ∧
        place = Path.join (Entered.path outer) element.field ∧
        earlier.arrayFilters = op.arrayFilters.take outer.length ∧
        earlier.update = Update.push place (.object element.object) ∧
        earlier.filter = Guard.both base
          (Guard.predicate (outer.map Entered.level) element.field element.identity .absent) := by
  obtain ⟨entered, sound, inside, inserted⟩ :=
    operations_ordered unplaced compiled before op after position
  refine ⟨entered, ?_, inside.some_path, fun path => inside.aliases sound,
    fun outer element inner same => ?_⟩
  · -- Behind an alias that is not empty, a key comes after a dot.
    rw [inside.filters, List.map_map]
    refine List.map_congr_left fun element member => ?_
    have filter := (sound element member).filter
    rw [Function.comp_apply, filter.toFields]
    exact List.map_congr_left fun entry _ => by rw [Path.join_of_ne filter.nonempty]; rfl
  · subst same
    refine ⟨_, inserted outer element ⟨inner, by simp⟩, _, fun path => inside.cut sound,
      rfl, ?_, rfl, rfl⟩
    rw [inside.filters]
    simp [Entered.insertion, Operation.under]

/-- A tree with an object in an array of an object in an array. -/
def twoLevels : Fields :=
  [("a.b", .array [.object [("id", .string "x"), ("s", .array [.object [("n", .null)]])]])]

/-- The last of three operations for the tree sets the field of the inner object. An earlier
    one pushes this object, under the filter of the outer object, into the array that the
    path leads to. -/
theorem operations_insert_first_twoLevels :
    ∃ first second last, operations [] twoLevels = .ok [first, second, last] ∧
      Update.paths last.update = ["a.b.$[ab].s.$[s].n"] ∧
      ∃ earlier ∈ [first, second], earlier.arrayFilters = [[("ab.id", .string "x")]] ∧
        ∃ object, earlier.update = Update.push "a.b.$[ab].s" (.object object) := by
  have unplaced : Json.FieldsKeysHold Path.Unplaced twoLevels := by
    simp only [twoLevels, Json.FieldsKeysHold, Json.KeysHold, Json.ItemsKeysHold, Path.Unplaced]
    decide
  obtain ⟨first, second, last, compiled, paths, filters⟩ : ∃ first second last : Operation,
      operations [] twoLevels = .ok [first, second, last] ∧
      Update.paths last.update = ["a.b.$[ab].s.$[s].n"] ∧
      last.arrayFilters = [[("ab.id", .string "x")], [("s.n", .null)]] := ⟨_, _, _, rfl, rfl, rfl⟩
  have position : [first, second, last] = [first, second] ++ last :: [] := rfl
  obtain ⟨entered, -, -, aliases, each⟩ := operations_insert_first unplaced compiled position
  rw [paths] at aliases each
  -- The path names the aliases of two elements.
  have named : entered.map Entered.aliasName = ["ab", "s"] :=
    (aliases _ (List.mem_singleton_self _)).symm.trans (by decide +kernel)
  obtain ⟨outer, inner, rfl⟩ := List.length_eq_two.mp (by simpa using congrArg List.length named)
  obtain ⟨earlier, member, place, cut, -, under, pushes, -⟩ := each [outer] inner [] rfl
  have there : Path.cut 1 "a.b.$[ab].s.$[s].n" = "a.b.$[ab].s" := by decide +kernel
  rw [← cut _ (List.mem_singleton_self _), List.length_singleton, there] at pushes
  exact ⟨first, second, last, compiled, paths, earlier, member,
    by simpa [filters] using under, _, pushes⟩

end Insertion

end DocPatch
