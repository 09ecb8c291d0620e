import DocPatch.Proofs.Plan.Recognition

/-! The search for an alias has no bound of its own, and yet it ends; what it ends at can stand in a
    path, and no element entered before has it. -/

namespace DocPatch.Site

/-- A name that can stand as an alias: ASCII letters and digits, a lower-case letter first. -/
structure LegalAlias (name : String) : Prop where
  nonempty : name ≠ ""
  starts : ∀ c ∈ name.toList.head?, c.isLower = true
  characters : ∀ c ∈ name.toList, c.isAlphanum = true

/-- An entered element has the name as its alias. -/
def Taken (site : Site) (name : String) : Prop := ∃ filter ∈ site.inherited, filter.aliasName = name

/-- The names that the search tries one after the other: the stem, then with the depth behind it,
    and from then on also with a counter. -/
def attempt (site : Site) : Nat → String
  | 0 => aliasStem site.field
  | 1 => aliasStem site.field ++ toString site.ancestry.length
  -- The counter starts at one.
  | k + 2 => aliasStem site.field ++ toString site.ancestry.length ++ toString (k + 1)

/-- The candidates are the first names that the search tries. -/
theorem aliasCandidates_eq (site : Site) :
    site.aliasCandidates = (List.range (site.inherited.length + 2)).map site.attempt := by
  simp [aliasCandidates, List.range_succ_eq_map, attempt, Function.comp_def]

/-- A name is taken when it is among the aliases that a site inherits. -/
theorem taken_iff {site : Site} {name : String} :
    site.Taken name ↔ name ∈ site.inherited.map AliasFilter.aliasName := by
  rw [List.mem_map, Taken]

/-- The search ends, at the alias: it goes on for as long as the names it tries are taken, and among
    one more name than there are aliases to avoid, behind the first, one is free. -/
theorem search_ends (site : Site) : ∃ tries ≤ site.inherited.length + 1,
    site.aliasName = site.attempt tries ∧ ¬ site.Taken (site.attempt tries) ∧
      ∀ earlier < tries, site.Taken (site.attempt earlier) := by
  cases found : site.aliasCandidates.find? fun name =>
      !(site.inherited.map AliasFilter.aliasName).contains name with
  | none =>
    -- A search through the candidates that fails has passed over the free one.
    obtain ⟨free, candidate, unused⟩ := exists_free site
    exact absurd (by simpa using unused) (List.find?_eq_none.mp found free candidate)
  | some name =>
    have named : site.aliasName = name := by simp only [aliasName, found, Option.getD_some]
    rw [aliasCandidates_eq, List.find?_map, Option.map_eq_some_iff] at found
    obtain ⟨tries, first, rfl⟩ := found
    obtain ⟨free, bound, before⟩ := List.find?_range_eq_some.mp first
    refine ⟨tries, ?_, named, ?_, fun earlier less => ?_⟩
    · have := List.mem_range.mp bound
      omega
    · simpa [taken_iff] using free
    · simpa [taken_iff] using before earlier less

/-- The lower-case letters lie between two characters. -/
theorem isLower_iff (c : Char) : c.isLower = true ↔ 97 ≤ c.val.toNat ∧ c.val.toNat ≤ 122 := by
  delta Char.isLower
  simp [UInt32.le_iff_toNat_le]

/-- A letter is lower-case once it is lowered. -/
theorem isLower_toLower {c : Char} (letter : c.isAlpha = true) : c.toLower.isLower = true := by
  -- Lowering asks whether the letter is a capital.
  delta Char.toLower
  split
  · -- A capital moves up by the distance of the two cases.
    rename_i capital
    rw [isLower_iff]
    simp only [ge_iff_le, UInt32.le_iff_toNat_le, UInt32.toNat_add, Char.reduceVal,
      UInt32.reduceToNat] at capital ⊢
    change 97 ≤ (c.val.toNat + 32) % 4294967296 ∧ (c.val.toNat + 32) % 4294967296 ≤ 122
    omega
  · -- A letter that is no capital is lower-case already.
    rename_i no_capital
    have either : (c.isUpper || c.isLower) = true := letter
    have no_capital : c.isUpper ≠ true := fun capital => no_capital (of_decide_eq_true capital)
    exact (Bool.or_eq_true_iff.mp either).resolve_left no_capital

/-- A lower-case letter is a letter. -/
theorem isAlphanum_of_isLower {c : Char} (lower : c.isLower = true) : c.isAlphanum = true := by
  show (c.isUpper || c.isLower || c.isDigit) = true
  rw [lower, Bool.or_true, Bool.true_or]

/-- A lower-case letter with letters and digits behind it is a legal alias. -/
theorem LegalAlias.of_toList {name : String} {first : Char} {rest : List Char}
    (text : name.toList = first :: rest) (lower : first.isLower = true)
    (others : ∀ c ∈ rest, c.isAlphanum = true) : LegalAlias name where
  -- The first character is a letter as well.
  nonempty := by
    rintro rfl
    simp at text
  starts := by simp [text, lower]
  characters := by
    rw [text]
    exact List.forall_mem_cons.mpr ⟨isAlphanum_of_isLower lower, others⟩

/-- Every field name is cut down to a legal alias. -/
theorem legalAlias_aliasStem (field : String) : LegalAlias (aliasStem field) := by
  unfold aliasStem
  split
  · exact @LegalAlias.of_toList _ 'a' [] rfl rfl (by simp)
  · rename_i first rest kept
    have alphanumeric : ∀ c ∈ first :: rest, c.isAlphanum = true := by
      intro c member
      rw [← kept] at member
      exact (List.mem_filter.mp member).2
    split
    · -- A digit in front gets a letter before it.
      exact .of_toList (String.toList_ofList) rfl alphanumeric
    · -- A letter in front is lowered.
      rename_i no_digit
      have letter : first.isAlpha = true := by
        simpa [Char.isAlphanum, no_digit] using alphanumeric first (by simp)
      exact .of_toList (String.toList_ofList) (isLower_toLower letter)
        fun c member => alphanumeric c (by simp [member])

/-- A legal alias stays one with a number behind it. -/
theorem LegalAlias.append_number {name : String} (legal : LegalAlias name) (n : Nat) :
    LegalAlias (name ++ toString n) := by
  obtain ⟨first, rest, text⟩ : ∃ first rest, name.toList = first :: rest :=
    List.exists_cons_of_ne_nil fun empty => legal.nonempty (by simpa using empty)
  refine @LegalAlias.of_toList _ first (rest ++ (toString n).toList) (by simp [text])
    (legal.starts first (by simp [text])) fun c member => ?_
  rcases List.mem_append.mp member with before | digit
  · exact legal.characters c (by simp [text, before])
  · -- A number is written in digits.
    rw [Nat.toString_eq_ofList_toDigits, String.toList_ofList] at digit
    simp [Char.isAlphanum, Nat.isDigit_of_mem_toDigits (by decide) (by decide) digit]

/-- Every name that the search tries is a legal alias. -/
theorem legalAlias_attempt (site : Site) : ∀ tries, LegalAlias (site.attempt tries)
  -- A number is put behind the stem at most twice.
  | 0 => legalAlias_aliasStem site.field
  | 1 => (legalAlias_aliasStem site.field).append_number _
  | _ + 2 => ((legalAlias_aliasStem site.field).append_number _).append_number _

/-- The alias of a site is legal. -/
theorem legalAlias_aliasName (site : Site) : LegalAlias site.aliasName := by
  obtain ⟨tries, -, ends, -⟩ := site.search_ends
  exact ends ▸ site.legalAlias_attempt tries

namespace Reached

variable {base : Fields} {visits : List (Site × Fields)} {site : Site}

/-- All aliases that hold inside an object are legal. -/
theorem legalAlias_filters (reached : Reached base visits site) (object : Fields) :
    ∀ filter ∈ (Element.describe site object).filters, LegalAlias filter.aliasName := by
  -- Each of them is the alias of a site on the way.
  rw [reached.filters_eq object]
  intro filter member
  obtain ⟨visit, -, own⟩ := List.mem_filterMap.mp member
  obtain ⟨-, rfl⟩ := Element.mem_filter?.mp own
  exact visit.1.legalAlias_aliasName

/-- At every array reached, by fields of any names, the search for an alias ends, at the first name
    that is free. That name is a legal alias and not the alias of any element entered on the way, so
    inside the elements of the array all aliases are legal and no two are the same. -/
theorem alias_fresh (reached : Reached base visits site) :
    (∃ tries ≤ site.inherited.length + 1,
      site.aliasName = site.attempt tries ∧ ¬ site.Taken (site.attempt tries) ∧
        ∀ earlier < tries, site.Taken (site.attempt earlier)) ∧
      LegalAlias site.aliasName ∧ (∀ filter ∈ site.inherited, filter.aliasName ≠ site.aliasName) ∧
      ∀ object, (∀ filter ∈ (Element.describe site object).filters, LegalAlias filter.aliasName) ∧
        ((Element.describe site object).filters.map AliasFilter.aliasName).Nodup := by
  -- The alias is the attempt at which the search ends.
  have search := site.search_ends
  refine ⟨search, site.legalAlias_aliasName, ?_, fun object =>
    ⟨reached.legalAlias_filters object, Element.nodup_filters object reached.distinct⟩⟩
  obtain ⟨tries, -, ends, free, -⟩ := search
  intro filter member same
  exact free ⟨filter, member, same.trans ends⟩

/-- An object with an id. -/
def counted : Fields := [("id", .number (.int 1))]

/-- An array at the root, whose element has no identity. -/
def lists : Site := .root [] "Listes d'été"

/-- An array below it, whose name begins with a capital. -/
def upper : Site := lists.child (Element.describe lists []) "X"

/-- The next array, whose name looks like an alias with a depth behind it. -/
def suffixed : Site := upper.child (Element.describe upper counted) "x3"

/-- The last array, at the depth that this alias shows. -/
def deepest : Site := suffixed.child (Element.describe suffixed counted) "x"

/-- The stem and the stem with the depth are both taken, so that a counter comes behind them. -/
theorem alias_fresh_counted :
    Reached [] [(lists, []), (upper, counted), (suffixed, counted)] deepest ∧
      deepest.inherited.map AliasFilter.aliasName = ["x", "x3"] ∧ deepest.aliasName = "x31" ∧
      LegalAlias "x31" ∧ ∀ filter ∈ deepest.inherited, filter.aliasName ≠ "x31" := by
  -- The last site lies below the others, and its alias is computed.
  have reached : Reached [] [(lists, []), (upper, counted), (suffixed, counted)] deepest :=
    .child (.child (.child (.root _) [] "X") counted "x3") counted "x"
  obtain ⟨-, legal, fresh, -⟩ := reached.alias_fresh
  exact ⟨reached, rfl, rfl, legal, fresh⟩

end Reached

end DocPatch.Site
