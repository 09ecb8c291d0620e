import DocPatch.Plan.Site
import Mathlib.Data.List.Nodup

/-! The alias of a site: its characters, and that no entered element has it already. -/

namespace DocPatch.Site

/-- A character of an alias is no dot. -/
theorem ne_dot_of_isAlphanum {c : Char} (alphanumeric : c.isAlphanum = true) : c ≠ '.' := by
  -- A dot is neither a letter nor a digit.
  intro same
  subst same
  exact absurd alphanumeric (by decide)

/-- Lower case does not make a dot. -/
theorem toLower_ne_dot {c : Char} (alphanumeric : c.isAlphanum = true) : c.toLower ≠ '.' := by
  -- A lowered letter lies above all separators, and any other character is left as it is.
  delta Char.toLower
  split
  · -- An upper case letter moves up, and the separator lies below all letters.
    rename_i upper
    intro same
    have value := congrArg (fun c => c.val.toNat) same
    simp [UInt32.le_iff_toNat_le] at value upper
    omega
  · exact ne_dot_of_isAlphanum alphanumeric

/-- The stem of an alias holds no dot and is not empty. -/
theorem aliasStem_sound (field : String) :
    aliasStem field ≠ "" ∧ '.' ∉ (aliasStem field).toList := by
  -- Letters and digits are kept, and the first of them may get a letter put before it.
  unfold aliasStem
  split
  · -- A field without letters and digits has a fixed stem.
    decide
  · rename_i first rest kept
    have alphanumeric : ∀ c ∈ first :: rest, c.isAlphanum = true := by
      intro c member
      rw [← kept] at member
      exact (List.mem_filter.mp member).2
    -- What is kept of the field are letters and digits.
    have dotless : '.' ∉ rest := fun member =>
      ne_dot_of_isAlphanum (alphanumeric '.' (by simp [member])) rfl
    have head := alphanumeric first (by simp)
    split
    · -- A digit in front gets a letter before it.
      refine ⟨by simp, ?_⟩
      simpa [dotless] using (ne_dot_of_isAlphanum head).symm
    · -- A letter in front is lowered.
      refine ⟨by simp, ?_⟩
      simpa [dotless] using (toLower_ne_dot head).symm

/-- A number is written in digits. -/
theorem dot_not_mem_toString (n : Nat) : '.' ∉ (toString n).toList := by
  -- Every character of a decimal number is a digit.
  intro member
  rw [Nat.toString_eq_ofList_toDigits, String.toList_ofList] at member
  exact absurd (Nat.isDigit_of_mem_toDigits (by decide) (by decide) member) (by decide)

/-- Different numbers are written differently. -/
theorem toString_injective {left right : Nat} (same : toString left = toString right) :
    left = right := by
  -- The number can be read back from its digits.
  have digits : Nat.toDigits 10 left = Nat.toDigits 10 right := by
    simpa [Nat.toString_eq_ofList_toDigits] using congrArg String.toList same
  rw [← @Nat.ofDigitChars_ten_toDigits left, ← @Nat.ofDigitChars_ten_toDigits right, digits]

/-- Every candidate holds no dot and is not empty. -/
theorem aliasCandidates_sound {site : Site} {name : String}
    (candidate : name ∈ site.aliasCandidates) : name ≠ "" ∧ '.' ∉ name.toList := by
  -- Digits behind a stem make no separator.
  obtain ⟨nonempty, dotless⟩ := aliasStem_sound site.field
  -- A number behind the stem adds digits only.
  have numbered : ∀ n : Nat, aliasStem site.field ++ toString n ≠ "" ∧
      '.' ∉ (aliasStem site.field ++ toString n).toList := by
    intro n
    refine ⟨by simp [nonempty], ?_⟩
    simp only [String.toList_append, List.mem_append, not_or]
    exact ⟨dotless, dot_not_mem_toString n⟩
  simp only [aliasCandidates, List.mem_cons, List.mem_map] at candidate
  -- The stem itself, the stem with its depth, and then with one more number.
  rcases candidate with rfl | rfl | ⟨k, -, rfl⟩
  · exact ⟨nonempty, dotless⟩
  · exact numbered _
  · refine ⟨by simp [nonempty], ?_⟩
    simp only [String.toList_append, List.mem_append, not_or]
    exact ⟨⟨dotless, dot_not_mem_toString _⟩, dot_not_mem_toString _⟩

/-- A text with a number behind it differs from the text, and from that with another number. -/
theorem append_toString_injective {stem : String} {left right : Nat}
    (same : stem ++ toString left = stem ++ toString right) : left = right := by
  -- The common stem is cancelled.
  have texts := congrArg String.toList same
  simp only [String.toList_append] at texts
  exact toString_injective (String.toList_inj.mp (List.append_cancel_left texts))

/-- The numbered candidates all differ. -/
theorem numbered_nodup (stem : String) (count : Nat) :
    (stem :: (List.range count).map fun k => stem ++ toString (k + 1)).Nodup := by
  -- Different numbers have different texts, also behind the same stem.
  rw [List.nodup_cons]
  constructor
  · -- A number is never empty, so the stem alone is none of the others.
    simp
  · refine List.Nodup.map_on ?_ List.nodup_range
    intro left _ right _ same
    exact Nat.add_right_cancel (append_toString_injective same)

/-- The numbered candidates are one more than the aliases in use, so one of them is free. -/
theorem exists_free (site : Site) :
    ∃ name ∈ site.aliasCandidates, name ∉ site.inherited.map AliasFilter.aliasName := by
  -- More different names than are taken cannot all be taken.
  by_contra occupied
  have taken : ∀ name ∈ site.aliasCandidates, name ∈ site.inherited.map AliasFilter.aliasName := by
    intro name candidate
    by_contra free
    exact occupied ⟨name, candidate, free⟩
  -- All the candidates differ, and there is one more of them than aliases in use.
  have once := numbered_nodup (aliasStem site.field ++ toString site.ancestry.length)
    site.inherited.length
  have fits := once.length_le_of_subset fun name member => taken name (by
    unfold aliasCandidates
    exact List.mem_cons_of_mem _ member)
  simp only [List.length_cons, List.length_map, List.length_range] at fits
  omega

/-- The alias of a site is one of its candidates, and no entered element has it. -/
theorem aliasName_spec (site : Site) :
    site.aliasName ∈ site.aliasCandidates ∧
      site.aliasName ∉ site.inherited.map AliasFilter.aliasName := by
  -- The search does not fail, because one of the candidates is free.
  obtain ⟨free, candidate, unused⟩ := exists_free site
  cases found : site.aliasCandidates.find? fun name =>
      !(site.inherited.map AliasFilter.aliasName).contains name with
  -- A search that fails has looked at the free candidate too.
  | none =>
    have tested := List.find?_eq_none.mp found free candidate
    exact absurd (by simpa using unused) tested
  -- What the search finds is a candidate that is not in use.
  | some name =>
    have named : site.aliasName = name := by simp only [aliasName, found, Option.getD_some]
    have untaken := List.find?_some found
    rw [named]
    exact ⟨List.mem_of_find?_eq_some found, by simpa using untaken⟩

/-- The alias of a site holds no dot and is not empty. -/
theorem aliasName_sound (site : Site) :
    site.aliasName ≠ "" ∧ '.' ∉ site.aliasName.toList :=
  aliasCandidates_sound (aliasName_spec site).1

end DocPatch.Site
