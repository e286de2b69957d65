import LiveSpec.Index.Catalogue
import LiveSpec.Proofs.Path.Map

/-!
# What the catalogue says about a file

The catalogue is read off one question: whether a file contributes a signature
(`Catalogue.Contributes`). Adding the signatures of a file adds them to what it contributes, and
withdrawing a file takes away what it contributes and nothing else (`contributes_insert`,
`contributes_removeFile`), so replacing the signatures of a file settles what it contributes and
leaves the other files alone (`contributes_replaceFile`).

A catalogue that is only changed in these ways stays orderly (`Catalogue.IsOrderly`): every entry
stands under its own signature and has a contributor. Two orderly catalogues that give the same answer
for all files list the same signatures and the same contributors, up to spelling
(`map_value_toList_congr`, `map_location_contributors_congr`).
-/

set_option autoImplicit false

namespace LiveSpec.Catalogue

variable {catalogue first second : Catalogue}

/-- A file contributes a signature: it is one of the files of the entry with that signature. -/
def Contributes (catalogue : Catalogue) (file : Path) (signature : String) : Prop :=
  ∃ entry, catalogue.entries[signature]? = some entry ∧ entry.files.contains file = true

theorem Contributes.congr {file other : Path} {signature : String}
    (h : file.location = other.location) :
    catalogue.Contributes file signature ↔ catalogue.Contributes other signature := by
  unfold Contributes
  simp only [PathMap.contains_congr h]

theorem not_contributes_empty (file : Path) (signature : String) :
    ¬ Catalogue.empty.Contributes file signature := by
  rintro ⟨entry, hentry, -⟩
  change (∅ : Std.ExtTreeMap String CatalogueEntry)[signature]? = some entry at hentry
  rw [Std.ExtTreeMap.getElem?_empty] at hentry
  cases hentry

/-! ### Adding and withdrawing -/

theorem contributes_insertOne {added file : Path} {new : StepSignature} {signature : String} :
    (insertOne added catalogue new).Contributes file signature ↔
      (added.location = file.location ∧ new.value = signature) ∨
        catalogue.Contributes file signature := by
  simp only [Contributes, insertOne, Std.ExtTreeMap.getElem?_insert, Std.compare_eq_iff_eq]
  by_cases hsame : new.value = signature
  · subst hsame
    simp only [if_true, Option.some.injEq, exists_eq_left', PathSet.insert, PathMap.contains_set,
      and_true]
    cases hentry : catalogue.entries[new.value]? with
    | some entry => simp
    | none => simp [PathMap.contains_empty]
  · simp [hsame]

/-- Adding the signatures of a file adds them to what it contributes. -/
theorem contributes_insert {added file : Path} {signatures : List StepSignature}
    {signature : String} :
    (catalogue.insert added signatures).Contributes file signature ↔
      (added.location = file.location ∧ signature ∈ signatures.map StepSignature.value) ∨
        catalogue.Contributes file signature := by
  induction signatures generalizing catalogue with
  | nil => simp [insert]
  | cons new signatures ih =>
    rw [insert, List.foldl_cons]
    refine ih.trans ?_
    rw [contributes_insertOne, List.map_cons, List.mem_cons, eq_comm (a := new.value)]
    tauto

/-- Adds what several files contribute, one after another. -/
def insertAll (catalogue : Catalogue) (contributions : List (Path × List StepSignature)) :
    Catalogue :=
  contributions.foldl (fun catalogue given ↦ catalogue.insert given.1 given.2) catalogue

theorem contributes_insertAll {contributions : List (Path × List StepSignature)} {file : Path}
    {signature : String} :
    (catalogue.insertAll contributions).Contributes file signature ↔
      (∃ given ∈ contributions, given.1.location = file.location ∧
        signature ∈ given.2.map StepSignature.value) ∨ catalogue.Contributes file signature := by
  induction contributions generalizing catalogue with
  | nil => simp [insertAll]
  | cons given contributions ih =>
    refine ih.trans ?_
    rw [contributes_insert]
    simp only [List.mem_cons, exists_eq_or_imp]
    rw [or_left_comm, or_assoc]

theorem withoutFile?_eq_some {removed : Path} {entry left : CatalogueEntry} :
    CatalogueEntry.withoutFile? removed entry = some left ↔
      (PathMap.erase entry.files removed).isEmpty = false ∧
        { entry with files := PathMap.erase entry.files removed } = left := by
  unfold CatalogueEntry.withoutFile?
  cases hempty : (PathMap.erase entry.files removed).isEmpty with
  | true => simp [hempty]
  | false => simp [hempty]

/-- Withdrawing a file takes away what it contributes and nothing else. -/
theorem contributes_removeFile {removed file : Path} {signature : String} :
    (catalogue.removeFile removed).Contributes file signature ↔
      removed.location ≠ file.location ∧ catalogue.Contributes file signature := by
  simp only [Contributes, removeFile, Std.ExtTreeMap.getElem?_filterMap']
  constructor
  · rintro ⟨left, hleft, hfile⟩
    obtain ⟨entry, hentry, hwithout⟩ := Option.bind_eq_some_iff.mp hleft
    obtain ⟨-, rfl⟩ := withoutFile?_eq_some.mp hwithout
    obtain ⟨hother, hfile⟩ := PathMap.contains_erase.mp hfile
    exact ⟨hother, entry, hentry, hfile⟩
  · rintro ⟨hother, entry, hentry, hfile⟩
    have hkept := PathMap.contains_erase.mpr ⟨hother, hfile⟩
    refine ⟨{ entry with files := PathMap.erase entry.files removed }, ?_, hkept⟩
    rw [hentry, Option.bind_some]
    exact withoutFile?_eq_some.mpr ⟨PathMap.isEmpty_eq_false_of_contains hkept, rfl⟩

/-- Replacing the signatures of a file settles what it contributes, and nothing else. -/
theorem contributes_replaceFile {replaced file : Path} {signatures : List StepSignature}
    {signature : String} :
    (catalogue.replaceFile replaced signatures).Contributes file signature ↔
      if replaced.location = file.location then signature ∈ signatures.map StepSignature.value
      else catalogue.Contributes file signature := by
  rw [replaceFile, contributes_insert, contributes_removeFile]
  split <;> tauto

/-! ### Order -/

/-- Every entry stands under its own signature, has a contributor, and spells every contributor as one
of its locations. -/
structure IsOrderly (catalogue : Catalogue) : Prop where
  value_eq : ∀ (signature : String) (entry : CatalogueEntry),
    catalogue.entries[signature]? = some entry → entry.signature.value = signature
  isEmpty_eq : ∀ (signature : String) (entry : CatalogueEntry),
    catalogue.entries[signature]? = some entry → entry.files.isEmpty = false
  isSpelled : ∀ (signature : String) (entry : CatalogueEntry),
    catalogue.entries[signature]? = some entry → entry.files.IsSpelled

theorem isOrderly_empty : Catalogue.empty.IsOrderly := by
  have hnone : ∀ (signature : String) (entry : CatalogueEntry),
      Catalogue.empty.entries[signature]? ≠ some entry := by
    intro signature entry h
    change (∅ : Std.ExtTreeMap String CatalogueEntry)[signature]? = some entry at h
    rw [Std.ExtTreeMap.getElem?_empty] at h
    cases h
  constructor
  · intro signature entry h
    exact absurd h (hnone signature entry)
  · intro signature entry h
    exact absurd h (hnone signature entry)
  · intro signature entry h
    exact absurd h (hnone signature entry)

/-- An entry after a signature was added is an earlier one, or the one of that signature: it has the
file that was added to the files from before. -/
theorem getElem?_insertOne {file : Path} {new : StepSignature} {signature : String}
    {entry : CatalogueEntry}
    (h : (insertOne file catalogue new).entries[signature]? = some entry) :
    catalogue.entries[signature]? = some entry ∨
      new.value = signature ∧ ∃ old : CatalogueEntry,
        (catalogue.entries[signature]? = some old ∨ old = ⟨new, ∅⟩) ∧
          entry = { old with files := old.files.insert file } := by
  simp only [insertOne, Std.ExtTreeMap.getElem?_insert, Std.compare_eq_iff_eq] at h
  split at h
  · rename_i hsame
    subst hsame
    refine Or.inr ⟨rfl, ?_⟩
    obtain rfl := Option.some.inj h
    cases hold : catalogue.entries[new.value]? with
    | some old => exact ⟨old, Or.inl rfl, rfl⟩
    | none => exact ⟨⟨new, ∅⟩, Or.inr rfl, rfl⟩
  · exact Or.inl h

theorem IsOrderly.insertOne (h : catalogue.IsOrderly) (file : Path) (new : StepSignature) :
    (insertOne file catalogue new).IsOrderly := by
  constructor
  · intro signature entry hentry
    obtain hold | ⟨hsame, old, hold | rfl, rfl⟩ := getElem?_insertOne hentry
    · exact h.value_eq signature entry hold
    · exact h.value_eq signature old hold
    · exact hsame
  · intro signature entry hentry
    obtain hold | ⟨-, old, -, rfl⟩ := getElem?_insertOne hentry
    · exact h.isEmpty_eq signature entry hold
    · exact PathMap.isEmpty_eq_false_of_contains (PathMap.contains_set.mpr (Or.inl rfl))
  · intro signature entry hentry
    obtain hold | ⟨-, old, hold | rfl, rfl⟩ := getElem?_insertOne hentry
    · exact h.isSpelled signature entry hold
    · exact PathMap.isSpelled_set (h.isSpelled signature old hold) file ()
    · exact PathMap.isSpelled_set PathMap.isSpelled_empty file ()

theorem IsOrderly.insert (h : catalogue.IsOrderly) (file : Path) (signatures : List StepSignature) :
    (catalogue.insert file signatures).IsOrderly := by
  induction signatures generalizing catalogue with
  | nil => exact h
  | cons new signatures ih => exact ih (h.insertOne file new)

theorem IsOrderly.insertAll (h : catalogue.IsOrderly)
    (contributions : List (Path × List StepSignature)) :
    (catalogue.insertAll contributions).IsOrderly := by
  induction contributions generalizing catalogue with
  | nil => exact h
  | cons given contributions ih => exact ih (h.insert given.1 given.2)

theorem IsOrderly.removeFile (h : catalogue.IsOrderly) (file : Path) :
    (catalogue.removeFile file).IsOrderly := by
  have hold : ∀ (signature : String) (left : CatalogueEntry),
      (catalogue.removeFile file).entries[signature]? = some left →
        ∃ entry, catalogue.entries[signature]? = some entry ∧
          (PathMap.erase entry.files file).isEmpty = false ∧
            { entry with files := PathMap.erase entry.files file } = left := by
    intro signature left hleft
    simp only [Catalogue.removeFile, Std.ExtTreeMap.getElem?_filterMap'] at hleft
    obtain ⟨entry, hentry, hwithout⟩ := Option.bind_eq_some_iff.mp hleft
    exact ⟨entry, hentry, withoutFile?_eq_some.mp hwithout⟩
  constructor
  · intro signature left hleft
    obtain ⟨entry, hentry, -, rfl⟩ := hold signature left hleft
    exact h.value_eq signature entry hentry
  · intro signature left hleft
    obtain ⟨entry, -, hkept, rfl⟩ := hold signature left hleft
    exact hkept
  · intro signature left hleft
    obtain ⟨entry, hentry, -, rfl⟩ := hold signature left hleft
    exact PathMap.isSpelled_erase (h.isSpelled signature entry hentry) file

theorem IsOrderly.replaceFile (h : catalogue.IsOrderly) (file : Path)
    (signatures : List StepSignature) : (catalogue.replaceFile file signatures).IsOrderly :=
  (h.removeFile file).insert file signatures

/-! ### Listings -/

/-- Assumes: an orderly catalogue. A file is listed among the contributors of a signature, in some
spelling, exactly when it contributes it. -/
theorem IsOrderly.exists_mem_contributors_iff (h : catalogue.IsOrderly) {file : Path} {signature : String} :
    (∃ contributor ∈ catalogue.contributors signature, contributor.location = file.location) ↔
      catalogue.Contributes file signature := by
  unfold contributors Contributes
  cases hentry : catalogue.entries[signature]? with
  | none => simp
  | some entry =>
    simp only [Option.some.injEq, exists_eq_left']
    exact PathMap.exists_mem_paths_iff (h.isSpelled signature entry hentry)

/-- Assumes: an orderly catalogue. Every entry has a contributor. -/
theorem IsOrderly.contributors_ne_nil (h : catalogue.IsOrderly) {signature : String} {entry : CatalogueEntry}
    (hentry : catalogue.entries[signature]? = some entry) :
    catalogue.contributors signature ≠ [] := by
  obtain ⟨path, hpath⟩ :=
    PathMap.exists_mem_paths_of_isEmpty_eq_false (h.isEmpty_eq signature entry hentry)
  unfold contributors
  rw [hentry]
  exact List.ne_nil_of_mem hpath

/-- A signature is listed exactly when a file contributes it. -/
theorem IsOrderly.exists_contributes_iff (h : catalogue.IsOrderly) {signature : String} :
    (∃ file, catalogue.Contributes file signature) ↔
      (catalogue.entries[signature]?).isSome = true := by
  constructor
  · rintro ⟨file, entry, hentry, -⟩
    rw [hentry]
    rfl
  · intro hlisted
    obtain ⟨entry, hentry⟩ := Option.isSome_iff_exists.mp hlisted
    obtain ⟨path, hpath⟩ :=
      PathMap.exists_mem_paths_of_isEmpty_eq_false (h.isEmpty_eq signature entry hentry)
    exact ⟨path, entry, hentry, PathMap.contains_of_mem_paths (h.isSpelled signature entry hentry) hpath⟩

theorem values_eq_map_toList {α : Type} (entries : Std.ExtTreeMap String α) :
    entries.values = entries.toList.map Prod.snd := by
  have hfold : entries.values = entries.foldr (fun _ value values ↦ value :: values) [] := by
    obtain ⟨⟨inner⟩⟩ := entries
    induction inner using Quotient.ind with
    | _ inner => rfl
  rw [hfold, Std.ExtTreeMap.foldr_eq_foldr_toList]
  induction entries.toList with
  | nil => rfl
  | cons pair pairs ih => rw [List.foldr_cons, ih, List.map_cons]

/-- Assumes: an orderly catalogue. It lists its entries by their signatures. -/
theorem IsOrderly.map_value_toList (h : catalogue.IsOrderly) :
    catalogue.toList.map StepSignature.value = catalogue.entries.keys := by
  rw [toList, values_eq_map_toList, List.map_map, List.map_map,
    ← Std.ExtTreeMap.map_fst_toList_eq_keys]
  refine List.map_congr_left fun pair hpair ↦ ?_
  exact h.value_eq pair.1 pair.2 (Std.ExtTreeMap.mem_toList_iff_getElem?_eq_some.mp hpair)

section Congr

variable (hfirst : first.IsOrderly) (hsecond : second.IsOrderly)
  (h : ∀ file signature, first.Contributes file signature ↔ second.Contributes file signature)

include hfirst hsecond h

theorem isSome_getElem?_congr (signature : String) :
    (first.entries[signature]?).isSome = (second.entries[signature]?).isSome := by
  rw [Bool.eq_iff_iff, ← hfirst.exists_contributes_iff, ← hsecond.exists_contributes_iff]
  exact exists_congr fun file ↦ h file signature

/-- Assumes: two orderly catalogues to which the same files contribute the same signatures. They list the
same signatures. -/
theorem map_value_toList_congr :
    first.toList.map StepSignature.value = second.toList.map StepSignature.value := by
  have hlisted : first.entries.map (fun _ _ ↦ ()) = second.entries.map fun _ _ ↦ () := by
    refine Std.ExtTreeMap.ext_getElem? fun signature ↦ ?_
    have hsome := isSome_getElem?_congr hfirst hsecond h signature
    rw [Std.ExtTreeMap.getElem?_map, Std.ExtTreeMap.getElem?_map]
    cases hone : first.entries[signature]? with
    | none =>
      rw [hone] at hsome
      rw [Option.isNone_iff_eq_none.mp (Option.isSome_eq_false_iff.mp hsome.symm)]
    | some entry =>
      rw [hone] at hsome
      obtain ⟨other, hother⟩ := Option.isSome_iff_exists.mp hsome.symm
      rw [hother]
      rfl
  rw [hfirst.map_value_toList, hsecond.map_value_toList, ← Std.ExtTreeMap.keys_map, hlisted,
    Std.ExtTreeMap.keys_map]

/-- Assumes: two orderly catalogues to which the same files contribute the same signatures. They list the
same contributors, in spellings of their own. -/
theorem map_location_contributors_congr (signature : String) :
    (first.contributors signature).map Path.location =
      (second.contributors signature).map Path.location := by
  have hsome := isSome_getElem?_congr hfirst hsecond h signature
  have hcontributes := fun path ↦ h path signature
  unfold Contributes at hcontributes
  unfold contributors
  cases hone : first.entries[signature]? with
  | none =>
    rw [hone] at hsome
    rw [Option.isNone_iff_eq_none.mp (Option.isSome_eq_false_iff.mp hsome.symm)]
  | some entry =>
    rw [hone] at hsome hcontributes
    obtain ⟨other, hother⟩ := Option.isSome_iff_exists.mp hsome.symm
    rw [hother] at hcontributes
    simp only [Option.some.injEq, exists_eq_left'] at hcontributes
    rw [hother]
    exact PathMap.map_location_paths_congr (hfirst.isSpelled signature entry hone)
      (hsecond.isSpelled signature other hother)
      (PathSet.find?_eq_of_contains_iff hcontributes)

end Congr

end LiveSpec.Catalogue
