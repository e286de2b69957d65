import LiveSpec.Proofs.Index.Provenance

/-!
# Where a listed form comes from

A signature is listed in a form that some file has added. It did so while no file contributed the signature,
and since then there has always been one that does (`Catalogue.Follows.exists_writer`). As long as this file is
not withdrawn it contributes the signature, in the listed form among others. When it is withdrawn the form
stays listed if another file contributes the signature by then. So a form that no contributor has added is left
over from a file that was withdrawn while it shared the signature with another
(`Catalogue.comesFromWriter_of_mem_performAll`).
-/

set_option autoImplicit false

namespace LiveSpec.Catalogue

variable {catalogue : Catalogue} {events : List Event} {file other : Path} {form : StepSignature}
  {signature : String}

/-- A file has added a form and has not been withdrawn since. -/
def HasGiven (events : List Event) (file : Path) (form : StepSignature) : Prop :=
  ∃ (earlier : List Event) (adding : Path) (later : List Event),
    events = earlier ++ .added adding form :: later ∧ adding.location = file.location ∧
      ∀ removed, .withdrawn removed ∈ later → removed.location ≠ file.location

theorem HasGiven.hasAdded (h : HasGiven events file form) : HasAdded events file form.value := by
  obtain ⟨earlier, adding, later, hsplit, hfile, hkept⟩ := h
  exact ⟨earlier, adding, form, later, hsplit, hfile, rfl, hkept⟩

theorem HasGiven.congr (h : HasGiven events file form) (hsame : file.location = other.location) :
    HasGiven events other form := by
  obtain ⟨earlier, adding, later, hsplit, hfile, hkept⟩ := h
  rw [hsame] at hfile hkept
  exact ⟨earlier, adding, later, hsplit, hfile, hkept⟩

/-- A file has added a form while no file contributed its signature, and there has been a contributor ever
since. -/
structure IsFirstWriter (earlier : List Event) (writer : Path) (form : StepSignature)
    (later : List Event) : Prop where
  not_hasAdded : ∀ file, ¬ HasAdded earlier file form.value
  hasAdded : ∀ more, more <+: later →
    ∃ file, HasAdded (earlier ++ .added writer form :: more) file form.value

/-- A form that is listed has been added by a first writer. -/
theorem Follows.exists_writer (h : catalogue.Follows events) (hlisted : form ∈ catalogue.toList) :
    ∃ earlier writer later, events = earlier ++ .added writer form :: later ∧
      IsFirstWriter earlier writer form later := by
  have hform := h.isOrderly.mem_toList_iff.mp hlisted
  obtain ⟨since, ⟨earlier, rfl, hnone, hsome⟩, hfirst⟩ := h.form?_eq form.value
  rw [hform] at hfirst
  cases since with
  | nil => cases hfirst
  | cons event later =>
    -- The first event behind `earlier` is the one that made the signature listed.
    obtain ⟨file, hfile⟩ := hsome [event] (by simp) (by simp)
    obtain ⟨writer, added, rfl, -, hadded⟩ | ⟨hbefore, -⟩ := hasAdded_concat.mp hfile
    · have hadding : firstForm? (formsAdded (.added writer added :: later)) form.value = some added := by
        simp [formsAdded, firstForm?, hadded]
      obtain rfl := Option.some.inj (hfirst.trans hadding)
      refine ⟨earlier, writer, later, rfl, hnone, fun more hmore ↦ ?_⟩
      exact hsome _ (List.cons_prefix_cons.mpr ⟨rfl, hmore⟩) (by simp)
    · exact absurd hbefore (hnone file)

/-- The first writer has not been withdrawn, or another file contributed the signature when it was. -/
theorem IsFirstWriter.hasGiven_or {earlier later : List Event} {writer : Path}
    (h : IsFirstWriter earlier writer form later) :
    HasGiven (earlier ++ .added writer form :: later) writer form ∨
      ∃ before removed after other, later = before ++ .withdrawn removed :: after ∧
        removed.location = writer.location ∧ other.location ≠ writer.location ∧
          HasAdded (earlier ++ .added writer form :: before) other form.value := by
  by_cases hkept : ∀ removed, .withdrawn removed ∈ later → removed.location ≠ writer.location
  · exact .inl ⟨earlier, writer, later, rfl, rfl, hkept⟩
  · push Not at hkept
    obtain ⟨removed, hremoved, hsame⟩ := hkept
    obtain ⟨before, after, rfl⟩ := List.append_of_mem hremoved
    have hstarts : before ++ [.withdrawn removed] <+: before ++ .withdrawn removed :: after := by simp
    obtain ⟨other, hother⟩ := h.hasAdded _ hstarts
    rw [← List.cons_append, ← List.append_assoc] at hother
    obtain ⟨_, _, hevent, -⟩ | ⟨hadded, hdifferent⟩ := hasAdded_concat.mp hother
    · cases hevent
    · have hne := hdifferent removed rfl
      rw [hsame] at hne
      exact .inr ⟨before, removed, after, other, rfl, hsame, hne.symm, hadded⟩

/-- A file that has given a form is listed among the contributors of its signature, in some spelling. -/
theorem Follows.exists_contributor (h : catalogue.Follows events) (hgiven : HasGiven events file form) :
    ∃ contributor ∈ catalogue.contributors form.value, HasGiven events contributor form := by
  have hcontributes := (h.contributes_iff file form.value).mpr hgiven.hasAdded
  obtain ⟨contributor, hlisted, hsame⟩ := h.isOrderly.exists_mem_contributors_iff.mpr hcontributes
  exact ⟨contributor, hlisted, hgiven.congr hsame.symm⟩

/-- Operations come down to their events. -/
theorem foldl_perform (catalogue : Catalogue) (operations : List Operation) :
    operations.foldl perform catalogue = (operations.flatMap Operation.events).foldl record catalogue := by
  induction operations generalizing catalogue with
  | nil => rfl
  | cons operation operations ih =>
    rw [List.foldl_cons, ih, perform_eq, List.flatMap_cons, List.foldl_append]

/-- Assumes: a form that is listed after any operations on the empty catalogue. Some file has added it while no
file contributed its signature, and there has been a contributor ever since. A file that contributes the signature
now has given the form, too, unless the file that added it has been withdrawn since while another file contributed
the signature. -/
theorem comesFromWriter_of_mem_performAll (operations : List Operation) {form : StepSignature}
    (hlisted : form ∈ (operations.foldl perform Catalogue.empty).toList) :
    ∃ earlier writer later,
      operations.flatMap Operation.events = earlier ++ .added writer form :: later ∧
      (∀ file, ¬ HasAdded earlier file form.value) ∧
      (∀ more, more <+: later →
        ∃ file, HasAdded (earlier ++ .added writer form :: more) file form.value) ∧
      ((∃ contributor ∈ (operations.foldl perform Catalogue.empty).contributors form.value,
          HasGiven (operations.flatMap Operation.events) contributor form) ∨
        ∃ before removed after other, later = before ++ .withdrawn removed :: after ∧
          removed.location = writer.location ∧ other.location ≠ writer.location ∧
            HasAdded (earlier ++ .added writer form :: before) other form.value) := by
  have hfollows : (operations.foldl perform Catalogue.empty).Follows
      (operations.flatMap Operation.events) := by
    rw [foldl_perform]
    exact follows_empty.recordAll _
  obtain ⟨earlier, writer, later, hevents, hfirst⟩ := hfollows.exists_writer hlisted
  have hgiven := hfirst.hasGiven_or
  rw [← hevents] at hgiven
  exact ⟨earlier, writer, later, hevents, hfirst.not_hasAdded, hfirst.hasAdded,
    hgiven.imp_left hfollows.exists_contributor⟩

/-- A signature that two files share, each with an argument of its own. -/
def sharedOperations : List Operation :=
  [.insert ⟨"a.spec"⟩ [⟨"Say \x7b\x7d", "Say <old>", ["old"]⟩],
    .insert ⟨"b.spec"⟩ [⟨"Say \x7b\x7d", "Say <new>", ["new"]⟩]]

/-- The form of the first file is listed, and a contributor has given it. -/
theorem comesFromWriter_of_mem_performAll_say :
    (⟨"Say \x7b\x7d", "Say <old>", ["old"]⟩ : StepSignature) ∈
        (sharedOperations.foldl perform Catalogue.empty).toList ∧
      ∃ contributor ∈ (sharedOperations.foldl perform Catalogue.empty).contributors "Say \x7b\x7d",
        HasGiven (sharedOperations.flatMap Operation.events) contributor
          ⟨"Say \x7b\x7d", "Say <old>", ["old"]⟩ := by
  have hlisted : (⟨"Say \x7b\x7d", "Say <old>", ["old"]⟩ : StepSignature) ∈
      (sharedOperations.foldl perform Catalogue.empty).toList := by decide +kernel
  obtain ⟨earlier, writer, later, hevents, -, -, hgiven | hwithdrawn⟩ :=
    comesFromWriter_of_mem_performAll sharedOperations hlisted
  · exact ⟨hlisted, hgiven⟩
  · obtain ⟨before, removed, after, -, rfl, -⟩ := hwithdrawn
    have hremoved : .withdrawn removed ∈ sharedOperations.flatMap Operation.events := by
      rw [hevents]
      simp
    simp [sharedOperations, Operation.events] at hremoved

/-- When the first file is removed its form is still listed, although the only contributor that is left has given
another one. -/
theorem exists_form_without_contributor_say :
    let operations := sharedOperations ++ [.removeFile ⟨"a.spec"⟩]
    let catalogue := operations.foldl perform Catalogue.empty
    catalogue.toList = [⟨"Say \x7b\x7d", "Say <old>", ["old"]⟩] ∧
      catalogue.contributors "Say \x7b\x7d" = [⟨"b.spec"⟩] ∧
      ¬ ∃ contributor ∈ catalogue.contributors "Say \x7b\x7d",
        HasGiven (operations.flatMap Operation.events) contributor
          ⟨"Say \x7b\x7d", "Say <old>", ["old"]⟩ := by
  intro operations catalogue
  have hcontributors : catalogue.contributors "Say \x7b\x7d" = [⟨"b.spec"⟩] := by decide +kernel
  refine ⟨by decide +kernel, hcontributors, ?_⟩
  rintro ⟨contributor, hcontributor, earlier, adding, later, hsplit, hsame, -⟩
  rw [hcontributors, List.mem_singleton] at hcontributor
  have hadding : Event.added adding ⟨"Say \x7b\x7d", "Say <old>", ["old"]⟩ ∈
      operations.flatMap Operation.events := by
    rw [hsplit]
    simp
  obtain rfl : adding = ⟨"a.spec"⟩ := by
    simpa [operations, sharedOperations, Operation.events] using hadding
  rw [hcontributor] at hsame
  revert hsame
  decide +kernel

end LiveSpec.Catalogue
