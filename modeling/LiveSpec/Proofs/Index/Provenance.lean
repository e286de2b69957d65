import LiveSpec.Proofs.Index.Forms

/-!
# The catalogue as a record of its past

Whatever was done to a catalogue came down to two kinds of events: a file added a form of a signature, or a
file was withdrawn (`Catalogue.Event`). Replacing a file is a withdrawal followed by additions. A catalogue
that started empty can be read off these events (`Catalogue.recalls_performAll`): a file contributes a signature
when it has added it since it was last withdrawn (`Catalogue.HasAdded`), and the form in which a signature is
listed is the first one added since no file contributed it.

One event changes the contributors and the form in a way that only depends on those before it, so the statement
is kept event by event (`Catalogue.Follows.record`).
-/

set_option autoImplicit false

namespace LiveSpec.Catalogue

/-! ### The past of a catalogue -/

/-- What is done to a catalogue. -/
inductive Operation where
  | insert (file : Path) (forms : List StepSignature)
  | removeFile (file : Path)
  | replaceFile (file : Path) (forms : List StepSignature)

/-- The catalogue after an operation. -/
def perform (catalogue : Catalogue) : Operation → Catalogue
  | .insert file forms => catalogue.insert file forms
  | .removeFile file => catalogue.removeFile file
  | .replaceFile file forms => catalogue.replaceFile file forms

/-- What happens to one file. -/
inductive Event where
  /-- The file adds a form of a signature. -/
  | added (file : Path) (form : StepSignature)
  /-- Everything that the file has added is withdrawn. -/
  | withdrawn (file : Path)

/-- The events that an operation comes down to. -/
def Operation.events : Operation → List Event
  | insert file forms => forms.map (.added file)
  | removeFile file => [.withdrawn file]
  | replaceFile file forms => .withdrawn file :: forms.map (.added file)

/-- The catalogue after an event. -/
def record (catalogue : Catalogue) : Event → Catalogue
  | .added file form => insertOne file catalogue form
  | .withdrawn file => catalogue.removeFile file

/-- A file has added a signature and has not been withdrawn since. -/
def HasAdded (events : List Event) (file : Path) (signature : String) : Prop :=
  ∃ (earlier : List Event) (adding : Path) (form : StepSignature) (later : List Event),
    events = earlier ++ .added adding form :: later ∧ adding.location = file.location ∧
      form.value = signature ∧
        ∀ removed, .withdrawn removed ∈ later → removed.location ≠ file.location

/-- The forms that were added, in order. -/
def formsAdded (events : List Event) : List StepSignature :=
  events.filterMap fun event ↦
    match event with
    | .added _ form => some form
    | .withdrawn _ => none

/-- The last events, since no file contributed a signature: none did before them, and some file has done so ever
since the first of them. -/
def IsListedSince (events since : List Event) (signature : String) : Prop :=
  ∃ earlier, events = earlier ++ since ∧ (∀ file, ¬ HasAdded earlier file signature) ∧
    ∀ more, more <+: since → more ≠ [] → ∃ file, HasAdded (earlier ++ more) file signature

/-- A catalogue is what its past has made of it. -/
structure Recalls (catalogue : Catalogue) (events : List Event) : Prop where
  /-- The contributors of a signature are in order, each location once. -/
  inOrder_contributors : ∀ signature, Path.AreInOrder (catalogue.contributors signature)
  /-- They are the files that have added the signature since they were last withdrawn. -/
  mem_contributors_iff : ∀ (file : Path) (signature : String),
    (∃ contributor ∈ catalogue.contributors signature, contributor.location = file.location) ↔
      HasAdded events file signature
  /-- A signature is listed exactly when it has a contributor. -/
  listed_iff : ∀ signature, signature ∈ catalogue.toList.map StepSignature.value ↔
    catalogue.contributors signature ≠ []
  /-- The listing is in the order of the signatures, each of them once. -/
  inOrder_toList : (catalogue.toList.map StepSignature.value).Pairwise (· < ·)
  length_toList : catalogue.toList.length = catalogue.size
  /-- Every form stands under its own signature. -/
  value_eq : ∀ (signature : String) (form : StepSignature),
    catalogue.form? signature = some form → form.value = signature
  /-- A signature is listed in the form that was added first since it had no contributor. -/
  form?_eq : ∀ signature, ∃ since, IsListedSince events since signature ∧
    catalogue.form? signature = firstForm? (formsAdded since) signature

/-! ### One more event -/

section OneMore

variable {catalogue : Catalogue} {events : List Event} {event : Event} {file other : Path}
  {form : StepSignature} {signature : String}

theorem not_hasAdded_nil (file : Path) (signature : String) : ¬ HasAdded [] file signature := by
  rintro ⟨earlier, adding, form, later, hsplit, -⟩
  simp at hsplit

/-- A file has added a signature when it did so just now, or when it had and is not withdrawn just now. -/
theorem hasAdded_concat : HasAdded (events ++ [event]) file signature ↔
    (∃ adding form, event = .added adding form ∧ adding.location = file.location ∧
      form.value = signature) ∨
    (HasAdded events file signature ∧
      ∀ removed, event = .withdrawn removed → removed.location ≠ file.location) := by
  constructor
  · rintro ⟨earlier, adding, form, later, hsplit, hfile, hvalue, hkept⟩
    rcases List.eq_nil_or_concat later with rfl | ⟨later, last, rfl⟩
    · obtain ⟨-, hlast⟩ := List.append_inj' hsplit rfl
      exact .inl ⟨adding, form, List.head_eq_of_cons_eq hlast, hfile, hvalue⟩
    · rw [List.concat_eq_append, ← List.cons_append, ← List.append_assoc] at hsplit
      obtain ⟨rfl, hlast⟩ := List.append_inj' hsplit rfl
      obtain rfl := List.head_eq_of_cons_eq hlast
      refine .inr ⟨⟨earlier, adding, form, later, rfl, hfile, hvalue, ?_⟩, ?_⟩
      · exact fun removed hremoved ↦ hkept removed (by simp [hremoved])
      · exact fun removed hremoved ↦ hkept removed (by simp [hremoved])
  · rintro (⟨adding, form, rfl, hfile, hvalue⟩ | ⟨hbefore, hnow⟩)
    · exact ⟨events, adding, form, [], rfl, hfile, hvalue, by simp⟩
    · obtain ⟨earlier, adding, form, later, rfl, hfile, hvalue, hkept⟩ := hbefore
      refine ⟨earlier, adding, form, later ++ [event], by simp, hfile, hvalue, ?_⟩
      intro removed hremoved
      rcases List.mem_append.mp hremoved with hlater | hlast
      · exact hkept removed hlater
      · exact hnow removed (List.mem_singleton.mp hlast).symm

/-- What an event does to the contributions is what it adds to the past. -/
theorem contributes_record
    (h : ∀ other, catalogue.Contributes other signature ↔ HasAdded events other signature) :
    (catalogue.record event).Contributes file signature ↔
      HasAdded (events ++ [event]) file signature := by
  rw [hasAdded_concat, ← h file]
  cases event with
  | added adding form =>
    refine contributes_insertOne.trans ?_
    simp
  | withdrawn removed =>
    refine contributes_removeFile.trans ?_
    simp [and_comm]

theorem formsAdded_append (events more : List Event) :
    formsAdded (events ++ more) = formsAdded events ++ formsAdded more :=
  List.filterMap_append

/-- Assumes: a file contributes a signature after an event. A form that was listed before is kept, and otherwise
the form that the event adds is listed. -/
theorem form?_record (h : (catalogue.record event).Contributes file signature) :
    (catalogue.record event).form? signature =
      (catalogue.form? signature).or (firstForm? (formsAdded [event]) signature) := by
  cases event with
  | added adding form => exact form?_insertOne
  | withdrawn removed => exact (form?_removeFile_of_contributes h).trans Option.or_none.symm

theorem IsOrderly.record (h : catalogue.IsOrderly) (event : Event) :
    (catalogue.record event).IsOrderly := by
  cases event with
  | added adding form => exact h.insertOne adding form
  | withdrawn removed => exact h.removeFile removed

/-- Assumes: a signature that has had a contributor since some events, and still has one after one more. It has
had one since the same events. -/
theorem IsListedSince.concat {since : List Event} (h : IsListedSince events since signature)
    (hlisted : ∃ file, HasAdded (events ++ [event]) file signature) :
    IsListedSince (events ++ [event]) (since ++ [event]) signature := by
  obtain ⟨earlier, rfl, hnone, hsome⟩ := h
  refine ⟨earlier, List.append_assoc .., hnone, fun more hmore hne ↦ ?_⟩
  rcases List.prefix_concat_iff.mp hmore with rfl | hmore
  · rwa [← List.append_assoc]
  · exact hsome more hmore hne

/-- A signature that has no contributor is listed since no event at all. -/
theorem isListedSince_nil (h : ∀ file, ¬ HasAdded events file signature) :
    IsListedSince events [] signature := by
  refine ⟨events, (List.append_nil events).symm, h, fun more hmore hne ↦ ?_⟩
  exact absurd (List.prefix_nil.mp hmore) hne

end OneMore

/-! ### The whole past -/

/-- What is kept event by event: an orderly catalogue that tells from its entries who has added what, and lists
every signature in the form that was added first. -/
structure Follows (catalogue : Catalogue) (events : List Event) : Prop where
  isOrderly : catalogue.IsOrderly
  contributes_iff : ∀ (file : Path) (signature : String),
    catalogue.Contributes file signature ↔ HasAdded events file signature
  form?_eq : ∀ signature, ∃ since, IsListedSince events since signature ∧
    catalogue.form? signature = firstForm? (formsAdded since) signature

theorem follows_empty : Catalogue.empty.Follows [] := by
  refine ⟨isOrderly_empty, fun file signature ↦ ?_, fun signature ↦ ?_⟩
  · exact iff_of_false (not_contributes_empty file signature) (not_hasAdded_nil file signature)
  · refine ⟨[], isListedSince_nil fun file ↦ not_hasAdded_nil file signature, ?_⟩
    exact isOrderly_empty.form?_eq_none fun file ↦ not_contributes_empty file signature

theorem Follows.record {catalogue : Catalogue} {events : List Event} (h : catalogue.Follows events)
    (event : Event) : (catalogue.record event).Follows (events ++ [event]) := by
  have horderly := h.isOrderly.record event
  have hcontributes : ∀ (file : Path) (signature : String),
      (catalogue.record event).Contributes file signature ↔
        HasAdded (events ++ [event]) file signature :=
    fun file signature ↦ contributes_record fun other ↦ h.contributes_iff other signature
  refine ⟨horderly, hcontributes, fun signature ↦ ?_⟩
  by_cases hnow : ∃ file, HasAdded (events ++ [event]) file signature
  · obtain ⟨file, hfile⟩ := hnow
    have hform := form?_record ((hcontributes file signature).mpr hfile)
    by_cases hbefore : ∃ file, HasAdded events file signature
    · obtain ⟨since, hsince, hold⟩ := h.form?_eq signature
      refine ⟨since ++ [event], hsince.concat ⟨file, hfile⟩, ?_⟩
      rw [hform, hold, formsAdded_append, firstForm?_append]
    -- The event is the first one since the signature had no contributor.
    · rw [not_exists] at hbefore
      have hnone : catalogue.form? signature = none :=
        h.isOrderly.form?_eq_none fun file ↦ (h.contributes_iff file signature).not.mpr (hbefore file)
      refine ⟨[event], (isListedSince_nil hbefore).concat ⟨file, hfile⟩, ?_⟩
      rw [hform, hnone, Option.none_or]
  · rw [not_exists] at hnow
    refine ⟨[], isListedSince_nil hnow, ?_⟩
    exact horderly.form?_eq_none fun file ↦ (hcontributes file signature).not.mpr (hnow file)

theorem Follows.recordAll {catalogue : Catalogue} {events : List Event} (h : catalogue.Follows events)
    (more : List Event) : (more.foldl Catalogue.record catalogue).Follows (events ++ more) := by
  induction more generalizing catalogue events with
  | nil => simpa using h
  | cons event more ih => simpa using ih (h.record event)

/-- A catalogue that follows its past can be read off it. -/
theorem Follows.recalls {catalogue : Catalogue} {events : List Event} (h : catalogue.Follows events) :
    catalogue.Recalls events := by
  have horderly := h.isOrderly
  constructor
  · intro signature
    unfold contributors
    cases hentry : catalogue.entries[signature]? with
    | none => exact List.Pairwise.nil
    | some entry => exact PathMap.areInOrder_paths (horderly.isSpelled signature entry hentry)
  · intro file signature
    rw [horderly.exists_mem_contributors_iff, h.contributes_iff]
  · intro signature
    rw [horderly.map_value_toList, Std.ExtTreeMap.mem_keys, Std.ExtTreeMap.mem_iff_isSome_getElem?,
      Option.isSome_iff_exists]
    constructor
    · rintro ⟨entry, hentry⟩
      exact horderly.contributors_ne_nil hentry
    · intro hne
      unfold contributors at hne
      split at hne
      · exact ⟨_, ‹_›⟩
      · exact absurd rfl hne
  · rw [horderly.map_value_toList]
    have hordered : catalogue.entries.keys.Pairwise fun one other ↦ compare one other = .lt :=
      Std.ExtTreeMap.ordered_keys
    refine hordered.imp fun {one other} hless ↦ ?_
    exact compareOfLessAndEq_eq_lt.mp hless
  · rw [toList, values_eq_map_toList, List.length_map, List.length_map, Std.ExtTreeMap.length_toList]
    rfl
  · intro signature form hform
    obtain ⟨entry, hentry, rfl⟩ := Option.map_eq_some_iff.mp hform
    exact horderly.value_eq signature entry hentry
  · exact h.form?_eq

theorem perform_eq (catalogue : Catalogue) (operation : Operation) :
    catalogue.perform operation = operation.events.foldl record catalogue := by
  cases operation with
  | insert file forms =>
    rw [Operation.events, List.foldl_map]
    rfl
  | removeFile file => rfl
  | replaceFile file forms =>
    rw [Operation.events, List.foldl_cons, List.foldl_map]
    rfl

/-- Any operations make of the empty catalogue what can be read off their events. -/
theorem recalls_performAll (operations : List Operation) :
    (operations.foldl perform Catalogue.empty).Recalls (operations.flatMap Operation.events) := by
  have hfold : operations.foldl perform Catalogue.empty =
      (operations.flatMap Operation.events).foldl record Catalogue.empty := by
    rw [List.foldl_flatMap]
    exact congrFun (congrFun (congrArg List.foldl (funext₂ perform_eq)) _) _
  rw [hfold]
  exact (follows_empty.recordAll _).recalls

end LiveSpec.Catalogue
