import LiveSpec.Proofs.Index.Failures
import LiveSpec.Proofs.Index.Stores

/-!
# Changes in any order

Files that are written or removed, either all specifications or all concept files, and each at a different
path, can be worked off in any order, even if some of them cannot be read or parsed. Apart from the forms in
which signatures are listed the index is the same in the end (`Index.sameButForms_applyAll_of_perm`). The forms do
depend on the order (`Index.exists_listed_otherwise_order`).

A specification is expanded with the dictionary, which no specification changes. A concept file is parsed
by itself, though what has been admitted of it changes with every other concept file. So what a change does
to its store is fixed beforehand (`Change.editSpecifications`, `Change.editConcepts`), and it touches one
location of it only (`PathMap.IsEditAt`). Such edits at different locations can be swapped
(`PathMap.IsEditAt.comm`). With that the two stores are the same in any order, and they determine the rest.
-/

set_option autoImplicit false

namespace LiveSpec

/-! ### Edits of one location -/

namespace PathMap

variable {α : Type}

/-- An edit that concerns one location: it leaves every other one alone, and what it puts there depends only
on what was there. -/
structure IsEditAt (edit : PathMap α → PathMap α) (location : Location) : Prop where
  elsewhere : ∀ map (other : Location), location ≠ other →
    (edit map).entries[other]? = map.entries[other]?
  here : ∀ map other : PathMap α, map.entries[location]? = other.entries[location]? →
    (edit map).entries[location]? = (edit other).entries[location]?

theorem isEditAt_self (location : Location) : IsEditAt (fun map : PathMap α ↦ map) location :=
  ⟨fun _ _ _ ↦ rfl, fun _ _ h ↦ h⟩

theorem isEditAt_set (path : Path) (value : α) :
    IsEditAt (fun map ↦ map.set path value) path.location := by
  constructor
  · intro map other hother
    simp only [set, Std.ExtTreeMap.getElem?_insert, Std.compare_eq_iff_eq, if_neg hother]
  · intro map other hsame
    simp only [set, stored?, Std.ExtTreeMap.getElem?_insert, hsame]

theorem isEditAt_erase (path : Path) : IsEditAt (fun map : PathMap α ↦ map.erase path) path.location := by
  constructor
  · intro map other hother
    simp only [erase, Std.ExtTreeMap.getElem?_erase, Std.compare_eq_iff_eq, if_neg hother]
  · intro map other hsame
    simp only [erase, Std.ExtTreeMap.getElem?_erase, hsame]

/-- Edits at different locations can be swapped. -/
theorem IsEditAt.comm {edit other : PathMap α → PathMap α} {one two : Location} (h : IsEditAt edit one)
    (hother : IsEditAt other two) (hdifferent : one ≠ two) (map : PathMap α) :
    edit (other map) = other (edit map) := by
  refine ext fun location ↦ ?_
  by_cases hone : one = location
  · subst hone
    rw [hother.elsewhere _ _ hdifferent.symm]
    exact h.here _ _ (hother.elsewhere _ _ hdifferent.symm)
  · rw [h.elsewhere _ _ hone]
    by_cases htwo : two = location
    · subst htwo
      exact hother.here _ _ (h.elsewhere _ _ hone).symm
    · rw [hother.elsewhere _ _ htwo, hother.elsewhere _ _ htwo, h.elsewhere _ _ hone]

/-- Assumes: edits at locations that are different for different members of a list. They can be made in any
order. -/
theorem foldl_perm {β : Type} {edit : PathMap α → β → PathMap α} {locationOf : β → Location}
    {changes others : List β} (hperm : changes.Perm others)
    (hedits : ∀ change ∈ changes, IsEditAt (fun map ↦ edit map change) (locationOf change))
    (hdifferent : changes.Pairwise fun change later ↦ locationOf change ≠ locationOf later)
    (map : PathMap α) : changes.foldl edit map = others.foldl edit map := by
  have hsymmetric : Std.Symm fun change later ↦ locationOf change ≠ locationOf later :=
    ⟨fun _ _ h ↦ h.symm⟩
  refine hperm.foldl_eq' (fun one hone two htwo map ↦ ?_) map
  by_cases hsame : two = one
  · rw [hsame]
  · exact (hedits two htwo).comm (hedits one hone) (hdifferent.forall htwo hone hsame) map

end PathMap

/-! ### What a change does to the stores -/

namespace Change

/-- A file of a kind is written or removed. -/
def IsOfKind (kind : SourceKind) : Change → Prop
  | write path => path.sourceKind = kind
  | remove path => path.sourceKind = kind
  | removeTree _ => False

instance (kind : SourceKind) : DecidablePred (IsOfKind kind)
  | write path => inferInstanceAs (Decidable (path.sourceKind = kind))
  | remove path => inferInstanceAs (Decidable (path.sourceKind = kind))
  | removeTree _ => inferInstanceAs (Decidable False)

/-- What a change does to the specifications with a dictionary: nothing, if it fails. -/
def editSpecifications (contents : Contents) (dictionary : Dictionary)
    (map : PathMap (List Specification)) (change : Change) : PathMap (List Specification) :=
  match change.prepare contents dictionary with
  | .ok update => update.onSpecifications map
  | .error _ => map

/-- What a change does to the concepts with a dictionary: nothing, if it fails. -/
def editConcepts (contents : Contents) (dictionary : Dictionary) (map : PathMap (List Concept))
    (change : Change) : PathMap (List Concept) :=
  match change.prepare contents dictionary with
  | .ok update => update.onConcepts map
  | .error _ => map

variable {contents : Contents} {dictionary : Dictionary} {change : Change} {update : Update}

/-- What has been prepared for a change of a specification replaces or removes it. -/
theorem eq_of_prepare_of_specification (hkind : change.IsOfKind .specification)
    (h : change.prepare contents dictionary = .ok update) :
    (∃ spec, update = .replaceSpecification spec ∧ spec.file = change.path) ∨
      update = .removeSpecification change.path := by
  cases change with
  | write path =>
    simp only [prepare, show path.sourceKind = .specification from hkind] at h
    obtain ⟨spec, hspec, rfl⟩ := map_eq_ok_iff.mp h
    exact .inl ⟨spec, rfl, Contents.file_of_expanded hspec⟩
  | remove path =>
    simp only [prepare, show path.sourceKind = .specification from hkind] at h
    cases h
    exact .inr rfl
  | removeTree directory => exact hkind.elim

/-- What has been prepared for a change of a concept file replaces or removes its concepts. -/
theorem eq_of_prepare_of_concepts (hkind : change.IsOfKind .concepts)
    (h : change.prepare contents dictionary = .ok update) :
    (∃ concepts, update = .replaceConcepts change.path concepts) ∨
      update = .removeConcepts change.path := by
  cases change with
  | write path =>
    simp only [prepare, show path.sourceKind = .concepts from hkind] at h
    obtain ⟨concepts, -, rfl⟩ := map_eq_ok_iff.mp h
    exact .inl ⟨concepts, rfl⟩
  | remove path =>
    simp only [prepare, show path.sourceKind = .concepts from hkind] at h
    cases h
    exact .inr rfl
  | removeTree directory => exact hkind.elim

/-- A concept file is parsed without the dictionary. -/
theorem prepare_congr_of_concepts (hkind : change.IsOfKind .concepts) (other : Dictionary) :
    change.prepare contents dictionary = change.prepare contents other := by
  cases change with
  | write path => simp only [prepare, show path.sourceKind = .concepts from hkind]
  | remove path => rfl
  | removeTree directory => exact hkind.elim

/-- A change of a specification edits the specifications at its path. -/
theorem isEditAt_editSpecifications (hkind : change.IsOfKind .specification) :
    PathMap.IsEditAt (fun map ↦ editSpecifications contents dictionary map change)
      change.path.location := by
  unfold editSpecifications
  cases hprepared : change.prepare contents dictionary with
  | error error => exact PathMap.isEditAt_self _
  | ok update =>
    rcases eq_of_prepare_of_specification hkind hprepared with ⟨spec, rfl, hfile⟩ | rfl
    · rw [← hfile]
      exact PathMap.isEditAt_set spec.file [spec]
    · exact PathMap.isEditAt_erase change.path

/-- A change of a concept file edits the concepts at its path. -/
theorem isEditAt_editConcepts (hkind : change.IsOfKind .concepts) :
    PathMap.IsEditAt (fun map ↦ editConcepts contents dictionary map change) change.path.location := by
  unfold editConcepts
  cases hprepared : change.prepare contents dictionary with
  | error error => exact PathMap.isEditAt_self _
  | ok update =>
    rcases eq_of_prepare_of_concepts hkind hprepared with ⟨concepts, rfl⟩ | rfl
    · exact PathMap.isEditAt_set change.path concepts
    · exact PathMap.isEditAt_erase change.path

end Change

/-! ### What a list of changes does to the stores -/

namespace Index

variable {index : Index} {contents : Contents} {change : Change} {changes others : List Change}

theorem specifications_next : (index.next contents change).cache.specifications =
    Change.editSpecifications contents index.dictionary index.cache.specifications change := by
  unfold next apply Change.editSpecifications
  cases change.prepare contents index.dictionary with
  | error error => rfl
  | ok update => exact specifications_commit index update

theorem concepts_next : (index.next contents change).cache.concepts =
    Change.editConcepts contents index.dictionary index.cache.concepts change := by
  unfold next apply Change.editConcepts
  cases change.prepare contents index.dictionary with
  | error error => rfl
  | ok update => exact concepts_commit index update

/-- A change of a specification leaves the concepts alone. -/
theorem sameConcepts_next (index : Index) (contents : Contents) (hkind : change.IsOfKind .specification) :
    (index.next contents change).dictionary = index.dictionary ∧
      (index.next contents change).cache.concepts = index.cache.concepts := by
  unfold next apply
  cases hprepared : change.prepare contents index.dictionary with
  | error error => exact ⟨rfl, rfl⟩
  | ok update =>
    rcases Change.eq_of_prepare_of_specification hkind hprepared with ⟨spec, rfl, -⟩ | rfl
    · exact ⟨rfl, rfl⟩
    · exact ⟨rfl, rfl⟩

/-- A change of a concept file leaves the specifications alone. -/
theorem specifications_next_of_concepts (hkind : change.IsOfKind .concepts) :
    (index.next contents change).cache.specifications = index.cache.specifications := by
  rw [specifications_next, Change.editSpecifications]
  cases hprepared : change.prepare contents index.dictionary with
  | error error => rfl
  | ok update => rcases Change.eq_of_prepare_of_concepts hkind hprepared with ⟨concepts, rfl⟩ | rfl <;> rfl

/-- Changes of specifications edit the specifications one after another and leave the concepts alone. -/
theorem applyAll_of_specifications (index : Index) (contents : Contents)
    (hkinds : ∀ change ∈ changes, change.IsOfKind .specification) :
    (index.applyAll contents changes).cache.concepts = index.cache.concepts ∧
      (index.applyAll contents changes).cache.specifications =
        changes.foldl (Change.editSpecifications contents index.dictionary) index.cache.specifications := by
  induction changes generalizing index with
  | nil => exact ⟨rfl, rfl⟩
  | cons change changes ih =>
    obtain ⟨hdictionary, hsame⟩ := sameConcepts_next index contents (hkinds change List.mem_cons_self)
    obtain ⟨hconcepts, hspecs⟩ := ih (index.next contents change)
      fun later hlater ↦ hkinds later (List.mem_cons_of_mem change hlater)
    rw [hdictionary, specifications_next] at hspecs
    exact ⟨hconcepts.trans hsame, hspecs⟩

/-- Changes of concept files edit the concepts one after another and leave the specifications alone. -/
theorem applyAll_of_concepts (index : Index) (contents : Contents)
    (hkinds : ∀ change ∈ changes, change.IsOfKind .concepts) :
    (index.applyAll contents changes).cache.specifications = index.cache.specifications ∧
      (index.applyAll contents changes).cache.concepts =
        changes.foldl (Change.editConcepts contents index.dictionary) index.cache.concepts := by
  -- The dictionary changes on the way, but the parsing does not depend on it.
  generalize hdictionary : index.dictionary = dictionary
  clear hdictionary
  induction changes generalizing index with
  | nil => exact ⟨rfl, rfl⟩
  | cons change changes ih =>
    have hkind := hkinds change List.mem_cons_self
    obtain ⟨hspecs, hconcepts⟩ := ih (index.next contents change)
      fun later hlater ↦ hkinds later (List.mem_cons_of_mem change hlater)
    refine ⟨hspecs.trans (specifications_next_of_concepts hkind), hconcepts.trans ?_⟩
    rw [List.foldl_cons, concepts_next, Change.editConcepts, Change.editConcepts,
      Change.prepare_congr_of_concepts hkind dictionary]

section Perm

variable (h : index.IsReachable)
  (hdifferent : changes.Pairwise fun change later ↦ change.path.location ≠ later.path.location)
  (hperm : changes.Perm others)

include h hdifferent hperm

theorem applyAll_perm_of_specifications (hkinds : ∀ change ∈ changes, change.IsOfKind .specification) :
    (index.applyAll contents changes).SameButForms (index.applyAll contents others) := by
  obtain ⟨hconcepts, hspecs⟩ := applyAll_of_specifications index contents hkinds
  obtain ⟨hotherConcepts, hotherSpecs⟩ := applyAll_of_specifications index contents
    fun change hchange ↦ hkinds change (hperm.mem_iff.mpr hchange)
  refine (h.applyAll contents changes).sameButForms (h.applyAll contents others) ?_
    (hconcepts.trans hotherConcepts.symm)
  rw [hspecs, hotherSpecs]
  exact PathMap.foldl_perm hperm
    (fun change hchange ↦ Change.isEditAt_editSpecifications (hkinds change hchange)) hdifferent _

theorem applyAll_perm_of_concepts (hkinds : ∀ change ∈ changes, change.IsOfKind .concepts) :
    (index.applyAll contents changes).SameButForms (index.applyAll contents others) := by
  obtain ⟨hspecs, hconcepts⟩ := applyAll_of_concepts index contents hkinds
  obtain ⟨hotherSpecs, hotherConcepts⟩ := applyAll_of_concepts index contents
    fun change hchange ↦ hkinds change (hperm.mem_iff.mpr hchange)
  refine (h.applyAll contents changes).sameButForms (h.applyAll contents others)
    (hspecs.trans hotherSpecs.symm) ?_
  rw [hconcepts, hotherConcepts]
  exact PathMap.foldl_perm hperm
    (fun change hchange ↦ Change.isEditAt_editConcepts (hkinds change hchange)) hdifferent _

end Perm

/-- Assumes: an index that can be reached, and changes that write or remove specifications at different paths,
or that write or remove concept files at different paths. In any order of them the index is the same in the
end, but for the forms in which signatures are listed. -/
theorem sameButForms_applyAll_of_perm (h : index.IsReachable) (contents : Contents)
    (hkinds : (∀ change ∈ changes, change.IsOfKind .specification) ∨
      ∀ change ∈ changes, change.IsOfKind .concepts)
    (hdifferent : changes.Pairwise fun change later ↦ change.path.location ≠ later.path.location)
    (hperm : changes.Perm others) :
    (index.applyAll contents changes).SameButForms (index.applyAll contents others) := by
  rcases hkinds with hspecs | hconcepts
  · exact applyAll_perm_of_specifications h hdifferent hperm hspecs
  · exact applyAll_perm_of_concepts h hdifferent hperm hconcepts

/-- Two concept files define the same concepts, which invoke each other in the second one. -/
def greetContents : Contents := fun path ↦
  if path = ⟨"specs/a.cpt"⟩ then .ok "# Greet <x>\n* Part <x>\n# Part <y>\n* Say <y>\n"
  else if path = ⟨"specs/c.cpt"⟩ then .ok "# Greet <x>\n* Part <x>\n# Part <y>\n* Greet <y>\n"
  else .error .notFound

/-- A concept file is written, one is removed, one is written that defines the same concepts again, and one
cannot be read. In the other order the concepts are on a cycle on the way, until the file comes that is first
in the order of paths. -/
theorem sameButForms_applyAll_greet :
    partIndex.IsReachable ∧
      (partIndex.applyAll greetContents [.write ⟨"specs/a.cpt"⟩, .remove ⟨"specs/b.cpt"⟩,
        .write ⟨"specs/c.cpt"⟩, .write ⟨"specs/d.cpt"⟩]).SameButForms
      (partIndex.applyAll greetContents [.write ⟨"specs/d.cpt"⟩, .write ⟨"specs/c.cpt"⟩,
        .remove ⟨"specs/b.cpt"⟩, .write ⟨"specs/a.cpt"⟩]) ∧
      (partIndex.applyAll greetContents [.write ⟨"specs/a.cpt"⟩, .remove ⟨"specs/b.cpt"⟩,
        .write ⟨"specs/c.cpt"⟩, .write ⟨"specs/d.cpt"⟩]).cache.contributors "Say \x7b\x7d" =
        [⟨"specs/a.cpt"⟩] := by
  have hreachable : partIndex.IsReachable := (IsReachable.start (.new [⟨"specs"⟩])).applyAll _ _
  refine ⟨hreachable, ?_, by decide +kernel⟩
  exact sameButForms_applyAll_of_perm hreachable greetContents (.inr (by decide +kernel))
    (by decide +kernel) (by decide +kernel)

/-- Every file has the same step with its own path as the argument. -/
def ownArguments : Contents := fun path ↦ .ok ("# Own\n* Say \"" ++ path.spelling ++ "\"\n")

/-- The forms of the listing do depend on the order: a signature is listed as the file has it that contributes
it first. -/
theorem exists_listed_otherwise_order :
    ((new []).applyAll ownArguments [.write ⟨"a.spec"⟩, .write ⟨"b.spec"⟩]).cache.steps =
        [⟨"Say \x7b\x7d", "Say <a.spec>", ["a.spec"]⟩] ∧
      ((new []).applyAll ownArguments [.write ⟨"b.spec"⟩, .write ⟨"a.spec"⟩]).cache.steps =
        [⟨"Say \x7b\x7d", "Say <b.spec>", ["b.spec"]⟩] := by
  constructor
  · decide +kernel
  · decide +kernel

end Index

end LiveSpec
